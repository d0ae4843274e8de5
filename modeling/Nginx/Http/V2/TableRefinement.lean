/-
  Http/V2/TableRefinement.lean --- the HPACK dynamic table against RFC 7541.

  The reference table is the one of RFC 7541, sections 2.3 and 4: a first-in
  first-out list with a size limit that starts at 4096.  From its first
  insertion on the program's table is such a table.  Before it, a size update
  only sets the `size` and `free` members, and the first insertion sets both
  again: the program forgets the update.  Hence the two agree on every run in
  which the size updates before the first insertion, if any, leave the limit
  at its initial value, and after no other first insertion do they agree on
  every continuation.
-/
import Nginx.Http.V2.TableInvariant

set_option autoImplicit false

namespace Nginx.Http.V2

open List Foundation Option
open Nginx.Core (Rc)

/-! ## The reference table -/

/-- The dynamic table of a new connection. -/
def Table.initial : Table := ⟨ngxHttpV2TableSize, []⟩

/-- An insertion, or a size update; an update beyond the bound is an error and
changes nothing. -/
def Table.apply (t : Table) : TableOp → Table
  | .addHeader header => { t with entries := Fifo.insert Header.cost t.maxSize t.entries header }
  | .tableSize size =>
      if size ≤ ngxHttpV2TableSize then ⟨size, Fifo.evict Header.cost size t.entries⟩ else t

/-- The reference table after a sequence of calls. -/
def Table.run (t : Table) (ops : List TableOp) : Table := ops.foldl Table.apply t

theorem Table.run_append (t : Table) (ops₁ ops₂ : List TableOp) :
    t.run (ops₁ ++ ops₂) = (t.run ops₁).run ops₂ :=
  foldl_append

/-- The header at an index: the static table first, then the dynamic table,
newest entry first. -/
def Table.get (t : Table) (index : Nat) : Option Header :=
  if index = 0 then none
  else match staticTable[index - 1]? with
    | some entry => some entry
    | none => t.entries.reverse[index - 1 - staticTableEntries]?

/-- A lookup that returns what the reference table has at the index. -/
def LookupIs (header : Header) (nameOnly : Bool) (rc : Rc) : Option Header → Prop
  | some e => rc = .ok ∧ header.name = e.name ∧ (nameOnly = false → header.value = e.value)
  | none => rc = .error

/-- The lookups at `index` in a connection's table are those of `t`. -/
def LooksUp (h : Hpack) (t : Table) (index : Nat) : Prop :=
  ∀ header nameOnly, ∃ rc header', getIndexedHeader h header index nameOnly =
    some (rc, header') ∧ LookupIs header' nameOnly rc (t.get index)

/-- On a connection whose table starts zeroed, the sequence of calls goes
through and a lookup at `index` then returns what the reference table has. -/
def Agrees (junk : Junk) (ops : List TableOp) (index : Nat) : Prop :=
  ∃ h, runTable junk (Hpack.zeroed junk) ops = some h ∧
    LooksUp h (Table.initial.run ops) index

/-! ## From the first insertion on -/

/-- The concrete table holds the abstract one. -/
def Holds (h : Hpack) (t : Table) : Prop := ∃ slots c, Live h slots c t 0 []

theorem Holds.step {h : Hpack} {t : Table} (junk : Junk) (op : TableOp) (hh : Holds h t) :
    ∃ h', op.apply junk h = some h' ∧ Holds h' (t.apply op) := by
  obtain ⟨slots, c, hl⟩ := hh
  cases op with
  | addHeader e =>
    obtain ⟨h', slots', c', hadd, hl'⟩ := hl.addHeader junk e
    exact ⟨h', by rw [TableOp.apply, hadd]; rfl, slots', c', hl'⟩
  | tableSize n =>
    by_cases hn : n ≤ ngxHttpV2TableSize
    · obtain ⟨h', c', hsize, hl'⟩ := hl.tableSize_ok hn
      refine ⟨h', by rw [TableOp.apply, hsize]; rfl, slots, c', ?_⟩
      rwa [Table.apply, if_pos hn]
    · refine ⟨h, ?_, slots, c, ?_⟩
      · rw [TableOp.apply, tableSize, if_pos (not_le.mp hn)]
        rfl
      · rwa [Table.apply, if_neg hn]

theorem Holds.run {t : Table} (junk : Junk) (ops : List TableOp) : ∀ {h : Hpack}, Holds h t →
    ∃ h', runTable junk h ops = some h' ∧ Holds h' (t.run ops) := by
  induction ops generalizing t with
  | nil => exact fun hh => ⟨_, rfl, hh⟩
  | cons op ops ih =>
    intro h hh
    obtain ⟨h₁, hstep, hh₁⟩ := hh.step junk op
    obtain ⟨h₂, hrun, hh₂⟩ := ih hh₁
    exact ⟨h₂, by rw [runTable, hstep, Option.bind_some, hrun], hh₂⟩

variable {h : Hpack}

/-- Every index, of the table or beyond it. -/
theorem Holds.looksUp {t : Table} (hh : Holds h t) (index : Nat) :
    LooksUp h t index := by
  obtain ⟨slots, c, hl⟩ := hh
  intro header nameOnly
  unfold getIndexedHeader Table.get
  by_cases hzero : index = 0
  · simp only [hzero, if_true]
    exact ⟨_, _, rfl, rfl⟩
  simp only [hzero, if_false]
  cases staticTable[index - 1]? with
  | some entry => exact ⟨_, _, rfl, rfl, rfl, fun _ => rfl⟩
  | none =>
    simp only [hl.count]
    by_cases hin : index - 1 - staticTableEntries < t.entries.length
    · -- split the table at the entry looked up
      obtain ⟨q₁, e, q₂, hsplit, hlen⟩ : ∃ q₁ e q₂, t.entries = q₁ ++ e :: q₂ ∧
          q₂.length = index - 1 - staticTableEntries := by
        refine ⟨t.entries.take (t.entries.length - 1 - (index - 1 - staticTableEntries)),
          t.entries[t.entries.length - 1 - (index - 1 - staticTableEntries)],
          t.entries.drop (t.entries.length - 1 - (index - 1 - staticTableEntries) + 1), ?_, ?_⟩
        · rw [← drop_eq_getElem_cons, take_append_drop]
        · rw [length_drop]
          omega
      have hl' : Live h slots c ⟨t.maxSize, q₁ ++ e :: q₂⟩ 0 [] := hsplit ▸ hl
      obtain ⟨_, entry, hentry, hname, hvalue⟩ := hl'.lookup
      have hget : t.entries.reverse[index - 1 - staticTableEntries]? = some e := by
        rw [hsplit, ← hlen]
        simp
      rw [hlen] at hentry
      simp only [hin, if_true, hl.entries, hentry, hget, Option.bind_eq_bind, Option.bind_some,
        Option.pure_def]
      cases nameOnly with
      | true => exact ⟨_, _, rfl, rfl, hname, fun hf => Bool.noConfusion hf⟩
      | false => exact ⟨_, _, rfl, rfl, hname, fun _ => hvalue⟩
    · have hget : t.entries.reverse[index - 1 - staticTableEntries]? = none := by
        rw [getElem?_eq_none]
        rw [length_reverse]
        exact not_lt.mp hin
      simp only [hin, if_false, hget]
      exact ⟨_, _, rfl, rfl⟩

/-! ## Before the first insertion -/

/-- No insertion yet: nothing is allocated and the counters are zero. -/
structure Idle (h : Hpack) : Prop where
  entries : h.entries = none
  added : h.added = 0
  deleted : h.deleted = 0
  reused : h.reused = 0
  free : h.free = h.size

theorem Idle.zeroed (junk : Junk) : Idle (Hpack.zeroed junk) :=
  { entries := rfl, added := rfl, deleted := rfl, reused := rfl, free := rfl }

theorem Idle.tableSize (junk : Junk) (n : Nat) (hi : Idle h) :
    ∃ h', (TableOp.tableSize n).apply junk h = some h' ∧ Idle h' := by
  by_cases hn : n > ngxHttpV2TableSize
  · refine ⟨h, ?_, hi⟩
    rw [TableOp.apply, V2.tableSize, if_pos hn]
    rfl
  have hfree := hi.free
  have hstop : h.evictUntil ((h.size : Int) - n) ((h.size : Int) - n).toNat = some h := by
    cases ((h.size : Int) - n).toNat with
    | zero => rfl
    | succ fuel => rw [Hpack.evictUntil, if_neg (by omega)]
  refine ⟨{ h with size := n, free := ((h.free : Int) - ((h.size : Int) - n)).toNat }, ?_,
    { hi with free := ?_ }⟩
  · simp only [TableOp.apply, V2.tableSize, hn, if_false, hstop, Option.bind_eq_bind,
      Option.bind_some, Option.pure_def, Option.map_some]
  · show ((h.free : Int) - ((h.size : Int) - n)).toNat = n
    omega

theorem Idle.run {h : Hpack} (junk : Junk) (sizes : List Nat) (hi : Idle h) :
    ∃ h', runTable junk h (sizes.map .tableSize) = some h' ∧ Idle h' := by
  induction sizes generalizing h with
  | nil => exact ⟨h, rfl, hi⟩
  | cons n sizes ih =>
    obtain ⟨h₁, hstep, hi₁⟩ := hi.tableSize junk n
    obtain ⟨h₂, hrun, hi₂⟩ := ih hi₁
    exact ⟨h₂, by rw [map_cons, runTable, hstep, Option.bind_some, hrun], hi₂⟩

theorem Idle.addHeader (junk : Junk) (e : Header) (hi : Idle h) :
    ∃ h', (TableOp.addHeader e).apply junk h = some h' ∧
      Holds h' (Table.initial.apply (.addHeader e)) := by
  have hset : V2.addHeader junk h e = V2.addHeader junk (h.setUp junk) e := by
    simp only [V2.addHeader, hi.entries, Hpack.setUp, isNone_none, isNone_some,
      if_true, if_false, Bool.false_eq_true]
  have hlive : Live (h.setUp junk) junk.pointers ⟨0, 0, 0, 0⟩ Table.initial 0 [] :=
    { entries := rfl
      allocated := Or.inl rfl
      added := hi.added
      deleted := hi.deleted
      reused := hi.reused
      reused_le := le_rfl
      length := rfl
      window := Nat.zero_le _
      fresh := fun k _ hk => absurd hk (Nat.not_lt_zero k)
      inj := fun j k _ _ hk => absurd hk (Nat.not_lt_zero k)
      laid := trivial
      holds := Ring.holds_nil _ _ _
      pos_le := Nat.zero_le _
      pos_mod := rfl
      size := rfl
      size_le := le_rfl
      free := rfl }
  obtain ⟨h', slots', c', hadd, hl'⟩ := hlive.addHeader junk e
  exact ⟨h', by rw [TableOp.apply, hset, hadd]; rfl, slots', c', hl'⟩

theorem Idle.looksUp {t : Table} (hi : Idle h) (ht : t.entries = [])
    (index : Nat) : LooksUp h t index := by
  intro header nameOnly
  have hcount : subWord h.added h.deleted = 0 := by
    rw [hi.added, hi.deleted]
    decide
  unfold getIndexedHeader Table.get
  by_cases hzero : index = 0
  · simp only [hzero, if_true]
    exact ⟨_, _, rfl, rfl⟩
  simp only [hzero, if_false]
  cases staticTable[index - 1]? with
  | some entry => exact ⟨_, _, rfl, rfl, rfl, fun _ => rfl⟩
  | none =>
    simp only [hcount, Nat.not_lt_zero, if_false, ht, reverse_nil, getElem?_nil]
    exact ⟨_, _, rfl, rfl⟩

/-! ## Whole runs -/

/-- The limit of the reference table after early size updates. -/
def limitAfter (sizes : List Nat) : Nat :=
  sizes.foldl (fun m n => if n ≤ ngxHttpV2TableSize then n else m) ngxHttpV2TableSize

theorem run_sizes (sizes : List Nat) : Table.initial.run (sizes.map .tableSize) =
    ⟨limitAfter sizes, []⟩ := by
  suffices h : ∀ m, (Table.mk m []).run (sizes.map .tableSize) =
      ⟨sizes.foldl (fun m n => if n ≤ ngxHttpV2TableSize then n else m) m, []⟩ from h _
  induction sizes with
  | nil => intro m; rfl
  | cons n sizes ih =>
    intro m
    simp only [map_cons, Table.run, foldl_cons, Table.apply, Fifo.evict_nil] at ih ⊢
    split
    · exact ih n
    · exact ih m

theorem limitAfter_le (sizes : List Nat) : limitAfter sizes ≤ ngxHttpV2TableSize := by
  suffices h : ∀ m, m ≤ ngxHttpV2TableSize →
      sizes.foldl (fun m n => if n ≤ ngxHttpV2TableSize then n else m) m ≤ ngxHttpV2TableSize from
    h _ (le_rfl)
  induction sizes with
  | nil => exact fun m hm => hm
  | cons n sizes ih =>
    intro m hm
    rw [foldl_cons]
    split
    · rename_i hn
      exact ih n hn
    · exact ih m hm

theorem run_holds (junk : Junk) (sizes : List Nat) (e : Header) (ops : List TableOp) :
    ∃ h, runTable junk (Hpack.zeroed junk) (sizes.map .tableSize ++ .addHeader e :: ops) = some h ∧
      Holds h (Table.initial.run (.addHeader e :: ops)) := by
  obtain ⟨h₁, hsizes, hi⟩ := (Idle.zeroed junk).run junk sizes
  obtain ⟨h₂, hadd, hh₂⟩ := hi.addHeader junk e
  obtain ⟨h₃, hrun, hh₃⟩ := hh₂.run junk ops
  refine ⟨h₃, ?_, hh₃⟩
  rw [runTable_append, hsizes, Option.bind_some, runTable, hadd, Option.bind_some, hrun]

theorem get_newest (m : Nat) (q : List Header) (e : Header) :
    (Table.mk m (q ++ [e])).get (staticTableEntries + 1) = some e := by
  have hstatic : staticTable[staticTableEntries + 1 - 1]? = none :=
    getElem?_eq_none (le_rfl)
  rw [Table.get, if_neg (Nat.succ_ne_zero _), hstatic]
  simp only [Nat.add_sub_cancel, Nat.sub_self, reverse_append, reverse_singleton,
    singleton_append, getElem?_cons_zero]

theorem get_empty (m : Nat) : (Table.mk m []).get (staticTableEntries + 1) = none := by
  have hstatic : staticTable[staticTableEntries + 1 - 1]? = none :=
    getElem?_eq_none (le_rfl)
  rw [Table.get, if_neg (Nat.succ_ne_zero _), hstatic]
  rfl

theorem disagrees_of_limit_lt (junk : Junk) {sizes : List Nat} (e : Header) {full : Header}
    (hcost : full.cost = ngxHttpV2TableSize) (hlimit : limitAfter sizes < ngxHttpV2TableSize) :
    ¬ Agrees junk (sizes.map .tableSize ++ .addHeader e :: [.addHeader full])
      (staticTableEntries + 1) := by
  rintro ⟨h, hrun, hlook⟩
  obtain ⟨h', hrun', hholds⟩ := run_holds junk sizes e [.addHeader full]
  obtain rfl : h = h' := some.inj (hrun.symm.trans hrun')
  obtain ⟨rc, header', hget, hrc⟩ := hlook default false
  obtain ⟨rc₂, header₂, hget₂, hrc₂⟩ := hholds.looksUp (staticTableEntries + 1) default false
  obtain ⟨rfl, -⟩ : rc = rc₂ ∧ header' = header₂ := by
    have hpair := some.inj (hget.symm.trans hget₂)
    exact Prod.mk.inj hpair
  have hcode : (Table.initial.run [.addHeader e, .addHeader full]).get
      (staticTableEntries + 1) = some full := by
    simp only [Table.run, foldl_cons, foldl_nil, Table.apply, Table.initial]
    rw [Fifo.insert_of_le (le_of_eq hcost), get_newest]
  have hrfc : (Table.initial.run (sizes.map .tableSize ++
      [.addHeader e, .addHeader full])).get (staticTableEntries + 1) = none := by
    rw [Table.run_append, run_sizes]
    simp only [Table.run, foldl_cons, foldl_nil, Table.apply]
    rw [Fifo.insert_of_gt (hcost ▸ hlimit), get_empty]
  rw [hcode] at hrc₂
  rw [hrfc] at hrc
  exact absurd (hrc₂.1.symm.trans hrc) (by decide)

/-- An entry that takes the whole of the initial limit. -/
def fullHeader : Header := ⟨List.replicate 4064 0, []⟩

theorem cost_fullHeader : fullHeader.cost = ngxHttpV2TableSize := by
  simp only [Header.cost, fullHeader, length_replicate, length_nil, ngxHttpV2TableSize]

/-- **HPACK dynamic table.**  Size updates alone never make a difference, and
after a first insertion every continuation agrees with the reference table
exactly when the size updates before it had left the limit at 4096. -/
theorem getIndexedHeader_agrees_iff (junk : Junk) :
    (∀ (sizes : List Nat) (index : Nat), Agrees junk (sizes.map .tableSize) index) ∧
    ∀ (sizes : List Nat) (e : Header), (∀ (ops : List TableOp) (index : Nat),
        Agrees junk (sizes.map .tableSize ++ .addHeader e :: ops) index) ↔
      limitAfter sizes = ngxHttpV2TableSize := by
  refine ⟨fun sizes index => ?_, fun sizes e => ⟨fun hall => ?_, fun hlimit ops index => ?_⟩⟩
  · obtain ⟨h, hrun, hi⟩ := (Idle.zeroed junk).run junk sizes
    refine ⟨h, hrun, hi.looksUp ?_ index⟩
    rw [run_sizes]
  · rcases lt_or_eq_of_le (limitAfter_le sizes) with hlt | heq
    · exact absurd
        (hall [.addHeader fullHeader] _) (disagrees_of_limit_lt junk e cost_fullHeader hlt)
    · exact heq
  · obtain ⟨h, hrun, hholds⟩ := run_holds junk sizes e ops
    refine ⟨h, hrun, ?_⟩
    rw [Table.run_append, run_sizes, hlimit]
    exact hholds.looksUp index

/-- A table size of zero announced before the first insertion is forgotten: the
entry inserted next is found at index 62. -/
theorem getIndexedHeader_early_update :
    ¬ Agrees ⟨fun _ => 0, fun _ => 0, fun _ => default⟩
      [.tableSize 0, .addHeader ⟨ascii "a", ascii "b"⟩] 62 := by
  rintro ⟨h, hrun, hlook⟩
  obtain ⟨rc, header', hget, hrc⟩ := hlook default false
  have hcode : ((runTable ⟨fun _ => 0, fun _ => 0, fun _ => default⟩
      (Hpack.zeroed ⟨fun _ => 0, fun _ => 0, fun _ => default⟩)
      [.tableSize 0, .addHeader ⟨ascii "a", ascii "b"⟩]).bind fun h =>
        getIndexedHeader h default 62 false) = some (.ok, ⟨ascii "a", ascii "b"⟩) := by
    decide
  rw [hrun, Option.bind_some, hget] at hcode
  obtain ⟨rfl, -⟩ := Prod.mk.inj (some.inj hcode)
  have hrfc : (Table.initial.run
      [.tableSize 0, .addHeader ⟨ascii "a", ascii "b"⟩]).get 62 = none := by
    decide
  rw [hrfc] at hrc
  exact absurd (show Rc.ok = Rc.error from hrc) (by decide)

end Nginx.Http.V2
