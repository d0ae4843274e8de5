/-
  Http/V2/TableInvariant.lean --- what the HPACK dynamic table keeps true.

  The abstract table is a list of headers, oldest first, with a size limit.
  `Live` ties it to the three pieces of memory.  It speaks of counters that
  never wrap: the program's counters are these modulo the width of a word,
  which the sizes 64 and 128 of the pointer ring divide.  In the pointer ring
  the slots from `reused` up to `deleted` hold structures to recycle, those
  from `deleted` up to `added` the live entries; all of them are distinct and
  together they are at most one turn of the ring.
-/
import Nginx.Foundation.Queue
import Nginx.Http.V2.Table

set_option autoImplicit false

namespace Nginx.Http.V2

open List Foundation

/-- The cost of an entry: 32 bytes on top of its name and value. -/
def Header.cost (e : Header) : Nat := e.name.length + e.value.length + 32

/-- The bytes an entry occupies in `storage`. -/
def Header.bytes (e : Header) : Bytes := e.name ++ e.value

/-- The bytes of a table, oldest entry first. -/
def tableBytes (q : List Header) : Bytes := q.flatMap Header.bytes

@[simp] theorem tableBytes_nil : tableBytes [] = [] := rfl

@[simp] theorem tableBytes_cons (e : Header) (q : List Header) :
    tableBytes (e :: q) = e.bytes ++ tableBytes q := rfl

@[simp] theorem tableBytes_append (q₁ q₂ : List Header) :
    tableBytes (q₁ ++ q₂) = tableBytes q₁ ++ tableBytes q₂ := by
  simp [tableBytes]

@[simp] theorem Header.length_bytes (e : Header) :
    e.bytes.length = e.name.length + e.value.length := by
  simp [Header.bytes]

theorem length_tableBytes (q : List Header) :
    (tableBytes q).length + q.length * 32 = Fifo.total Header.cost q := by
  induction q with
  | nil => simp
  | cons e q ih =>
    simp only [tableBytes_cons, length_append, Header.length_bytes, length_cons,
      Fifo.total_cons, Header.cost, Nat.succ_mul]
    omega

/-! ## Entry structures -/

/-- The stored string starts at ring position `start` and has length `len`. -/
structure StrAt (s : StoredStr) (start len : Nat) : Prop where
  len : s.len = len
  data_le : s.data ≤ ngxHttpV2TableSize
  data_mod : s.data % ngxHttpV2TableSize = start % ngxHttpV2TableSize

/-- The entry structure describes a header stored from `start` on. -/
structure EntryAt (entry : Entry) (start : Nat) (e : Header) : Prop where
  name : StrAt entry.name start e.name.length
  value : StrAt entry.value (start + e.name.length) e.value.length

/-- The structures `entries 0`, `entries 1`, … describe the headers of a list
stored back to back from `start` on. -/
def Laid (entries : Nat → Entry) (start : Nat) : List Header → Prop
  | [] => True
  | e :: q => EntryAt (entries 0) start e ∧
      Laid (fun j => entries (j + 1)) (start + e.bytes.length) q

theorem Laid.append {q₁ q₂ : List Header} : ∀ {entries : Nat → Entry} {start : Nat},
    Laid entries start (q₁ ++ q₂) ↔ Laid entries start q₁ ∧
      Laid (fun j => entries (j + q₁.length)) (start + (tableBytes q₁).length) q₂ := by
  induction q₁ with
  | nil => intro entries start; simp [Laid]
  | cons e q ih =>
    intro entries start
    simp only [cons_append, Laid, ih, tableBytes_cons, length_append,
      length_cons, and_assoc, add_assoc]

theorem Laid.congr {q : List Header} : ∀ {f g : Nat → Entry} {start : Nat},
    Laid f start q → (∀ j, j < q.length → g j = f j) → Laid g start q := by
  induction q with
  | nil => intro f g start _ _; trivial
  | cons e q ih =>
    intro f g start h heq
    refine ⟨?_, ih h.2 fun j hj => heq (j + 1) (by rw [length_cons]; omega)⟩
    rw [heq 0 (by simp)]
    exact h.1

/-! ## The invariant -/

/-- The abstract table: its size limit and its entries, oldest first. -/
structure Table where
  maxSize : Nat
  entries : List Header
  deriving DecidableEq

/-- The counters without wrapping, and the ring position of the oldest byte. -/
structure Counters where
  added : Nat
  deleted : Nat
  reused : Nat
  start : Nat

/-- The slot of the `k`-th pointer ever stored. -/
def slotAt (h : Hpack) (slots : Nat → Nat) (k : Nat) : Nat := slots (k % h.allocated)

/-- The concrete table `h` holds the abstract table `t`.  `reserved` bytes of
the limit are set aside for an entry under construction, and `tail` is what it
has written behind the live bytes. -/
structure Live (h : Hpack) (slots : Nat → Nat) (c : Counters) (t : Table)
    (reserved : Nat) (tail : Bytes) : Prop where
  entries : h.entries = some slots
  allocated : h.allocated = 64 ∨ h.allocated = 128
  added : h.added = c.added % wordRange
  deleted : h.deleted = c.deleted % wordRange
  reused : h.reused = c.reused % wordRange
  reused_le : c.reused ≤ c.deleted
  length : c.deleted + t.entries.length = c.added
  window : c.added ≤ c.reused + h.allocated
  fresh : ∀ k, c.reused ≤ k → k < c.added → slotAt h slots k < h.heapNext
  inj : ∀ j k, c.reused ≤ j → j < k → k < c.added → slotAt h slots j ≠ slotAt h slots k
  laid : Laid (fun j => h.heap (slotAt h slots (c.deleted + j))) c.start t.entries
  holds : Ring.Holds ngxHttpV2TableSize h.storage c.start (tableBytes t.entries ++ tail)
  pos_le : h.pos ≤ ngxHttpV2TableSize
  pos_mod : h.pos % ngxHttpV2TableSize =
    (c.start + (tableBytes t.entries ++ tail).length) % ngxHttpV2TableSize
  size : h.size = t.maxSize
  size_le : t.maxSize ≤ ngxHttpV2TableSize
  free : h.free + reserved + Fifo.total Header.cost t.entries = t.maxSize

namespace Live

variable {h : Hpack} {slots : Nat → Nat} {c : Counters} {t : Table}
  {reserved : Nat} {tail : Bytes}

theorem allocated_dvd (hl : Live h slots c t reserved tail) : h.allocated ∣ wordRange := by
  rcases hl.allocated with ha | ha <;> rw [ha] <;> decide

theorem allocated_pos (hl : Live h slots c t reserved tail) : 0 < h.allocated := by
  rcases hl.allocated with ha | ha <;> omega

theorem counter_mod (hl : Live h slots c t reserved tail) (k : Nat) :
    k % wordRange % h.allocated = k % h.allocated :=
  mod_wordRange_mod hl.allocated_dvd k

theorem length_mul_le (hl : Live h slots c t reserved tail) :
    t.entries.length * 32 + reserved ≤ ngxHttpV2TableSize := by
  have hbytes := length_tableBytes t.entries
  have hfree := hl.free
  have hsize := hl.size_le
  omega

theorem window_lt (hl : Live h slots c t reserved tail) : c.added - c.reused < 2 ^ 64 := by
  have hwin := hl.window
  rcases hl.allocated with ha | ha <;> omega

theorem count (hl : Live h slots c t reserved tail) :
    subWord h.added h.deleted = t.entries.length := by
  have hlen := hl.length
  have hwin := hl.window_lt
  have hle := hl.reused_le
  rw [hl.added, hl.deleted, subWord_mod_of_le (by omega) (by omega)]
  omega

theorem slot_deleted (hl : Live h slots c t reserved tail) :
    slots (h.deleted % h.allocated) = slotAt h slots c.deleted := by
  rw [hl.deleted, hl.counter_mod, slotAt]

/-! ### Eviction -/

variable {e : Header} {q : List Header}

variable {m : Nat}

/-- The oldest entry goes. -/
theorem evict
    (hl : Live h slots c ⟨m, e :: q⟩ reserved tail) :
    ∃ h' c', h.evict = some h' ∧ Live h' slots c' ⟨m, q⟩ reserved tail ∧
      h'.free = h.free + e.cost := by
  have hlaid : EntryAt (h.heap (slotAt h slots c.deleted)) c.start e := hl.laid.1
  have hlen : c.deleted + (q.length + 1) = c.added := hl.length
  have hfree : h.free + reserved + (e.cost + Fifo.total Header.cost q) = m := by
    have := hl.free
    rwa [Fifo.total_cons] at this
  have hgain : 32 + (h.heap (slotAt h slots c.deleted)).name.len +
      (h.heap (slotAt h slots c.deleted)).value.len = e.cost := by
    rw [hlaid.name.len, hlaid.value.len, Header.cost]
    omega
  refine ⟨{ h with
      deleted := addWord h.deleted 1
      free := h.free + e.cost },
    { c with deleted := c.deleted + 1, start := c.start + e.bytes.length }, ?_, ?_, rfl⟩
  · simp only [Hpack.evict, hl.entries, hl.slot_deleted, Option.bind_eq_bind, Option.bind_some,
      hgain]
    rfl
  exact
  { entries := hl.entries
    allocated := hl.allocated
    added := hl.added
    deleted := by
      show addWord h.deleted 1 = _
      rw [hl.deleted, addWord_mod]
    reused := hl.reused
    reused_le := Nat.le_succ_of_le hl.reused_le
    length := by
      show c.deleted + 1 + q.length = c.added
      omega
    window := hl.window
    fresh := hl.fresh
    inj := hl.inj
    laid := by
      refine Laid.congr hl.laid.2 fun j _ => ?_
      show h.heap (slotAt h slots (c.deleted + 1 + j)) = _
      rw [add_right_comm, add_assoc]
    holds := by
      have hh := hl.holds
      rw [tableBytes_cons, append_assoc] at hh
      exact (Ring.holds_append.mp hh).2
    pos_le := hl.pos_le
    pos_mod := by
      have hp := hl.pos_mod
      rw [tableBytes_cons, append_assoc, length_append, ← add_assoc] at hp
      exact hp
    size := hl.size
    size_le := hl.size_le
    free := by
      show h.free + e.cost + reserved + Fifo.total Header.cost q = m
      omega }

theorem evictUntil (need : Int) (hneed : need ≤ m) :
    ∀ {h : Hpack} {c : Counters} (fuel : Nat), Live h slots c ⟨m, q⟩ 0 tail →
      need ≤ fuel + h.free →
      ∃ h' c', h.evictUntil need fuel = some h' ∧
        Live h' slots c' ⟨m, Fifo.evict Header.cost (m - need).toNat q⟩ 0 tail ∧
        need ≤ h'.free := by
  induction q with
  | nil =>
    intro h c fuel hl hfuel
    have hfree : h.free + 0 + 0 = m := hl.free
    have hstop : ¬ need > h.free := by omega
    refine ⟨h, c, ?_, hl, by omega⟩
    cases fuel with
    | zero => rfl
    | succ fuel => simp only [Hpack.evictUntil, hstop, if_false]
  | cons e q ih =>
    intro h c fuel hl hfuel
    have hfree : h.free + 0 + Fifo.total Header.cost (e :: q) = m := hl.free
    by_cases hgo : need > h.free
    · obtain ⟨h₁, c₁, hev, hl₁, hgain⟩ := hl.evict
      have hcost : 0 < e.cost := by
        rw [Header.cost]
        omega
      cases fuel with
      | zero => omega
      | succ fuel =>
        obtain ⟨h₂, c₂, hloop, hl₂, hdone⟩ := ih fuel hl₁ (by omega)
        refine ⟨h₂, c₂, ?_, ?_, hdone⟩
        · simp only [Hpack.evictUntil, hgo, if_true, hev, Option.bind_eq_bind,
            Option.bind_some, hloop]
        · rwa [Fifo.evict_cons_of_gt (by omega)]
    · refine ⟨h, c, ?_, ?_, by omega⟩
      · cases fuel with
        | zero => rfl
        | succ fuel => simp only [Hpack.evictUntil, hgo, if_false]
      · rwa [Fifo.evict_of_le (by omega)]

theorem reserve {n : Nat} (hl : Live h slots c t 0 tail) (hn : n ≤ h.free) :
    Live { h with free := h.free - n } slots c t n tail :=
  { hl with
    free := by
      have hfree := hl.free
      show h.free - n + n + Fifo.total Header.cost t.entries = t.maxSize
      omega }

/-! ### Size accounting -/

theorem tableAccount_header (h : Hpack) (e : Header) :
    tableAccount h (e.name.length + e.value.length) =
      if e.cost ≤ h.free then some (.ok, { h with free := h.free - e.cost })
      else if e.cost > h.size then some (.declined, { h with deleted := h.added, free := h.size })
      else h.evict.bind fun h => (h.evictUntil e.cost e.cost).bind fun h =>
        some (.ok, { h with free := h.free - e.cost }) := rfl

/-- `ngx_http_v2_table_account` for an entry within the limit: the oldest
entries leave until it fits, and its room is set aside. -/
theorem tableAccount_ok
    (hl : Live h slots c ⟨m, q⟩ 0 tail) (hfit : e.cost ≤ m) :
    ∃ h' c', tableAccount h (e.name.length + e.value.length) = some (.ok, h') ∧
      Live h' slots c' ⟨m, Fifo.evict Header.cost (m - e.cost) q⟩ e.cost tail := by
  have hfree : h.free + 0 + Fifo.total Header.cost q = m := hl.free
  have hsize : h.size = m := hl.size
  rw [tableAccount_header]
  by_cases hroom : e.cost ≤ h.free
  · refine ⟨{ h with free := h.free - e.cost }, c, by simp only [hroom, if_true], ?_⟩
    rw [Fifo.evict_of_le (by omega)]
    exact hl.reserve hroom
  have hlarge : ¬ e.cost > h.size := by omega
  cases q with
  | nil => simp only [Fifo.total_nil] at hfree; omega
  | cons e₀ q =>
    obtain ⟨h₁, c₁, hev, hl₁, hgain⟩ := hl.evict
    obtain ⟨h₂, c₂, hloop, hl₂, hdone⟩ :=
      hl₁.evictUntil e.cost (by omega) e.cost (by omega)
    refine ⟨{ h₂ with free := h₂.free - e.cost }, c₂, ?_, ?_⟩
    · simp only [hroom, hlarge, if_false, hev, Option.bind_some, hloop]
    · have hlimit : ((m : Int) - (e.cost : Int)).toNat = m - e.cost := by omega
      rw [Fifo.evict_cons_of_gt (by omega), ← hlimit]
      exact hl₂.reserve (by omega)

theorem tableAccount_declined
    (hl : Live h slots c ⟨m, q⟩ 0 []) (hlarge : m < e.cost) :
    ∃ h' c', tableAccount h (e.name.length + e.value.length) = some (.declined, h') ∧
      Live h' slots c' ⟨m, []⟩ 0 [] := by
  have hfree : h.free + 0 + Fifo.total Header.cost q = m := hl.free
  have hsize : h.size = m := hl.size
  have hlen : c.deleted + q.length = c.added := hl.length
  have hroom : ¬ e.cost ≤ h.free := by omega
  refine ⟨{ h with deleted := h.added, free := h.size },
    { c with deleted := c.added, start := c.start + (tableBytes q).length }, ?_, ?_⟩
  · rw [tableAccount_header, if_neg hroom, if_pos (by omega)]
  exact
  { entries := hl.entries
    allocated := hl.allocated
    added := hl.added
    deleted := hl.added
    reused := hl.reused
    reused_le := by
      have hle := hl.reused_le
      show c.reused ≤ c.added
      omega
    length := add_zero _
    window := hl.window
    fresh := hl.fresh
    inj := hl.inj
    laid := trivial
    holds := Ring.holds_nil _ _ _
    pos_le := hl.pos_le
    pos_mod := by
      have hp := hl.pos_mod
      rwa [append_nil] at hp
    size := hl.size
    size_le := hl.size_le
    free := by
      show h.size + 0 + 0 = m
      omega }

theorem tableSize_ok {n : Nat} (hl : Live h slots c ⟨m, q⟩ 0 tail)
    (hn : n ≤ ngxHttpV2TableSize) :
    ∃ h' c', tableSize h n = some (.ok, h') ∧
      Live h' slots c' ⟨n, Fifo.evict Header.cost n q⟩ 0 tail := by
  have hsize : h.size = m := hl.size
  have hbound : ¬ n > ngxHttpV2TableSize := Nat.not_lt_of_le hn
  obtain ⟨h', c', hloop, hl', hdone⟩ :=
    hl.evictUntil ((m : Int) - n) (by omega) ((m : Int) - n).toNat (by omega)
  have hlimit : ((m : Int) - ((m : Int) - n)).toNat = n := by omega
  rw [hlimit] at hl'
  have hfree' : h'.free + 0 + Fifo.total Header.cost (Fifo.evict Header.cost n q) = m := hl'.free
  refine ⟨{ h' with size := n, free := ((h'.free : Int) - ((m : Int) - n)).toNat }, c', ?_, ?_⟩
  · simp only [tableSize, hbound, if_false, hsize, hloop, Option.bind_eq_bind, Option.bind_some,
      Option.pure_def]
  exact { hl' with
    size := rfl
    size_le := hn
    free := by
      show ((h'.free : Int) - ((m : Int) - n)).toNat + 0 +
        Fifo.total Header.cost (Fifo.evict Header.cost n q) = n
      omega }

/-! ### Insertion -/

theorem takeEntry (hl : Live h slots c t reserved tail) :
    ∃ p h' c', h.takeEntry = some (p, h') ∧ Live h' slots c' t reserved tail ∧
      p < h'.heapNext ∧ (∀ k, c'.reused ≤ k → k < c'.added → slotAt h' slots k ≠ p) ∧
      (c'.added < c'.reused + h'.allocated ∨
        (c'.reused = c'.deleted ∧ t.entries.length = h'.allocated)) := by
  have hwin := hl.window
  have hlen := hl.length
  have hle := hl.reused_le
  by_cases heq : h.reused = h.deleted
  · have hcount : c.reused = c.deleted := by
      have hlt := hl.window_lt
      rw [hl.reused, hl.deleted, wordRange] at heq
      omega
    refine ⟨h.heapNext, { h with heapNext := h.heapNext + 1 }, c, ?_, ?_, Nat.lt_succ_self _,
      ?_, ?_⟩
    · simp only [Hpack.takeEntry, heq, if_true, Option.pure_def]
    · exact { hl with fresh := fun k h₁ h₂ => Nat.lt_succ_of_lt (hl.fresh k h₁ h₂) }
    · intro k h₁ h₂
      exact ne_of_lt (hl.fresh k h₁ h₂)
    · show c.added < c.reused + h.allocated ∨ _ ∧ t.entries.length = h.allocated
      omega
  · have hlt : c.reused < c.deleted := by
      refine lt_of_le_of_ne hle fun hcount => heq ?_
      rw [hl.reused, hl.deleted, hcount]
    have hslot : slots (h.reused % h.allocated) = slotAt h slots c.reused := by
      rw [hl.reused, hl.counter_mod, slotAt]
    refine ⟨slotAt h slots c.reused, { h with reused := addWord h.reused 1 },
      { c with reused := c.reused + 1 }, ?_, ?_, hl.fresh _ (le_rfl) (by omega), ?_, ?_⟩
    · simp only [Hpack.takeEntry, heq, if_false, hl.entries, Option.bind_eq_bind,
        Option.bind_some, hslot, Option.pure_def]
    · exact { hl with
        reused := by
          show addWord h.reused 1 = _
          rw [hl.reused, addWord_mod]
        reused_le := hlt
        window := by
          show c.added ≤ c.reused + 1 + h.allocated
          omega
        fresh := fun k h₁ h₂ => hl.fresh k (Nat.le_of_succ_le h₁) h₂
        inj := fun j k h₁ h₂ h₃ => hl.inj j k (Nat.le_of_succ_le h₁) h₂ h₃ }
    · intro k h₁ h₂
      exact (hl.inj c.reused k (le_rfl) h₁ h₂).symm
    · show c.added < c.reused + 1 + h.allocated ∨ _
      omega

/-- The bytes of a field are laid behind those of the last one. -/
theorem copyHeader {p : Nat} (hl : Live h slots c t e.cost [])
    (hp : ∀ k, c.reused ≤ k → k < c.added → slotAt h slots k ≠ p) :
    Live (h.copyHeader p e) slots c t e.cost e.bytes ∧
      EntryAt ((h.copyHeader p e).heap p) (c.start + (tableBytes t.entries).length) e := by
  have hroom : (tableBytes t.entries).length + e.name.length + e.value.length ≤
      ngxHttpV2TableSize := by
    have hbytes := length_tableBytes t.entries
    have hfree := hl.free
    have hsize := hl.size_le
    rw [Header.cost] at hfree
    omega
  have hcap : 0 < ngxHttpV2TableSize := by decide
  have hpos := hl.pos_le
  have hmod : h.pos % ngxHttpV2TableSize =
      (c.start + (tableBytes t.entries).length) % ngxHttpV2TableSize := by
    have hm := hl.pos_mod
    rwa [append_nil] at hm
  have hlive : Ring.Holds ngxHttpV2TableSize h.storage c.start (tableBytes t.entries) := by
    have hh := hl.holds
    rwa [append_nil] at hh
  -- the name: an ordinary ring write
  obtain ⟨s₁, hs₁⟩ : ∃ s, s = Ring.write ngxHttpV2TableSize h.storage h.pos e.name := ⟨_, rfl⟩
  have hpos₁ : s₁.2 ≤ ngxHttpV2TableSize := hs₁ ▸ Ring.write_cursor_le hpos (by omega)
  have hmod₁ : s₁.2 % ngxHttpV2TableSize =
      (c.start + (tableBytes t.entries).length + e.name.length) % ngxHttpV2TableSize := by
    rw [hs₁, Ring.write_cursor_mod hpos, Nat.add_mod, hmod, ← Nat.add_mod]
  have hholds₁ : Ring.Holds ngxHttpV2TableSize s₁.1 c.start (tableBytes t.entries ++ e.name) :=
    hs₁ ▸ Ring.write_holds_append hcap hpos hmod.symm (by omega) hlive
  -- the value: after a wrapped name the room is understated, but it suffices
  have hvalue : Ring.writeAvail
      ((if e.name.length ≤ ngxHttpV2TableSize - h.pos then ngxHttpV2TableSize - h.pos
        else ngxHttpV2TableSize) - e.name.length) s₁.1 s₁.2 e.value =
      Ring.write ngxHttpV2TableSize s₁.1 s₁.2 e.value := by
    split
    · rename_i hfit
      have hcursor : s₁.2 = h.pos + e.name.length := by
        rw [hs₁]
        simp only [Ring.write, Ring.writeAvail, hfit, if_true]
      rw [Ring.write, hcursor]
      congr 1
      omega
    · rename_i hwrap
      have hcursor : s₁.2 = e.name.length - (ngxHttpV2TableSize - h.pos) := by
        rw [hs₁]
        simp only [Ring.write, Ring.writeAvail, hwrap, if_false]
      exact Ring.writeAvail_eq_write (by omega) (by omega)
  obtain ⟨s₂, hs₂⟩ : ∃ s, s = Ring.write ngxHttpV2TableSize s₁.1 s₁.2 e.value := ⟨_, rfl⟩
  have hcopy : h.copyHeader p e = { h with
      storage := s₂.1
      pos := s₂.2
      heap := fun k => if k = p then ⟨⟨e.name.length, h.pos⟩, ⟨e.value.length, s₁.2⟩⟩
        else h.heap k } := by
    have hname : Ring.writeAvail (ngxHttpV2TableSize - h.pos) h.storage h.pos e.name = s₁ :=
      hs₁.symm
    simp only [Hpack.copyHeader, hname, hvalue, ← hs₂]
  have hend : (c.start + (tableBytes t.entries ++ e.name).length) % ngxHttpV2TableSize =
      s₁.2 % ngxHttpV2TableSize := by
    rw [hmod₁, length_append, add_assoc]
  rw [hcopy]
  refine ⟨?_, ?_, ?_⟩
  · exact { hl with
      laid := by
        refine hl.laid.congr fun j hj => ?_
        have hlen := hl.length
        have hle := hl.reused_le
        exact if_neg (hp (c.deleted + j) (by omega) (by omega))
      holds := by
        rw [Header.bytes, ← append_assoc, hs₂]
        refine Ring.write_holds_append hcap hpos₁ hend ?_ hholds₁
        rw [length_append]
        omega
      pos_le := by
        show s₂.2 ≤ ngxHttpV2TableSize
        rw [hs₂]
        exact Ring.write_cursor_le hpos₁ (by omega)
      pos_mod := by
        show s₂.2 % ngxHttpV2TableSize = _
        rw [hs₂, Ring.write_cursor_mod hpos₁, Nat.add_mod, hmod₁, ← Nat.add_mod,
          length_append, Header.length_bytes]
        congr 1
        omega }
  · exact { len := by simp, data_le := by simpa using hpos, data_mod := by simpa using hmod }
  · exact { len := by simp, data_le := by simpa using hpos₁, data_mod := by simpa using hmod₁ }

theorem growEntries_slot {junk : Junk} {a r j : Nat} (slots : Nat → Nat) (hr : r < a)
    (hj : j < a) :
    memcpy (memcpy junk.pointers 0 (load slots r (a - r))) (a - r) (load slots 0 r) j =
      slots ((r + j) % a) := by
  by_cases htail : j < a - r
  · have hlen : j < (load slots r (a - r)).length := by
      rw [length_load]
      exact htail
    have hfirst := @memcpy_apply_add _ junk.pointers 0 _ _ hlen
    rw [zero_add] at hfirst
    rw [memcpy_apply_of_lt htail, hfirst, getElem_load, Nat.mod_eq_of_lt (by omega)]
  have hlen : j - (a - r) < (load slots 0 r).length := by
    rw [length_load]
    omega
  have hsecond := @memcpy_apply_add _ (memcpy junk.pointers 0 (load slots r (a - r))) (a - r) _ _
    hlen
  rw [show a - r + (j - (a - r)) = j by omega, getElem_load, zero_add] at hsecond
  rw [hsecond, show r + j = (j - (a - r)) + a by omega, Nat.add_mod_right,
    Nat.mod_eq_of_lt (by omega)]

theorem growEntries (junk : Junk) (hl : Live h slots c t e.cost tail)
    (hdel : c.reused = c.deleted) (hfull : t.entries.length = h.allocated) {p : Nat}
    (hp : ∀ k, c.reused ≤ k → k < c.added → slotAt h slots k ≠ p) :
    ∃ h' slots' c', h.growEntries junk = some h' ∧ Live h' slots' c' t e.cost tail ∧
      h'.heap = h.heap ∧ h'.heapNext = h.heapNext ∧ c'.start = c.start ∧
      (∀ k, c'.reused ≤ k → k < c'.added → slotAt h' slots' k ≠ p) ∧
      c'.added < c'.reused + h'.allocated := by
  have hpos := hl.allocated_pos
  have hlen := hl.length
  have hsmall : h.allocated = 64 := by
    have hmul := hl.length_mul_le
    rw [Header.cost, hfull, ngxHttpV2TableSize] at hmul
    rcases hl.allocated with ha | ha <;> omega
  obtain ⟨grown, hgrown⟩ : ∃ g, g = memcpy (memcpy junk.pointers 0
      (load slots (h.deleted % h.allocated) (h.allocated - h.deleted % h.allocated)))
      (h.allocated - h.deleted % h.allocated) (load slots 0 (h.deleted % h.allocated)) := ⟨_, rfl⟩
  -- slot `k` of the new ring is the `k`-th oldest of the full one
  have hslot : ∀ k, k < h.allocated →
      grown (k % (h.allocated + 64)) = slotAt h slots (c.deleted + k) := by
    intro k hk
    rw [Nat.mod_eq_of_lt (by omega), hgrown, growEntries_slot slots (Nat.mod_lt _ hpos) hk,
      slotAt, hl.deleted, hl.counter_mod, Nat.mod_add_mod]
  refine ⟨{ h with
      entries := some grown
      added := h.allocated
      deleted := 0
      reused := 0
      allocated := h.allocated + 64 }, grown,
    { added := h.allocated, deleted := 0, reused := 0, start := c.start }, ?_, ?_, rfl, rfl, rfl,
    ?_, ?_⟩
  · have hcount : ¬ h.allocated ≠ subWord h.added h.deleted := by
      rw [hl.count, hfull]
      simp
    simp only [Hpack.growEntries, hcount, if_false, hl.entries, Option.bind_eq_bind,
      Option.bind_some, Option.pure_def, hgrown]
  · exact { hl with
      entries := rfl
      allocated := by
        show h.allocated + 64 = 64 ∨ h.allocated + 64 = 128
        omega
      added := by
        show h.allocated = h.allocated % wordRange
        rw [hsmall]
        decide
      deleted := rfl
      reused := rfl
      reused_le := le_rfl
      length := by
        show 0 + t.entries.length = h.allocated
        omega
      window := by
        show h.allocated ≤ 0 + (h.allocated + 64)
        omega
      fresh := by
        intro k _ hk
        have hk' : k < h.allocated := hk
        show grown (k % (h.allocated + 64)) < h.heapNext
        rw [hslot k hk']
        exact hl.fresh _ (by omega) (by omega)
      inj := by
        intro j k _ hjk hk
        have hk' : k < h.allocated := hk
        show grown (j % (h.allocated + 64)) ≠ grown (k % (h.allocated + 64))
        rw [hslot j (by omega), hslot k hk']
        exact hl.inj _ _ (by omega) (by omega) (by omega)
      laid := by
        refine hl.laid.congr fun j hj => ?_
        show h.heap (grown ((0 + j) % (h.allocated + 64))) = _
        rw [zero_add, hslot j (by omega)] }
  · intro k _ hk
    have hk' : k < h.allocated := hk
    show grown (k % (h.allocated + 64)) ≠ p
    rw [hslot k hk']
    exact hp _ (by omega) (by omega)
  · show h.allocated < 0 + (h.allocated + 64)
    omega

theorem linkEntry {p : Nat} (hl : Live h slots c t e.cost e.bytes)
    (hentry : EntryAt (h.heap p) (c.start + (tableBytes t.entries).length) e)
    (hfresh : p < h.heapNext)
    (hp : ∀ k, c.reused ≤ k → k < c.added → slotAt h slots k ≠ p)
    (hroom : c.added < c.reused + h.allocated) :
    ∃ h' slots' c', h.linkEntry p = some h' ∧
      Live h' slots' c' ⟨t.maxSize, t.entries ++ [e]⟩ 0 [] := by
  have hlen := hl.length
  have hle := hl.reused_le
  have hpos := hl.allocated_pos
  have hindex : h.added % h.allocated = c.added % h.allocated := by
    rw [hl.added, hl.counter_mod]
  obtain ⟨slots', hslots'⟩ :
      ∃ s, s = fun i => if i = h.added % h.allocated then p else slots i := ⟨_, rfl⟩
  have hnew : slots' (c.added % h.allocated) = p := by
    rw [hslots']
    exact if_pos hindex.symm
  have hold : ∀ k, c.reused ≤ k → k < c.added →
      slots' (k % h.allocated) = slotAt h slots k := by
    intro k h₁ h₂
    rw [hslots']
    refine if_neg ?_
    rw [hindex]
    exact Ring.mod_ne_of_lt h₂ (by omega)
  refine ⟨{ h with entries := some slots', added := addWord h.added 1 }, slots',
    { c with added := c.added + 1 }, ?_, ?_⟩
  · simp only [Hpack.linkEntry, hl.entries, Option.bind_eq_bind, Option.bind_some,
      Option.pure_def, hslots']
  exact { hl with
    entries := rfl
    added := by
      show addWord h.added 1 = _
      rw [hl.added, addWord_mod]
    length := by
      show c.deleted + (t.entries ++ [e]).length = c.added + 1
      rw [length_append, length_singleton]
      omega
    window := by
      show c.added + 1 ≤ c.reused + h.allocated
      omega
    fresh := by
      intro k h₁ h₂
      show slots' (k % h.allocated) < h.heapNext
      rcases Nat.lt_succ_iff_lt_or_eq.mp h₂ with hlt | heq
      · have h₁' : c.reused ≤ k := h₁
        rw [hold k h₁' hlt]
        exact hl.fresh k h₁ hlt
      · rw [heq, hnew]
        exact hfresh
    inj := by
      intro j k h₁ h₂ h₃
      have h₁' : c.reused ≤ j := h₁
      show slots' (j % h.allocated) ≠ slots' (k % h.allocated)
      rcases Nat.lt_succ_iff_lt_or_eq.mp h₃ with hlt | heq
      · rw [hold j h₁ (by omega), hold k (by omega) hlt]
        exact hl.inj j k h₁ h₂ hlt
      · rw [heq] at h₂ ⊢
        rw [hnew, hold j h₁ h₂]
        exact hp j h₁ h₂
    laid := by
      refine Laid.append.mpr ⟨hl.laid.congr fun j hj => ?_, ?_, trivial⟩
      · show h.heap (slots' ((c.deleted + j) % h.allocated)) = _
        rw [hold _ (by omega) (by omega)]
      · show EntryAt (h.heap (slots' ((c.deleted + (0 + t.entries.length)) % h.allocated))) _ e
        rw [zero_add, hlen, hnew]
        exact hentry
    holds := by
      rw [append_nil, tableBytes_append, tableBytes_cons, tableBytes_nil, append_nil]
      exact hl.holds
    pos_mod := by
      rw [append_nil, tableBytes_append, tableBytes_cons, tableBytes_nil, append_nil]
      exact hl.pos_mod
    free := by
      have hfree := hl.free
      show h.free + 0 + Fifo.total Header.cost (t.entries ++ [e]) = t.maxSize
      rw [Fifo.total_append, Fifo.total_cons, Fifo.total_nil]
      omega }

/-- `ngx_http_v2_add_header` keeps the table, evicting from its old end. -/
theorem addHeader (junk : Junk) (e : Header) (hl : Live h slots c t 0 []) :
    ∃ h' slots' c', V2.addHeader junk h e = some (.ok, h') ∧
      Live h' slots' c' ⟨t.maxSize, Fifo.insert Header.cost t.maxSize t.entries e⟩ 0 [] := by
  have hset : (if h.entries.isNone then h.setUp junk else h) = h := by
    rw [hl.entries]
    rfl
  by_cases hfit : e.cost ≤ t.maxSize
  · obtain ⟨h₁, c₁, hacc, hl₁⟩ := hl.tableAccount_ok hfit
    obtain ⟨p, h₂, c₂, htake, hl₂, hfresh, hp, hroom⟩ := hl₁.takeEntry
    obtain ⟨hl₃, hentry⟩ := hl₂.copyHeader hp
    have hcount := hl₃.count
    -- whether or not the pointer ring grows, there is now a free slot
    obtain ⟨h₄, slots₄, c₄, hgrow, hl₄, hentry₄, hfresh₄, hp₄, hroom₄⟩ :
        ∃ h₄ slots₄ c₄, (h₂.copyHeader p e).growEntries junk = some h₄ ∧
          Live h₄ slots₄ c₄ ⟨t.maxSize, Fifo.evict Header.cost (t.maxSize - e.cost) t.entries⟩
            e.cost e.bytes ∧
          EntryAt (h₄.heap p) (c₄.start + (tableBytes
            (Fifo.evict Header.cost (t.maxSize - e.cost) t.entries)).length) e ∧
          p < h₄.heapNext ∧ (∀ k, c₄.reused ≤ k → k < c₄.added → slotAt h₄ slots₄ k ≠ p) ∧
          c₄.added < c₄.reused + h₄.allocated := by
      rcases hroom with hfree | ⟨hdel, hfull⟩
      · have hne : (h₂.copyHeader p e).allocated ≠
            subWord (h₂.copyHeader p e).added (h₂.copyHeader p e).deleted := by
          rw [hcount]
          have hlen := hl₂.length
          have hle := hl₂.reused_le
          show h₂.allocated ≠ _
          omega
        exact ⟨_, _, _, if_pos hne, hl₃, hentry, hfresh, hp, hfree⟩
      · obtain ⟨h₄, slots₄, c₄, hgrow, hl₄, hheap, hnext, hstart, hp₄, hroom₄⟩ :=
          hl₃.growEntries junk hdel hfull hp
        refine ⟨h₄, slots₄, c₄, hgrow, hl₄, ?_, ?_, hp₄, hroom₄⟩
        · rw [hheap, hstart]
          exact hentry
        · rw [hnext]
          exact hfresh
    obtain ⟨h₅, slots₅, c₅, hlink, hl₅⟩ := hl₄.linkEntry hentry₄ hfresh₄ hp₄ hroom₄
    refine ⟨h₅, slots₅, c₅, ?_, ?_⟩
    · simp only [V2.addHeader, hset, hacc, htake, Option.bind_eq_bind, Option.bind_some,
        ne_eq, not_true_eq_false, if_false, hgrow, hlink, Option.pure_def]
    · rwa [Fifo.insert_of_le hfit]
  · obtain ⟨h₁, c₁, hacc, hl₁⟩ := hl.tableAccount_declined (not_le.mp hfit)
    refine ⟨h₁, slots, c₁, ?_, ?_⟩
    · simp only [V2.addHeader, hset, hacc, Option.bind_eq_bind, Option.bind_some, ne_eq,
        reduceCtorEq, not_false_eq_true, if_true, Option.pure_def]
    · rwa [Fifo.insert_of_gt (not_le.mp hfit)]

/-! ### Lookup -/

/-- An index leads to the field that the table has there. -/
theorem lookup {q₁ q₂ : List Header}
    (hl : Live h slots c ⟨m, q₁ ++ e :: q₂⟩ 0 []) :
    q₂.length < subWord h.added h.deleted ∧
      ∃ entry, h.heap (slots (subWord (subWord h.added q₂.length) 1 % h.allocated)) = entry ∧
        h.readStored entry.name = e.name ∧ h.readStored entry.value = e.value := by
  have hlen : c.deleted + (q₁ ++ e :: q₂).length = c.added := hl.length
  rw [length_append, length_cons] at hlen
  have hcount := hl.count
  have htotal : (tableBytes (q₁ ++ e :: q₂)).length ≤ ngxHttpV2TableSize := by
    have hbytes := length_tableBytes (q₁ ++ e :: q₂)
    have hfree := hl.free
    have hsize := hl.size_le
    have hents : h.free + 0 + Fifo.total Header.cost (q₁ ++ e :: q₂) = m := hfree
    have hm : m ≤ ngxHttpV2TableSize := hsize
    omega
  rw [tableBytes_append, tableBytes_cons] at htotal
  simp only [length_append, Header.length_bytes] at htotal
  refine ⟨?_, _, rfl, ?_⟩
  · rw [hcount]
    show q₂.length < (q₁ ++ e :: q₂).length
    rw [length_append, length_cons]
    omega
  have hslot : slots (subWord (subWord h.added q₂.length) 1 % h.allocated) =
      slotAt h slots (c.deleted + q₁.length) := by
    have hmod : subWord (subWord h.added q₂.length) 1 =
        (c.deleted + q₁.length) % wordRange := by
      rw [hl.added]
      have hwin := hl.window_lt
      have hle := hl.reused_le
      simp only [subWord, wordRange]
      omega
    rw [hmod, hl.counter_mod, slotAt]
  rw [hslot]
  have hentry : EntryAt (h.heap (slotAt h slots (c.deleted + q₁.length)))
      (c.start + (tableBytes q₁).length) e := by
    have hlaid := (Laid.append.mp hl.laid).2.1
    simpa using hlaid
  have hholds : Ring.Holds ngxHttpV2TableSize h.storage c.start
      (tableBytes q₁ ++ (e.name ++ (e.value ++ tableBytes q₂))) := by
    have hh := hl.holds
    rwa [append_nil, tableBytes_append, tableBytes_cons, Header.bytes,
      append_assoc] at hh
  obtain ⟨hname, hrest⟩ := Ring.holds_append.mp (Ring.holds_append.mp hholds).2
  have hvalue := (Ring.holds_append.mp hrest).1
  constructor
  · rw [Hpack.readStored, hentry.name.len]
    exact Ring.read_of_holds hentry.name.data_le (by omega)
      (hname.congr_pos hentry.name.data_mod)
  · rw [Hpack.readStored, hentry.value.len]
    exact Ring.read_of_holds hentry.value.data_le (by omega)
      (hvalue.congr_pos hentry.value.data_mod)

end Live

end Nginx.Http.V2
