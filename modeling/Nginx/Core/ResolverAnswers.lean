/-
  Core/ResolverAnswers.lean --- what the passes over the answers of a DNS response read
  (`ngx_resolver_process_a` in `src/core/ngx_resolver.c`, with IPv6).

  The answer section is gone through twice: once to check and to count, and once to
  copy the addresses.  Positions are counted from `buf`; what lies past the `n` bytes
  of the response is memory too, and every position that is read is listed, with the
  records at which each pass has been.  Without the lists the passes are the loops of
  `scanRecords` and `collectAddrs`.
-/
import Nginx.Core.Resolver

set_option autoImplicit false

namespace Nginx.Core

open List Foundation

/-! ## The first pass -/

/-- How the loop over a name is left. -/
inductive NameEnd where
  /-- `goto found` -/
  | found (i : Nat)
  /-- `goto test_length` -/
  | testLength (i : Nat)
  /-- `goto short_response` -/
  | short
  deriving DecidableEq

/-- `while (i < n)`, with what it reads. -/
def skipNameReads (buf : Nat → Byte) (n i : Nat) : NameEnd × List Nat :=
  if i < n then
    if isPointer (buf i) then (.found (i + 2), [i])
    else if buf i = 0 then (.testLength (i + 1), [i])
    else
      let rest := skipNameReads buf n (i + 1 + (buf i).toNat)
      (rest.1, i :: rest.2)
  else (.short, [])
  termination_by n - i

/-- The variables of the first pass, and where the records begin and have their heads. -/
structure FirstPass where
  i : Nat
  naddrs : Nat := 0
  cname : Option Nat := none
  ttl : Nat
  visited : List (Nat × Nat) := []
  deriving DecidableEq

/-- A record of an address. -/
def countAddress (n : Nat) (qtype type : QueryType) (i len : Nat) (pass : FirstPass) :
    Except RecordError FirstPass :=
  if qtype ≠ type then .error (.unexpectedRecord type)
  else if len ≠ type.size then .error (.invalidRecord type)
  else if n < i + type.size then .error .shortResponse
  else .ok { pass with naddrs := pass.naddrs + 1 }

/-- `switch (type)`, where `i` is behind the head. -/
def firstSwitch (n : Nat) (qtype : QueryType) (type len i : Nat) (pass : FirstPass) :
    Except RecordError FirstPass :=
  match QueryType.ofNat? type with
  | some t => countAddress n qtype t i len pass
  | none => .ok (if type = resolveCname then { pass with cname := some i } else pass)

/-- `found:` -/
def firstHead (buf : Nat → Byte) (n : Nat) (qtype : QueryType) (pass : FirstPass) (i : Nat) :
    Except RecordError FirstPass × List Nat :=
  if n ≤ i + anSize then (.error .shortResponse, [])
  else
    let reads := (List.range anSize).map (i + ·)
    if anShort buf (i + 2) ≠ 1 then (.error (.unexpectedClass (anShort buf (i + 2))), reads)
    else
      let pass :=
        { pass with ttl := min pass.ttl (anTtl buf i), visited := pass.visited ++ [(pass.i, i)] }
      let len := anShort buf (i + 8)
      ((firstSwitch n qtype (anShort buf i) len (i + anSize) pass).map fun pass =>
        { pass with i := i + anSize + len }, reads)

/-- The body of the first loop. -/
def firstRecord (buf : Nat → Byte) (n : Nat) (qtype : QueryType) (pass : FirstPass) :
    Except RecordError FirstPass × List Nat :=
  let name := skipNameReads buf n pass.i
  match name.1 with
  | .short => (.error .shortResponse, name.2)
  | .testLength i =>
    if i - pass.i < 2 then (.error .invalidName, name.2)
    else
      let rest := firstHead buf n qtype pass i
      (rest.1, name.2 ++ rest.2)
  | .found i =>
    let rest := firstHead buf n qtype pass i
    (rest.1, name.2 ++ rest.2)

/-- The first loop, with so many records to go. -/
def firstLoop (buf : Nat → Byte) (n : Nat) (qtype : QueryType) :
    Nat → FirstPass → Except RecordError FirstPass × List Nat
  | 0, pass => (.ok pass, [])
  | a + 1, pass =>
    match firstRecord buf n qtype pass with
    | (.error e, reads) => (.error e, reads)
    | (.ok pass, reads) =>
      let rest := firstLoop buf n qtype a pass
      (rest.1, reads ++ rest.2)

/-! ## The second pass -/

/-- `for ( ;; )`, which has no bound of its own: `n` turns are enough. -/
def passNameReads (buf : Nat → Byte) : Nat → Nat → Except Fault (Nat × List Nat)
  | 0, _ => .error .outOfFuel
  | fuel + 1, i =>
    if isPointer (buf i) then .ok (i + 2, [i])
    else if buf i = 0 then .ok (i + 1, [i])
    else (passNameReads buf fuel (i + 1 + (buf i).toNat)).map fun rest => (rest.1, i :: rest.2)

/-- The variables of the second pass: the addresses stored, what is read, and where the
records begin and have their heads. -/
structure SecondPass where
  i : Nat
  addrs : List Bytes := []
  reads : List Nat := []
  visited : List (Nat × Nat) := []
  deriving DecidableEq

/-- `addr[j] = htonl(..)` or `ngx_memcpy(addr6[j].s6_addr, &buf[i], 16)`; the array of the other
type is a null pointer. -/
def storeAddress (buf : Nat → Byte) (qtype type : QueryType) (pass : SecondPass) :
    Except Fault SecondPass :=
  if qtype ≠ type then .error .nullPointer
  else .ok { pass with
    addrs := pass.addrs ++ [load buf pass.i type.size],
      reads := pass.reads ++ (List.range type.size).map (pass.i + ·) }

/-- `if (type == NGX_RESOLVE_A)`, and `NGX_RESOLVE_AAAA` -/
def secondSwitch (buf : Nat → Byte) (qtype : QueryType) (type : Nat) (pass : SecondPass) :
    Except Fault SecondPass :=
  match QueryType.ofNat? type with
  | some t => storeAddress buf qtype t pass
  | none => .ok pass

/-- The body of the second loop up to `i += len`, with `len`. -/
def secondRecord (buf : Nat → Byte) (n : Nat) (qtype : QueryType) (pass : SecondPass) :
    Except Fault (SecondPass × Nat) := do
  let (i, reads) ← passNameReads buf n pass.i
  let stored ← secondSwitch buf qtype (anShort buf i) { pass with
    i := i + anSize
    -- of the head, the type and the length
    reads := pass.reads ++ reads ++ [i, i + 1, i + 8, i + 9]
    visited := pass.visited ++ [(pass.i, i)] }
  return (stored, anShort buf (i + 8))

/-- The second loop, with so many records to go. -/
def secondLoop (buf : Nat → Byte) (n : Nat) (qtype : QueryType) (naddrs : Nat) :
    Nat → SecondPass → Except Fault SecondPass
  | 0, pass => .ok pass
  | a + 1, pass => do
    let (next, len) ← secondRecord buf n qtype pass
    -- `if (++j == naddrs) { break; }`
    if next.addrs.length = pass.addrs.length + 1 ∧ next.addrs.length = naddrs then .ok next
    else secondLoop buf n qtype naddrs a { next with i := next.i + len }

/-! ## The answers -/

/-- What is left of a response: `rn->naddrs` and the addresses, `rn->ttl`, and `cname`. -/
structure Answered where
  naddrs : Nat
  addrs : List Bytes
  ttl : Nat
  cname : Option Nat
  deriving DecidableEq

/-- The passes over the answers. -/
structure Passes where
  /-- `none` where the response is not accepted -/
  answered : Option Answered
  reads : List Nat
  first : List (Nat × Nat) := []
  second : List (Nat × Nat) := []
  deriving DecidableEq

/-- `(response->nan_hi << 8) + response->nan_lo` -/
def answerCount (buf : Nat → Byte) : Nat := anShort buf 6

/-- The answers at `ans`; `rn->ttl` is `ttl` before, and `memory` is whether `ngx_resolver_alloc`
returns any. -/
def processAnswers (buf : Nat → Byte) (n ans : Nat) (qtype : QueryType)
    (ttl : Nat) (memory : Bool) : Except Fault Passes :=
  match firstLoop buf n qtype (answerCount buf) { i := ans, ttl := ttl } with
  | (.error _, reads) => .ok { answered := none, reads := reads }
  | (.ok pass, reads) =>
    if pass.naddrs = 0 then
      .ok { answered := some ⟨0, [], pass.ttl, pass.cname⟩, reads := reads, first := pass.visited }
    else if pass.naddrs ≠ 1 ∧
      ¬memory then .ok { answered := none, reads := reads, first := pass.visited }
    else
      -- `(u_short) naddrs`
      (secondLoop buf n qtype pass.naddrs (answerCount buf) { i := ans }).map fun second =>
        { answered := some ⟨pass.naddrs % 2 ^ 16, second.addrs, pass.ttl, pass.cname⟩
          reads := reads ++ second.reads
          first := pass.visited
          second := second.visited }

/-! ## The answer section -/

/-- A name at `i` that ends before `j`: labels, and behind them the root or a pointer. -/
inductive NameSpan (buf : Nat → Byte) (n : Nat) : Nat → Nat → Prop where
  | pointer {i : Nat} (inside : i < n) (hp : isPointer (buf i)) : NameSpan buf n i (i + 2)
  | root {i : Nat} (inside : i < n) (hroot : buf i = 0) : NameSpan buf n i (i + 1)
  | label {i j : Nat} (inside : i < n) (hp : ¬isPointer (buf i)) (hne : buf i ≠ 0)
      (rest : NameSpan buf n (i + 1 + (buf i).toNat) j) : NameSpan buf n i j

/-- A record that is inside the response, and so is its address if it has one. -/
structure Record (buf : Nat → Byte) (n : Nat) (qtype : QueryType) (start head : Nat) : Prop where
  name : NameSpan buf n start head
  inside : head + anSize < n
  cls : anShort buf (head + 2) = 1
  address : ∀ type : QueryType, QueryType.ofNat? (anShort buf head) = some type →
    qtype = type ∧ anShort buf (head + 8) = type.size ∧ head + anSize + type.size ≤ n

/-- Records one behind the other, each with where it begins and where its head is. -/
inductive Section (buf : Nat → Byte) (n : Nat) (qtype : QueryType) :
    Nat → List (Nat × Nat) → Prop where
  | nil (i : Nat) : Section buf n qtype i []
  | cons {start head : Nat} {rs : List (Nat × Nat)} (record : Record buf n qtype start head)
      (rest : Section buf n qtype (head + anSize + anShort buf (head + 8)) rs) :
      Section buf n qtype start ((start, head) :: rs)

/-- The record is of the type that is asked for. -/
def isAddress (buf : Nat → Byte) (qtype : QueryType) (r : Nat × Nat) : Bool :=
  QueryType.ofNat? (anShort buf r.2) == some qtype

/-- The addresses of the records. -/
def addressesOf (buf : Nat → Byte) (qtype : QueryType) (rs : List (Nat × Nat)) : List Bytes :=
  (rs.filter (isAddress buf qtype)).map fun r => load buf (r.2 + anSize) qtype.size

/-- The times to live of the records. -/
def lifetimes (buf : Nat → Byte) (rs : List (Nat × Nat)) : List Nat := rs.map fun r => anTtl buf r.2

variable {buf : Nat → Byte} {n : Nat} {qtype : QueryType}

attribute [local simp] firstLoop secondLoop passNameReads

/-! ## What the first pass reads and accepts -/

theorem skipNameReads_reads (i : Nat) : ∀ k ∈ (skipNameReads buf n i).2, k < n := by
  fun_induction skipNameReads buf n i with
  | case1 i hlt hp => exact fun k hk => mem_singleton.mp hk ▸ hlt
  | case2 i hlt hp hroot => exact fun k hk => mem_singleton.mp hk ▸ hlt
  | case3 i hlt hp hne rest ih =>
    intro k hk
    rcases mem_cons.mp hk with rfl | hk
    · exact hlt
    · exact ih k hk
  | case4 i hlt => exact fun k hk => absurd hk not_mem_nil

theorem nameSpan_of_skip {i j : Nat}
    (h : (skipNameReads buf n i).1 = .found j ∨ (skipNameReads buf n i).1 = .testLength j) :
    NameSpan buf n i j := by
  fun_induction skipNameReads buf n i with
  | case1 i hlt hp =>
    obtain rfl : i + 2 = j := by simpa using h
    exact .pointer hlt hp
  | case2 i hlt hp hroot =>
    obtain rfl : i + 1 = j := by simpa using h
    exact .root hlt hroot
  | case3 i hlt hp hne rest ih => exact .label hlt hp hne (ih h)
  | case4 i hlt => simp at h

variable {pass pass' : FirstPass}

theorem countAddress_ok {type : QueryType} {i len : Nat}
    (h : countAddress n qtype type i len pass = .ok pass') :
    (qtype = type ∧ len = type.size ∧ i + type.size ≤ n) ∧
      pass' = { pass with naddrs := pass.naddrs + 1 } := by
  rw [countAddress] at h
  split at h
  next => cases h
  next htype =>
    split at h
    next => cases h
    next hlen =>
      split at h
      next => cases h
      next hle =>
        cases h
        exact ⟨⟨not_not.mp htype, not_not.mp hlen, not_lt.mp hle⟩, rfl⟩

theorem firstSwitch_ok {type len i : Nat} (h : firstSwitch n qtype type len i pass = .ok pass') :
    (∀ t : QueryType, QueryType.ofNat? type = some t → qtype = t ∧ len = t.size ∧ i + t.size ≤ n) ∧
      pass'.naddrs = pass.naddrs + (if QueryType.ofNat? type = some qtype then 1 else 0) ∧
        pass'.ttl = pass.ttl ∧
      pass'.visited = pass.visited := by
  rw [firstSwitch] at h
  rcases htype : QueryType.ofNat? type with _ | t
  · rw [htype] at h
    cases h
    refine ⟨nofun, ?_⟩
    split <;> exact ⟨rfl, rfl, rfl⟩
  · rw [htype] at h
    obtain ⟨hfacts, rfl⟩ := countAddress_ok h
    refine ⟨fun t' ht' => ?_, ?_, rfl, rfl⟩
    · cases ht'
      exact hfacts
    · rw [if_pos (congrArg some hfacts.1.symm)]

/-- What one turn of the first loop does. -/
structure Counted (buf : Nat → Byte) (n : Nat) (qtype : QueryType)
    (pass pass' : FirstPass) (head : Nat) : Prop where
  record : Record buf n qtype pass.i head
  i_eq : pass'.i = head + anSize + anShort buf (head + 8)
  naddrs : pass'.naddrs =
    pass.naddrs + (if QueryType.ofNat? (anShort buf head) = some qtype then 1 else 0)
  ttl : pass'.ttl = min pass.ttl (anTtl buf head)
  visited : pass'.visited = pass.visited ++ [(pass.i, head)]

theorem firstHead_ok {head : Nat} (hname : NameSpan buf n pass.i head)
    (h : (firstHead buf n qtype pass head).1 = .ok pass') :
    Counted buf n qtype pass pass' head := by
  rw [firstHead] at h
  split at h
  next => cases h
  next hinside =>
    dsimp only at h
    split at h
    next => cases h
    next hcls =>
      rcases hswitch : firstSwitch n qtype (anShort buf head) (anShort buf (head + 8))
        (head + anSize)
        { pass with ttl := min pass.ttl (anTtl buf head), visited := pass.visited ++
          [(pass.i, head)] } with e | next
      · rw [hswitch] at h
        cases h
      · rw [hswitch] at h
        cases h
        obtain ⟨haddress, hnaddrs, httl, hvisited⟩ := firstSwitch_ok hswitch
        exact ⟨⟨hname, not_le.mp hinside, not_not.mp hcls, haddress⟩,
          rfl, hnaddrs, httl, hvisited⟩

theorem firstRecord_ok (h : (firstRecord buf n qtype pass).1 = .ok pass') :
    ∃ head, Counted buf n qtype pass pass' head := by
  rw [firstRecord] at h
  rcases hname : (skipNameReads buf n pass.i).1 with i | i | _
  · simp only [hname] at h
    exact ⟨i, firstHead_ok (nameSpan_of_skip (.inl hname)) h⟩
  · simp only [hname] at h
    split at h
    next => cases h
    next => exact ⟨i, firstHead_ok (nameSpan_of_skip (.inr hname)) h⟩
  · simp only [hname] at h
    cases h

theorem firstHead_reads (pass : FirstPass) (i : Nat) :
    ∀ k ∈ (firstHead buf n qtype pass i).2, k < n := by
  intro k hk
  rw [firstHead] at hk
  split at hk
  next => exact absurd hk not_mem_nil
  next hinside =>
    have hread : k ∈ (List.range anSize).map (i + ·) := by
      dsimp only at hk
      split at hk <;> exact hk
    obtain ⟨d, hd, rfl⟩ := mem_map.mp hread
    have hlt := mem_range.mp hd
    omega

theorem firstRecord_reads (pass : FirstPass) : ∀ k ∈ (firstRecord buf n qtype pass).2, k < n := by
  have hname := @skipNameReads_reads buf n pass.i
  have hboth : ∀ i, ∀ k ∈ (skipNameReads buf n pass.i).2 ++ (firstHead buf n qtype pass i).2,
    k < n := by
    intro i k hk
    rcases mem_append.mp hk with hk | hk
    · exact hname k hk
    · exact firstHead_reads pass i k hk
  rw [firstRecord]
  dsimp only
  split
  next => exact hname
  next i _ =>
    split
    next => exact hname
    next => exact hboth i
  next i _ => exact hboth i

theorem firstLoop_reads (a : Nat) (pass : FirstPass) :
    ∀ k ∈ (firstLoop buf n qtype a pass).2, k < n := by
  induction a generalizing pass with
  | zero => exact fun k hk => absurd hk not_mem_nil
  | succ a ih =>
    have hrecord := @firstRecord_reads buf n qtype pass
    rw [firstLoop]
    rcases hresult : firstRecord buf n qtype pass with ⟨e | next, reads⟩
    · rw [hresult] at hrecord
      exact hrecord
    rw [hresult] at hrecord
    intro k hk
    rcases mem_append.mp hk with hk | hk
    · exact hrecord k hk
    · exact ih next k hk

theorem firstLoop_ok {a : Nat} (h : (firstLoop buf n qtype a pass).1 = .ok pass') :
    ∃ rs, Section buf n qtype pass.i rs ∧ rs.length = a ∧ pass'.visited = pass.visited ++ rs ∧
      pass'.naddrs = pass.naddrs + (addressesOf buf qtype rs).length ∧
        pass'.ttl = (lifetimes buf rs).foldl min pass.ttl := by
  induction a generalizing pass with
  | zero =>
    cases h
    exact ⟨[], .nil _, rfl, (append_nil _).symm, rfl, rfl⟩
  | succ a ih =>
    rw [firstLoop] at h
    rcases hrecord : firstRecord buf n qtype pass with ⟨e | next, reads⟩
    · rw [hrecord] at h
      cases h
    rw [hrecord] at h
    obtain ⟨head, hcounted⟩ := firstRecord_ok (congrArg Prod.fst hrecord)
    obtain ⟨rs, hsection, hlen, hvisited, hnaddrs, httl⟩ := ih h
    rw [hcounted.i_eq] at hsection
    refine ⟨(pass.i, head) :: rs, .cons hcounted.record hsection, congrArg (· + 1) hlen, ?_, ?_, ?_⟩
    · rw [hvisited, hcounted.visited, append_assoc, singleton_append]
    · rw [hnaddrs, hcounted.naddrs, addressesOf, addressesOf, length_map,
        length_map, filter_cons, isAddress]
      by_cases htype : QueryType.ofNat? (anShort buf head) = some qtype
      · rw [if_pos htype, if_pos (beq_iff_eq.mpr htype), length_cons]
        omega
      · rw [if_neg htype, if_neg (fun heq => htype (beq_iff_eq.mp heq))]
        rfl
    · rw [httl, hcounted.ttl]
      rfl

/-! ## What the second pass stores -/

theorem pass_of_nameSpan {i j fuel : Nat} (h : NameSpan buf n i j) (hfuel : n ≤ i + fuel) :
    ∃ reads, passNameReads buf fuel i = .ok (j, reads) ∧ ∀ k ∈ reads, k < n := by
  induction h generalizing fuel with
  | @pointer i inside hp =>
    obtain ⟨fuel, rfl⟩ : ∃ f, fuel = f + 1 := Nat.exists_eq_succ_of_ne_zero (by omega)
    exact ⟨[i], by rw [passNameReads, if_pos hp], fun k hk => mem_singleton.mp hk ▸ inside⟩
  | @root i inside hroot =>
    obtain ⟨fuel, rfl⟩ : ∃ f, fuel = f + 1 := Nat.exists_eq_succ_of_ne_zero (by omega)
    exact ⟨[i], by rw [passNameReads, if_neg (by rw [hroot]; decide), if_pos hroot], fun k hk =>
      mem_singleton.mp hk ▸ inside⟩
  | @label i j inside hp hne rest ih =>
    obtain ⟨fuel, rfl⟩ : ∃ f, fuel = f + 1 := Nat.exists_eq_succ_of_ne_zero (by omega)
    obtain ⟨reads, hpass, hreads⟩ := @ih fuel (by omega)
    refine ⟨i :: reads, by rw [passNameReads, if_neg hp, if_neg hne, hpass]; rfl, fun k hk => ?_⟩
    rcases mem_cons.mp hk with rfl | hk
    · exact inside
    · exact hreads k hk

theorem secondSwitch_of_record {start head : Nat} {pass : SecondPass}
    (h : Record buf n qtype start head)
    (hi : pass.i = head + anSize) (hreads : ∀ k ∈ pass.reads, k < n) :
    ∃ next, secondSwitch buf qtype (anShort buf head) pass = .ok next ∧
      next.i = pass.i ∧ next.visited = pass.visited ∧
      next.addrs = pass.addrs ++ addressesOf buf qtype [(start, head)] ∧
        ∀ k ∈ next.reads, k < n := by
  rw [secondSwitch]
  rcases htype : QueryType.ofNat? (anShort buf head) with _ | type
  · have hother : ¬isAddress buf qtype (start, head) = true := by
      rw [isAddress, htype]
      exact Bool.false_ne_true
    rw [addressesOf, filter_cons_of_neg hother]
    exact ⟨pass, rfl, rfl, rfl, (append_nil _).symm, hreads⟩
  obtain ⟨rfl, -, hle⟩ := h.address type htype
  have haddress : isAddress buf qtype (start, head) = true := beq_iff_eq.mpr htype
  refine ⟨{ pass with
    addrs := pass.addrs ++ [load buf pass.i qtype.size],
      reads := pass.reads ++ (List.range qtype.size).map (pass.i + ·) },
    if_neg (not_not.mpr rfl), rfl, rfl, ?_, fun k hk => ?_⟩
  · rw [addressesOf, filter_cons_of_pos haddress, hi]
    rfl
  rcases mem_append.mp hk with hk | hk
  · exact hreads k hk
  · obtain ⟨d, hd, rfl⟩ := mem_map.mp hk
    have hlt := mem_range.mp hd
    omega

theorem secondRecord_of_record {pass : SecondPass} {head : Nat} (h : Record buf n qtype pass.i head)
    (hreads : ∀ k ∈ pass.reads, k < n) :
    ∃ next, secondRecord buf n qtype pass = .ok (next, anShort buf (head + 8)) ∧
      next.i = head + anSize ∧
      next.visited = pass.visited ++ [(pass.i, head)] ∧
        next.addrs = pass.addrs ++ addressesOf buf qtype [(pass.i, head)] ∧
      ∀ k ∈ next.reads, k < n := by
  obtain ⟨reads, hpass, hname⟩ := pass_of_nameSpan h.name (Nat.le_add_left n pass.i)
  have hinside : head + 10 < n := h.inside
  have hhead : ∀ k ∈ pass.reads ++ reads ++ [head, head + 1, head + 8, head + 9], k < n := by
    intro k hk
    rcases mem_append.mp hk with hk | hk
    · rcases mem_append.mp hk with hk | hk
      · exact hreads k hk
      · exact hname k hk
    · simp only [mem_cons, not_mem_nil, or_false] at hk
      omega
  obtain ⟨next, hnext, hi, hvisited, haddrs, hnextReads⟩ :=
    @secondSwitch_of_record buf n qtype pass.i head { pass with
    i := head + anSize, reads := pass.reads ++ reads ++ [head, head + 1, head + 8, head + 9]
    visited := pass.visited ++ [(pass.i, head)] } h rfl hhead
  rw [secondRecord, hpass]
  dsimp only [bind, Except.bind]
  rw [hnext]
  exact ⟨next, rfl, hi, hvisited, haddrs, hnextReads⟩

theorem addressesOf_cons (r : Nat × Nat) (rs : List (Nat × Nat)) :
    addressesOf buf qtype (r :: rs) = addressesOf buf qtype [r] ++ addressesOf buf qtype rs := by
  rw [addressesOf, addressesOf, addressesOf, ← map_append, ← filter_append, singleton_append]

theorem length_addressesOf_singleton (r : Nat × Nat) : (addressesOf buf qtype [r]).length ≤ 1 := by
  rw [addressesOf, length_map]
  exact length_filter_le ..

theorem secondLoop_of_section {rs : List (Nat × Nat)} {pass : SecondPass}
    {naddrs : Nat} (h : Section buf n qtype pass.i rs)
    (hreads : ∀ k ∈ pass.reads, k < n)
    (hnaddrs : naddrs = pass.addrs.length + (addressesOf buf qtype rs).length)
    (hmore : pass.addrs.length < naddrs) :
    ∃ out, secondLoop buf n qtype naddrs rs.length pass = .ok out ∧
      out.addrs = pass.addrs ++ addressesOf buf qtype rs ∧
      (∃ k, out.visited = pass.visited ++ rs.take k) ∧ ∀ k ∈ out.reads, k < n := by
  induction rs generalizing pass with
  | nil =>
    rw [hnaddrs] at hmore
    exact absurd hmore (lt_irrefl _)
  | cons r rs ih =>
    obtain - | @⟨start, head, _, hrecord, hrest⟩ := h
    obtain ⟨next, hnext, hi, hvisited, haddrs, hnextReads⟩ := secondRecord_of_record hrecord hreads
    have hsplit := @addressesOf_cons buf qtype (pass.i, head) rs
    have hlength := congrArg List.length hsplit
    have hnextLength := congrArg List.length haddrs
    have hle := @length_addressesOf_singleton buf qtype (pass.i, head)
    rw [length_append] at hlength hnextLength
    rw [length_cons, secondLoop, hnext]
    dsimp only [bind, Except.bind]
    by_cases hlast : next.addrs.length = pass.addrs.length + 1 ∧ next.addrs.length = naddrs
    · have hnone : addressesOf buf qtype rs = [] := eq_nil_of_length_eq_zero (by omega)
      rw [if_pos hlast]
      refine ⟨next, rfl, ?_, ⟨1, ?_⟩, hnextReads⟩
      · rw [haddrs, hsplit, hnone, append_nil]
      · rw [hvisited, take_succ_cons, take_zero]
    have hstill : next.addrs.length < naddrs := by
      rw [not_and_or] at hlast
      omega
    obtain ⟨out, hout, houtAddrs, ⟨k, houtVisited⟩, houtReads⟩ :=
      @ih { next with i := next.i + anShort buf (head + 8) } (hi ▸ hrest) hnextReads
        (by rw [hnaddrs, hlength, hnextLength, add_assoc]) hstill
    rw [if_neg hlast]
    refine ⟨out, hout, ?_, ⟨k + 1, ?_⟩, houtReads⟩
    · rw [houtAddrs, haddrs, hsplit, append_assoc]
    · rw [houtVisited, hvisited, append_assoc, singleton_append, take_succ_cons]

/-! ## The loops without what they read -/

/-- What comes of a name that begins at `start`. -/
def NameEnd.result (start : Nat) : NameEnd → Except RecordError Nat
  | .found i => .ok i
  | .testLength i => if i - start < 2 then .error .invalidName else .ok i
  | .short => .error .shortResponse

theorem skipName_eq (start : Nat) {i fuel : Nat} (hfuel : n < i + fuel) :
    skipName buf n start fuel i = (skipNameReads buf n i).1.result start := by
  fun_induction skipNameReads buf n i generalizing fuel with
  | case1 i hlt hp =>
    obtain ⟨fuel, rfl⟩ : ∃ f, fuel = f + 1 := Nat.exists_eq_succ_of_ne_zero (by omega)
    rw [skipName, if_pos hlt, if_pos hp, NameEnd.result]
  | case2 i hlt hp hroot =>
    obtain ⟨fuel, rfl⟩ : ∃ f, fuel = f + 1 := Nat.exists_eq_succ_of_ne_zero (by omega)
    rw [skipName, if_pos hlt, if_neg hp, if_pos hroot, NameEnd.result]
  | case3 i hlt hp hne rest =>
    rename_i ih
    obtain ⟨fuel, rfl⟩ : ∃ f, fuel = f + 1 := Nat.exists_eq_succ_of_ne_zero (by omega)
    rw [skipName, if_pos hlt, if_neg hp, if_neg hne]
    exact ih (by omega)
  | case4 i hlt =>
    cases fuel with
    | zero => rfl
    | succ fuel => rw [skipName, if_neg hlt, NameEnd.result]

theorem passName_eq {i j fuel fuel' : Nat} {reads : List Nat}
    (h : passNameReads buf fuel i = .ok (j, reads))
    (hfuel : fuel ≤ fuel') : passName buf fuel' i = .ok j := by
  induction fuel generalizing i j fuel' reads with
  | zero => cases h
  | succ fuel ih =>
    obtain ⟨fuel', rfl⟩ : ∃ f, fuel' = f + 1 := Nat.exists_eq_succ_of_ne_zero (by omega)
    rw [passNameReads] at h
    rw [passName]
    by_cases hp : isPointer (buf i)
    · rw [if_pos hp] at h ⊢
      cases h
      rfl
    rw [if_neg hp] at h ⊢
    by_cases hroot : buf i = 0
    · rw [if_pos hroot] at h ⊢
      cases h
      rfl
    rw [if_neg hroot] at h ⊢
    rcases hrest : passNameReads buf fuel (i + 1 + (buf i).toNat) with e | ⟨k, reads'⟩
    · rw [hrest] at h
      cases h
    · rw [hrest] at h
      cases h
      exact ih hrest (Nat.le_of_succ_le_succ hfuel)

/-- What is found of addresses and of a name. -/
def FirstPass.records (pass : FirstPass) : Records := ⟨pass.naddrs, pass.cname⟩

theorem firstRecord_fst (pass : FirstPass) :
    (firstRecord buf n qtype pass).1 =
      ((skipNameReads buf n pass.i).1.result pass.i).bind fun i =>
        (firstHead buf n qtype pass i).1 := by
  rw [firstRecord]
  rcases (skipNameReads buf n pass.i).1 with i | i | _
  · rfl
  · dsimp only [NameEnd.result]
    split <;> rfl
  · rfl

theorem scanRecords_of_firstLoop {a : Nat} (h : (firstLoop buf n qtype a pass).1 = .ok pass') :
    scanRecords buf n qtype a pass.i pass.ttl pass.records = (pass'.ttl, .ok pass'.records) := by
  induction a generalizing pass with
  | zero =>
    cases h
    rfl
  | succ a ih =>
    rw [firstLoop] at h
    have hfst := @firstRecord_fst buf n qtype pass
    rcases hrecord : firstRecord buf n qtype pass with ⟨e | next, reads⟩
    · rw [hrecord] at h
      cases h
    rw [hrecord] at h hfst
    rw [scanRecords,
      skipName_eq pass.i (Nat.lt_of_lt_of_le (Nat.lt_succ_self n) (Nat.le_add_left ..))]
    rcases hname : (skipNameReads buf n pass.i).1.result pass.i with e | i
    · rw [hname] at hfst
      cases hfst
    rw [hname, Except.bind, firstHead] at hfst
    dsimp only
    by_cases hinside : n ≤ i + anSize
    · rw [if_pos hinside] at hfst
      cases hfst
    rw [if_neg hinside] at hfst ⊢
    by_cases hcls : anShort buf (i + 2) ≠ 1
    · rw [if_pos hcls] at hfst
      cases hfst
    rw [if_neg hcls] at hfst
    rw [if_neg hcls]
    dsimp only [firstSwitch] at hfst
    have hrest := ih h
    rcases htype : QueryType.ofNat? (anShort buf i) with _ | type
    · rw [htype] at hfst
      cases hfst
      refine Eq.trans ?_ hrest
      dsimp only
      split <;> rfl
    rw [htype] at hfst
    dsimp only at hfst ⊢
    rw [countAddress] at hfst
    by_cases hother : qtype ≠ type
    · rw [if_pos hother] at hfst
      cases hfst
    rw [if_neg hother] at hfst
    rw [if_neg fun hne => hother fun heq => hne heq.symm]
    by_cases hlen : anShort buf (i + 8) ≠ type.size
    · rw [if_pos hlen] at hfst
      cases hfst
    rw [if_neg hlen] at hfst ⊢
    by_cases hfit : n < i + anSize + type.size
    · rw [if_pos hfit] at hfst
      cases hfst
    rw [if_neg hfit] at hfst ⊢
    cases hfst
    exact hrest

theorem collectAddrs_of_secondLoop {a naddrs : Nat} {pass out : SecondPass} (hn : n ≤ copyBound)
    (h : secondLoop buf n qtype naddrs a pass = .ok out) :
    (collectAddrs buf naddrs a pass.i pass.addrs).map Prod.fst = .ok out.addrs := by
  induction a generalizing pass with
  | zero =>
    cases h
    rfl
  | succ a ih =>
    rw [secondLoop, secondRecord] at h
    rcases hname : passNameReads buf n pass.i with e | ⟨i, reads⟩
    · rw [hname] at h
      cases h
    rw [hname] at h
    rw [collectAddrs, passName_eq hname hn]
    dsimp only [bind, Except.bind] at h ⊢
    rw [secondSwitch] at h
    rcases htype : QueryType.ofNat? (anShort buf i) with _ | type
    · rw [htype] at h
      dsimp only [pure, Except.pure] at h ⊢
      rw [if_neg fun hlast => absurd hlast.1 (by omega)] at h
      exact ih h
    rw [htype] at h
    dsimp only at h
    rw [storeAddress] at h
    by_cases hother : qtype ≠ type
    · rw [if_pos hother] at h
      cases h
    rw [if_neg hother] at h
    dsimp only [pure, Except.pure] at h ⊢
    have hlength : (pass.addrs ++ [load buf (i + anSize) type.size]).length =
      pass.addrs.length + 1 :=
      length_append
    by_cases hlast : (pass.addrs ++ [load buf (i + anSize) type.size]).length = naddrs
    · rw [if_pos ⟨hlength, hlast⟩] at h
      rw [if_pos hlast]
      cases h
      rfl
    · rw [if_neg fun hboth => hlast hboth.2] at h
      rw [if_neg hlast]
      exact ih h

/-! ## The whole function -/

theorem answerCount_lt (buf : Nat → Byte) : answerCount buf < 2 ^ 16 := by
  have hhigh := (buf 6).toNat_lt
  have hlow := (buf (6 + 1)).toNat_lt
  rw [answerCount, anShort, Nat.shiftLeft_eq]
  omega

/-- Both passes stay inside the response and go along the same records, and what is stored of
a response that is accepted is what the records say. -/
theorem processAnswers_exact (buf : Nat → Byte) (n ans : Nat) (qtype : QueryType)
    (ttl : Nat) (memory : Bool) :
    ∃ passes, processAnswers buf n ans qtype ttl memory = .ok passes ∧ (∀ k ∈ passes.reads, k < n) ∧
      passes.second <+: passes.first ∧
      ∀ r, passes.answered = some r →
        Section buf n qtype ans passes.first ∧ passes.first.length = answerCount buf ∧
        r.addrs = addressesOf buf qtype passes.first ∧ r.naddrs = r.addrs.length ∧
        r.ttl = (lifetimes buf passes.first).foldl min ttl := by
  have hreads := @firstLoop_reads buf n qtype (answerCount buf) { i := ans, ttl := ttl }
  rw [processAnswers]
  rcases hfirst : firstLoop buf n qtype (answerCount buf)
    { i := ans, ttl := ttl } with ⟨e | pass, reads⟩
  · rw [hfirst] at hreads
    exact ⟨_, rfl, hreads, prefix_rfl, fun r hr => nomatch hr⟩
  rw [hfirst] at hreads
  obtain ⟨rs, hsection, hlength, hvisited, hnaddrs, httl⟩ := firstLoop_ok (congrArg Prod.fst hfirst)
  rw [nil_append] at hvisited
  rw [zero_add] at hnaddrs
  dsimp only
  by_cases hzero : pass.naddrs = 0
  · rw [if_pos hzero]
    refine ⟨_, rfl, hreads, nil_prefix, fun r hr => ?_⟩
    cases hr
    have hnone : addressesOf buf qtype rs = [] := eq_nil_of_length_eq_zero (by omega)
    rw [hvisited]
    exact ⟨hsection, hlength, hnone.symm, rfl, httl⟩
  rw [if_neg hzero]
  by_cases hmemory : pass.naddrs ≠ 1 ∧ ¬memory = true
  · rw [if_pos hmemory]
    exact ⟨_, rfl, hreads, nil_prefix, fun r hr => nomatch hr⟩
  obtain ⟨second, hsecond, haddrs, ⟨k, hprefix⟩, hsecondReads⟩ :=
    @secondLoop_of_section buf n qtype rs
      { i := ans } pass.naddrs hsection (fun k hk => absurd hk not_mem_nil)
      (hnaddrs.trans (zero_add _).symm) (pos_of_ne_zero hzero)
  rw [hlength] at hsecond
  rw [nil_append] at haddrs hprefix
  rw [if_neg hmemory, hsecond]
  refine ⟨_, rfl, fun k hk => ?_, ?_, fun r hr => ?_⟩
  · rcases mem_append.mp hk with hk | hk
    · exact hreads k hk
    · exact hsecondReads k hk
  · have htake := take_prefix k rs
    rwa [← hprefix, ← hvisited] at htake
  cases hr
  have hle : (addressesOf buf qtype rs).length ≤ rs.length := by
    rw [addressesOf, length_map]
    exact length_filter_le ..
  have hlt := answerCount_lt buf
  rw [hvisited, haddrs]
  refine ⟨hsection, hlength, rfl, ?_, httl⟩
  rw [hnaddrs]
  exact Nat.mod_eq_of_lt (by omega)

end Nginx.Core
