/-
  Http/Geo.lean --- ranges of addresses (`src/http/modules/ngx_http_geo_module.c`).

  The pieces of a block of 64K addresses are held last first, in the order in which
  `ngx_http_geo_add_range` scans them.
-/
import Nginx.Core.Inet

set_option autoImplicit false

namespace Nginx.Http.Geo

open List Nginx.Core Option

variable {V : Type}

/-- `ngx_http_geo_range_t`, with `stop` for `end` -/
structure Range (V : Type) where
  value : V
  start : Nat
  stop : Nat
  deriving DecidableEq

/-- A line of the configuration: the value of the addresses from `start` to `stop`. -/
structure Entry (V : Type) where
  value : V
  start : BitVec 32
  stop : BitVec 32

/-- `ctx->high.low` -/
abbrev Low (V : Type) := Nat → Option (List (Range V))

/-- `(u_short)` -/
def uShort (n : Nat) : Nat := n % 0x10000

/-- The scan of a block by `ngx_http_geo_add_range`; none is an overlap. -/
def addPiece (s e : Nat) (value : V) : List (Range V) → Option (List (Range V))
  | [] => some [⟨value, uShort s, uShort e⟩]
  | range :: a =>
    if e < range.start then (addPiece s e value a).map (range :: ·)
    else if range.stop < s then some (⟨value, uShort s, uShort e⟩ :: range :: a)
    else if s = range.start ∧ e = range.stop then some ({ range with value } :: a)
    else if range.start < s ∧ e < range.stop then
      some ({ range with start := uShort (e + 1) } :: ⟨value, uShort s, uShort e⟩ ::
        { range with stop := uShort (s - 1) } :: a)
    else if s = range.start ∧ e < range.stop then
      some ({ range with start := uShort (e + 1) } :: ⟨value, uShort s, uShort e⟩ :: a)
    else if range.start < s ∧ e = range.stop then
      some (⟨value, uShort s, uShort e⟩ :: { range with stop := uShort (s - 1) } :: a)
    else none

/-- The block of `n`, and how the next one begins. -/
theorem toNat_block (n : BitVec 32) : (n >>> 16).toNat = n.toNat / 65536 := by
  rw [BitVec.toNat_ushiftRight, Nat.shiftRight_eq_div_pow]

theorem toNat_low (n : BitVec 32) : (n &&& 0xffff).toNat = n.toNat % 65536 := by
  rw [BitVec.toNat_and]
  exact Nat.and_two_pow_sub_one_eq_mod n.toNat 16

theorem toNat_last (n : BitVec 32) : (n ||| 0xffff).toNat = n.toNat / 65536 * 65536 + 65535 := by
  have hlast : n.toNat / 65536 * 65536 + 65535 = 2 ^ 16 * (n.toNat / 2 ^ 16) + (2 ^ 16 - 1) := by
    omega
  rw [BitVec.toNat_or, hlast]
  refine Nat.eq_of_testBit_eq fun i => ?_
  rw [Nat.testBit_two_pow_mul_add _ (by decide), Nat.testBit_or, Nat.testBit_div_two_pow]
  change (n.toNat.testBit i || (2 ^ 16 - 1).testBit i) = _
  rw [Nat.testBit_two_pow_sub_one]
  by_cases hi : i < 16
  · simp [hi]
  · simp [hi, Nat.sub_add_cancel (not_lt.mp hi)]

theorem toNat_next (n : BitVec 32) :
    ((n + 0x10000) &&& 0xffff0000).toNat = (n.toNat / 65536 + 1) % 65536 * 65536 := by
  have hnext : (n.toNat / 65536 + 1) % 65536 * 65536 =
    2 ^ 16 * ((n + 0x10000).toNat / 2 ^ 16) + 0 := by
    rw [BitVec.toNat_add]
    change _ = 2 ^ 16 * ((n.toNat + 65536) % 2 ^ 32 / 2 ^ 16) + 0
    omega
  have hmask : (0xffff0000 : BitVec 32).toNat = 2 ^ 16 * (2 ^ 16 - 1) + 0 := rfl
  rw [BitVec.toNat_and, hnext, hmask]
  refine Nat.eq_of_testBit_eq fun i => ?_
  rw [Nat.testBit_and, Nat.testBit_two_pow_mul_add _ (by decide),
    Nat.testBit_two_pow_mul_add _ (by decide),
    Nat.testBit_div_two_pow, Nat.testBit_two_pow_sub_one]
  generalize hsum : (n + 0x10000).toNat = m
  have hm : m < 2 ^ 32 := hsum ▸ (n + 0x10000).isLt
  by_cases hi : i < 16
  · simp [hi]
  have hback : i - 16 + 16 = i := Nat.sub_add_cancel (not_lt.mp hi)
  by_cases hlt : i - 16 < 16
  · simp [hi, hlt, hback]
  · have hsmall : m.testBit i = false :=
      Nat.testBit_lt_two_pow (Nat.lt_of_lt_of_le hm (Nat.pow_le_pow_right (by decide) (by omega)))
    simp [hi, hlt, hback, hsmall]

/-- `ctx->high.low[h] = a` -/
def setBlock (low : Low V) (h : Nat) (a : List (Range V)) :
    Low V := fun i => if i = h then some a else low i

/-- The loop of `ngx_http_geo_add_range` over the blocks from `n` on. -/
def addBlocks (start stop : BitVec 32) (value : V) (n : BitVec 32) (low : Low V) : Option (Low V) :=
  if n ≤ stop then
    let h := n >>> 16
    let s := if n = start then n &&& 0xffff else 0
    let e := if stop < n ||| 0xffff then stop &&& 0xffff else 0xffff
    match addPiece s.toNat e.toNat value ((low h.toNat).getD []) with
    | none => none
    | some a =>
      let low := setBlock low h.toNat a
      if h = 0xffff then some low else addBlocks start stop value ((n + 0x10000) &&& 0xffff0000) low
  else some low
termination_by 0x10000 - (n >>> 16).toNat
decreasing_by
  rename_i hne
  have hlt := n.isLt
  have hblock : n.toNat / 65536 ≠ 65535 := fun h =>
    hne (BitVec.eq_of_toNat_eq (by rw [toNat_block, h]; rfl))
  rw [toNat_block, toNat_block, toNat_next]
  omega

/-- `ngx_http_geo_add_range` -/
def addRange (low : Low V) (entry : Entry V) : Option (Low V) :=
  addBlocks entry.start entry.stop entry.value entry.start low

/-- The entries of a `geo` block one after another; none if one is refused. -/
def addRanges (entries : List (Entry V)) : Option (Low V) := entries.foldlM addRange fun _ => none

/-- The table that `ngx_http_geo_block` builds. -/
def table (low : Low V) : Low V := fun i =>
  match low i with
  | none => none
  | some a => if a.length = 0 then none else some a.reverse

/-- The `do` loop of `ngx_http_geo_range_variable`, up to the piece without a value. -/
def rangeLoop (n : Nat) (v : V) : List (Range V) → V
  | [] => v
  | range :: rest => if range.start ≤ n ∧ n ≤ range.stop then range.value else rangeLoop n v rest

/-- `inaddr` of `ngx_http_geo_range_variable`; none is an address that `ngx_http_geo_addr` did not
find. -/
def inaddrOf : Option SockAddr → BitVec 32
  | some (.inet6 inaddr6 _) => if inaddr6.isV4Mapped then inaddr6.inaddr else inaddrNone
  | some .unix => inaddrNone
  | some (.inet inaddr _) => inaddr
  | none => inaddrNone

/-- `ngx_http_geo_range_variable` -/
def rangeVariable (default : V) (low : Option (Low V)) (addr : Option SockAddr) : V :=
  let inaddr := inaddrOf addr
  match low with
  | none => default
  | some low =>
    match low (inaddr >>> 16).toNat with
    | none => default
    | some range => rangeLoop (inaddr &&& 0xffff).toNat default range

attribute [local simp] addPiece rangeLoop

/-! ## A block -/

/-- The pieces of a block: none is empty, and each lies below those ahead of it. -/
structure Pieces (a : List (Range V)) : Prop where
  nonempty : ∀ range ∈ a, range.start ≤ range.stop ∧ range.stop ≤ 0xffff
  apart : a.Pairwise fun range below => below.stop < range.start

/-- The value of the piece with `n`. -/
def valueIn (n : Nat) : List (Range V) → Option V
  | [] => none
  | range :: a => if range.start ≤ n ∧ n ≤ range.stop then some range.value else valueIn n a

attribute [local simp] valueIn

variable {s e n : Nat} {value v : V} {range : Range V} {a b : List (Range V)}

theorem pieces_nil : Pieces ([] : List (Range V)) := ⟨fun _ h => absurd h not_mem_nil, .nil⟩

theorem pieces_cons :
    Pieces (range :: a) ↔
      (range.start ≤ range.stop ∧ range.stop ≤ 0xffff) ∧
        (∀ below ∈ a, below.stop < range.start) ∧ Pieces a := by
  constructor
  · intro h
    obtain ⟨hfirst, hrest⟩ := forall_mem_cons.mp h.nonempty
    obtain ⟨hbelow, hapart⟩ := pairwise_cons.mp h.apart
    exact ⟨hfirst, hbelow, hrest, hapart⟩
  · rintro ⟨hfirst, hbelow, h⟩
    exact ⟨forall_mem_cons.mpr ⟨hfirst, h.nonempty⟩, pairwise_cons.mpr ⟨hbelow, h.apart⟩⟩

theorem valueIn_above (h : ∀ range ∈ a, range.stop < n) : valueIn n a = none := by
  induction a with
  | nil => rfl
  | cons range a ih =>
    obtain ⟨hfirst, hrest⟩ := forall_mem_cons.mp h
    rw [valueIn, if_neg (by omega), ih hrest]

theorem uShort_of_le (h : n ≤ 0xffff) : uShort n = n := Nat.mod_eq_of_lt (Nat.lt_succ_of_le h)

/-- What a scan that finds a place does: the new piece takes its numbers over, no piece reaches
further than those before and the new one, and the pieces stay in order. -/
theorem addPiece_spec (hse : s ≤ e) (he : e ≤ 0xffff) (ha : Pieces a)
    (h : addPiece s e value a = some b) :
    Pieces b ∧ (∀ n, valueIn n b = if s ≤ n ∧ n ≤ e then some value else valueIn n a) ∧
      ∀ t ∈ b, t.stop ≤ e ∨ ∃ u ∈ a, t.stop ≤ u.stop := by
  have hs' : uShort s = s := uShort_of_le (hse.trans he)
  have he' : uShort e = e := uShort_of_le he
  induction a generalizing b with
  | nil =>
    rw [addPiece, hs', he', some.injEq] at h
    subst h
    exact ⟨pieces_cons.mpr ⟨⟨hse, he⟩, fun _ h => absurd h not_mem_nil, pieces_nil⟩, fun n => rfl,
      fun t ht => .inl (by rw [mem_singleton.mp ht])⟩
  | cons range a ih =>
    obtain ⟨hrange, hbelow, hrest⟩ := pieces_cons.mp ha
    have hkeep : ∀ t ∈ a, t.stop ≤ e ∨ ∃ u ∈ range :: a, t.stop ≤ u.stop :=
      fun t ht => .inr ⟨t, mem_cons_of_mem _ ht, le_rfl⟩
    have hup : e + 1 ≤ 0xffff → uShort (e + 1) = e + 1 := uShort_of_le
    have hdown : uShort (s - 1) = s - 1 := uShort_of_le (by omega)
    rw [addPiece, hs', he'] at h
    split_ifs at h with hover hunder hsame hin hleft hright
    · obtain ⟨b, hb, rfl⟩ := map_eq_some_iff.mp h
      obtain ⟨hpieces, hvalue, hreach⟩ := ih hrest hb
      refine ⟨pieces_cons.mpr ⟨hrange, fun t ht => ?_, hpieces⟩, fun n => ?_, ?_⟩
      · rcases hreach t ht with hle | ⟨u, hu, hle⟩
        · exact lt_of_le_of_lt hle hover
        · exact lt_of_le_of_lt hle (hbelow u hu)
      · rw [valueIn, valueIn, hvalue]
        split_ifs <;> first | rfl | omega
      · refine forall_mem_cons.mpr ⟨.inr ⟨range, mem_cons_self, le_rfl⟩, fun t ht => ?_⟩
        exact (hreach t ht).imp_right fun ⟨u, hu, hle⟩ => ⟨u, mem_cons_of_mem _ hu, hle⟩
    all_goals
      rw [some.injEq] at h
      subst h
    · refine ⟨pieces_cons.mpr ⟨⟨hse, he⟩, forall_mem_cons.mpr ⟨hunder, fun t ht => ?_⟩, ha⟩,
        fun n => rfl, ?_⟩
      · exact Nat.lt_of_lt_of_le (hbelow t ht) (hrange.1.trans hunder.le)
      · exact forall_mem_cons.mpr
          ⟨.inl le_rfl, forall_mem_cons.mpr ⟨.inr ⟨range, mem_cons_self, le_rfl⟩, hkeep⟩⟩
    · refine ⟨pieces_cons.mpr ⟨hrange, hbelow, hrest⟩, fun n =>
        ?_, forall_mem_cons.mpr ⟨.inl hsame.2.ge, hkeep⟩⟩
      rw [valueIn, valueIn, hsame.1, hsame.2]
      split_ifs <;> rfl
    · rw [hup (by omega), hdown]
      refine ⟨?_, fun n => ?_, ?_⟩
      · refine pieces_cons.mpr
          ⟨⟨hin.2, hrange.2⟩, ?_,
          pieces_cons.mpr ⟨⟨hse, he⟩, ?_, pieces_cons.mpr ⟨?_, hbelow, hrest⟩⟩⟩
        · refine forall_mem_cons.mpr ⟨Nat.lt_succ_self e, forall_mem_cons.mpr ⟨?_, fun t ht => ?_⟩⟩
          · change s - 1 < e + 1
            omega
          · exact (hbelow t ht).trans (hin.1.trans_le (hse.trans (Nat.le_succ e)))
        · refine forall_mem_cons.mpr ⟨?_, fun t ht => (hbelow t ht).trans hin.1⟩
          change s - 1 < s
          omega
        · change range.start ≤ s - 1 ∧ s - 1 ≤ 0xffff
          omega
      · simp only [valueIn]
        split_ifs <;> first | rfl | omega
      · refine forall_mem_cons.mpr ⟨.inr ⟨range, mem_cons_self, le_rfl⟩, forall_mem_cons.mpr
          ⟨.inl le_rfl, forall_mem_cons.mpr ⟨.inl ?_, hkeep⟩⟩⟩
        change s - 1 ≤ e
        omega
    · rw [hup (by omega)]
      refine ⟨?_, fun n => ?_, ?_⟩
      · refine pieces_cons.mpr
          ⟨⟨hleft.2, hrange.2⟩, forall_mem_cons.mpr ⟨Nat.lt_succ_self e, fun t ht => ?_⟩,
          pieces_cons.mpr ⟨⟨hse, he⟩, fun t ht => ?_, hrest⟩⟩
        · exact (hbelow t ht).trans_le (hleft.1 ▸ hse.trans (Nat.le_succ e))
        · exact (hbelow t ht).trans_eq hleft.1.symm
      · simp only [valueIn]
        split_ifs <;> first | rfl | omega
      · exact forall_mem_cons.mpr
          ⟨.inr ⟨range, mem_cons_self, le_rfl⟩, forall_mem_cons.mpr ⟨.inl le_rfl, hkeep⟩⟩
    · rw [hdown]
      refine ⟨?_, fun n => ?_, ?_⟩
      · refine pieces_cons.mpr
          ⟨⟨hse, he⟩, forall_mem_cons.mpr ⟨?_, fun t ht => ?_⟩, pieces_cons.mpr ⟨?_, hbelow, hrest⟩⟩
        · change s - 1 < s
          omega
        · exact (hbelow t ht).trans hright.1
        · change range.start ≤ s - 1 ∧ s - 1 ≤ 0xffff
          omega
      · simp only [valueIn]
        split_ifs <;> first | rfl | omega
      · refine forall_mem_cons.mpr ⟨.inl le_rfl, forall_mem_cons.mpr ⟨.inl ?_, hkeep⟩⟩
        change s - 1 ≤ e
        omega

/-- A refusal: a piece has numbers in common with the new one, which is not inside it. -/
theorem addPiece_none (h : addPiece s e value a = none) :
    ∃ range ∈ a, (range.start ≤ e ∧ s ≤ range.stop) ∧ ¬(range.start ≤ s ∧ e ≤ range.stop) := by
  induction a with
  | nil => cases h
  | cons range a ih =>
    rw [addPiece] at h
    split_ifs at h with hover hunder hsame hin hleft hright
    · obtain ⟨u, hu, hover⟩ := ih (map_eq_none_iff.mp h)
      exact ⟨u, mem_cons_of_mem _ hu, hover⟩
    · exact ⟨range, mem_cons_self, by omega, by omega⟩

/-! ## All blocks -/

/-- The pieces of the block `h`. -/
def piecesOf (low : Low V) (h : Nat) : List (Range V) := (low h).getD []

/-- The value of the piece with `addr` -/
def valueAt (low : Low V) (addr : Nat) :
    Option V := valueIn (addr % 65536) (piecesOf low (addr / 65536))

/-- Some piece of the block `h` has addresses in common with an entry, whose part in the block is
not inside it. -/
def Overlaps (low : Low V) (start stop h : Nat) : Prop :=
  ∃ range ∈ piecesOf low h,
    (h * 65536 + range.start ≤ min stop (h * 65536 + 65535) ∧
      max start (h * 65536) ≤ h * 65536 + range.stop) ∧
      ¬(h * 65536 + range.start ≤ max start (h * 65536) ∧
        min stop (h * 65536 + 65535) ≤ h * 65536 + range.stop)

variable {start stop m : BitVec 32} {low low' : Low V} {h addr : Nat}

theorem piecesOf_setBlock (i : Nat) :
    piecesOf (setBlock low h a) i = if i = h then a else piecesOf low i := by
  rw [piecesOf, setBlock]
  split <;> rfl

theorem toNat_first (hs : start ≤ m) (hm : m = start ∨ m.toNat % 65536 = 0) :
    (if m = start then m &&& 0xffff else 0).toNat =
      max start.toNat (m.toNat / 65536 * 65536) - m.toNat / 65536 * 65536 := by
  have hle := BitVec.le_def.mp hs
  split
  · next heq =>
    rw [toNat_low, heq]
    omega
  · next hne =>
    have hround := hm.resolve_left hne
    change 0 = _
    omega

theorem toNat_upto (hle : m ≤ stop) :
    (if stop < m ||| 0xffff then stop &&& 0xffff else 0xffff).toNat =
      min stop.toNat (m.toNat / 65536 * 65536 + 65535) - m.toNat / 65536 * 65536 := by
  have hle' := BitVec.le_def.mp hle
  split
  · next hlt =>
    have hlt' := BitVec.lt_def.mp hlt
    rw [toNat_last] at hlt'
    rw [toNat_low]
    omega
  · next hge =>
    have hge' := mt BitVec.lt_def.mpr hge
    rw [toNat_last] at hge'
    change 65535 = _
    omega

/-- What a round does: it refuses the part of the entry in the block of `m`, or puts it there and
is the last one, or goes on with the next block. -/
theorem addBlocks_cases (value : V) (low : Low V) (hs : start ≤ m)
    (hm : m = start ∨ m.toNat % 65536 = 0) (hle : m ≤ stop)
    (hh : h = m.toNat / 65536)
    (hfirst : s = max start.toNat (h * 65536) - h * 65536)
    (hupto : e = min stop.toNat (h * 65536 + 65535) - h * 65536) :
    (addPiece s e value (piecesOf low h) = none ∧ addBlocks start stop value m low = none) ∨
      ∃ b, addPiece s e value (piecesOf low h) = some b ∧
        ((h = 65535 ∧ addBlocks start stop value m low = some (setBlock low h b)) ∨
          (h ≠ 65535 ∧ addBlocks start stop value m low =
            addBlocks start stop value ((m + 0x10000) &&& 0xffff0000) (setBlock low h b))) := by
  subst hh hfirst hupto
  have hlast : m >>> 16 = 0xffff ↔ m.toNat / 65536 = 65535 := by
    rw [← BitVec.toNat_inj, toNat_block]
    rfl
  rw [addBlocks, if_pos hle]
  simp only [toNat_block, toNat_first hs hm, toNat_upto hle, hlast]
  change (addPiece _ _ value (piecesOf low _) = none ∧ _) ∨ _
  rw [show (low (m.toNat / 65536)).getD [] = piecesOf low (m.toNat / 65536) from rfl]
  cases addPiece _ _ value (piecesOf low (m.toNat / 65536)) with
  | none => exact .inl ⟨rfl, rfl⟩
  | some b =>
    refine .inr ⟨b, rfl, ?_⟩
    by_cases hend : m.toNat / 65536 = 65535
    · exact .inl ⟨hend, if_pos hend⟩
    · exact .inr ⟨hend, if_neg hend⟩

/-- One block is given the part of the entry from `m` on. -/
theorem valueAt_setBlock (stop : BitVec 32)
    (hb : ∀ n, valueIn n b = if s ≤ n ∧ n ≤ e then some value else valueIn n (piecesOf low h))
    (hs : h * 65536 + s = m.toNat) (he : h * 65536 + e = min stop.toNat (h * 65536 + 65535))
    (hlt : s < 65536) :
    valueAt (setBlock low h b) addr =
      if m.toNat ≤ addr ∧
        addr ≤ min stop.toNat (h * 65536 + 65535) then some value else valueAt low addr := by
  rw [valueAt, piecesOf_setBlock]
  by_cases hblock : addr / 65536 = h
  · rw [if_pos hblock, hb, valueAt, hblock]
    exact if_congr (by omega) rfl rfl
  · rw [if_neg hblock, if_neg (by omega), valueAt]

/-- What the loop does: every address from `m` to the end of the entry is given the value. -/
theorem addBlocks_spec (hs : start ≤ m) (hm : m = start ∨ m.toNat % 65536 = 0)
    (hlow : ∀ h, Pieces (piecesOf low h))
    (hrun : addBlocks start stop value m low = some low') :
    (∀ h, Pieces (piecesOf low' h)) ∧
      ∀ addr, valueAt low' addr = if m.toNat ≤ addr ∧
        addr ≤ stop.toNat then some value else valueAt low addr := by
  induction hk : 65536 - m.toNat / 65536 using Nat.strong_induction_on generalizing m low with
  | _ k ih =>
    have hlt := stop.isLt
    by_cases hle : m ≤ stop
    · have hle' := BitVec.le_def.mp hle
      have hs' := BitVec.le_def.mp hs
      have hfirst : max start.toNat (m.toNat / 65536 * 65536) = m.toNat := by
        rcases hm with rfl | hround
        · omega
        · omega
      obtain ⟨-, hnone⟩ | ⟨b, hadd, hround⟩ := addBlocks_cases value low hs hm hle rfl rfl rfl
      · cases hrun.symm.trans hnone
      obtain ⟨hpieces, hvalue, -⟩ := addPiece_spec (by omega) (by omega) (hlow _) hadd
      have hset : ∀ h, Pieces (piecesOf (setBlock low (m.toNat / 65536) b) h) := fun h => by
        rw [piecesOf_setBlock]
        split
        · exact hpieces
        · exact hlow h
      have hone : ∀ addr, valueAt (setBlock low (m.toNat / 65536) b) addr = _ :=
        fun addr => valueAt_setBlock stop hvalue (m := m) (by omega) (by omega) (by omega)
      rcases hround with ⟨hend, heq⟩ | ⟨hend, heq⟩
      · obtain rfl := some.inj (heq.symm.trans hrun)
        refine ⟨hset, fun addr => (hone addr).trans (if_congr ?_ rfl rfl)⟩
        omega
      have hnext := toNat_next m
      rw [heq] at hrun
      obtain ⟨hpieces', hvalue'⟩ :=
        ih _ (by omega) (BitVec.le_def.mpr (by omega)) (.inr (by omega)) hset hrun rfl
      refine ⟨hpieces', fun addr => ?_⟩
      rw [hvalue', hone]
      split_ifs <;> first | rfl | omega
    · rw [addBlocks, if_neg hle, some.injEq] at hrun
      subst hrun
      have hgt := mt BitVec.le_def.mpr hle
      exact ⟨hlow, fun addr => (if_neg (by omega)).symm⟩

/-- What is refused overlaps a piece of some block from that of `m` on. -/
theorem addBlocks_none (hs : start ≤ m) (hm : m = start ∨ m.toNat % 65536 = 0)
    (hrun : addBlocks start stop value m low = none) :
    ∃ h, m.toNat / 65536 ≤ h ∧ Overlaps low start.toNat stop.toNat h := by
  induction hk : 65536 - m.toNat / 65536 using Nat.strong_induction_on generalizing m low with
  | _ k ih =>
    by_cases hle : m ≤ stop
    · have hle' := BitVec.le_def.mp hle
      have hs' := BitVec.le_def.mp hs
      obtain ⟨hadd, -⟩ | ⟨b, -, ⟨-, heq⟩ | ⟨hend, heq⟩⟩ :=
        addBlocks_cases value low hs hm hle rfl rfl rfl
      · obtain ⟨range, hmem, hover, hnot⟩ := addPiece_none hadd
        exact ⟨_, le_rfl, range, hmem, by omega, by omega⟩
      · cases hrun.symm.trans heq
      have hnext := toNat_next m
      rw [heq] at hrun
      obtain ⟨h, hh, hover⟩ :=
        ih _ (by omega) (BitVec.le_def.mpr (by omega)) (.inr (by omega)) hrun rfl
      refine ⟨h, by omega, ?_⟩
      rwa [Overlaps, piecesOf_setBlock, if_neg (by omega)] at hover
    · rw [addBlocks, if_neg hle] at hrun
      cases hrun

/-! ## Runs -/

/-- The value of the last of the entries with `addr`. -/
def lastValue (addr : BitVec 32) (entries : List (Entry V)) : Option V :=
  (entries.reverse.find? fun entry => entry.start ≤ addr ∧ addr ≤ entry.stop).map (·.value)

theorem lastValue_cons (addr : BitVec 32) (entry : Entry V) (entries : List (Entry V)) :
    lastValue addr (entry :: entries) =
      (lastValue addr entries).or
        (if entry.start ≤ addr ∧ addr ≤ entry.stop then some entry.value else none) := by
  rw [lastValue, reverse_cons, find?_append, lastValue]
  cases entries.reverse.find? _ with
  | some last => rfl
  | none =>
    by_cases hin : entry.start ≤ addr ∧ addr ≤ entry.stop <;> simp [hin]

theorem addRange_spec {entry : Entry V} (hlow : ∀ h, Pieces (piecesOf low h))
    (hrun : addRange low entry = some low') :
    (∀ h, Pieces (piecesOf low' h)) ∧ ∀ addr : BitVec 32,
      valueAt low' addr.toNat = if entry.start ≤ addr ∧
        addr ≤ entry.stop then some entry.value else valueAt low addr.toNat := by
  obtain ⟨hpieces, hvalue⟩ := addBlocks_spec (BitVec.le_refl _) (.inl rfl) hlow hrun
  exact ⟨hpieces, fun addr => hvalue addr.toNat⟩

theorem addRanges_spec {entries : List (Entry V)} (hlow : ∀ h, Pieces (piecesOf low h))
    (hrun : entries.foldlM addRange low = some low') :
    (∀ h, Pieces (piecesOf low' h)) ∧
      ∀ addr : BitVec 32,
        valueAt low' addr.toNat = (lastValue addr entries).or (valueAt low addr.toNat) := by
  induction entries generalizing low with
  | nil =>
    obtain rfl := some.inj hrun
    exact ⟨hlow, fun addr => rfl⟩
  | cons entry entries ih =>
    obtain ⟨next, hadd, hrest⟩ := bind_eq_some_iff.mp ((foldlM_cons ..).symm.trans hrun)
    obtain ⟨hnext, hone⟩ := addRange_spec hlow hadd
    obtain ⟨hpieces, hvalue⟩ := ih hnext hrest
    refine ⟨hpieces, fun addr => ?_⟩
    rw [hvalue, lastValue_cons, hone, Option.or_assoc]
    split <;> simp

/-! ## The table -/

theorem rangeLoop_concat (n : Nat) (v : V) (a : List (Range V)) (range : Range V) :
    rangeLoop n v (a ++ [range]) =
      rangeLoop n (if range.start ≤ n ∧ n ≤ range.stop then range.value else v) a := by
  induction a with
  | nil => rfl
  | cons first a ih => rw [cons_append, rangeLoop, rangeLoop, ih]

/-- As the pieces are apart, the first one found is the only one. -/
theorem rangeLoop_reverse (ha : Pieces a) : rangeLoop n v a.reverse = (valueIn n a).getD v := by
  induction a generalizing v with
  | nil => rfl
  | cons range a ih =>
    obtain ⟨-, hbelow, hrest⟩ := pieces_cons.mp ha
    rw [reverse_cons, rangeLoop_concat, ih hrest, valueIn]
    split
    · next hin => rw [valueIn_above fun below hmem => (hbelow below hmem).trans_le hin.1]; rfl
    · rfl

/-- `ngx_http_geo_range_variable` reads what the pieces say. -/
theorem rangeVariable_table (hlow : ∀ h, Pieces (piecesOf low h))
    {sa : SockAddr} {addr : BitVec 32} {port : Nat}
    (hsa : sa.family = .inet addr port) (v : V) :
    rangeVariable v (some (table low)) (some sa) = (valueAt low addr.toNat).getD v := by
  have haddr : inaddrOf (some sa) = addr := by
    cases sa with
    | inet inaddr _ => exact (SockAddr.inet.inj hsa).1
    | inet6 inaddr6 _ =>
      rw [SockAddr.family] at hsa
      rw [inaddrOf]
      split at hsa
      · next hmapped => rw [if_pos hmapped]; exact (SockAddr.inet.inj hsa).1
      · cases hsa
    | unix => cases hsa
  rw [rangeVariable, haddr, toNat_block, toNat_low, valueAt,
    ← rangeLoop_reverse (hlow _), table, piecesOf]
  cases low (addr.toNat / 65536) with
  | none => rfl
  | some a =>
    cases a with
    | nil => rfl
    | cons range a => rfl

/-- The pieces of a block of the table: none is empty, and each lies below the next. -/
structure Sorted (a : List (Range V)) : Prop where
  nonempty : ∀ range ∈ a, range.start ≤ range.stop ∧ range.stop ≤ 0xffff
  apart : a.Pairwise fun range next => range.stop < next.start

/-- After entries that were all accepted: the pieces of every block are in order and apart, each
IPv4 address has the value of the last entry with it, and what is refused now overlaps a piece
without being inside it. -/
theorem geoRanges_exact (low : Low V) (entries : List (Entry V))
    (hrun : addRanges entries = some low) :
    (∀ h a, table low h = some a → Sorted a) ∧
      (∀ default sa addr port, sa.family = .inet addr port →
        rangeVariable default (some (table low)) (some sa) =
          (lastValue addr entries).getD default) ∧
      ∀ entry, addRange low entry = none →
        ∃ h, Overlaps low entry.start.toNat entry.stop.toNat h := by
  have hempty : ∀ h, Pieces (piecesOf (fun _ => none : Low V) h) := fun _ => pieces_nil
  obtain ⟨hpieces, hvalue⟩ := addRanges_spec hempty hrun
  refine ⟨fun h a ha => ?_, fun default sa addr port hsa => ?_, fun entry hnone => ?_⟩
  · have hp := hpieces h
    rw [table] at ha
    rw [piecesOf] at hp
    cases hlow : low h with
    | none => simp [hlow] at ha
    | some b =>
      simp only [hlow, getD_some] at ha hp
      split at ha
      · cases ha
      · obtain rfl := some.inj ha
        exact ⟨fun range hr => hp.nonempty range (mem_reverse.mp hr), pairwise_reverse.mpr hp.apart⟩
  · rw [rangeVariable_table hpieces hsa, hvalue]
    change ((lastValue addr entries).or none).getD default = _
    rw [or_none]
  · obtain ⟨h, -, hover⟩ := addBlocks_none (BitVec.le_refl _) (.inl rfl) hnone
    exact ⟨h, hover⟩

/-- A range over the edge of a block, and one inside it. -/
def nested : List (Entry Nat) := [⟨1, 0x0a000000, 0x0a0100ff⟩, ⟨2, 0x0a000100, 0x0a0001ff⟩]

theorem geoRanges_exact_nested :
    ∃ low, addRanges nested = some low ∧
      rangeVariable 0 (some (table low)) (some (.inet 0x0a000180 80)) = 2 := by
  have hsome : (addRanges nested).isSome = true := by
    simp [addRanges, nested, addRange, addBlocks, setBlock, uShort]
  obtain ⟨low, hlow⟩ := isSome_iff_exists.mp hsome
  refine ⟨low, hlow, ?_⟩
  rw [(geoRanges_exact low nested hlow).2.1 0 _ 0x0a000180 80 rfl]
  rfl

end Nginx.Http.Geo
