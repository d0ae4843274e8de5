/-
  Core/ArrayGrow.lean --- what the calls on an array do to the pool and to memory.

  An array whose elements are the last in the pool takes the memory behind them, and
  gives its memory back.  A piece that ends where the used part of the block ends lies in
  that block, so that both stay within it.
-/
import Nginx.Core.Array

set_option autoImplicit false

namespace Nginx.Core.Arena

open List Foundation Foundation.Region

variable {psize : Nat} {s : Arena} {larges pieces : List Region}

variable {first : Block} {rest : List Block}

theorem setLast_eq (hblocks : s.pool.blocks = first :: rest) (last : Nat) :
    s.setLast last = withBlocks s ([] ++ { first with last := last } :: rest) := by
  rw [setLast, hblocks]
  rfl

theorem first_eq {first : Block} {rest : List Block} (hblocks : s.pool.blocks = first :: rest) :
    s.pool.first = first := by
  rw [Pool.first, hblocks]
  rfl

theorem Inv.extend {base k d : Nat} (h : Inv psize s larges (⟨base, k⟩ :: pieces))
    (hend : base + k = s.pool.first.last)
    (hroom : s.pool.first.last + d ≤ s.pool.first.stop) :
    Inv psize (s.setLast (s.pool.first.last + d)) larges (⟨base, k + d⟩ :: pieces) := by
  obtain ⟨first, rest, hblocks, -⟩ := h.frame.first
  rw [first_eq hblocks] at hend hroom ⊢
  rw [setLast_eq hblocks]
  have hx := @Frame.carve _ _ _ h.frame [] _ _ hblocks _ _ (le_refl first.last) hroom
  have hboth := h.carved hx
  rw [← hend] at hboth hx ⊢
  exact ⟨hboth.frame, hboth.allocs, hboth.records,
    hboth.claimed.merge fun r hr => (hx.fresh r (mem_append_right _ hr)).symm⟩

variable {x : Region}

/-- A piece that ends with the used part of the pool's own block begins behind its header. -/
theorem Inv.header_le (h : Inv psize s larges (x :: pieces))
    (hblocks : s.pool.blocks = first :: rest) (hend : x.base + x.size = first.last) :
    first.addr + first.header ≤ x.base := by
  have hmem : first ∈ s.pool.blocks := by
    rw [hblocks]
    exact mem_cons_self
  have hok := h.frame.blocks first hmem
  have hlow := hok.low
  have hhigh := hok.high
  have hstop := hok.stop
  have hheader := hok.header
  by_contra hlt
  -- the last byte of the header would be in the piece
  have hdata : dataSize = 32 := rfl
  have hx : first.addr + first.header - 1 ∈ x := by
    rw [mem_iff]
    omega
  have hspan : first.addr + first.header - 1 ∈ span psize first := by
    rw [mem_iff, span]
    simp only
    omega
  obtain ⟨hothers, hlarges⟩ := @Frame.separate_at _ _ _ [] _ _ h.frame hblocks
  obtain ⟨t, ht, hxt⟩ := h.claimed.covered x mem_cons_self _ hx
  rcases mem_append.mp ht with ht | ht
  · obtain ⟨b, hb, rfl⟩ := mem_map.mp ht
    have hspan' := (h.frame.blocks b hb).mem_span hxt
    rw [hblocks] at hb
    rcases mem_cons.mp hb with rfl | hb
    · rw [mem_iff, body] at hxt
      simp only at hxt
      omega
    · exact Separate.apart (hothers b hb) _ hspan hspan'
  · exact Separate.apart (hlarges t ht) _ hspan hxt

theorem bodies_shrunk (hblocks : s.pool.blocks = first :: rest)
    (hend : x.base + x.size = first.last) {t : Region} (ht : t ∈ bodies s) {y : Nat} (hy : y ∈ t) :
    y ∈ x ∨ ∃ t' ∈ bodies (withBlocks s ([] ++ { first with last := x.base } :: rest)), y ∈ t' := by
  obtain ⟨b, hb, rfl⟩ := mem_map.mp ht
  rw [hblocks] at hb
  rcases mem_cons.mp hb with rfl | hb
  · rw [mem_iff] at hy
    by_cases hbelow : y < x.base
    · refine .inr ⟨body { b with last := x.base }, mem_cons_self, ?_⟩
      rw [mem_iff]
      simp only [body] at hy ⊢
      omega
    · refine .inl ?_
      rw [mem_iff]
      simp only [body] at hy
      omega
  · exact .inr ⟨body b, mem_cons_of_mem _ (mem_map_of_mem hb), hy⟩

theorem Inv.shrink (h : Inv psize s larges (x :: pieces))
    (hend : x.base + x.size = s.pool.first.last) :
    Inv psize (s.setLast x.base) larges pieces := by
  obtain ⟨first, rest, hblocks, -⟩ := h.frame.first
  rw [first_eq hblocks] at hend
  rw [setLast_eq hblocks]
  have hlow := h.header_le hblocks hend
  have hmem : first ∈ s.pool.blocks := by
    rw [hblocks]
    exact mem_cons_self
  have hhigh := (h.frame.blocks first hmem).high
  have hclaims : Claimed (usable s larges) larges (x :: (pieces ++ internal s)) := h.claimed
  obtain ⟨hapart, -⟩ := pairwise_cons.mp hclaims.apart
  have hleft : ∀ z ∈ pieces ++ internal s, ∀ y ∈ z, ∀ t ∈ bodies s, y ∈ t →
      ∃ t' ∈ bodies (withBlocks s ([] ++ { first with last := x.base } :: rest)), y ∈ t' := by
    intro z hz y hy t ht hyt
    rcases bodies_shrunk hblocks hend ht hyt with hyx | hyt'
    · exact absurd hy (hapart z hz y hyx)
    · exact hyt'
  refine ⟨@Frame.setLast _ _ _ [] _ _ h.frame hblocks _ hlow (by omega), h.allocs, fun l hl y hy =>
    ?_,
    (h.claimed.sublist (sublist_cons_self x _)).restrict (fun z hz y hy => ?_) fun r hr => hr⟩
  · obtain ⟨t, ht, hyt⟩ := h.records l hl y hy
    exact hleft _ (mem_append_right _ (mem_append_left _ (mem_map_of_mem hl))) y hy t ht hyt
  obtain ⟨t, ht, hyt⟩ := h.claimed.covered z (mem_cons_of_mem _ hz) y hy
  rcases mem_append.mp ht with ht | ht
  · obtain ⟨t', ht', hyt'⟩ := hleft z hz y hy t ht hyt
    exact ⟨t', mem_append_left _ ht', hyt'⟩
  · exact ⟨t, mem_append_right _ ht, hyt⟩

end Nginx.Core.Arena

namespace Nginx.Core

open List Foundation Foundation.Region

namespace Arr

/-- The first `nalloc` elements. -/
def region (a : Arr) : Region := ⟨a.elts, a.size * a.nalloc⟩

structure Ok (a : Arr) : Prop where
  some : 1 ≤ a.nalloc
  filled : a.nelts ≤ a.nalloc
  range : a.size * a.nalloc < wordRange
  aligned : a.elts % alignment = 0

end Arr

namespace Arena

variable {psize : Nat} {s : Arena} {larges pieces : List Region}

theorem Inv.end_lt {x : Region} (h : Inv psize s larges pieces) (hx : x ∈ pieces)
    (hsize : 0 < x.size) :
    x.base + x.size < wordRange := by
  have hlast : x.base + x.size - 1 ∈ x := by
    rw [mem_iff]
    omega
  obtain ⟨t, ht, hxt⟩ := h.claimed.covered x (mem_append_left _ hx) _ hlast
  obtain ⟨r, hr, hsub⟩ := h.frame.usable_mem ht
  have hgranted := (h.frame.granted r hr).2
  have hxr := hsub _ hxt
  rw [mem_iff] at hxr
  omega

theorem setLast_self (s : Arena) : s.setLast s.pool.first.last = s := by
  obtain ⟨⟨blocks, max, current, large, cleanup⟩, sys⟩ := s
  cases blocks with
  | nil => rfl
  | cons first rest => rfl

/-- An array at the end of what is used of the pool's own block grows there. -/
theorem Inv.growInPlace {a : Arr} {n : Nat} (h : Inv psize s larges (a.region :: pieces))
    (hok : a.Ok) (hplace : s.InPlace a (n * a.size))
    (hwrap : s.pool.first.last + n * a.size < wordRange) :
    Inv psize (s.setLast (addWord s.pool.first.last (n * a.size))) larges
      (Arr.region { a with nalloc := a.nalloc + n } :: pieces) ∧
      a.size * (a.nalloc + n) < wordRange := by
  obtain ⟨hend, hroom⟩ := hplace
  rw [addWord_of_lt hwrap] at hroom ⊢
  rw [mulWord_of_lt hok.range] at hend
  have hsizes : a.size * (a.nalloc + n) = a.size * a.nalloc + n * a.size := by
    rw [mul_add, mul_comm n]
  rw [Arr.region, hsizes]
  by_cases hsize : a.size = 0
  · -- elements without a size: nothing moves
    rw [hsize, mul_zero, Nat.zero_mul, add_zero, add_zero, setLast_self]
    refine ⟨?_, by decide⟩
    rw [Arr.region, hsize, Nat.zero_mul] at h
    exact h
  · have hpos : 0 < a.region.size := mul_pos (pos_of_ne_zero hsize) hok.some
    have hlt : a.elts + a.size * a.nalloc < wordRange := h.end_lt mem_cons_self hpos
    rw [addWord_of_lt hlt] at hend
    exact ⟨h.extend hend hroom, by omega⟩

theorem Inv.releaseElts {a : Arr} (h : Inv psize s larges (a.region :: pieces)) (hok : a.Ok) :
    Inv psize (s.releaseElts a) larges pieces ∧
      (s.releaseElts a).pool.cleanup = s.pool.cleanup := by
  rw [Arena.releaseElts]
  simp only [mulWord_of_lt hok.range]
  split
  · next hend =>
    by_cases hsize : a.size = 0
    · rw [hsize, Nat.zero_mul, subWord_of_le (Nat.zero_le _) ?_, Nat.sub_zero, setLast_self]
      · exact ⟨h.tail, rfl⟩
      obtain ⟨first, rest, hblocks, -⟩ := h.frame.first
      have hmem : first ∈ s.pool.blocks := by
        rw [hblocks]
        exact mem_cons_self
      have hhigh := (h.frame.blocks first hmem).high
      have hstop := h.frame.stop_lt hmem
      rw [first_eq hblocks]
      unfold wordRange at hstop
      omega
    · have hpos : 0 < a.region.size := mul_pos (pos_of_ne_zero hsize) hok.some
      have hlt : a.elts + a.size * a.nalloc < wordRange := h.end_lt mem_cons_self hpos
      have hlast : a.elts + a.size * a.nalloc = s.pool.first.last :=
        (addWord_of_lt hlt).symm.trans hend
      have hbase : subWord s.pool.first.last (a.size * a.nalloc) = a.elts := by
        rw [← hlast, subWord_of_le (Nat.le_add_left _ _) hlt, Nat.add_sub_cancel]
      rw [hbase]
      exact ⟨h.shrink hlast, rfl⟩
  · exact ⟨h.tail, rfl⟩

/-! ## Making arrays -/

/-- The outcome of making an array whose regions are `regions`. -/
inductive Made (psize : Nat) (s : Arena) (pieces : List Region) (size : Nat) (created : Bool) :
    Option (Nat × Arr) × Arena → Prop where
  | failed {s' : Arena} (larges' : List Region) (h : Inv psize s' larges' pieces)
      (hcleanup : s'.pool.cleanup = s.pool.cleanup) : Made psize s pieces size created (none, s')
  | made {header : Nat} {a : Arr} {s' : Arena} (larges' : List Region)
      (h : Inv psize s' larges'
        ((if created then [⟨header, arraySize⟩] else []) ++ a.region :: pieces)) (hok : a.Ok)
      (hempty : a.nelts = 0) (hsize : a.size = size)
        (haligned : created = true → header % alignment = 0)
      (hcleanup : s'.pool.cleanup = s.pool.cleanup) : Made psize s pieces size created
        (some (header, a), s')

theorem Inv.arrayInit (h : Inv psize s larges pieces) {n size : Nat}
    (hn : 1 ≤ n) (hrange : n * size < wordRange) (header : Nat) :
    Made psize s pieces size false ((s.arrayInit n size).1.map fun a =>
      (header, a), (s.arrayInit n size).2) := by
  have houtcome := h.palloc (n * size)
  rw [Arena.arrayInit, mulWord_of_lt hrange]
  generalize s.palloc (n * size) = result at houtcome ⊢
  cases houtcome with
  | failed h hcleanup => exact .failed larges h hcleanup
  | @piece elts s' larges' h haligned hcleanup =>
    rw [mul_comm] at h hrange
    exact .made larges' h ⟨hn, Nat.zero_le _, hrange, haligned⟩ rfl rfl
      (fun hcreated => by cases hcreated) hcleanup

theorem Inv.arrayCreate (h : Inv psize s larges pieces) {n size : Nat}
    (hn : 1 ≤ n) (hrange : n * size < wordRange) :
    Made psize s pieces size true (s.arrayCreate n size) := by
  have houtcome := h.palloc arraySize
  rw [Arena.arrayCreate]
  generalize s.palloc arraySize = result at houtcome ⊢
  cases houtcome with
  | failed h hcleanup => exact .failed larges h hcleanup
  | @piece header s' larges' h haligned hcleanup =>
    simp only
    have hmade := h.arrayInit hn hrange header
    generalize s'.arrayInit n size = result' at hmade ⊢
    obtain ⟨made, s''⟩ := result'
    cases made with
    | none =>
      cases hmade with
      | failed larges'' h' hcleanup' => exact .failed larges'' h'.tail (hcleanup'.trans hcleanup)
    | some a =>
      cases hmade with
      | made larges'' h' hok hempty hsize _ hcleanup' =>
        exact .made larges'' (h'.perm (List.Perm.swap _ _ _)) hok hempty hsize (fun _ => haligned)
          (hcleanup'.trans hcleanup)

theorem Inv.arrayDestroy {header : Nat} {created : Bool} {a : Arr} (hok : a.Ok)
    (h : Inv psize s larges ((if created then [⟨header, arraySize⟩] else []) ++ a.region :: pieces))
    (hinit : created = false → addWord header arraySize ≠ (s.releaseElts a).pool.first.last) :
    Inv psize (s.arrayDestroy header a) larges pieces ∧
      (s.arrayDestroy header a).pool.cleanup = s.pool.cleanup := by
  rw [Arena.arrayDestroy]
  cases created with
  | false =>
    rw [if_neg (hinit rfl)]
    exact Inv.releaseElts h hok
  | true =>
    have hswap : Inv psize s larges (a.region :: ⟨header, arraySize⟩ :: pieces) :=
      h.perm (List.Perm.swap _ _ _)
    obtain ⟨hreleased, hcleanup⟩ := hswap.releaseElts hok
    split
    · next hend =>
      have hsome : 0 < arraySize := by decide
      have hlt : header + arraySize < wordRange :=
        hreleased.end_lt (x := ⟨header, arraySize⟩) mem_cons_self hsome
      rw [addWord_of_lt hlt] at hend
      exact ⟨hreleased.shrink hend, hcleanup⟩
    · exact ⟨hreleased.tail, hcleanup⟩

end Arena

/-! ## Growing arrays -/

namespace Memory

open Arena

variable {psize : Nat} {m : Memory} {larges pieces : List Region} {a : Arr}

/-- The outcome of a call on an array for `need` elements more, of which it counts `taken`. -/
inductive Grown (psize : Nat) (m : Memory) (pieces : List Region) (a : Arr) (need taken : Nat) :
    Option Arr × Memory → Prop where
  | failed {m' : Memory} (larges' : List Region)
    (h : Inv psize m'.heap larges' (a.region :: pieces))
      (hbytes : m'.bytes = m.bytes) (hcleanup : m'.heap.pool.cleanup = m.heap.pool.cleanup) :
      Grown psize m pieces a need taken (none, m')
  | grown {a' : Arr} {m' : Memory} (larges' : List Region)
    (h : Inv psize m'.heap larges' (a'.region :: pieces))
      (hok : a'.Ok) (hsize : a'.size = a.size) (hnelts : a'.nelts = a.nelts + taken)
        (hroom : a.nelts + need ≤ a'.nalloc)
      (hkeep : ∀ k < a.nelts * a.size, m'.bytes (a'.elts + k) = m.bytes (a.elts + k))
      (hothers : ∀ x ∈ a.region :: pieces, ∀ y ∈ x, m'.bytes y = m.bytes y)
      (hcleanup : m'.heap.pool.cleanup = m.heap.pool.cleanup) : Grown psize m pieces a need taken
        (some a', m')

theorem moveElts_grown (h : Inv psize m.heap larges (a.region :: pieces))
    (hok : a.Ok) {nalloc copied need : Nat}
    (hrange : a.size * nalloc < wordRange) (hmore : a.nalloc ≤ nalloc)
    (hneed : a.nelts + need ≤ nalloc)
    (hlow : a.nelts * a.size ≤ copied) (hhigh : copied ≤ a.size * nalloc) :
    Grown psize m pieces a need 0 (m.moveElts a (a.size * nalloc) nalloc copied) := by
  have houtcome := h.palloc (a.size * nalloc)
  rw [moveElts]
  generalize m.heap.palloc (a.size * nalloc) = result at houtcome ⊢
  cases houtcome with
  | failed h hcleanup => exact .failed larges h rfl hcleanup
  | @piece new s' larges' h' haligned hcleanup =>
    have hlength : (load m.bytes a.elts copied).length = copied := length_load _ _ _
    refine .grown larges' ?_
      ⟨hok.some.trans hmore, hok.filled.trans hmore, hrange, haligned⟩ rfl rfl hneed ?_ ?_ hcleanup
    · exact h'.sublist ((sublist_cons_self _ _).cons_cons _)
    · intro k hk
      have hcopied : k < (load m.bytes a.elts copied).length := by omega
      exact (memcpy_apply_add hcopied).trans (getElem_load hcopied)
    intro x hx y hy
    -- what is in use is elsewhere
    have hclaims : ((⟨new, a.size * nalloc⟩ :: a.region :: pieces) ++ internal s').Pairwise Apart :=
      h'.claimed.apart
    have hnew : ¬ (new ≤ y ∧ y < new + a.size * nalloc) := fun hmem =>
      (pairwise_cons.mp hclaims).1 x (mem_append_left _ hx) y hmem hy
    rcases lt_or_ge y new with hlt | hge
    · exact memcpy_apply_of_lt hlt
    · exact memcpy_apply_of_ge (by omega)

/-- Room for one element more. -/
theorem growOne_grown (h : Inv psize m.heap larges (a.region :: pieces)) (hok : a.Ok)
    (hgrow : a.nelts = a.nalloc → m.heap.GrowsWithin a 1 (2 * a.nalloc)) :
    Grown psize m pieces a 1 0 (m.growOne a) := by
  have hsome := hok.some
  have hfilled := hok.filled
  have hone : 1 * a.size = a.size := one_mul _
  rw [growOne]
  simp only [mulWord_of_lt hok.range]
  split
  · next hfull =>
    obtain ⟨hlast, hcounts⟩ := hgrow hfull
    rw [hone] at hlast hcounts
    split
    · next hplace =>
      rw [if_pos hplace] at hcounts
      have hend := hplace.1
      rw [mulWord_of_lt hok.range] at hend
      have hwrap := hlast hend
      obtain ⟨hinv, hrange⟩ := h.growInPlace (n := 1) hok (by rw [hone]; exact hplace)
        (by rw [hone]; exact hwrap)
      rw [hone] at hinv
      rw [addWord_of_lt hcounts]
      exact .grown larges hinv ⟨Nat.le_add_left _ _, by simp only; omega, hrange, hok.aligned⟩ rfl
        rfl (by simp only; omega) (fun k _ => rfl) (fun x _ y _ => rfl) rfl
    · next hplace =>
      rw [if_neg hplace] at hcounts
      obtain ⟨hnalloc, hbytes⟩ := hcounts
      have hsizes : 2 * (a.size * a.nalloc) = a.size * (2 * a.nalloc) := mul_left_comm _ _ _
      rw [mul_comm] at hbytes
      rw [mulWord_of_lt (hsizes ▸ hbytes), mulWord_of_lt hnalloc, hsizes]
      refine moveElts_grown h hok hbytes (by omega) (by omega) ?_ (by omega)
      rw [mul_comm]
      exact Nat.mul_le_mul_left _ hfilled
  · next hroom =>
    exact .grown larges h hok rfl rfl (by omega) (fun k _ => rfl) (fun x _ y _ => rfl) rfl

/-- Room for `n` elements more. -/
theorem growMany_grown (h : Inv psize m.heap larges (a.region :: pieces)) (hok : a.Ok) {n : Nat}
    (hnelts : a.nelts + n < wordRange) (hsize : n * a.size < wordRange)
    (hgrow : a.nalloc < a.nelts + n → m.heap.GrowsWithin a n (2 * max n a.nalloc)) :
    Grown psize m pieces a n 0 (m.growMany a n) := by
  have hsome := hok.some
  have hfilled := hok.filled
  rw [growMany]
  simp only [mulWord_of_lt hsize, addWord_of_lt hnelts]
  split
  · next hfull =>
    obtain ⟨hlast, hcounts⟩ := hgrow hfull
    split
    · next hplace =>
      rw [if_pos hplace] at hcounts
      have hend := hplace.1
      rw [mulWord_of_lt hok.range] at hend
      obtain ⟨hinv, hrange⟩ := h.growInPlace hok hplace (hlast hend)
      rw [addWord_of_lt hcounts]
      exact .grown larges hinv ⟨Nat.le_trans hsome (Nat.le_add_right _ _), by simp only; omega,
        hrange, hok.aligned⟩ rfl rfl (by simp only; omega) (fun k _ => rfl) (fun x _ y _ => rfl) rfl
    · next hplace =>
      rw [if_neg hplace] at hcounts
      obtain ⟨hnalloc, hbytes⟩ := hcounts
      have hmax : (if a.nalloc ≤ n then n else a.nalloc) = max n a.nalloc := by
        split <;> omega
      have hcopied : a.nelts * a.size ≤ 2 * max n a.nalloc * a.size :=
        Nat.mul_le_mul_right _ (by omega)
      rw [hmax, mulWord_of_lt hnalloc, mulWord_of_lt hbytes, mulWord_of_lt (by omega)]
      have hcomm : 2 * max n a.nalloc * a.size = a.size * (2 * max n a.nalloc) := mul_comm _ _
      rw [hcomm] at hbytes hcopied ⊢
      exact moveElts_grown h hok hbytes (by omega) (by omega) (le_rfl) hcopied
  · next hroom =>
    exact .grown larges h hok rfl rfl (by omega) (fun k _ => rfl) (fun x _ y _ => rfl) rfl

theorem Grown.count {n : Nat} {result : Option Arr × Memory} (h : Grown psize m pieces a n 0 result)
    (hnelts : a.nelts + n < wordRange) :
    Grown psize m pieces a n n (result.1.map fun a' =>
      { a' with nelts := addWord a'.nelts n }, result.2) := by
  cases h with
  | failed larges' h hbytes hcleanup => exact .failed larges' h hbytes hcleanup
  | @grown a' m' larges' h hok hsize hnelts' hroom hkeep hothers hcleanup =>
    have hcount : addWord a'.nelts n = a.nelts + n := by
      rw [hnelts', add_zero, addWord_of_lt hnelts]
    exact .grown larges' h
      ⟨hok.some, by simp only; omega, hok.range, hok.aligned⟩ hsize hcount hroom
      hkeep hothers hcleanup

/-- `ngx_array_push`: the array has an element more and keeps those it had, and nothing else moves.
-/
theorem arrayPush_grown (h : Inv psize m.heap larges (a.region :: pieces)) (hok : a.Ok)
    (hnelts : a.nelts + 1 < wordRange)
    (hgrow : a.nelts = a.nalloc → m.heap.GrowsWithin a 1 (2 * a.nalloc)) :
    Grown psize m pieces a 1 1 (m.arrayPush a) := by
  have hcounted := (growOne_grown h hok hgrow).count hnelts
  rw [arrayPush]
  generalize m.growOne a = result at hcounted ⊢
  obtain ⟨grown, m'⟩ := result
  cases grown with
  | none => exact hcounted
  | some a' => exact hcounted

/-- `ngx_array_push_n`, likewise. -/
theorem arrayPushN_grown (h : Inv psize m.heap larges (a.region :: pieces)) (hok : a.Ok) {n : Nat}
    (hnelts : a.nelts + n < wordRange) (hsize : n * a.size < wordRange)
    (hgrow : a.nalloc < a.nelts + n → m.heap.GrowsWithin a n (2 * max n a.nalloc)) :
    Grown psize m pieces a n n (m.arrayPushN a n) := by
  have hcounted := (growMany_grown h hok hnelts hsize hgrow).count hnelts
  rw [arrayPushN]
  generalize m.growMany a n = result at hcounted ⊢
  obtain ⟨grown, m'⟩ := result
  cases grown with
  | none => exact hcounted
  | some a' => exact hcounted

end Memory

end Nginx.Core
