/-
  Core/PoolClaims.lean --- the allocations of a pool, beside its records.

  `Inv psize s larges pieces`: `pieces` are regions that the callers have of the pool.
  An allocation adds one, a free takes those with its address away, a cleanup runs,
  and the end of the pool gives all of it back.
-/
import Nginx.Core.PoolFrame

set_option autoImplicit false

namespace Nginx.Core.Arena

open List Foundation Foundation.Region

/-- The record of a large allocation. -/
def largeRecord (l : Large) : Region := ⟨l.record, largeSize⟩

/-- The record of a cleanup. -/
def cleanupRecord (c : Cleanup) : Region := ⟨c.record, cleanupSize⟩

/-- What the pool has of itself, the headers apart. -/
def internal (s : Arena) :
    List Region := s.pool.large.map largeRecord ++ s.pool.cleanup.map cleanupRecord

structure Inv (psize : Nat) (s : Arena) (larges pieces : List Region) : Prop where
  frame : Frame psize s larges
  allocs : ((s.pool.large.map Large.alloc).filter (· ≠ 0)).Perm (larges.map Region.base)
  records : ∀ l ∈ s.pool.large, (largeRecord l).Covered (bodies s)
  claimed : Claimed (usable s larges) larges (pieces ++ internal s)

variable {psize : Nat} {s : Arena} {larges pieces : List Region}

namespace Inv

theorem perm {pieces' : List Region} (h : Inv psize s larges pieces) (hperm : pieces.Perm pieces') :
    Inv psize s larges pieces' :=
  ⟨h.frame, h.allocs, h.records, h.claimed.perm (hperm.append_right _)⟩

theorem sublist {pieces' : List Region} (h : Inv psize s larges pieces)
    (hsub : pieces'.Sublist pieces) :
    Inv psize s larges pieces' :=
  ⟨h.frame, h.allocs, h.records, h.claimed.sublist (hsub.append_right _)⟩

theorem tail {x : Region} (h : Inv psize s larges (x :: pieces)) : Inv psize s larges pieces :=
  h.sublist (sublist_cons_self x pieces)

theorem of_sys {s' : Arena} (h : Inv psize s larges pieces) (hpool : s'.pool = s.pool)
    (hregions : s'.sys.regions = s.sys.regions) : Inv psize s' larges pieces := by
  have hbodies : bodies s' = bodies s := by rw [bodies, hpool]; rfl
  have hinternal : internal s' = internal s := by rw [internal, hpool]; rfl
  refine ⟨h.frame.of_view (by rw [hpool]) (by rw [hpool]) hregions, by
    rw [hpool]; exact h.allocs, ?_, ?_⟩
  · rw [hpool, hbodies]
    exact h.records
  · rw [usable, hbodies, hinternal]
    exact h.claimed

theorem carved {s' : Arena} {x : Region} (h : Inv psize s larges pieces)
    (hx : Carved psize s s' larges x) :
    Inv psize s' larges (x :: pieces) := by
  have hinternal : internal s' = internal s := by rw [internal, hx.large, hx.cleanup]; rfl
  refine ⟨hx.frame, by rw [hx.large]; exact h.allocs, fun l hl => ?_, ?_⟩
  · rw [hx.large] at hl
    exact (h.records l hl).mono hx.keep
  · rw [hinternal]
    refine h.claimed.add (fun t ht => hx.usable ht)
      (hx.covered.mono fun t ht => covered_of_mem (mem_append_left _ ht))
      hx.fresh fun r hr hmeet => ?_
    exact absurd (hx.fresh r (mem_append_right _ hr)).symm hmeet

end Inv

/-! ## Large allocations -/

theorem reuseLarge_spec {p n : Nat} {l l' : List Large} (h : reuseLarge p n l = some l') :
    ∃ pre r post, l = pre ++ r :: post ∧ r.alloc = 0 ∧
      l' = pre ++ { r with alloc := p } :: post := by
  induction l generalizing n l' with
  | nil => cases h
  | cons r rest ih =>
    rw [reuseLarge] at h
    by_cases hr : r.alloc = 0
    · rw [if_pos hr, Option.some.injEq] at h
      exact ⟨[], r, rest, rfl, hr, h.symm⟩
    rw [if_neg hr] at h
    split at h
    · cases h
    · obtain ⟨found, hfound, rfl⟩ := Option.map_eq_some_iff.mp h
      obtain ⟨pre, r', post, rfl, hr', rfl⟩ := ih hfound
      exact ⟨r :: pre, r', post, rfl, hr', rfl⟩

/-- The addresses that are set. -/
def allocsOf (l : List Large) : List Nat := (l.map Large.alloc).filter (· ≠ 0)

theorem allocsOf_set (pre post : List Large) (r : Large) {p : Nat} (hp : p ≠ 0) :
    (allocsOf (pre ++ { r with alloc := p } :: post)).Perm (p :: allocsOf (pre ++ post)) := by
  simp only [allocsOf, map_append, map_cons, filter_append]
  rw [filter_cons_of_pos (by simpa using hp)]
  exact perm_middle

theorem allocsOf_unset (pre post : List Large) (r : Large) (hr : r.alloc = 0) :
    allocsOf (pre ++ r :: post) = allocsOf (pre ++ post) := by
  simp only [allocsOf, map_append, map_cons, filter_append, hr]
  rw [filter_cons_of_neg (by simp)]

theorem records_set (pre post : List Large) (r : Large) (p : Nat) :
    (pre ++ { r with alloc := p } :: post).map largeRecord =
      (pre ++ r :: post).map largeRecord := by
  simp only [map_append, map_cons, largeRecord]

section LargeAllocation

variable {p size : Nat} {answers : List (Option Nat)}

theorem Frame.addLarge (h : Frame psize s larges) {a : Nat} (hgrants : s.sys.Grants a ⟨p, size⟩) :
    Frame psize
      { s with sys := { regions := ⟨p, size⟩ :: s.sys.regions, answers := answers } }
      (⟨p, size⟩ :: larges) := by
  obtain ⟨hne, -, hrange, hseparate⟩ := hgrants
  refine ⟨h.psize_aligned, h.psize_lt, h.first, h.blocks, h.max_le, ?_,
    pairwise_cons.mpr ⟨hseparate, h.separate⟩, ?_⟩
  · exact (h.regions.cons _).trans perm_middle.symm
  · intro r hr
    rcases mem_cons.mp hr with rfl | hr
    · exact ⟨hne, hrange⟩
    · exact h.granted r hr

theorem Inv.claimLarge (h : Inv psize s larges pieces) {a : Nat}
    (hgrants : s.sys.Grants a ⟨p, size⟩) :
    Claimed (usable s (⟨p, size⟩ :: larges)) (⟨p, size⟩ :: larges)
      (⟨p, size⟩ :: (pieces ++ internal s)) := by
  have hfresh : ∀ t ∈ usable s larges, Apart t ⟨p, size⟩ := fun t ht =>
    h.frame.apart_usable hgrants.2.2.2 ht
  have hkeep : ∀ t ∈ usable s larges, t.Covered (usable s (⟨p, size⟩ :: larges)) := by
    intro t ht
    refine covered_of_mem ?_
    rcases mem_append.mp ht with ht | ht
    · exact mem_append_left _ ht
    · exact mem_append_right _ (mem_cons_of_mem _ ht)
  refine (h.claimed.addWhole hfresh).add hkeep
    (covered_of_mem (mem_append_right _ mem_cons_self)) hfresh ?_
  intro r hr hmeet
  rcases mem_cons.mp hr with rfl | hr
  · rfl
  · exact absurd (hfresh r (mem_append_right _ hr)).symm hmeet

theorem free_cons {sys : Sys} {a : Nat} (hgrants : sys.Grants a ⟨p, size⟩) :
    (Sys.free { regions := ⟨p, size⟩ :: sys.regions, answers := answers } p).regions =
      sys.regions := by
  rw [Sys.free]
  show (⟨p, size⟩ :: sys.regions).filter (fun r => r.base ≠ p) = sys.regions
  rw [filter_cons_of_neg (by simp), filter_eq_self]
  intro r hr
  have hseparate := hgrants.2.2.2 r hr
  rw [Sys.Separate] at hseparate
  simp only [ne_eq, decide_not, Bool.not_eq_true', decide_eq_false_iff_not]
  rintro rfl
  simp only at hseparate
  omega

end LargeAllocation

/-- The outcome of an allocation: it fails and nothing changes for the callers, or they
have a piece more. -/
inductive Outcome (psize : Nat) (s : Arena) (larges pieces : List Region)
    (size : Nat) (aligned : Nat → Prop) :
    Option Nat × Arena → Prop where
  | failed {s' : Arena} (h : Inv psize s' larges pieces)
    (hcleanup : s'.pool.cleanup = s.pool.cleanup) :
      Outcome psize s larges pieces size aligned (none, s')
  | piece {m : Nat} {s' : Arena} (larges' : List Region)
    (h : Inv psize s' larges' (⟨m, size⟩ :: pieces))
      (haligned : aligned m) (hcleanup : s'.pool.cleanup = s.pool.cleanup) :
      Outcome psize s larges pieces size aligned (some m, s')

theorem Inv.small (h : Inv psize s larges pieces) {size : Nat}
    (hsize : size + dataSize ≤ psize) (align : Bool) :
    Outcome psize s larges pieces size (fun m =>
      align = true → m % alignment = 0) (s.pallocSmall size align) := by
  have houtcome := h.frame.pallocSmall hsize align
  generalize s.pallocSmall size align = result at houtcome ⊢
  cases houtcome with
  | failed answers => exact .failed (h.of_sys rfl rfl) rfl
  | carved hx haligned => exact .piece larges (h.carved hx) haligned hx.cleanup

theorem Inv.addLarge (h : Inv psize s larges pieces) {p size a : Nat} {answers : List (Option Nat)}
    (hgrants : s.sys.Grants a ⟨p, size⟩) {aligned : Nat → Prop} (haligned : aligned p) :
    Outcome psize s larges pieces size aligned
      (Arena.addLarge
        { s with sys := { regions := ⟨p, size⟩ :: s.sys.regions, answers := answers } } p) := by
  have hsize : largeSize + dataSize ≤ psize := by
    have hpsize := h.frame.psize_lt
    unfold poolSize at hpsize
    unfold largeSize dataSize
    omega
  have hframe := @Frame.addLarge _ _ _ _ _ answers h.frame _ hgrants
  have hclaimed := h.claimLarge hgrants
  have houtcome := hframe.pallocSmall hsize true
  rw [Arena.addLarge]
  generalize pallocSmall _ largeSize true = result at houtcome ⊢
  cases houtcome with
  | failed answers' => exact .failed (h.of_sys rfl (free_cons hgrants)) rfl
  | @carved record s' hx _ =>
    have hlarge : s'.pool.large = s.pool.large := hx.large
    have hcleanup : s'.pool.cleanup = s.pool.cleanup := hx.cleanup
    refine .piece (⟨p, size⟩ :: larges)
      ⟨⟨hx.frame.psize_aligned, hx.frame.psize_lt, hx.frame.first, hx.frame.blocks,
      hx.frame.max_le, hx.frame.regions, hx.frame.separate, hx.frame.granted⟩,
        ?_, ?_, ?_⟩ haligned hcleanup
    · show (((⟨record, p⟩ :: s'.pool.large).map Large.alloc).filter (· ≠ 0)).Perm _
      rw [hlarge, map_cons, filter_cons_of_pos (by simpa using hgrants.1)]
      exact h.allocs.cons p
    · intro l hl
      rcases mem_cons.mp hl with rfl | hl
      · exact hx.covered
      · rw [hlarge] at hl
        exact (h.records l hl).mono hx.keep
    have hadded := hclaimed.add (fun t ht => hx.usable ht)
      (hx.covered.mono fun t ht => covered_of_mem (mem_append_left _ ht)) hx.fresh
        fun r hr hmeet =>
        absurd (hx.fresh r (mem_append_right _ hr)).symm hmeet
    refine hadded.perm ?_
    show List.Perm _
      (⟨p, size⟩ :: pieces ++ (largeRecord ⟨record, p⟩ :: s'.pool.large.map largeRecord ++
      s'.pool.cleanup.map cleanupRecord))
    rw [hlarge, hcleanup, cons_append, cons_append]
    exact (List.Perm.swap _ _ _).trans (perm_middle.symm.cons _)

/-- A large allocation is a region of its own. -/
theorem Inv.large (h : Inv psize s larges pieces) (size : Nat) :
    Outcome psize s larges pieces size (fun m => m % alignment = 0) (s.pallocLarge size) := by
  rw [pallocLarge, Sys.alloc]
  rcases memalign_spec s.sys 16 size with ⟨answers, hfailed⟩ | ⟨p, answers, hgranted, hgrants⟩
  · rw [hfailed]
    exact .failed (h.of_sys rfl rfl) rfl
  rw [hgranted]
  have haligned : p % alignment = 0 := by
    have hsixteen := hgrants.2.1
    simp only at hsixteen
    unfold alignment
    omega
  cases hreuse : reuseLarge p 0 s.pool.large with
  | none => simp only [hreuse]; exact h.addLarge hgrants haligned
  | some large =>
    simp only [hreuse]
    obtain ⟨pre, r, post, hl, hr, rfl⟩ := reuseLarge_spec hreuse
    have hrecords : (pre ++ { r with alloc := p } :: post).map largeRecord =
      s.pool.large.map largeRecord := by
      rw [hl, records_set]
    have hframe := @Frame.addLarge _ _ _ _ _ answers h.frame _ hgrants
    refine .piece (⟨p, size⟩ :: larges)
      ⟨⟨hframe.psize_aligned, hframe.psize_lt, hframe.first, hframe.blocks,
      hframe.max_le, hframe.regions, hframe.separate, hframe.granted⟩, ?_, ?_, ?_⟩ haligned rfl
    · have hold := h.allocs
      rw [hl] at hold
      have hset := allocsOf_set pre post r hgrants.1
      rw [← allocsOf_unset pre post r hr] at hset
      exact hset.trans (hold.cons p)
    · intro l hmem
      have hregion : largeRecord l ∈ s.pool.large.map largeRecord := hrecords ▸ mem_map_of_mem hmem
      obtain ⟨l', hl', heq⟩ := mem_map.mp hregion
      rw [← heq]
      exact h.records l' hl'
    · have hclaimed := h.claimLarge hgrants
      show Claimed _ _
        (⟨p, size⟩ :: pieces ++ ((pre ++ { r with alloc := p } :: post).map largeRecord ++ _))
      rw [hrecords]
      exact hclaimed

theorem Inv.small_size (h : Inv psize s larges pieces) {size : Nat} (hsize : size ≤ s.pool.max) :
    size + dataSize ≤ psize := by
  have hmax := h.frame.max_le
  unfold poolSize at hmax
  unfold dataSize
  omega

theorem Inv.palloc (h : Inv psize s larges pieces) (size : Nat) :
    Outcome psize s larges pieces size (fun m => m % alignment = 0) (s.palloc size) := by
  rw [Arena.palloc]
  split
  · next hsize =>
    have houtcome := h.small (h.small_size hsize) true
    generalize s.pallocSmall size true = result at houtcome ⊢
    cases houtcome with
    | failed h hcleanup => exact .failed h hcleanup
    | piece larges' h haligned hcleanup => exact .piece larges' h (haligned rfl) hcleanup
  · exact h.large size

theorem Inv.pnalloc (h : Inv psize s larges pieces) (size : Nat) :
    Outcome psize s larges pieces size (fun _ => True) (s.pnalloc size) := by
  rw [Arena.pnalloc]
  split
  · next hsize =>
    have houtcome := h.small (h.small_size hsize) false
    generalize s.pallocSmall size false = result at houtcome ⊢
    cases houtcome with
    | failed h hcleanup => exact .failed h hcleanup
    | piece larges' h _ hcleanup => exact .piece larges' h trivial hcleanup
  · have houtcome := h.large size
    generalize s.pallocLarge size = result at houtcome ⊢
    cases houtcome with
    | failed h hcleanup => exact .failed h hcleanup
    | piece larges' h _ hcleanup => exact .piece larges' h trivial hcleanup

theorem Inv.pmemalign (h : Inv psize s larges pieces) (size a : Nat) :
    Outcome psize s larges pieces size (fun m => m % a = 0) (s.pmemalign size a) := by
  rw [Arena.pmemalign]
  rcases memalign_spec s.sys a size with ⟨answers, hfailed⟩ | ⟨p, answers, hgranted, hgrants⟩
  · rw [hfailed]
    exact .failed (h.of_sys rfl rfl) rfl
  · rw [hgranted]
    exact h.addLarge hgrants hgrants.2.1

variable {psize : Nat} {s : Arena} {larges pieces : List Region}

/-! ## `ngx_pfree` -/

theorem clearLarge_spec {p : Nat} {l l' : List Large} (h : clearLarge p l = some l') :
    ∃ pre r post, l = pre ++ r :: post ∧ r.alloc = p ∧
      l' = pre ++ { r with alloc := 0 } :: post := by
  induction l generalizing l' with
  | nil => cases h
  | cons r rest ih =>
    rw [clearLarge] at h
    by_cases hr : p = r.alloc
    · rw [if_pos hr, Option.some.injEq] at h
      exact ⟨[], r, rest, rfl, hr.symm, h.symm⟩
    · rw [if_neg hr] at h
      obtain ⟨found, hfound, rfl⟩ := Option.map_eq_some_iff.mp h
      obtain ⟨pre, r', post, rfl, hr', rfl⟩ := ih hfound
      exact ⟨r :: pre, r', post, rfl, hr', rfl⟩

theorem base_ne_of_separate {r t : Region} (h : Sys.Separate r t) : r.base ≠ t.base := by
  rw [Sys.Separate] at h
  omega

theorem filter_base {r : Region} {rest : List Region} (h : (r :: rest).Pairwise Sys.Separate) :
    (r :: rest).filter (fun t => t.base ≠ r.base) = rest := by
  rw [filter_cons_of_neg (by simp), filter_eq_self]
  intro t ht
  have hne := base_ne_of_separate ((pairwise_cons.mp h).1 t ht)
  simpa using hne.symm

/-- `ngx_pfree` keeps the invariant for the pieces that are still claimed. -/
theorem Inv.pfree (h : Inv psize s larges pieces) (p : Nat)
    (hcleanup : ∀ c ∈ s.pool.cleanup, c.record ≠ p)
    (pieces' : List Region) (hsub : pieces'.Sublist pieces)
    (hleft : (s.pfree p).1 = true → ∀ x ∈ pieces', x.base ≠ p) :
    ∃ larges', Inv psize (s.pfree p).2 larges' pieces' ∧
      (s.pfree p).2.pool.cleanup = s.pool.cleanup := by
  rw [Arena.pfree] at hleft ⊢
  cases hclear : clearLarge p s.pool.large with
  | none => exact ⟨larges, h.sublist hsub, rfl⟩
  | some large =>
    have hgone : ∀ x ∈ pieces', x.base ≠ p := hleft (by rw [hclear])
    obtain ⟨pre, r, post, hl, hr, rfl⟩ := clearLarge_spec hclear
    have hrecords : (pre ++ { r with alloc := 0 } :: post).map largeRecord =
      s.pool.large.map largeRecord := by
      rw [hl, records_set]
    have hallocs := h.allocs
    rw [hl] at hallocs
    show ∃ larges', Inv psize
      ⟨{ s.pool with large := pre ++ { r with alloc := 0 } :: post },
        s.sys.free p⟩ larges' pieces' ∧ _
    by_cases hp : p = 0
    · -- a record without an allocation: `free(NULL)`
      have hsame : pre ++ { r with alloc := 0 } :: post = s.pool.large := by
        rw [hl, ← hp, ← hr]
      have hregions : (s.sys.free p).regions = s.sys.regions := by
        rw [Sys.free, filter_eq_self]
        intro t ht
        have hne := (h.frame.granted t ht).1
        simpa [hp] using hne
      refine ⟨larges, (h.sublist hsub).of_sys ?_ hregions, rfl⟩
      rw [hsame]
    · have hmem : p ∈ larges.map Region.base := by
        refine hallocs.mem_iff.mp ?_
        have hset := (allocsOf_set pre post r (p := p) hp).mem_iff (a := p)
        have hsame : { r with alloc := p } = r := by rw [← hr]
        rw [hsame] at hset
        exact hset.mpr mem_cons_self
      obtain ⟨R, hR, hbase⟩ := mem_map.mp hmem
      obtain ⟨rest, hperm⟩ : ∃ rest, larges.Perm (R :: rest) := ⟨larges.erase R, perm_cons_erase hR⟩
      have hregions : s.sys.regions.Perm (R :: (s.pool.blocks.map (span psize) ++ rest)) :=
        h.frame.regions.trans ((hperm.append_left _).trans perm_middle)
      have hfree : (s.sys.free p).regions.Perm (s.pool.blocks.map (span psize) ++ rest) := by
        have hfilter := hregions.filter fun t => t.base ≠ R.base
        rw [filter_base (hregions.pairwise h.frame.separate Separate.symm)] at hfilter
        rw [Sys.free, ← hbase]
        exact hfilter
      have hsubset : ∀ t ∈ (s.sys.free p).regions, t ∈ s.sys.regions :=
        fun t ht => (mem_filter.mp ht).1
      have hrest : ∀ t ∈ rest, t ∈ larges := fun t ht => hperm.mem_iff.mpr (mem_cons_of_mem _ ht)
      refine ⟨rest,
        ⟨⟨h.frame.psize_aligned, h.frame.psize_lt, h.frame.first, h.frame.blocks,
        h.frame.max_le, hfree,
        h.frame.separate.filter _, fun t ht => h.frame.granted t (hsubset t ht)⟩, ?_, ?_, ?_⟩, rfl⟩
      · show (allocsOf (pre ++ { r with alloc := 0 } :: post)).Perm _
        rw [allocsOf_unset pre post _ rfl]
        have hset := allocsOf_set pre post r (p := p) hp
        have hsame : { r with alloc := p } = r := by rw [← hr]
        rw [hsame] at hset
        have hboth := hset.symm.trans (hallocs.trans (hperm.map Region.base))
        rw [map_cons, hbase] at hboth
        exact hboth.cons_inv
      · intro l hmem
        have hregion : largeRecord l ∈ s.pool.large.map largeRecord :=
          hrecords ▸ mem_map_of_mem hmem
        obtain ⟨l', hl', heq⟩ := mem_map.mp hregion
        rw [← heq]
        exact h.records l' hl'
      · show Claimed _ _ (pieces' ++ ((pre ++ { r with alloc := 0 } :: post).map largeRecord ++ _))
        rw [hrecords]
        have hclaimed := h.claimed.sublist (hsub.append_right (internal s))
        refine hclaimed.restrict (fun x hx y hy => ?_) hrest
        -- an address in the freed region makes its claim one with the address `p`
        have helse : x.base ≠ p ∨ x.Covered (bodies s) → ∃ t ∈ usable s rest, y ∈ t := by
          intro hcase
          obtain ⟨t, ht, hyt⟩ := hclaimed.covered x hx y hy
          rcases mem_append.mp ht with ht | ht
          · exact ⟨t, mem_append_left _ ht, hyt⟩
          rcases mem_cons.mp (hperm.mem_iff.mp ht) with rfl | ht
          · rcases hcase with hne | hcovered
            · have hwhole := hclaimed.whole x hx t hR fun happart => happart y hy hyt
              exact absurd (hwhole.trans hbase) hne
            · obtain ⟨t', ht', hyt'⟩ := hcovered y hy
              exact ⟨t', mem_append_left _ ht', hyt'⟩
          · exact ⟨t, mem_append_right _ ht, hyt⟩
        rcases mem_append.mp hx with hx' | hx'
        · exact helse (.inl (hgone x hx'))
        rcases mem_append.mp hx' with hx' | hx'
        · obtain ⟨l, hl', rfl⟩ := mem_map.mp hx'
          exact helse (.inr (h.records l hl'))
        · obtain ⟨c, hc, rfl⟩ := mem_map.mp hx'
          exact helse (.inl (hcleanup c hc))

/-! ## Cleanups -/

/-- `ngx_pool_cleanup_add`: the data of a cleanup are a piece of the caller's. -/
theorem Inv.cleanupAdd (h : Inv psize s larges pieces) (size : Nat) (handler : Option Nat) :
    (∃ larges', Inv psize (s.cleanupAdd size handler).2 larges' pieces ∧
      (s.cleanupAdd size handler).1 = none ∧
        (s.cleanupAdd size handler).2.pool.cleanup = s.pool.cleanup) ∨
      ∃ larges' c, Inv psize (s.cleanupAdd size handler).2 larges'
          (if size = 0 then pieces else ⟨c.data, size⟩ :: pieces) ∧
        (s.cleanupAdd size handler).1 = some c ∧ c.handler = handler ∧ c.record % alignment = 0 ∧
        (size ≠ 0 → c.data % alignment = 0) ∧
        (s.cleanupAdd size handler).2.pool.cleanup = c :: s.pool.cleanup := by
  have hadd : ∀ (s' : Arena) (larges' rest : List Region) (c : Cleanup),
    Inv psize s' larges' (cleanupRecord c :: rest) →
      Inv psize
        { s' with pool := { s'.pool with cleanup := c :: s'.pool.cleanup } } larges' rest := by
    intro s' larges' rest c h'
    refine ⟨⟨h'.frame.psize_aligned, h'.frame.psize_lt, h'.frame.first,
      h'.frame.blocks, h'.frame.max_le,
      h'.frame.regions, h'.frame.separate, h'.frame.granted⟩, h'.allocs,
        h'.records, h'.claimed.perm ?_⟩
    show List.Perm _
      (rest ++
      (s'.pool.large.map largeRecord ++ cleanupRecord c :: s'.pool.cleanup.map cleanupRecord))
    rw [← append_assoc]
    refine List.Perm.trans ?_ perm_middle.symm
    rw [cons_append, internal, append_assoc]
  have hrecord := h.palloc cleanupSize
  rw [Arena.cleanupAdd]
  generalize s.palloc cleanupSize = result at hrecord ⊢
  cases hrecord with
  | failed h' hcleanup => exact .inl ⟨larges, h', rfl, hcleanup⟩
  | @piece record s' larges' h' haligned hcleanup =>
    simp only
    by_cases hsize : size = 0
    · rw [if_neg (not_not.mpr hsize)]
      refine .inr ⟨larges', ⟨record, handler, 0⟩, ?_, rfl, rfl, haligned, fun hne =>
        absurd hsize hne, ?_⟩
      · rw [if_pos hsize]
        exact hadd s' larges' pieces ⟨record, handler, 0⟩ h'
      · simp only [hcleanup]
    rw [if_pos hsize]
    have hdata := h'.palloc size
    generalize s'.palloc size = result' at hdata ⊢
    cases hdata with
    | failed h'' hcleanup' => exact .inl ⟨larges', h''.tail, rfl, hcleanup'.trans hcleanup⟩
    | @piece data s'' larges'' h'' haligned' hcleanup' =>
      refine .inr ⟨larges'', ⟨record, handler, data⟩, ?_, rfl, rfl, haligned, fun _ =>
        haligned', ?_⟩
      · rw [if_neg hsize]
        exact hadd s'' larges'' _ ⟨record, handler, data⟩ (h''.perm (List.Perm.swap _ _ _))
      · simp only [hcleanup', hcleanup]

/-! ## The end -/

theorem mem_foldl_free {freed : List Nat} {sys : Sys} {r : Region} :
    r ∈ (freed.foldl Sys.free sys).regions ↔ r ∈ sys.regions ∧ r.base ∉ freed := by
  induction freed generalizing sys with
  | nil => simp
  | cons p freed ih =>
    rw [foldl_cons, ih, Sys.free, mem_filter, mem_cons, not_or]
    simp only [ne_eq, decide_not, Bool.not_eq_true', decide_eq_false_iff_not]
    exact and_assoc

theorem Inv.destroy (h : Inv psize s larges pieces) :
    s.destroyPool.freed.Nodup ∧ s.destroyPool.freed.Perm (s.sys.regions.map Region.base) ∧
      s.destroyPool.sys.regions = [] := by
  have hperm : s.destroyPool.freed.Perm (s.sys.regions.map Region.base) := by
    have hregions := h.frame.regions.map Region.base
    rw [map_append, map_map] at hregions
    refine List.Perm.trans ?_ hregions.symm
    exact (h.allocs.append_right _).trans perm_append_comm
  refine ⟨hperm.nodup_iff.mpr ?_, hperm, ?_⟩
  · exact List.Pairwise.map _ (fun r t hseparate => base_ne_of_separate hseparate) h.frame.separate
  · refine eq_nil_iff_forall_not_mem.mpr fun r hr => ?_
    obtain ⟨hmem, hnot⟩ := mem_foldl_free.mp hr
    exact hnot (hperm.mem_iff.mpr (mem_map_of_mem hmem))

/-! ## The beginning -/

theorem inv_createPool {pagesize size : Nat} {answers : List (Option Nat)}
    (haligned : size % poolAlignment = 0)
    (hsize : poolSize < size) (h : createPool pagesize ⟨[], answers⟩ size = some s) :
    Inv size s [] [] := by
  rw [createPool] at h
  rcases memalign_spec ⟨[], answers⟩ poolAlignment size
    with ⟨answers', hfailed⟩ | ⟨p, answers', hgranted, hgrants⟩
  · rw [hfailed] at h
    cases h
  rw [hgranted] at h
  simp only [Option.some.injEq] at h
  subst h
  obtain ⟨hne, hmod, hrange, -⟩ := hgrants
  refine ⟨⟨haligned, hsize, ⟨_, [], rfl, rfl⟩, fun b hb =>
    ?_, ?_, List.Perm.refl _, pairwise_singleton _ _,
    fun r hr => ?_⟩, List.Perm.refl _, fun l hl => absurd hl not_mem_nil, ?_⟩
  · rw [mem_singleton.mp hb]
    have hheader : dataSize ≤ poolSize := by decide
    exact ⟨rfl, hmod, hheader, le_rfl, Nat.add_le_add_left hsize.le _⟩
  · simp only
    split <;> omega
  · rw [mem_singleton.mp hr]
    exact ⟨hne, hrange⟩
  · exact ⟨fun x hx => absurd hx not_mem_nil, List.Pairwise.nil, fun x hx => absurd hx not_mem_nil⟩

end Nginx.Core.Arena
