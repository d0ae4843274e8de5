/-
  Core/PoolFrame.lean --- the blocks of a pool and what the system has handed out.

  `Frame` says where the blocks and the large allocations are.  An allocation in a
  block is `Carved`: it was free before, and what was used before stays.
-/
import Nginx.Core.Pool

set_option autoImplicit false

namespace Nginx.Core.Arena

open List Foundation Foundation.Region

/-- What is used of a block, its header apart. -/
def body (b : Block) : Region := ⟨b.addr + b.header, b.last - (b.addr + b.header)⟩

/-- The memory of a block. -/
def span (psize : Nat) (b : Block) : Region := ⟨b.addr, psize⟩

def bodies (s : Arena) : List Region := s.pool.blocks.map body

/-- The header of a block. -/
def headers (s : Arena) : List Region := s.pool.blocks.map fun b => ⟨b.addr, b.header⟩

structure BlockOk (psize : Nat) (b : Block) : Prop where
  stop : b.stop = b.addr + psize
  aligned : b.addr % poolAlignment = 0
  header : dataSize ≤ b.header
  low : b.addr + b.header ≤ b.last
  high : b.last ≤ b.stop

/-- The blocks of a pool for `psize` bytes each, and the regions `larges` of its large
allocations. -/
structure Frame (psize : Nat) (s : Arena) (larges : List Region) : Prop where
  psize_aligned : psize % poolAlignment = 0
  psize_lt : poolSize < psize
  first : ∃ first rest, s.pool.blocks = first :: rest ∧ first.header = poolSize
  blocks : ∀ b ∈ s.pool.blocks, BlockOk psize b
  max_le : s.pool.max + poolSize ≤ psize
  regions : s.sys.regions.Perm (s.pool.blocks.map (span psize) ++ larges)
  separate : s.sys.regions.Pairwise Sys.Separate
  granted : ∀ r ∈ s.sys.regions, r.base ≠ 0 ∧ r.base + r.size < wordRange

/-- What can be in use. -/
def usable (s : Arena) (larges : List Region) : List Region := bodies s ++ larges

theorem Separate.symm {r t : Region} (h : Sys.Separate r t) : Sys.Separate t r := Or.symm h

theorem Separate.apart {r t : Region} (h : Sys.Separate r t) : Apart r t := by
  refine apart_of_le ?_
  rw [Sys.Separate] at h
  omega

section Facts

variable {psize : Nat} {s : Arena} {larges : List Region}

theorem Frame.separate_perm (h : Frame psize s larges) :
    (s.pool.blocks.map (span psize) ++ larges).Pairwise Sys.Separate :=
  h.regions.pairwise h.separate Separate.symm

theorem Frame.span_mem (h : Frame psize s larges) {b : Block} (hb : b ∈ s.pool.blocks) :
    span psize b ∈ s.sys.regions :=
  h.regions.mem_iff.mpr (mem_append_left _ (mem_map_of_mem hb))

theorem Frame.large_mem (h : Frame psize s larges) {r : Region} (hr : r ∈ larges) :
    r ∈ s.sys.regions :=
  h.regions.mem_iff.mpr (mem_append_right _ hr)

theorem Frame.stop_lt (h : Frame psize s larges) {b : Block} (hb : b ∈ s.pool.blocks) :
    b.stop < wordRange := by
  rw [(h.blocks b hb).stop]
  exact (h.granted _ (h.span_mem hb)).2

theorem BlockOk.body_le {b : Block} (h : BlockOk psize b) :
    (span psize b).base ≤ (body b).base ∧ (body b).base + (body b).size = b.last ∧
      b.last ≤ (span psize b).base + (span psize b).size := by
  have hlow := h.low
  have hhigh := h.high
  rw [h.stop] at hhigh
  refine ⟨Nat.le_add_right _ _, ?_, hhigh⟩
  show b.addr + b.header + (b.last - (b.addr + b.header)) = b.last
  omega

theorem BlockOk.mem_span {b : Block} (h : BlockOk psize b) {x : Nat} (hx : x ∈ body b) :
    x ∈ span psize b := by
  obtain ⟨hbase, hlast, hend⟩ := h.body_le
  rw [mem_iff] at hx ⊢
  omega

theorem Frame.usable_mem (h : Frame psize s larges) {t : Region} (ht : t ∈ usable s larges) :
    ∃ r ∈ s.sys.regions, ∀ x, x ∈ t → x ∈ r := by
  rcases mem_append.mp ht with ht | ht
  · obtain ⟨b, hb, rfl⟩ := mem_map.mp ht
    exact ⟨span psize b, h.span_mem hb, fun x hx => (h.blocks b hb).mem_span hx⟩
  · exact ⟨t, h.large_mem ht, fun x hx => hx⟩

theorem Frame.apart_usable (h : Frame psize s larges) {r : Region}
    (hr : ∀ t ∈ s.sys.regions, Sys.Separate r t) {t : Region}
    (ht : t ∈ usable s larges) : Apart t r := by
  obtain ⟨t', ht', hsub⟩ := h.usable_mem ht
  exact (Separate.apart (hr t' ht')).symm.mono hsub

theorem Frame.psize_eq (h : Frame psize s larges) :
    subWord s.pool.first.stop s.pool.first.addr = psize := by
  obtain ⟨first, rest, hblocks, -⟩ := h.first
  have hmem : first ∈ s.pool.blocks := by rw [hblocks]; exact mem_cons_self
  have hfirst : s.pool.first = first := by rw [Pool.first, hblocks]; rfl
  have hstop := (h.blocks first hmem).stop
  rw [hfirst, subWord_of_le (by omega) (h.stop_lt hmem), hstop, Nat.add_sub_cancel_left]

end Facts

/-! ## Alignment -/

theorem alignPtr_eq {p a : Nat} (hp : p + (a - 1) < wordRange) :
    alignPtr p a = (p + (a - 1)) / a * a := by
  rw [alignPtr, addWord_of_lt hp]

theorem alignPtr_bounds {p stop : Nat} (hle : p ≤ stop) (haligned : stop % alignment = 0)
    (hstop : stop + alignment ≤ wordRange) :
    p ≤ alignPtr p alignment ∧ alignPtr p alignment ≤ stop ∧
      alignPtr p alignment % alignment = 0 := by
  unfold alignment at *
  rw [alignPtr_eq (by omega)]
  omega

section Place

variable {psize : Nat} {b : Block}

theorem BlockOk.place_bounds (h : BlockOk psize b) (hpsize : psize % poolAlignment = 0)
    (hstop : b.stop < wordRange)
    (align : Bool) :
    b.last ≤ place b align ∧ place b align ≤ b.stop ∧
      (align = true → place b align % alignment = 0) := by
  have haligned := h.aligned
  have hend := h.stop
  have hhigh := h.high
  unfold poolAlignment at hpsize haligned
  unfold wordRange at hstop
  have hmod : b.stop % alignment = 0 := by
    unfold alignment
    omega
  have hroom : b.stop + alignment ≤ wordRange := by
    unfold alignment wordRange
    omega
  have hbounds := alignPtr_bounds hhigh hmod hroom
  cases align with
  | false => exact ⟨le_rfl, hhigh, fun h => by cases h⟩
  | true => exact ⟨hbounds.1, hbounds.2.1, fun _ => hbounds.2.2⟩

end Place

variable {psize : Nat} {s : Arena} {larges : List Region}

/-- The pool with other blocks. -/
def withBlocks (s : Arena) (blocks : List Block) :
    Arena := { s with pool := { s.pool with blocks := blocks } }

section Position

variable {pre post : List Block} {b : Block}

theorem Frame.separate_at (h : Frame psize s larges) (hblocks : s.pool.blocks = pre ++ b :: post) :
    (∀ b' ∈ pre ++ post, Sys.Separate (span psize b) (span psize b')) ∧
      ∀ r ∈ larges, Sys.Separate (span psize b) r := by
  have hpairwise := h.separate_perm
  have hperm : (s.pool.blocks.map (span psize) ++ larges).Perm
      (span psize b :: ((pre ++ post).map (span psize) ++ larges)) := by
    rw [hblocks, map_append, map_cons, append_assoc, cons_append, map_append, append_assoc]
    exact perm_middle
  obtain ⟨hhead, -⟩ := pairwise_cons.mp (hperm.pairwise hpairwise Separate.symm)
  exact ⟨fun b' hb' => hhead _ (mem_append_left _ (mem_map_of_mem hb')),
    fun r hr => hhead r (mem_append_right _ hr)⟩

theorem Frame.apart_above (h : Frame psize s larges)
    (hblocks : s.pool.blocks = pre ++ b :: post) {x : Region}
    (hbase : b.last ≤ x.base) (hend : x.base + x.size ≤ b.stop) {t : Region}
    (ht : t ∈ usable s larges) : Apart t x := by
  obtain ⟨hothers, hlarges⟩ := h.separate_at hblocks
  have hb := h.blocks b (by rw [hblocks]; exact mem_append_right _ mem_cons_self)
  obtain ⟨-, hlast, -⟩ := hb.body_le
  have hsub : ∀ y, y ∈ x → y ∈ span psize b := by
    intro y hy
    have hhigh := hb.low
    have hstop := hb.stop
    rw [mem_iff] at hy
    refine ⟨?_, ?_⟩ <;> simp only [span] <;> omega
  rcases mem_append.mp ht with ht | ht
  · obtain ⟨b', hb', rfl⟩ := mem_map.mp ht
    have hok := h.blocks b' hb'
    rw [hblocks] at hb'
    have hcases : b' = b ∨ b' ∈ pre ++ post := by
      rcases mem_append.mp hb' with hb' | hb'
      · exact .inr (mem_append_left _ hb')
      · exact (mem_cons.mp hb').imp_right (mem_append_right _)
    rcases hcases with rfl | hother
    · exact apart_of_le (.inl (by omega))
    · have happart := Separate.apart (hothers b' hother)
      exact fun y hy hyx => happart y (hsub y hyx) (hok.mem_span hy)
  · have happart := Separate.apart (hlarges t ht)
    exact fun y hy hyx => happart y (hsub y hyx) hy

theorem Frame.setLast (h : Frame psize s larges) (hblocks : s.pool.blocks = pre ++ b :: post)
    {last : Nat}
    (hlow : b.addr + b.header ≤ last) (hhigh : last ≤ b.stop) :
    Frame psize (withBlocks s (pre ++ { b with last := last } :: post)) larges := by
  have hb := h.blocks b (by rw [hblocks]; exact mem_append_right _ mem_cons_self)
  refine ⟨h.psize_aligned, h.psize_lt, ?_, ?_, h.max_le, ?_, h.separate, h.granted⟩
  · obtain ⟨first, rest, hfirst, hheader⟩ := h.first
    rw [hblocks] at hfirst
    cases pre with
    | nil =>
      rw [nil_append, cons.injEq] at hfirst
      exact ⟨{ b with last := last }, post, rfl, hfirst.1 ▸ hheader⟩
    | cons p pre =>
      rw [cons_append, cons.injEq] at hfirst
      exact ⟨p, pre ++ { b with last := last } :: post, rfl, hfirst.1 ▸ hheader⟩
  · intro b' hb'
    have hold : ∀ b'' ∈ pre ++ b :: post, BlockOk psize b'' := hblocks ▸ h.blocks
    rcases mem_append.mp hb' with hb' | hb'
    · exact hold b' (mem_append_left _ hb')
    · rcases mem_cons.mp hb' with rfl | hb'
      · exact ⟨hb.stop, hb.aligned, hb.header, hlow, hhigh⟩
      · exact hold b' (mem_append_right _ (mem_cons_of_mem _ hb'))
  · have hregions := h.regions
    rw [hblocks, map_append, map_cons] at hregions
    show s.sys.regions.Perm ((pre ++ { b with last := last } :: post).map (span psize) ++ larges)
    rw [map_append, map_cons]
    exact hregions

theorem usable_setLast (hblocks : s.pool.blocks = pre ++ b :: post)
    {last : Nat} (hle : b.last ≤ last) {t : Region}
    (ht : t ∈ usable s larges) :
    t.Covered (usable (withBlocks s (pre ++ { b with last := last } :: post)) larges) := by
  rcases mem_append.mp ht with ht | ht
  · obtain ⟨b', hb', rfl⟩ := mem_map.mp ht
    rw [hblocks] at hb'
    have hmem : ∀ b'' ∈ pre ++ { b with last := last } :: post,
        body b'' ∈ usable (withBlocks s (pre ++ { b with last := last } :: post)) larges :=
          fun b'' hb'' =>
      mem_append_left _ (mem_map_of_mem hb'')
    rcases mem_append.mp hb' with hb' | hb'
    · exact covered_of_mem (hmem b' (mem_append_left _ hb'))
    rcases mem_cons.mp hb' with rfl | hb'
    · refine covered_of_bounds (hmem _ (mem_append_right _ mem_cons_self)) (le_rfl) ?_
      simp only [body]
      omega
    · exact covered_of_mem (hmem b' (mem_append_right _ (mem_cons_of_mem _ hb')))
  · exact covered_of_mem (mem_append_right _ ht)

theorem covered_setLast {last : Nat} {x : Region} (hbase : b.addr + b.header ≤ x.base)
    (hend : x.base + x.size ≤ last) :
    x.Covered (bodies (withBlocks s (pre ++ { b with last := last } :: post))) := by
  refine covered_of_bounds (mem_map_of_mem (mem_append_right _ mem_cons_self)) hbase ?_
  simp only [body]
  omega

end Position

/-- An allocation `x` in the blocks: it was free, and what was usable stays. -/
structure Carved (psize : Nat) (s s' : Arena) (larges : List Region) (x : Region) : Prop where
  frame : Frame psize s' larges
  covered : x.Covered (bodies s')
  fresh : ∀ t ∈ usable s larges, Apart t x
  keep : ∀ t ∈ bodies s, t.Covered (bodies s')
  max : s'.pool.max = s.pool.max
  large : s'.pool.large = s.pool.large
  cleanup : s'.pool.cleanup = s.pool.cleanup

variable {s' : Arena}

theorem Carved.usable {x : Region} (h : Carved psize s s' larges x)
    {t : Region} (ht : t ∈ usable s larges) :
    t.Covered (usable s' larges) := by
  rcases mem_append.mp ht with ht | ht
  · exact (h.keep t ht).mono fun t' ht' => covered_of_mem (mem_append_left _ ht')
  · exact covered_of_mem (mem_append_right _ ht)

/-! ## In a block that has room -/

variable {size : Nat}

theorem takeFrom_spec {m : Nat} {align : Bool} {bs found : List Block}
    (h : takeFrom size align bs = some (m, found)) :
    ∃ pre b post, bs = pre ++ b :: post ∧ found = pre ++ { b with last := m + size } :: post ∧
      m = place b align ∧
      size ≤ subWord b.stop m := by
  induction bs generalizing found with
  | nil => cases h
  | cons b rest ih =>
    rw [takeFrom] at h
    by_cases hroom : size ≤ subWord b.stop (place b align)
    · simp only [if_pos hroom, Option.some.injEq, Prod.mk.injEq] at h
      obtain ⟨rfl, rfl⟩ := h
      exact ⟨[], b, rest, rfl, rfl, rfl, hroom⟩
    simp only [if_neg hroom] at h
    obtain ⟨⟨m', found'⟩, hfound, heq⟩ := Option.map_eq_some_iff.mp h
    rw [Prod.mk.injEq] at heq
    obtain ⟨rfl, rfl⟩ := heq
    obtain ⟨pre, b', post, rfl, hfound', hm, hsize⟩ := ih hfound
    exact ⟨b :: pre, b', post, rfl, by rw [hfound', cons_append], hm, hsize⟩

theorem Frame.carve (h : Frame psize s larges) {pre post : List Block} {b : Block}
    (hblocks : s.pool.blocks = pre ++ b :: post) {m size : Nat}
    (hlast : b.last ≤ m) (hroom : m + size ≤ b.stop) :
    Carved psize s (withBlocks s (pre ++ { b with last := m + size } :: post)) larges
      ⟨m, size⟩ := by
  have hb := h.blocks b (by rw [hblocks]; exact mem_append_right _ mem_cons_self)
  have hlow := hb.low
  refine ⟨h.setLast hblocks (by omega) hroom, covered_setLast (by simp only; omega) (le_rfl),
    fun t ht => h.apart_above hblocks hlast hroom ht, fun t ht => ?_, rfl, rfl, rfl⟩
  have hkeep := @usable_setLast _ [] _ _ _ hblocks (m + size) (by omega) _ (mem_append_left _ ht)
  rw [usable, append_nil] at hkeep
  exact hkeep

/-! ## In a new block -/

/-- Blocks up to their counters. -/
def view (b : Block) : Block := { b with failed := 0 }

theorem countFailed_view (i current : Nat) (bs : List Block) :
    (countFailed i current bs).1.map view = bs.map view := by
  induction bs generalizing i current with
  | nil => rfl
  | cons b rest ih =>
    cases rest with
    | nil => rfl
    | cons next rest =>
      rw [countFailed]
      simp only [map_cons] at ih ⊢
      rw [ih]
      rfl

theorem Frame.of_view (h : Frame psize s larges)
    (hview : s'.pool.blocks.map view = s.pool.blocks.map view)
    (hmax : s'.pool.max = s.pool.max) (hsys : s'.sys.regions = s.sys.regions) :
    Frame psize s' larges := by
  have hspans : s'.pool.blocks.map (span psize) = s.pool.blocks.map (span psize) := by
    have hcongr := congrArg (List.map (span psize)) hview
    rw [map_map, map_map] at hcongr
    exact hcongr
  refine ⟨h.psize_aligned, h.psize_lt, ?_, fun b hb => ?_, by rw [hmax]; exact h.max_le, ?_, ?_, ?_⟩
  · obtain ⟨first, rest, hblocks, hheader⟩ := h.first
    rw [hblocks, map_cons] at hview
    obtain ⟨first', rest', hblocks', hfirst, -⟩ := map_eq_cons_iff.mp hview
    refine ⟨first', rest', hblocks', ?_⟩
    have hsame := congrArg Block.header hfirst
    exact hsame.trans hheader
  · have hmem : view b ∈ s.pool.blocks.map view := hview ▸ mem_map_of_mem hb
    obtain ⟨b', hb', heq⟩ := mem_map.mp hmem
    have hok := h.blocks b' hb'
    rw [view, view, Block.mk.injEq] at heq
    obtain ⟨haddr, hheader, hlast, hstop, -⟩ := heq
    exact ⟨by rw [← hstop, ← haddr]; exact hok.stop, by
      rw [← haddr]; exact hok.aligned, by rw [← hheader]; exact hok.header,
      by rw [← haddr, ← hheader, ← hlast]; exact hok.low, by rw [← hlast, ← hstop]; exact hok.high⟩
  · rw [hsys, hspans]
    exact h.regions
  · rw [hsys]
    exact h.separate
  · rw [hsys]
    exact h.granted

theorem bodies_of_view (hview : s'.pool.blocks.map view = s.pool.blocks.map view) :
    bodies s' = bodies s := by
  have hcongr := congrArg (List.map body) hview
  rw [map_map, map_map] at hcongr
  exact hcongr

/-- A new block keeps the frame: the system grants it apart from all others. -/
theorem Frame.addBlock (h : Frame psize s larges) {new : Nat}
    (hgrants : s.sys.Grants poolAlignment ⟨new, psize⟩) (hsize : size + dataSize ≤ psize)
    (answers : List (Option Nat)) :
    let block : Block :=
      { addr := new, header := dataSize, last := new + dataSize + size, stop := new + psize }
    Carved psize s
      { pool := { s.pool with blocks := s.pool.blocks ++ [block] }
        sys := { regions := ⟨new, psize⟩ :: s.sys.regions, answers := answers } } larges
          ⟨new + dataSize, size⟩ := by
  obtain ⟨hne, haligned, hrange, hseparate⟩ := hgrants
  refine ⟨⟨h.psize_aligned, h.psize_lt, ?_, ?_, h.max_le, ?_, ?_, ?_⟩, ?_, fun t ht =>
    ?_, fun t ht => ?_, rfl, rfl, rfl⟩
  · obtain ⟨first, rest, hblocks, hheader⟩ := h.first
    exact ⟨first, rest ++ [_], by rw [hblocks, cons_append], hheader⟩
  · intro b hb
    rcases mem_append.mp hb with hb | hb
    · exact h.blocks b hb
    · rw [mem_singleton.mp hb]
      refine ⟨rfl, haligned, le_rfl, Nat.le_add_right _ _, ?_⟩
      simp only
      omega
  · rw [map_append]
    simp only [map_singleton, append_assoc, singleton_append]
    exact (h.regions.cons _).trans perm_middle.symm
  · exact pairwise_cons.mpr ⟨hseparate, h.separate⟩
  · intro r hr
    rcases mem_cons.mp hr with rfl | hr
    · exact ⟨hne, hrange⟩
    · exact h.granted r hr
  · refine covered_of_bounds (mem_map_of_mem (mem_append_right _ (mem_singleton_self _))) ?_ ?_
    · exact le_rfl
    · simp only [body]
      omega
  · have happart := h.apart_usable hseparate ht
    refine (happart.symm.mono fun x hx => ?_).symm
    rw [mem_iff] at hx ⊢
    simp only at hx ⊢
    omega
  · obtain ⟨b, hb, rfl⟩ := mem_map.mp ht
    exact covered_of_mem (mem_map_of_mem (mem_append_left _ hb))

theorem Carved.of_view {s'' : Arena} {x : Region} (h : Carved psize s s' larges x)
    (hview : s''.pool.blocks.map view = s'.pool.blocks.map view) (hmax : s''.pool.max = s'.pool.max)
    (hlarge : s''.pool.large = s'.pool.large) (hcleanup : s''.pool.cleanup = s'.pool.cleanup)
    (hsys : s''.sys.regions = s'.sys.regions) : Carved psize s s'' larges x := by
  have hbodies := bodies_of_view hview
  exact ⟨h.frame.of_view hview hmax hsys, by rw [hbodies]; exact h.covered, h.fresh, by
    rw [hbodies]; exact h.keep,
    hmax.trans h.max, hlarge.trans h.large, hcleanup.trans h.cleanup⟩

theorem memalign_spec (sys : Sys) (a size : Nat) :
    (∃ answers, sys.memalign a size = (none, { sys with answers := answers })) ∨
      ∃ p answers,
        sys.memalign a size =
        (some p, { regions := ⟨p, size⟩ :: sys.regions, answers := answers }) ∧
        sys.Grants a ⟨p, size⟩ := by
  rw [Sys.memalign]
  cases hanswers : sys.answers with
  | nil => exact .inl ⟨sys.answers, rfl⟩
  | cons answer answers =>
    cases answer with
    | none => exact .inl ⟨answers, rfl⟩
    | some base =>
      by_cases hgrants : sys.Grants a ⟨base, size⟩
      · exact .inr ⟨base, answers, if_pos hgrants, hgrants⟩
      · exact .inl ⟨answers, if_neg hgrants⟩

/-- The outcome of an allocation in the blocks. -/
inductive SmallOutcome (psize : Nat) (s : Arena) (larges : List Region)
    (size : Nat) (align : Bool) :
    Option Nat × Arena → Prop where
  | failed (answers : List (Option Nat)) :
      SmallOutcome psize s larges size align
        (none, { s with sys := { s.sys with answers := answers } })
  | carved {m : Nat} {s' : Arena} (h : Carved psize s s' larges ⟨m, size⟩)
    (haligned : align = true → m % alignment = 0) :
      SmallOutcome psize s larges size align (some m, s')

theorem Frame.pallocBlock (h : Frame psize s larges) (hsize : size + dataSize ≤ psize)
    (align : Bool) :
    SmallOutcome psize s larges size align (s.pallocBlock size) := by
  rw [Arena.pallocBlock, h.psize_eq]
  rcases memalign_spec s.sys poolAlignment psize
    with ⟨answers, hfailed⟩ | ⟨new, answers, hgranted, hgrants⟩
  · rw [hfailed]
    exact .failed answers
  rw [hgranted]
  obtain ⟨-, haligned, hrange, -⟩ := id hgrants
  have hplace : alignPtr (new + dataSize) alignment = new + dataSize := by
    have hpsize := h.psize_lt
    unfold poolAlignment at haligned
    unfold wordRange at hrange
    unfold poolSize at hpsize
    rw [alignPtr_eq (by unfold dataSize alignment wordRange; simp only at hrange; omega)]
    unfold dataSize alignment
    simp only at haligned
    omega
  have hadded := h.addBlock hgrants hsize answers
  have hview := countFailed_view s.pool.current s.pool.current (s.pool.blocks.drop s.pool.current)
  generalize countFailed s.pool.current s.pool.current (s.pool.blocks.drop s.pool.current) =
    counted at hview ⊢
  obtain ⟨counted, current⟩ := counted
  simp only at hview ⊢
  rw [hplace]
  refine .carved (hadded.of_view ?_ rfl rfl rfl rfl) fun _ => ?_
  · simp only [map_append, hview]
    rw [← map_append, take_append_drop]
  · unfold poolAlignment at haligned
    unfold dataSize alignment
    simp only at haligned
    omega

theorem Frame.pallocSmall (h : Frame psize s larges) (hsize : size + dataSize ≤ psize)
    (align : Bool) :
    SmallOutcome psize s larges size align (s.pallocSmall size align) := by
  rw [Arena.pallocSmall]
  cases hfound : takeFrom size align (s.pool.blocks.drop s.pool.current) with
  | none => exact h.pallocBlock hsize align
  | some found =>
    obtain ⟨m, found⟩ := found
    obtain ⟨pre, b, post, hdrop, rfl, rfl, hroom⟩ := takeFrom_spec hfound
    have hblocks : s.pool.blocks = (s.pool.blocks.take s.pool.current ++ pre) ++ b :: post := by
      rw [append_assoc, ← hdrop, take_append_drop]
    have hmem : b ∈ s.pool.blocks := by
      rw [hblocks]
      exact mem_append_right _ mem_cons_self
    obtain ⟨hlast, hstop, haligned⟩ :=
      (h.blocks b hmem).place_bounds h.psize_aligned (h.stop_lt hmem) align
    rw [subWord_of_le hstop (h.stop_lt hmem)] at hroom
    have hcarved := @Frame.carve _ _ _ h _ _ _ hblocks (place b align) size hlast (by omega)
    simp only
    rw [← append_assoc]
    exact .carved hcarved haligned

end Nginx.Core.Arena
