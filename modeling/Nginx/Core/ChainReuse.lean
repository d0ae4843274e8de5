/-
  Core/ChainReuse.lean --- a buffer that is taken from the free ones is not one that is
  still to be sent.
-/
import Mathlib.Data.List.Nodup
import Nginx.Core.Chain

set_option autoImplicit false

namespace Nginx.Core

open List

/-- Buffers in use are not free, and those that will be made are none of them. -/
structure Fresh (heap : Heap) (free used : List Nat) : Prop where
  below : ∀ id ∈ used, id < heap.count
  free_below : ∀ id ∈ free, id < heap.count
  disjoint : ∀ id ∈ used, id ∉ free
  nodup : free.Nodup

/-- What comes of filling a free buffer in. -/
structure Filled (heap : Heap) (used : List Nat) (f : NgxBuf → NgxBuf) (r : Nat × Heap × List Nat) :
    Prop where
  fresh : Fresh r.2.1 r.2.2 (r.1 :: used)
  new : r.1 ∉ used
  same : ∀ id ∈ used, r.2.1.buf id = heap.buf id
  self : ∃ b, r.2.1.buf r.1 = f b

/-- What comes of the buffers of another module. -/
structure Added (heap : Heap) (free used : List Nat) (bufs : List NgxBuf) (r : Heap × List Nat) :
    Prop where
  fresh : Fresh r.1 free (r.2 ++ used)
  new : ∀ id ∈ r.2, heap.count ≤ id
  nodup : r.2.Nodup
  same : ∀ id < heap.count, r.1.buf id = heap.buf id
  self : r.2.map r.1.buf = bufs

namespace Fresh

variable {heap : Heap} {free used : List Nat}

theorem mono (h : Fresh heap free used) {used' : List Nat} (hsub : ∀ id ∈ used', id ∈ used) :
    Fresh heap free used' :=
  ⟨fun id hid => h.below id (hsub id hid), h.free_below, fun id hid =>
    h.disjoint id (hsub id hid), h.nodup⟩

theorem congr (h : Fresh heap free used) {heap' : Heap} (hcount : heap'.count = heap.count) :
    Fresh heap' free used :=
  ⟨hcount ▸ h.below, hcount ▸ h.free_below, h.disjoint, h.nodup⟩

theorem add (h : Fresh heap free used) (b : NgxBuf) :
    Fresh (heap.add b) free (heap.count :: used) where
  below :=
    forall_mem_cons.mpr ⟨Nat.lt_succ_self _, fun id hid => Nat.lt_succ_of_lt (h.below id hid)⟩
  free_below := fun id hid => Nat.lt_succ_of_lt (h.free_below id hid)
  disjoint := forall_mem_cons.mpr ⟨fun hid => lt_irrefl _ (h.free_below _ hid), h.disjoint⟩
  nodup := h.nodup

theorem addAll (h : Fresh heap free used) (bufs : List NgxBuf) :
    Added heap free used bufs (heap.addAll bufs) := by
  induction bufs generalizing heap used with
  | nil => exact ⟨h, fun id hid => absurd hid not_mem_nil, nodup_nil, fun _ _ => rfl, rfl⟩
  | cons b bufs ih =>
    have hrest := ih (h.add b)
    have hnew : ∀ id ∈ ((heap.add b).addAll bufs).2, heap.count < id :=
      fun id hid => hrest.new id hid
    have hself := hrest.same heap.count (Nat.lt_succ_self _)
    rw [Heap.buf_add_self] at hself
    refine ⟨?_, ?_, ?_, ?_, ?_⟩
    · refine hrest.fresh.mono fun id hid => ?_
      unfold Heap.addAll at hid
      simp only [cons_append, mem_cons, mem_append] at hid ⊢
      tauto
    · exact forall_mem_cons.mpr ⟨le_rfl, fun id hid => le_of_lt (hnew id hid)⟩
    · exact nodup_cons.mpr ⟨fun hid => lt_irrefl _ (hnew _ hid), hrest.nodup⟩
    · intro id hid
      have hsame := hrest.same id (Nat.lt_succ_of_lt hid)
      rw [heap.buf_add_of_ne (ne_of_lt hid)] at hsame
      exact hsame
    · exact cons_eq_cons.mpr ⟨hself, hrest.self⟩

theorem fill (h : Fresh heap free used) (f : NgxBuf → NgxBuf) :
    Filled heap used f (heap.fill free f) := by
  cases free with
  | nil =>
    refine ⟨(h.add .zeroed).congr rfl, ?_, ?_, _, Heap.buf_set_self _ _ _⟩
    · exact fun hid => lt_irrefl _ (h.below _ hid)
    · intro id hid
      have hne : id ≠ heap.count := ne_of_lt (h.below id hid)
      exact ((heap.add .zeroed).buf_set_of_ne hne _).trans (heap.buf_add_of_ne hne _)
  | cons id free =>
    obtain ⟨hid, hnodup⟩ := nodup_cons.mp h.nodup
    have hnew : id ∉ used := fun hused => h.disjoint id hused mem_cons_self
    refine ⟨⟨?_, ?_, ?_, hnodup⟩, hnew, ?_, _, Heap.buf_set_self _ _ _⟩
    · exact forall_mem_cons.mpr ⟨h.free_below id mem_cons_self, h.below⟩
    · exact fun id' hid' => h.free_below id' (mem_cons_of_mem _ hid')
    · exact forall_mem_cons.mpr ⟨hid, fun id' hid' hfree =>
        h.disjoint id' hid' (mem_cons_of_mem _ hfree)⟩
    · exact fun id' hid' => heap.buf_set_of_ne (fun heq : id' = id => hnew (heq ▸ hid')) _

end Fresh

/-- What `ngx_chain_update_chains` leaves. -/
structure Updated (heap : Heap) (busy pending : List Nat) (r : Heap × List Nat × List Nat) :
    Prop where
  fresh : Fresh r.1 r.2.1 (r.2.2 ++ pending)
  suffix : r.2.2 <:+ busy
  same : ∀ id ∈ pending, r.1.buf id = heap.buf id

/-- A buffer of this module that is still to be sent is not empty; the empty ones can be used again.
-/
theorem updateBusy_spec {tag : Nat} {heap : Heap} {free busy pending : List Nat}
    (h : Fresh heap free (busy ++ pending)) (hbusy : busy.Nodup)
    (hown : ∀ id ∈ pending, (heap.buf id).tag = tag → (heap.buf id).size ≠ 0) :
    Updated heap busy pending (updateBusy tag heap free busy) := by
  induction busy generalizing heap free with
  | nil => exact ⟨h, suffix_refl _, fun _ _ => rfl⟩
  | cons id busy ih =>
    obtain ⟨hid, hbusy⟩ := nodup_cons.mp hbusy
    have hrest : Fresh heap free (busy ++ pending) := h.mono fun id hid => mem_cons_of_mem _ hid
    unfold updateBusy
    split
    next => exact ⟨h, suffix_refl _, fun _ _ => rfl⟩
    next hsize =>
      split
      next =>
        have hnext := ih hrest hbusy hown
        exact ⟨hnext.fresh, hnext.suffix.trans (suffix_cons id busy), hnext.same⟩
      next htag =>
        have hnot : id ∉ pending := fun hmem => hown id hmem (not_not.mp htag) (not_not.mp hsize)
        have hsame : ∀ id' ∈ pending, (heap.set id (heap.buf id).reset).buf id' = heap.buf id' :=
          fun id' hid' =>
          heap.buf_set_of_ne (fun heq : id' = id => hnot (heq ▸ hid')) _
        have hfree : Fresh (heap.set id (heap.buf id).reset) (id :: free) (busy ++ pending) := by
          refine ⟨hrest.below, ?_, fun id' hid' hmem => ?_, ?_⟩
          · exact forall_mem_cons.mpr ⟨h.below id mem_cons_self, h.free_below⟩
          · rcases mem_cons.mp hmem with rfl | hmem
            · rcases mem_append.mp hid' with hid' | hid'
              · exact hid hid'
              · exact hnot hid'
            · exact hrest.disjoint id' hid' hmem
          · exact nodup_cons.mpr ⟨h.disjoint id mem_cons_self, h.nodup⟩
        have hnext := ih hfree hbusy fun id' hid' => by
          rw [hsame id' hid']
          exact hown id' hid'
        refine ⟨hnext.fresh, hnext.suffix.trans (suffix_cons id busy), fun id' hid' => ?_⟩
        rw [hnext.same id' hid', hsame id' hid']

/-! ## Chains of a filter -/

/-- The chains `free` and `busy` of a filter that marks its buffers with `tag`, and what the next
filter has still to send. -/
structure Recycled (tag : Nat) (heap : Heap) (free busy pending : List Nat) : Prop where
  fresh : Fresh heap free (busy ++ pending)
  busy_nodup : busy.Nodup
  pending_nodup : pending.Nodup
  whole : ∀ id ∈ pending, (heap.buf id).Whole
  own : ∀ id ∈ pending, (heap.buf id).tag = tag → (heap.buf id).size ≠ 0

namespace Recycled

variable {tag : Nat} {heap heap' : Heap} {free free' busy pending out : List Nat}

theorem init (tag : Nat) (heap : Heap) : Recycled tag heap [] [] [] where
  fresh := ⟨by simp, by simp, by simp, nodup_nil⟩
  busy_nodup := nodup_nil
  pending_nodup := nodup_nil
  whole := by simp
  own := by simp

theorem pass (h : Recycled tag heap free busy pending)
    (hfresh : Fresh heap' free' (out ++ (busy ++ pending)))
    (hsame : ∀ id ∈ pending, heap'.buf id = heap.buf id) (hout : out.Nodup)
    (hnew : ∀ id ∈ out, id ∉ busy ∧ id ∉ pending) (hwhole : ∀ id ∈ out, (heap'.buf id).Whole)
    (hown : ∀ id ∈ out, (heap'.buf id).tag = tag → (heap'.buf id).size ≠ 0) :
    Recycled tag heap' free' (busy ++ out) (pending ++ out) where
  fresh := hfresh.mono fun id hid => by
    simp only [mem_append] at hid ⊢
    tauto
  busy_nodup := nodup_append'.mpr ⟨h.busy_nodup, hout, fun id hbusy hid => (hnew id hid).1 hbusy⟩
  pending_nodup :=
    nodup_append'.mpr ⟨h.pending_nodup, hout, fun id hpending hid => (hnew id hid).2 hpending⟩
  whole := fun id hid => by
    rcases mem_append.mp hid with hid | hid
    · rw [hsame id hid]
      exact h.whole id hid
    · exact hwhole id hid
  own := fun id hid => by
    rcases mem_append.mp hid with hid | hid
    · rw [hsame id hid]
      exact h.own id hid
    · exact hown id hid

theorem send (h : Recycled tag heap free busy pending) (sent : Nat) :
    Recycled tag (updateSent heap pending sent).1 free busy (updateSent heap pending sent).2 := by
  have hsent := updateSent_spec h.pending_nodup h.whole sent
  refine ⟨(h.fresh.mono fun id hid => ?_).congr hsent.count, h.busy_nodup,
    h.pending_nodup.sublist hsent.suffix.sublist, hsent.whole, ?_⟩
  · rcases mem_append.mp hid with hid | hid
    · exact mem_append_left _ hid
    · exact mem_append_right _ (hsent.suffix.subset hid)
  · intro id hid htag
    rw [hsent.tag id] at htag
    exact hsent.size id hid (h.own id (hsent.suffix.subset hid) htag)

theorem update (h : Recycled tag heap free busy pending) :
    Recycled tag (updateBusy tag heap free busy).1 (updateBusy tag heap free busy).2.1
      (updateBusy tag heap free busy).2.2 pending := by
  have hupdated := updateBusy_spec h.fresh h.busy_nodup h.own
  refine ⟨hupdated.fresh, h.busy_nodup.sublist hupdated.suffix.sublist,
    h.pending_nodup, fun id hid => ?_, fun id hid => ?_⟩
  · rw [hupdated.same id hid]
    exact h.whole id hid
  · rw [hupdated.same id hid]
    exact h.own id hid

end Recycled

end Nginx.Core
