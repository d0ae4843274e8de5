/-
  Foundation/InsertionSort.lean --- the stable insertion sort of `src/core/ngx_queue.c`, for
  any comparison.

  The part of the queue that is sorted is kept with its last element first, as the loop
  walks back through it.
-/
import Mathlib.Data.List.Basic
import Mathlib.Data.List.Perm.Basic

set_option autoImplicit false

namespace Nginx.Foundation

open List

variable {α : Type} (cmp : α → α → Int)

/-- The inner loop of `ngx_queue_sort`. -/
def insertBack (q : α) : List α → List α
  | [] => [q]
  | prev :: rest => if cmp prev q ≤ 0 then q :: prev :: rest else prev :: insertBack q rest

/-- `ngx_queue_sort` -/
def queueSort (queue : List α) :
    List α := (queue.foldl (fun sorted q => insertBack cmp q sorted) []).reverse

theorem insertBack_perm (q : α) (sorted : List α) :
    (insertBack cmp q sorted).Perm (q :: sorted) := by
  induction sorted with
  | nil => exact List.Perm.refl _
  | cons prev rest ih =>
    unfold insertBack
    split
    · exact List.Perm.refl _
    · exact (ih.cons prev).trans (List.Perm.swap q prev rest)

theorem queueSort_perm (queue : List α) : (queueSort cmp queue).Perm queue := by
  suffices h : ∀ sorted : List α,
    (queue.foldl (fun sorted q => insertBack cmp q sorted) sorted).Perm (queue ++ sorted) by
    have := h []
    rw [append_nil] at this
    exact (reverse_perm _).trans this
  induction queue with
  | nil => exact fun sorted => List.Perm.refl sorted
  | cons q queue ih =>
    intro sorted
    rw [foldl_cons]
    refine (ih _).trans (((insertBack_perm cmp q sorted).append_left queue).trans ?_)
    exact perm_middle

section order

variable {cmp} {P : α → Prop} (htotal : ∀ a b, P a → P b → 0 < cmp a b → cmp b a ≤ 0)
  (htrans : ∀ a b c, P a → P b → P c → cmp a b ≤ 0 → cmp b c ≤ 0 → cmp a c ≤ 0)

include htotal htrans

theorem insertBack_sorted {q : α} {sorted : List α} (hq : P q) (hP : ∀ a ∈ sorted, P a)
    (h : sorted.Pairwise fun b a => cmp a b ≤ 0) :
    (insertBack cmp q sorted).Pairwise fun b a => cmp a b ≤ 0 := by
  induction sorted with
  | nil => exact pairwise_singleton _ q
  | cons prev rest ih =>
    obtain ⟨hprev, hrest⟩ := pairwise_cons.mp h
    obtain ⟨hPprev, hPrest⟩ := forall_mem_cons.mp hP
    unfold insertBack
    split
    · rename_i hle
      refine pairwise_cons.mpr ⟨fun a ha => ?_, h⟩
      rcases mem_cons.mp ha with rfl | ha
      · exact hle
      · exact htrans a prev q (hPrest a ha) hPprev hq (hprev a ha) hle
    · rename_i hgt
      refine pairwise_cons.mpr ⟨fun a ha => ?_, ih hPrest hrest⟩
      rcases mem_cons.mp ((insertBack_perm cmp q rest).mem_iff.mp ha) with rfl | ha
      · exact htotal prev a hPprev hq (by omega)
      · exact hprev a ha

theorem queueSort_sorted {queue : List α} (hP : ∀ a ∈ queue, P a) :
    (queueSort cmp queue).Pairwise fun a b => cmp a b ≤ 0 := by
  unfold queueSort
  rw [pairwise_reverse]
  suffices h : ∀ sorted : List α, (∀ a ∈ sorted, P a) → sorted.Pairwise (fun b a => cmp a b ≤ 0) →
      (queue.foldl (fun sorted q => insertBack cmp q sorted) sorted).Pairwise fun b a =>
        cmp a b ≤ 0 from
    h [] (fun a ha => absurd ha not_mem_nil) List.Pairwise.nil
  induction queue with
  | nil => exact fun sorted _ h => h
  | cons q queue ih =>
    obtain ⟨hq, hqueue⟩ := forall_mem_cons.mp hP
    intro sorted hsorted h
    refine ih hqueue _ (fun a ha => ?_) (insertBack_sorted htotal htrans hq hsorted h)
    rcases mem_cons.mp ((insertBack_perm cmp q sorted).mem_iff.mp ha) with rfl | ha
    · exact hq
    · exact hsorted a ha

end order

end Nginx.Foundation
