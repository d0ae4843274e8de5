/-
  Foundation/Smooth.lean --- smooth weighted selection.

  Everybody's current weight grows by his own weight, one with the largest current
  weight is picked, and the total weight is taken from him.  In as many rounds as
  the total weight everybody is picked as often as his weight says.

  The proof: a current weight never falls to minus the total, since the one that is
  picked is positive.  After the last round it is a multiple of the total, so nobody
  was picked more often than his weight, and nobody less often, as the numbers agree.
-/
import Mathlib.Algebra.BigOperators.Ring.Finset
import Mathlib.Algebra.Order.BigOperators.Group.Finset
import Mathlib.Tactic.Linarith
import Mathlib.Tactic.Ring

set_option autoImplicit false

namespace Nginx.Foundation

open Finset

variable {ι : Type} [DecidableEq ι]

/-- One round, in which `i` is picked. -/
structure SmoothRound (s : Finset ι) (weight : ι → ℤ) (current : ι → ℤ) (i : ι) (current' : ι → ℤ) :
    Prop where
  mem : i ∈ s
  best : ∀ j ∈ s, current j + weight j ≤ current i + weight i
  next : ∀ j ∈ s, current' j = current j + weight j - if j = i then ∑ k ∈ s, weight k else 0

/-- Rounds one after another, and who was picked. -/
inductive SmoothRun (s : Finset ι) (weight : ι → ℤ) : (ι → ℤ) → List ι → (ι → ℤ) → Prop where
  | nil (current : ι → ℤ) : SmoothRun s weight current [] current
  | cons {current current₁ current₂ : ι → ℤ} {i : ι} {picks : List ι}
      (h : SmoothRound s weight current i current₁)
        (hrest : SmoothRun s weight current₁ picks current₂) :
      SmoothRun s weight current (i :: picks) current₂

variable {s : Finset ι} {weight current current' : ι → ℤ} {i : ι} {picks : List ι}

theorem SmoothRound.sum_eq (h : SmoothRound s weight current i current') :
    ∑ j ∈ s, current' j = ∑ j ∈ s, current j := by
  have hsum : ∑ j ∈ s, current' j =
      ∑ j ∈ s, (current j + weight j - if j = i then ∑ k ∈ s, weight k else 0) :=
    sum_congr rfl h.next
  rw [hsum, sum_sub_distrib, sum_add_distrib, sum_ite_eq' s i, if_pos h.mem]
  ring

theorem SmoothRound.pos (h : SmoothRound s weight current i current')
    (hzero : ∑ j ∈ s, current j = 0)
    (htotal : 0 < ∑ j ∈ s, weight j) : 0 < current i + weight i := by
  have hsum : 0 < ∑ j ∈ s, (current j + weight j) := by
    rw [sum_add_distrib, hzero, zero_add]
    exact htotal
  obtain ⟨j, hj, hpos⟩ := exists_lt_of_sum_lt (s := s) (f := fun _ => (0 : ℤ)) (by simpa using hsum)
  exact lt_of_lt_of_le hpos (h.best j hj)

theorem SmoothRound.neg_lt (h : SmoothRound s weight current i current')
    (hzero : ∑ j ∈ s, current j = 0)
    (hweight : ∀ j ∈ s, 0 < weight j) (hlow : ∀ j ∈ s, -∑ k ∈ s, weight k < current j) :
    ∀ j ∈ s, -∑ k ∈ s, weight k < current' j := by
  intro j hj
  have htotal : 0 < ∑ k ∈ s, weight k := sum_pos hweight ⟨i, h.mem⟩
  have hpos := h.pos hzero htotal
  have hgrow := hweight j hj
  have hlow' := hlow j hj
  rw [h.next j hj]
  split
  next heq =>
    rw [heq]
    omega
  next => omega

theorem SmoothRun.eq_of_run (h : SmoothRun s weight current picks current') :
    ∀ j ∈ s, current' j = current j + picks.length * weight j - picks.count j * ∑ k ∈ s,
      weight k := by
  induction h with
  | nil current => simp
  | @cons current current₁ current₂ i picks h hrest ih =>
    intro j hj
    rw [ih j hj, h.next j hj, List.length_cons, List.count_cons]
    by_cases heq : j = i
    · rw [if_pos heq, if_pos (by simp [heq])]
      push_cast
      ring
    · rw [if_neg heq, if_neg (by simpa using fun h => heq h.symm)]
      push_cast
      ring

theorem SmoothRun.invariant (h : SmoothRun s weight current picks current')
    (hweight : ∀ j ∈ s, 0 < weight j) (hzero : ∑ j ∈ s, current j = 0)
    (hlow : ∀ j ∈ s, -∑ k ∈ s, weight k < current j) :
    ∑ j ∈ s, current' j = 0 ∧ (∀ j ∈ s, -∑ k ∈ s, weight k < current' j) ∧ ∀ i ∈ picks, i ∈ s := by
  induction h with
  | nil current => exact ⟨hzero, hlow, nofun⟩
  | cons h hrest ih =>
    obtain ⟨hsum, hneg, hmem⟩ := ih (h.sum_eq.trans hzero) (h.neg_lt hzero hweight hlow)
    exact ⟨hsum, hneg, List.forall_mem_cons.mpr ⟨h.mem, hmem⟩⟩

/-- In as many rounds as the total weight, everybody is picked as often as his weight says, and
the current weights are zero again. -/
theorem SmoothRun.exact (h : SmoothRun s weight (fun _ => 0) picks current')
    (hweight : ∀ j ∈ s, 0 < weight j) (hlength : (picks.length : ℤ) = ∑ k ∈ s, weight k) :
    ∀ j ∈ s, (picks.count j : ℤ) = weight j ∧ current' j = 0 := by
  rcases s.eq_empty_or_nonempty with rfl | hne
  · exact fun j hj => absurd hj (notMem_empty j)
  have htotal : 0 < ∑ k ∈ s, weight k := sum_pos hweight hne
  obtain ⟨-, hneg, hmem⟩ := h.invariant hweight sum_const_zero fun j _ => by omega
  have hfinal : ∀ j ∈ s, current' j = (weight j - picks.count j) * ∑ k ∈ s, weight k :=
    fun j hj => by
    rw [h.eq_of_run j hj, hlength]
    ring
  have hle : ∀ j ∈ s, (picks.count j : ℤ) ≤ weight j := fun j hj => by
    by_contra hmore
    have hnot := hneg j hj
    rw [hfinal j hj] at hnot
    nlinarith
  have hcount : ∑ j ∈ s, (picks.count j : ℤ) = ∑ j ∈ s, weight j := by
    have hcard : ∑ j ∈ s, picks.count j = picks.length := by
      simpa using Multiset.sum_count_eq_card (m := (picks : Multiset ι)) hmem
    rw [← hlength, ← Nat.cast_sum, hcard]
  have heq := (sum_eq_sum_iff_of_le hle).mp hcount
  intro j hj
  exact ⟨heq j hj, by rw [hfinal j hj, heq j hj, sub_self, zero_mul]⟩

/-- After any number of rounds nobody is a whole turn ahead of his share, and nobody lags behind
it by more than what the others are ahead of theirs. -/
theorem SmoothRun.fair (h : SmoothRun s weight (fun _ => 0) picks current')
    (hweight : ∀ j ∈ s, 0 < weight j) {j : ι} (hj : j ∈ s) :
    (picks.count j : ℤ) * ∑ k ∈ s, weight k < picks.length * weight j + ∑ k ∈ s, weight k ∧
      picks.length * weight j ≤ ((picks.count j : ℤ) + (s.card - 1)) * ∑ k ∈ s, weight k := by
  have htotal : 0 < ∑ k ∈ s, weight k := sum_pos hweight ⟨j, hj⟩
  obtain ⟨hsum, hneg, -⟩ := h.invariant hweight sum_const_zero fun j _ => by omega
  have hcurrent := h.eq_of_run j hj
  have hothers : ∑ k ∈ s.erase j, -∑ k ∈ s, weight k ≤ ∑ k ∈ s.erase j, current' k :=
    sum_le_sum fun k hk => (hneg k (mem_of_mem_erase hk)).le
  have hrest : current' j + ∑ k ∈ s.erase j, current' k = 0 :=
    (add_sum_erase s current' hj).trans hsum
  have hcard : ((s.erase j).card : ℤ) = s.card - 1 := by
    rw [card_erase_of_mem hj, Nat.cast_pred (card_pos.mpr ⟨j, hj⟩)]
  rw [sum_const, nsmul_eq_mul, hcard] at hothers
  have hlow := hneg j hj
  constructor
  · linarith
  · linarith

end Nginx.Foundation
