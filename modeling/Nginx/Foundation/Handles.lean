/-
  Foundation/Handles.lean --- what a list of parties holds in all, and handles that are
  to be closed once.

  A party holds so many of each resource.  When one party changes, the tally changes by
  as much as what that party holds.  Handles are numbered in the order they are opened.
  They are accounted for when each one ever opened is either owned by one owner, or has
  been closed once (`Handles.Accounted`); opening gives a new one to an owner, closing
  takes one from its owner, and where nothing is owned everything has been closed
  exactly once.
-/
import Mathlib.Data.List.Basic
import Mathlib.Data.List.Count
import Mathlib.Tactic.Ring

set_option autoImplicit false

namespace Nginx.Foundation

open List

variable {π ρ : Type} (holds : π → ρ → Nat)

/-- How many of a resource the parties hold together. -/
def tally (parties : List π) (r : ρ) : Nat := (parties.map fun p => holds p r).sum

variable {holds} {parties : List π} {p p' : π} {r : ρ}

@[simp] theorem tally_nil (r : ρ) : tally holds [] r = 0 := rfl

@[simp] theorem tally_cons (p : π) (parties : List π) (r : ρ) :
    tally holds (p :: parties) r = holds p r + tally holds parties r := by
  unfold tally
  rw [map_cons, sum_cons]

@[simp] theorem tally_append (parties more : List π) (r : ρ) :
    tally holds (parties ++ more) r = tally holds parties r + tally holds more r := by
  unfold tally
  rw [map_append, sum_append]

theorem le_tally (hp : p ∈ parties) (r : ρ) : holds p r ≤ tally holds parties r := by
  induction parties with
  | nil => exact absurd hp not_mem_nil
  | cons q parties ih =>
    rw [tally_cons]
    rcases mem_cons.mp hp with rfl | hp
    · exact Nat.le_add_right _ _
    · exact (ih hp).trans (Nat.le_add_left _ _)

theorem tally_eq_zero (hnone : ∀ p ∈ parties, holds p r = 0) : tally holds parties r = 0 := by
  induction parties with
  | nil => rfl
  | cons q parties ih =>
    rw [tally_cons, hnone q mem_cons_self, ih fun p hp => hnone p (mem_cons_of_mem q hp)]

theorem tally_perm {more : List π} (h : parties.Perm more) (r : ρ) :
    tally holds parties r = tally holds more r :=
  (h.map _).sum_nat

theorem tally_congr {holds' : π → ρ → Nat} (h : ∀ p ∈ parties, holds' p r = holds p r) :
    tally holds' parties r = tally holds parties r :=
  congrArg List.sum (map_congr_left h)

theorem tally_set {i : Nat} (hp : parties[i]? = some p) (p' : π) (r : ρ) :
    tally holds (parties.set i p') r + holds p r = tally holds parties r + holds p' r := by
  induction parties generalizing i with
  | nil => exact absurd hp (by simp)
  | cons q parties ih =>
    cases i with
    | zero =>
      obtain rfl : q = p := Option.some.inj hp
      rw [set_cons_zero, tally_cons, tally_cons]
      omega
    | succ i =>
      have hrest := ih (show parties[i]? = some p from hp)
      rw [set_cons_succ, tally_cons, tally_cons]
      omega

theorem tally_set_eq {i count count' : Nat} (hp : parties[i]? = some p)
    (hcount : count = tally holds parties r)
    (hmove : count' + holds p r = count + holds p' r) :
    count' = tally holds (parties.set i p') r := by
  have hset := @tally_set _ _ holds _ _ i hp p' r
  omega

/-- The handles opened so far, and the closes in order, the last one first. -/
structure Handles where
  opened : Nat
  closed : List Nat
  deriving DecidableEq

namespace Handles

variable {h : Handles} {own own' : Nat → Nat} {d : Nat}

/-- The next handle. -/
def openNew (h : Handles) : Handles := { h with opened := h.opened + 1 }

def close (h : Handles) (d : Nat) : Handles := { h with closed := d :: h.closed }

/-- Each handle opened is owned or has been closed, once, and no other is. -/
def Accounted (h : Handles) (own : Nat → Nat) : Prop :=
  ∀ d, own d + h.closed.count d = if d < h.opened then 1 else 0

theorem accounted_none : Accounted ⟨0, []⟩ fun _ => 0 := fun d => by simp

theorem Accounted.openNew (ha : h.Accounted own)
    (hown : ∀ d, own' d = own d + if d = h.opened then 1 else 0) : h.openNew.Accounted own' := by
  intro d
  have hd := ha d
  rw [hown, Handles.openNew]
  by_cases hnew : d = h.opened
  · rw [if_neg (by omega)] at hd
    rw [if_pos hnew, if_pos (by simp only; omega)]
    simp only
    omega
  · rw [if_neg hnew, add_zero, hd]
    exact if_congr (by simp only; omega) rfl rfl

theorem Accounted.close (ha : h.Accounted own)
    (hown : ∀ e, own e = own' e + if e = d then 1 else 0) : (h.close d).Accounted own' := by
  intro e
  have he := ha e
  rw [hown] at he
  refine Eq.trans ?_ he
  simp only [Handles.close, count_cons, beq_iff_eq]
  by_cases hed : e = d
  · rw [if_pos hed, if_pos hed.symm]
    omega
  · rw [if_neg hed, if_neg fun h => hed h.symm]
    omega

theorem Accounted.congr (ha : h.Accounted own) (hown : ∀ d, own' d = own d) : h.Accounted own' :=
  fun d => hown d ▸ ha d

theorem Accounted.open_of_owned (ha : h.Accounted own) (hd : 0 < own d) :
    d < h.opened ∧ d ∉ h.closed := by
  have hcount := ha d
  by_cases hlt : d < h.opened
  · rw [if_pos hlt] at hcount
    exact ⟨hlt, count_eq_zero.mp (by omega)⟩
  · rw [if_neg hlt] at hcount
    omega

theorem Accounted.le_one (ha : h.Accounted own) (d : Nat) : own d ≤ 1 := by
  have hcount := ha d
  split at hcount <;> omega

theorem Accounted.closed_once (ha : h.Accounted own) : h.closed.Nodup := by
  refine nodup_iff_count.mpr fun d => ?_
  have hcount := ha d
  split at hcount <;> omega

theorem Accounted.lt_of_closed (ha : h.Accounted own) (hd : d ∈ h.closed) : d < h.opened := by
  have hcount := ha d
  have hpos := count_pos_iff.mpr hd
  by_cases hlt : d < h.opened
  · exact hlt
  · rw [if_neg hlt] at hcount
    omega

theorem Accounted.count_closed (ha : h.Accounted own) (hnone : ∀ d, own d = 0)
    (hd : d < h.opened) : h.closed.count d = 1 := by
  have hcount := ha d
  rw [hnone, if_pos hd] at hcount
  omega

end Handles

end Nginx.Foundation
