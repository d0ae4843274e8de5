/-
  Foundation/Bucket.lean --- an account of a leaking bucket.

  A bucket leaks at a rate, and every admission fills it by the same cost.  The
  first admission, which puts the bucket up, is free, and a bucket that has run
  dry may be taken away.  `Ledger` is what these add up to from a start on, and
  each of its rules is for one thing that happens; the levels are counted in
  parts of which `scale` make one unit of the rate.
-/
import Mathlib.Data.Nat.Basic
import Mathlib.Tactic.Linarith
import Mathlib.Tactic.Ring

set_option autoImplicit false

namespace Nginx.Foundation

/-- A bucket, and when it was filled last. -/
structure Bucket where
  level : Nat
  last : Nat
  deriving DecidableEq

/-- What was admitted since `start` is paid for: by the buckets that were put up, by the leak, and
by what is in the bucket still. -/
def Ledger (cost scale rate start admitted dropped now : Nat) : Option Bucket → Prop
  | none => cost * admitted + rate * start ≤ cost * dropped + rate * now
  | some b => admitted = 0 ∨ rate * start ≤ rate * b.last ∧
      cost * admitted + rate * start ≤ cost * (dropped + 1) + scale * b.level + rate * b.last

namespace Ledger

variable {cost scale rate start admitted dropped now : Nat} {b : Bucket}

theorem init (bucket : Option Bucket) (hstart : start ≤ now) :
    Ledger cost scale rate start 0 dropped now bucket := by
  cases bucket with
  | none =>
    have hrate : rate * start ≤ rate * now := Nat.mul_le_mul_left rate hstart
    unfold Ledger
    omega
  | some b => exact .inl rfl

theorem later {now' : Nat} {bucket : Option Bucket}
    (h : Ledger cost scale rate start admitted dropped now bucket)
    (hnow : now ≤ now') : Ledger cost scale rate start admitted dropped now' bucket := by
  cases bucket with
  | none =>
    have hrate : rate * now ≤ rate * now' := Nat.mul_le_mul_left rate hnow
    unfold Ledger at h ⊢
    omega
  | some b => exact h

theorem put (h : Ledger cost scale rate start admitted dropped now none)
    (hstart : start ≤ now) (level : Nat) :
    Ledger cost scale rate start (admitted + 1) dropped now (some ⟨level, now⟩) := by
  have hrate : rate * start ≤ rate * now := Nat.mul_le_mul_left rate hstart
  unfold Ledger at h ⊢
  refine .inr ⟨hrate, ?_⟩
  simp only
  rw [Nat.mul_succ, Nat.mul_succ]
  omega

theorem fill {b' : Bucket} (h : Ledger cost scale rate start admitted dropped now (some b))
    (hstart : rate * start ≤ rate * b'.last)
    (hfill : scale * b.level + cost + rate * b.last ≤ scale * b'.level + rate * b'.last) :
    Ledger cost scale rate start (admitted + 1) dropped now (some b') := by
  unfold Ledger at h ⊢
  refine .inr ⟨hstart, ?_⟩
  rw [Nat.mul_succ, Nat.mul_succ]
  rcases h with rfl | ⟨-, hle⟩
  · omega
  · rw [Nat.mul_succ] at hle
    omega

theorem drop (h : Ledger cost scale rate start admitted dropped now (some b)) (hstart : start ≤ now)
    (hdry : scale * b.level + rate * b.last ≤ rate * now) :
    Ledger cost scale rate start admitted (dropped + 1) now none := by
  have hrate : rate * start ≤ rate * now := Nat.mul_le_mul_left rate hstart
  unfold Ledger at h ⊢
  rcases h with rfl | ⟨-, hle⟩
  · rw [mul_zero]
    omega
  · omega

theorem admitted_le {bucket : Option Bucket} {size : Nat}
    (h : Ledger cost scale rate start admitted dropped now bucket)
    (hsize : ∀ b, bucket = some b → b.level ≤ size ∧ b.last ≤ now) :
    cost * admitted + rate * start ≤ cost * (dropped + 1) + scale * size + rate * now ∨
      admitted = 0 := by
  cases bucket with
  | none =>
    unfold Ledger at h
    rw [Nat.mul_succ]
    omega
  | some b =>
    obtain ⟨hlevel, hlast⟩ := hsize b rfl
    have hscale : scale * b.level ≤ scale * size := Nat.mul_le_mul_left scale hlevel
    have hrate : rate * b.last ≤ rate * now := Nat.mul_le_mul_left rate hlast
    unfold Ledger at h
    omega

end Ledger

end Nginx.Foundation
