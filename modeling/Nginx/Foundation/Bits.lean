/-
  Foundation/Bits.lean --- numbers and byte strings as sequences of bits, the
  highest bit first.
-/
import Nginx.Foundation.Memory

set_option autoImplicit false

namespace Nginx.Foundation

open List

/-- The `k` low bits of a number. -/
def natBits : Nat → Nat → List Bool
  | 0, _ => []
  | k + 1, n => n.testBit k :: natBits k n

attribute [local simp] natBits

/-- The bits of a byte string. -/
def bitsOf (bs : Bytes) : List Bool := bs.flatMap fun b => natBits 8 b.toNat

@[simp] theorem length_natBits (k n : Nat) : (natBits k n).length = k := by
  induction k with
  | zero => rfl
  | succ k ih => rw [natBits, length_cons, ih]

theorem length_bitsOf (bs : Bytes) : (bitsOf bs).length = 8 * bs.length := by
  induction bs with
  | nil => rfl
  | cons b bs ih =>
    rw [bitsOf, flatMap_cons, length_append, ← bitsOf, ih, length_natBits,
      length_cons]
    omega

@[simp] theorem bitsOf_nil : bitsOf [] = [] := rfl

theorem bitsOf_cons (b : Byte) (bs : Bytes) : bitsOf (b :: bs) = natBits 8 b.toNat ++ bitsOf bs :=
  flatMap_cons

theorem bitsOf_append (bs bs' : Bytes) : bitsOf (bs ++ bs') = bitsOf bs ++ bitsOf bs' :=
  flatMap_append

theorem natBits_congr {k m n : Nat} (h : ∀ i, i < k → m.testBit i = n.testBit i) :
    natBits k m = natBits k n := by
  induction k with
  | zero => rfl
  | succ k ih =>
    rw [natBits, natBits, h k (Nat.lt_succ_self k), ih fun i hi => h i (Nat.lt_succ_of_lt hi)]

theorem natBits_mod {k m : Nat} (h : k ≤ m) (n : Nat) : natBits k (n % 2 ^ m) = natBits k n :=
  natBits_congr fun i hi => by simp [lt_of_lt_of_le hi h]

theorem natBits_add (k m n : Nat) :
    natBits (k + m) n = natBits k (n >>> m) ++ natBits m n := by
  induction k with
  | zero => simp [natBits]
  | succ k ih =>
    rw [Nat.succ_add, natBits, ih, natBits, Nat.testBit_shiftRight, add_comm m k]
    rfl

theorem natBits_mul_add {k m a b : Nat} (h : b < 2 ^ m) :
    natBits (k + m) (a * 2 ^ m + b) = natBits k a ++ natBits m b := by
  have hhigh : (a * 2 ^ m + b) >>> m = a := by
    rw [Nat.shiftRight_eq_div_pow, add_comm, Nat.add_mul_div_right _ _ (Nat.two_pow_pos m),
      Nat.div_eq_of_lt h, zero_add]
  have hlow : natBits m (a * 2 ^ m + b) = natBits m b := by
    rw [← natBits_mod (Nat.le_refl m), add_comm, Nat.add_mul_mod_self_right,
      natBits_mod (Nat.le_refl m)]
  rw [natBits_add, hhigh, hlow]

theorem natBits_ones (k : Nat) : natBits k (2 ^ k - 1) = List.replicate k true := by
  have hones : ∀ m, m ≤ k → natBits m (2 ^ k - 1) = List.replicate m true := fun m hm => by
    induction m with
    | zero => rfl
    | succ m ih =>
      rw [natBits, ih (Nat.le_of_succ_le hm), Nat.testBit_two_pow_sub_one]
      simp [Nat.lt_of_succ_le hm, replicate_succ]
  exact hones k (Nat.le_refl k)

/-- The bits of a number below its highest one. -/
def bitsBelow (n : Nat) : List Bool := natBits n.log2 n

theorem bitsBelow_one : bitsBelow 1 = [] := by
  rw [bitsBelow, show Nat.log2 1 = 0 from by decide, natBits]

theorem bitsBelow_push {n : Nat} (h : n ≠ 0) (b : Bool) :
    bitsBelow (2 * n + b.toNat) = bitsBelow n ++ [b] := by
  have hlog : (2 * n + b.toNat).log2 = n.log2 + 1 := by
    rw [Nat.log2_eq_iff (by omega), Nat.pow_succ, Nat.pow_succ]
    have hlow := Nat.log2_self_le h
    have hhigh := Nat.lt_log2_self (n := n)
    have hb := Bool.toNat_lt b
    rw [Nat.pow_succ] at hhigh
    omega
  rw [bitsBelow, hlog, mul_comm, ← pow_one 2, natBits_mul_add (Bool.toNat_lt b)]
  cases b <;> rfl

theorem natBits_ofNat (n : Nat) : natBits 8 (UInt8.ofNat n).toNat = natBits 8 n := by
  rw [UInt8.toNat_ofNat']
  exact natBits_mod (Nat.le_refl 8) n

end Nginx.Foundation
