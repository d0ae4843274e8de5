/-
  Foundation/Memory.lean --- bytes, unsigned machine words and flat memory.

  Everything in this file is about cells addressed by natural numbers: what a
  `memcpy` changes, what a read of a range returns, and what the unsigned
  64-bit counters of a C program do when they pass their bound.  No structure
  of the program occurs here.
-/
import Mathlib.Data.List.Basic
import Mathlib.Tactic.Ring

set_option autoImplicit false

namespace Nginx.Foundation

/-- A byte of the program, `u_char`. -/
abbrev Byte : Type := UInt8

/-- A byte string, the contents of an `ngx_str_t`. -/
abbrev Bytes : Type := List Byte

/-- A C character constant. -/
def chr (c : Char) : Byte := c.toNat.toUInt8

/-- The ASCII text of a C string literal. -/
def ascii (s : String) : Bytes := s.toList.map chr

theorem forall_byte {P : Byte → Prop} (h : ∀ n, n < 256 → P (UInt8.ofNat n)) (b : Byte) : P b := by
  have hb := h b.toNat b.toNat_lt
  rwa [UInt8.ofNat_toNat] at hb

/-! ## Unsigned 64-bit arithmetic -/

/-- The number of values of a 64-bit unsigned type. -/
def wordRange : Nat := 2 ^ 64

/-- Unsigned addition, modulo `2 ^ 64`. -/
def addWord (a b : Nat) : Nat := (a + b) % wordRange

/-- Unsigned subtraction, modulo `2 ^ 64`. -/
def subWord (a b : Nat) : Nat := (a + (wordRange - b % wordRange)) % wordRange

theorem addWord_of_lt {a b : Nat} (h : a + b < 2 ^ 64) : addWord a b = a + b :=
  Nat.mod_eq_of_lt h

theorem subWord_of_le {a b : Nat} (hle : b ≤ a) (h : a < 2 ^ 64) :
    subWord a b = a - b := by
  simp only [subWord, wordRange]
  omega

theorem subWord_mod_of_le {a b : Nat} (hle : b ≤ a) (h : a - b < 2 ^ 64) :
    subWord (a % wordRange) (b % wordRange) = a - b := by
  simp only [subWord, wordRange]
  omega

theorem addWord_mod (a b : Nat) : addWord (a % wordRange) b = (a + b) % wordRange := by
  simp only [addWord, wordRange]
  omega

theorem mod_wordRange_mod {m : Nat} (hm : m ∣ wordRange) (a : Nat) :
    a % wordRange % m = a % m :=
  Nat.mod_mod_of_dvd a hm

/-! ## Flat memory -/

section Memory

variable {α : Type}

/-- `ngx_memcpy(dst, src, n)`: the cells from `dst` on receive `src`. -/
def memcpy (mem : Nat → α) (dst : Nat) (src : List α) : Nat → α :=
  fun i => if h : dst ≤ i ∧ i - dst < src.length then src.get ⟨i - dst, h.2⟩ else mem i

/-- The `len` cells from `src` on. -/
def load (mem : Nat → α) (src len : Nat) : List α :=
  (List.range len).map fun j => mem (src + j)

@[simp] theorem length_load (mem : Nat → α) (src len : Nat) :
    (load mem src len).length = len := by
  simp [load]

theorem load_append (mem : Nat → α) (a m n : Nat) :
    load mem a (m + n) = load mem a m ++ load mem (a + m) n := by
  simp only [load, List.range_add, List.map_append, List.map_map]
  congr 1
  apply List.map_congr_left
  intro j _
  rw [Function.comp_apply, add_assoc]

variable {mem : Nat → α}

theorem getElem_load {src len j : Nat} (h : j < (load mem src len).length) :
    (load mem src len)[j] = mem (src + j) := by
  simp [load]

theorem memcpy_apply_add {mem : Nat → α} {dst j : Nat} {src : List α} (h : j < src.length) :
    memcpy mem dst src (dst + j) = src[j] := by
  have hj : dst ≤ dst + j ∧ dst + j - dst < src.length := ⟨by omega, by omega⟩
  simp [memcpy, h]

theorem memcpy_apply_of_lt {dst i : Nat} {src : List α} (h : i < dst) :
    memcpy mem dst src i = mem i := by
  have hn : ¬ (dst ≤ i ∧ i - dst < src.length) := by omega
  simp [memcpy, hn]

theorem memcpy_apply_of_ge {dst i : Nat} {src : List α}
    (h : dst + src.length ≤ i) : memcpy mem dst src i = mem i := by
  have hn : ¬ (dst ≤ i ∧ i - dst < src.length) := by omega
  simp [memcpy, hn]

theorem load_eq_of_forall {src : Nat} {l : List α}
    (h : ∀ j (hj : j < l.length), mem (src + j) = l[j]) : load mem src l.length = l := by
  apply List.ext_getElem
  · simp
  · intro j h₁ h₂
    rw [getElem_load]
    exact h j h₂

theorem load_memcpy_self (mem : Nat → α) (dst : Nat) (src : List α) :
    load (memcpy mem dst src) dst src.length = src :=
  load_eq_of_forall fun _ hj => memcpy_apply_add hj

end Memory

end Nginx.Foundation
