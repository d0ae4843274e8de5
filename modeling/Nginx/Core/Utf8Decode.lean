/-
  Core/Utf8Decode.lean --- `ngx_utf8_decode` (`src/core/ngx_string.c`).
-/
import Nginx.Foundation.Memory

set_option autoImplicit false

namespace Nginx.Core

open Foundation List

/-- `0xfffffffe`: an incomplete sequence. -/
def utf8Incomplete : Nat := 0xfffffffe

/-- `0xffffffff`: an error. -/
def utf8Error : Nat := 0xffffffff

/-- What a first byte says: `len`, its own bits and `valid`. -/
def utf8Lead (u : Byte) : Option (Nat × Nat × Nat) :=
  if 0xf0 ≤ u then some (3, u.toNat &&& 0x07, 0xffff)
  else if 0xe0 ≤ u then some (2, u.toNat &&& 0x0f, 0x7ff)
  else if 0xc2 ≤ u then some (1, u.toNat &&& 0x1f, 0x7f)
  else none

/-- The loop over the `len` bytes that follow; the value, and the bytes it passes. -/
def utf8Tail (valid : Nat) : Nat → Nat → Bytes → Nat × Nat
  | 0, u, _ => (if valid < u then u else utf8Error, 0)
  | _ + 1, _, [] => (utf8Error, 0)
  | len + 1, u, i :: p =>
    if i < 0x80 then (utf8Error, 1)
    else
      let (n, passed) := utf8Tail valid len (u <<< 6 ||| (i.toNat &&& 0x3f)) p
      (n, passed + 1)

/-- `ngx_utf8_decode` on the bytes from `*p` on, of which there is at least one; the value,
and how far `*p` moves. -/
def utf8Decode : Bytes → Nat × Nat
  | [] => (utf8Error, 0)
  | u :: p =>
    match utf8Lead u with
    | none => (utf8Error, 1)
    | some (len, bits, valid) =>
      if p.length < len then (utf8Incomplete, 0)
      else
        let (n, passed) := utf8Tail valid len bits p
        (n, passed + 1)

attribute [local simp] utf8Lead utf8Tail utf8Decode

/-- The number of bytes of a sequence with the first byte `u`. -/
def utf8Length (u : Byte) : Nat :=
  match utf8Lead u with
  | none => 1
  | some (len, _, _) => len + 1

attribute [local simp] utf8Length

/-- The sequence at the head is complete. -/
def Utf8Complete : Bytes → Prop
  | [] => False
  | u :: p => utf8Length u ≤ (u :: p).length

instance : DecidablePred Utf8Complete := fun src =>
  match src with
  | [] => inferInstanceAs (Decidable False)
  | u :: p => inferInstanceAs (Decidable (utf8Length u ≤ (u :: p).length))

/-- A code point in UTF-8. -/
def utf8Bytes (code : Nat) : Bytes :=
  if code < 0x80 then [UInt8.ofNat code]
  else if code < 0x800 then [UInt8.ofNat (0xc0 + code / 64), UInt8.ofNat (0x80 + code % 64)]
  else if code < 0x10000 then
    [UInt8.ofNat (0xe0 + code / 4096), UInt8.ofNat (0x80 + code / 64 % 64),
      UInt8.ofNat (0x80 + code % 64)]
  else
    [UInt8.ofNat (0xf0 + code / 262144), UInt8.ofNat (0x80 + code / 4096 % 64),
      UInt8.ofNat (0x80 + code / 64 % 64),
      UInt8.ofNat (0x80 + code % 64)]

theorem utf8Length_le (u : Byte) : utf8Length u ≤ 4 := by
  rw [utf8Length, utf8Lead]
  split
  · exact Nat.le_of_ble_eq_true rfl
  · next len bits valid h => grind

/-! ## The loop -/

theorem utf8Tail_append {valid len u : Nat} {p : Bytes} (h : len ≤ p.length) (q : Bytes) :
    utf8Tail valid len u (p ++ q) = utf8Tail valid len u p := by
  induction len generalizing u p with
  | zero => simp only [utf8Tail]
  | succ len ih =>
    cases p with
    | nil => exact absurd h (Nat.not_succ_le_zero _)
    | cons i p =>
      have hp : len ≤ p.length := Nat.le_of_succ_le_succ h
      rw [cons_append, utf8Tail, utf8Tail, ih hp]

theorem utf8Tail_passed_le (valid len u : Nat) (p : Bytes) :
    (utf8Tail valid len u p).2 ≤ len ∧ (utf8Tail valid len u p).2 ≤ p.length := by
  induction len generalizing u p with
  | zero => exact ⟨Nat.le_refl 0, Nat.zero_le _⟩
  | succ len ih =>
    cases p with
    | nil => exact ⟨Nat.zero_le _, Nat.le_refl 0⟩
    | cons i p =>
      rw [utf8Tail]
      split
      · exact ⟨Nat.succ_le_succ (Nat.zero_le _), Nat.succ_le_succ (Nat.zero_le _)⟩
      · obtain ⟨hlen, hp⟩ := ih (u <<< 6 ||| (i.toNat &&& 0x3f)) p
        exact ⟨Nat.succ_le_succ hlen, Nat.succ_le_succ hp⟩

theorem utf8Tail_value {valid len u k : Nat} {p : Bytes} (hu : u < 2 ^ k) :
    (utf8Tail valid len u p).1 = utf8Error ∨ (utf8Tail valid len u p).1 < 2 ^ (k + 6 * len) := by
  induction len generalizing u k p with
  | zero =>
    rw [utf8Tail]
    split
    · exact .inr hu
    · exact .inl rfl
  | succ len ih =>
    cases p with
    | nil => exact .inl rfl
    | cons i p =>
      rw [utf8Tail]
      split
      · exact .inl rfl
      have hshift : u <<< 6 < 2 ^ (k + 6) := by
        rw [Nat.shiftLeft_eq, Nat.pow_add]
        exact Nat.mul_lt_mul_of_pos_right hu (by decide)
      have hlow : i.toNat &&& 0x3f < 2 ^ (k + 6) :=
        Nat.lt_of_le_of_lt Nat.and_le_right (Nat.lt_of_lt_of_le (by decide : 0x3f < 2 ^ 6)
          (Nat.pow_le_pow_right (by decide) (Nat.le_add_left 6 k)))
      have hnext := ih (p := p) (Nat.or_lt_two_pow hshift hlow)
      have hexp : k + 6 + 6 * len = k + 6 * (len + 1) := by ring
      rw [hexp] at hnext
      exact hnext

theorem utf8Tail_valid (valid len u : Nat) (p : Bytes) :
    (utf8Tail valid len u p).1 = utf8Error ∨ valid < (utf8Tail valid len u p).1 := by
  induction len generalizing u p with
  | zero =>
    rw [utf8Tail]
    split
    · next h => exact .inr h
    · exact .inl rfl
  | succ len ih =>
    cases p with
    | nil => exact .inl rfl
    | cons i p =>
      rw [utf8Tail]
      split
      · exact .inl rfl
      · exact ih _ _

/-! ## Sequences -/

variable {src : Bytes}

theorem utf8Decode_value : 0x80 ≤ (utf8Decode src).1 := by
  have herror : 0x80 ≤ utf8Error := by decide
  cases src with
  | nil => exact herror
  | cons u p =>
    rw [utf8Decode]
    cases hlead : utf8Lead u with
    | none => exact herror
    | some lead =>
      obtain ⟨len, bits, valid⟩ := lead
      have hvalid : 0x7f ≤ valid := by
        rw [utf8Lead] at hlead
        grind
      simp only
      split
      · show 0x80 ≤ utf8Incomplete
        decide
      · rcases utf8Tail_valid valid len bits p with h | h
        · exact h ▸ herror
        · exact hvalid.trans_lt h

theorem utf8Decode_incomplete_iff (hne : src ≠ []) :
    (utf8Decode src).1 = utf8Incomplete ↔ ¬ Utf8Complete src := by
  cases src with
  | nil => exact absurd rfl hne
  | cons u p =>
    rw [utf8Decode, Utf8Complete, utf8Length]
    cases hlead : utf8Lead u with
    | none =>
      have hne : utf8Error ≠ utf8Incomplete := by decide
      exact iff_of_false hne fun h => h (Nat.le_add_left 1 _)
    | some lead =>
      obtain ⟨len, bits, valid⟩ := lead
      by_cases hlen : p.length < len
      · simp only [if_pos hlen, length_cons]
        exact iff_of_true trivial (not_le.mpr (Nat.succ_lt_succ hlen))
      simp only [if_neg hlen, length_cons]
      refine iff_of_false (fun heq => ?_) (not_not.mpr (Nat.succ_le_succ (not_lt.mp hlen)))
      have hbounds : bits < 2 ^ 5 ∧ len ≤ 3 := by
        have hand : ∀ m, u.toNat &&& m ≤ m := fun m => Nat.and_le_right
        rw [utf8Lead] at hlead
        have h₁ := hand 0x07
        have h₂ := hand 0x0f
        have h₃ := hand 0x1f
        grind
      have hvalue := @utf8Tail_value valid len _ _ p hbounds.1
      have hpow : 2 ^ (5 + 6 * len) ≤ 2 ^ 23 :=
        Nat.pow_le_pow_right (by decide) (by have := hbounds.2; omega)
      rw [heq] at hvalue
      rcases hvalue with hvalue | hvalue
      · exact absurd hvalue (by decide)
      · exact absurd (Nat.lt_of_lt_of_le hvalue hpow) (by decide)

theorem utf8Decode_append (h : Utf8Complete src) (q : Bytes) :
    utf8Decode (src ++ q) = utf8Decode src := by
  cases src with
  | nil => exact h.elim
  | cons u p =>
    rw [Utf8Complete, utf8Length] at h
    rw [cons_append, utf8Decode, utf8Decode]
    cases hlead : utf8Lead u with
    | none => rfl
    | some lead =>
      obtain ⟨len, bits, valid⟩ := lead
      rw [hlead] at h
      have hlen : len ≤ p.length := Nat.le_of_succ_le_succ h
      have hlong : len ≤ (p ++ q).length := by
        rw [length_append]
        exact Nat.le_add_right_of_le hlen
      simp only [if_neg (not_lt.mpr hlen), if_neg (not_lt.mpr hlong), utf8Tail_append hlen]

theorem Utf8Complete.append (h : Utf8Complete src) (q : Bytes) : Utf8Complete (src ++ q) := by
  cases src with
  | nil => exact h.elim
  | cons u p =>
    rw [Utf8Complete] at h
    rw [cons_append, Utf8Complete, length_cons, length_append]
    rw [length_cons] at h
    omega

theorem utf8Decode_passed (h : Utf8Complete src) :
    0 < (utf8Decode src).2 ∧ (utf8Decode src).2 ≤ src.length ∧
      ∀ u ∈ src.head?, (utf8Decode src).2 ≤ utf8Length u := by
  cases src with
  | nil => exact h.elim
  | cons u p =>
    rw [Utf8Complete, utf8Length] at h
    rw [utf8Decode]
    simp only [head?_cons, Option.mem_def, Option.some.injEq, utf8Length, length_cons]
    cases hlead : utf8Lead u with
    | none =>
      refine ⟨Nat.one_pos, Nat.succ_le_succ (Nat.zero_le _), ?_⟩
      rintro u' rfl
      rw [hlead]
    | some lead =>
      obtain ⟨len, bits, valid⟩ := lead
      rw [hlead] at h
      have hlen : ¬ p.length < len := not_lt.mpr (Nat.le_of_succ_le_succ h)
      obtain ⟨hpassed, hp⟩ := utf8Tail_passed_le valid len bits p
      simp only [if_neg hlen]
      refine ⟨Nat.succ_pos _, Nat.succ_le_succ hp, ?_⟩
      rintro u' rfl
      rw [hlead]
      exact Nat.succ_le_succ hpassed

end Nginx.Core
