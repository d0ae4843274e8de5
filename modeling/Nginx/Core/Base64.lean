/-
  Core/Base64.lean --- Base64 (`ngx_encode_base64` and `ngx_decode_base64` with their
  variants for URLs in `src/core/ngx_string.c`).

  Three bytes are four characters; one or two bytes at the end are two or three
  characters, which the usual form fills up with `=`.  A decoder reads up to the first
  `=` and looks every character up in a table, where 77 stands for a character of no
  use.
-/
import Nginx.Foundation.Memory

set_option autoImplicit false

namespace Nginx.Core

open List Foundation

/-! ## The functions -/

/-- `basis64[]` of `ngx_encode_base64` -/
def base64Basis : Bytes := ascii "ABCDEFGHIJKLMNOPQRSTUVWXYZabcdefghijklmnopqrstuvwxyz0123456789+/"

/-- `basis64[]` of `ngx_encode_base64url` -/
def base64urlBasis :
    Bytes := ascii "ABCDEFGHIJKLMNOPQRSTUVWXYZabcdefghijklmnopqrstuvwxyz0123456789-_"

/-- `ngx_base64_encoded_length` -/
def base64EncodedLength (len : Nat) : Nat := (len + 2) / 3 * 4

/-- `ngx_base64_decoded_length` -/
def base64DecodedLength (len : Nat) : Nat := (len + 3) / 4 * 3

/-- An entry of a table of bytes. -/
def entry (basis : Bytes) (i : Byte) : Byte := basis.getD i.toNat 0

/-- `ngx_encode_base64_internal` -/
def encodeBase64Internal (basis : Bytes) (padding : Bool) : Bytes → Bytes
  | s₀ :: s₁ :: s₂ :: s =>
    entry basis (s₀ >>> 2 &&& 0x3f) ::
    entry basis ((s₀ &&& 3) <<< 4 ||| s₁ >>> 4) ::
    entry basis ((s₁ &&& 0x0f) <<< 2 ||| s₂ >>> 6) ::
    entry basis (s₂ &&& 0x3f) :: encodeBase64Internal basis padding s
  | [s₀, s₁] =>
    [entry basis (s₀ >>> 2 &&& 0x3f), entry basis ((s₀ &&& 3) <<< 4 ||| s₁ >>> 4),
      entry basis ((s₁ &&& 0x0f) <<< 2)] ++
      if padding then [chr '='] else []
  | [s₀] =>
    [entry basis (s₀ >>> 2 &&& 0x3f), entry basis ((s₀ &&& 3) <<< 4)] ++
      if padding then [chr '=', chr '='] else []
  | [] => []

/-- `ngx_encode_base64` -/
def encodeBase64 (src : Bytes) : Bytes := encodeBase64Internal base64Basis true src

/-- `ngx_encode_base64url` -/
def encodeBase64url (src : Bytes) : Bytes := encodeBase64Internal base64urlBasis false src

/-- `basis64[]` of `ngx_decode_base64` -/
def base64Inverse : Bytes :=
  [77, 77, 77, 77, 77, 77, 77, 77, 77, 77, 77, 77, 77, 77, 77, 77,
   77, 77, 77, 77, 77, 77, 77, 77, 77, 77, 77, 77, 77, 77, 77, 77,
   77, 77, 77, 77, 77, 77, 77, 77, 77, 77, 77, 62, 77, 77, 77, 63,
   52, 53, 54, 55, 56, 57, 58, 59, 60, 61, 77, 77, 77, 77, 77, 77,
   77,  0,  1,  2,  3,  4,  5,  6,  7,  8,  9, 10, 11, 12, 13, 14,
   15, 16, 17, 18, 19, 20, 21, 22, 23, 24, 25, 77, 77, 77, 77, 77,
   77, 26, 27, 28, 29, 30, 31, 32, 33, 34, 35, 36, 37, 38, 39, 40,
   41, 42, 43, 44, 45, 46, 47, 48, 49, 50, 51, 77, 77, 77, 77, 77] ++ List.replicate 128 77

/-- `basis64[]` of `ngx_decode_base64url` -/
def base64urlInverse : Bytes :=
  [77, 77, 77, 77, 77, 77, 77, 77, 77, 77, 77, 77, 77, 77, 77, 77,
   77, 77, 77, 77, 77, 77, 77, 77, 77, 77, 77, 77, 77, 77, 77, 77,
   77, 77, 77, 77, 77, 77, 77, 77, 77, 77, 77, 77, 77, 62, 77, 77,
   52, 53, 54, 55, 56, 57, 58, 59, 60, 61, 77, 77, 77, 77, 77, 77,
   77,  0,  1,  2,  3,  4,  5,  6,  7,  8,  9, 10, 11, 12, 13, 14,
   15, 16, 17, 18, 19, 20, 21, 22, 23, 24, 25, 77, 77, 77, 77, 63,
   77, 26, 27, 28, 29, 30, 31, 32, 33, 34, 35, 36, 37, 38, 39, 40,
   41, 42, 43, 44, 45, 46, 47, 48, 49, 50, 51, 77, 77, 77, 77, 77] ++ List.replicate 128 77

/-- The first loop of `ngx_decode_base64_internal`: `len` at its end, `none` for `NGX_ERROR`. -/
def base64Len (basis : Bytes) : Bytes → Option Nat
  | [] => some 0
  | ch :: src =>
    if ch = chr '=' then some 0
    else if entry basis ch = 77 then none
    else (base64Len basis src).map (· + 1)

attribute [local simp] base64Len

/-- The second loop of `ngx_decode_base64_internal`, with what comes behind it. -/
def base64Groups (basis : Bytes) : Bytes → Bytes
  | s₀ :: s₁ :: s₂ :: s₃ :: s =>
    (entry basis s₀ <<< 2 ||| entry basis s₁ >>> 4) ::
    (entry basis s₁ <<< 4 ||| entry basis s₂ >>> 2) ::
    (entry basis s₂ <<< 6 ||| entry basis s₃) :: base64Groups basis s
  | [s₀, s₁, s₂] =>
    [entry basis s₀ <<< 2 ||| entry basis s₁ >>> 4, entry basis s₁ <<< 4 ||| entry basis s₂ >>> 2]
  | [s₀, s₁] => [entry basis s₀ <<< 2 ||| entry basis s₁ >>> 4]
  | _ => []

/-- `ngx_decode_base64_internal`; `none` for `NGX_ERROR`. -/
def decodeBase64Internal (basis src : Bytes) : Option Bytes := do
  let len ← base64Len basis src
  if len % 4 = 1 then none else some (base64Groups basis (src.take len))

/-- `ngx_decode_base64` -/
def decodeBase64 (src : Bytes) : Option Bytes := decodeBase64Internal base64Inverse src

/-- `ngx_decode_base64url` -/
def decodeBase64url (src : Bytes) : Option Bytes := decodeBase64Internal base64urlInverse src

/-! ## The alphabets -/

/-- The second table is the inverse of the first one, and `=` is no character of it. -/
structure Alphabet (basis inverse : Bytes) : Prop where
  inverse_entry : ∀ v : Byte, v < 64 → entry inverse (entry basis v) = v
  entry_ne : ∀ v : Byte, v < 64 → entry basis v ≠ chr '='

theorem forall_sextet {P : Byte → Prop} (h : ∀ n, n < 64 → P (UInt8.ofNat n))
    (v : Byte) (hv : v < 64) : P v := by
  have hlt : v.toNat < 64 := UInt8.lt_iff_toNat_lt.mp hv
  have hnat := h v.toNat hlt
  rwa [UInt8.ofNat_toNat] at hnat

theorem Alphabet.of_sextets {basis inverse : Bytes}
    (h : ∀ n, n < 64 → entry inverse (entry basis (UInt8.ofNat n)) = UInt8.ofNat n ∧
      entry basis (UInt8.ofNat n) ≠ chr '=') :
    Alphabet basis inverse where
  inverse_entry := forall_sextet fun n hn => (h n hn).1
  entry_ne := forall_sextet fun n hn => (h n hn).2

set_option maxRecDepth 8000 in
theorem base64_alphabet : Alphabet base64Basis base64Inverse := .of_sextets (by decide)

set_option maxRecDepth 8000 in
theorem base64url_alphabet : Alphabet base64urlBasis base64urlInverse := .of_sextets (by decide)

/-! ## Six bits -/

section Sextets

set_option maxRecDepth 8000

variable (a b c : Byte)

theorem first_lt : a >>> 2 &&& 0x3f < 64 :=
    forall_byte (P := fun a => a >>> 2 &&& 0x3f < 64) (by decide) a

theorem last_lt : a &&& 0x3f < 64 := forall_byte (P := fun a => a &&& 0x3f < 64) (by decide) a

theorem or_lt {x y : Byte} (hx : x < 64) (hy : y < 64) : x ||| y < 64 := by
  rw [UInt8.lt_iff_toNat_lt] at hx hy ⊢
  rw [UInt8.toNat_or]
  exact Nat.or_lt_two_pow (n := 6) hx hy

theorem second_lt : (a &&& 3) <<< 4 ||| b >>> 4 < 64 :=
  or_lt (forall_byte (P := fun a => (a &&& 3) <<< 4 < 64) (by decide) a)
    (forall_byte (P := fun b => b >>> 4 < 64) (by decide) b)

theorem third_lt : (b &&& 0x0f) <<< 2 ||| c >>> 6 < 64 :=
  or_lt (forall_byte (P := fun b => (b &&& 0x0f) <<< 2 < 64) (by decide) b)
    (forall_byte (P := fun c => c >>> 6 < 64) (by decide) c)

theorem first_byte : (a >>> 2 &&& 0x3f) <<< 2 ||| ((a &&& 3) <<< 4 ||| b >>> 4) >>> 4 = a := by
  have hb : b >>> 4 >>> 4 = 0 := forall_byte (P := fun b => b >>> 4 >>> 4 = 0) (by decide) b
  have ha : (a >>> 2 &&& 0x3f) <<< 2 ||| (a &&& 3) <<< 4 >>> 4 = a :=
    forall_byte (P := fun a => (a >>> 2 &&& 0x3f) <<< 2 ||| (a &&& 3) <<< 4 >>> 4 = a) (by decide) a
  rw [UInt8.shiftRight_or, hb, UInt8.or_zero, ha]

theorem second_byte :
    ((a &&& 3) <<< 4 ||| b >>> 4) <<< 4 ||| ((b &&& 0x0f) <<< 2 ||| c >>> 6) >>> 2 = b := by
  have ha : (a &&& 3) <<< 4 <<< 4 = 0 :=
    forall_byte (P := fun a => (a &&& 3) <<< 4 <<< 4 = 0) (by decide) a
  have hc : c >>> 6 >>> 2 = 0 := forall_byte (P := fun c => c >>> 6 >>> 2 = 0) (by decide) c
  have hb : b >>> 4 <<< 4 ||| (b &&& 0x0f) <<< 2 >>> 2 = b :=
    forall_byte (P := fun b => b >>> 4 <<< 4 ||| (b &&& 0x0f) <<< 2 >>> 2 = b) (by decide) b
  rw [UInt8.shiftLeft_or, UInt8.shiftRight_or, ha, hc, UInt8.zero_or, UInt8.or_zero, hb]

theorem third_byte : ((b &&& 0x0f) <<< 2 ||| c >>> 6) <<< 6 ||| (c &&& 0x3f) = c := by
  have hb : (b &&& 0x0f) <<< 2 <<< 6 = 0 :=
    forall_byte (P := fun b => (b &&& 0x0f) <<< 2 <<< 6 = 0) (by decide) b
  have hc : c >>> 6 <<< 6 ||| (c &&& 0x3f) = c :=
    forall_byte (P := fun c => c >>> 6 <<< 6 ||| (c &&& 0x3f) = c) (by decide) c
  rw [UInt8.shiftLeft_or, hb, UInt8.zero_or, hc]

theorem alone_byte : (a >>> 2 &&& 0x3f) <<< 2 ||| ((a &&& 3) <<< 4) >>> 4 = a := by
  have h := first_byte a 0
  rwa [UInt8.zero_shiftRight, UInt8.or_zero] at h

theorem pair_byte : ((a &&& 3) <<< 4 ||| b >>> 4) <<< 4 ||| ((b &&& 0x0f) <<< 2) >>> 2 = b := by
  have h := second_byte a b 0
  rwa [UInt8.zero_shiftRight, UInt8.or_zero] at h

end Sextets

/-! ## There and back -/

section RoundTrip

variable {basis inverse : Bytes}

/-- The characters of a text without what fills it up. -/
def base64Body (basis : Bytes) (src : Bytes) : Bytes := encodeBase64Internal basis false src

theorem length_base64Body (src : Bytes) :
    (base64Body basis src).length = (src.length * 4 + 2) / 3 := by
  rw [base64Body]
  fun_induction encodeBase64Internal basis false src with
  | case1 s₀ s₁ s₂ s ih =>
    simp only [length_cons, ih]
    omega
  | case2 s₀ s₁ => simp
  | case3 s₀ => simp
  | case4 => rfl

/-- What fills up the last group. -/
def base64Filling (len : Nat) : Bytes := List.replicate ((3 - len % 3) % 3) (chr '=')

theorem encodeBase64Internal_true (src : Bytes) :
    encodeBase64Internal basis true src = base64Body basis src ++ base64Filling src.length := by
  rw [base64Body]
  fun_induction encodeBase64Internal basis true src with
  | case1 s₀ s₁ s₂ s ih =>
    have hmod : (s.length + 1 + 1 + 1) % 3 = s.length % 3 := Nat.add_mod_right s.length 3
    rw [encodeBase64Internal, ih]
    simp only [cons_append, length_cons, base64Filling, hmod]
  | case2 s₀ s₁ => rfl
  | case3 s₀ => rfl
  | case4 => rfl

theorem exists_sextet_of_mem_base64Body {src : Bytes} {ch : Byte} (h : ch ∈ base64Body basis src) :
    ∃ v < 64, ch = entry basis v := by
  rw [base64Body] at h
  fun_induction encodeBase64Internal basis false src with
  | case1 s₀ s₁ s₂ s ih =>
    simp only [mem_cons] at h
    rcases h with rfl | rfl | rfl | rfl | h
    · exact ⟨_, first_lt s₀, rfl⟩
    · exact ⟨_, second_lt s₀ s₁, rfl⟩
    · exact ⟨_, third_lt s₁ s₂, rfl⟩
    · exact ⟨_, last_lt s₂, rfl⟩
    · exact ih h
  | case2 s₀ s₁ =>
    have hthird := third_lt s₁ 0
    rw [UInt8.zero_shiftRight, UInt8.or_zero] at hthird
    simp only [Bool.false_eq_true, if_false, append_nil, mem_cons, not_mem_nil, or_false] at h
    rcases h with rfl | rfl | rfl
    · exact ⟨_, first_lt s₀, rfl⟩
    · exact ⟨_, second_lt s₀ s₁, rfl⟩
    · exact ⟨_, hthird, rfl⟩
  | case3 s₀ =>
    have hsecond := second_lt s₀ 0
    rw [UInt8.zero_shiftRight, UInt8.or_zero] at hsecond
    simp only [Bool.false_eq_true, if_false, append_nil, mem_cons, not_mem_nil, or_false] at h
    rcases h with rfl | rfl
    · exact ⟨_, first_lt s₀, rfl⟩
    · exact ⟨_, hsecond, rfl⟩
  | case4 => exact absurd h not_mem_nil

theorem base64Groups_body (h : Alphabet basis inverse) (src : Bytes) :
    base64Groups inverse (base64Body basis src) = src := by
  rw [base64Body]
  fun_induction encodeBase64Internal basis false src with
  | case1 s₀ s₁ s₂ s ih =>
    rw [base64Groups, h.inverse_entry _ (first_lt s₀),
      h.inverse_entry _ (second_lt s₀ s₁), h.inverse_entry _ (third_lt s₁ s₂),
      h.inverse_entry _ (last_lt s₂), first_byte, second_byte, third_byte, ih]
  | case2 s₀ s₁ =>
    have hthird := third_lt s₁ 0
    rw [UInt8.zero_shiftRight, UInt8.or_zero] at hthird
    simp only [Bool.false_eq_true, if_false, append_nil]
    rw [base64Groups, h.inverse_entry _ (first_lt s₀),
      h.inverse_entry _ (second_lt s₀ s₁), h.inverse_entry _ hthird,
      first_byte, pair_byte]
  | case3 s₀ =>
    have hsecond := second_lt s₀ 0
    rw [UInt8.zero_shiftRight, UInt8.or_zero] at hsecond
    simp only [Bool.false_eq_true, if_false, append_nil]
    rw [base64Groups, h.inverse_entry _ (first_lt s₀), h.inverse_entry _ hsecond, alone_byte]
  | case4 => rfl

theorem base64Len_append {l : Bytes} (h : ∀ ch ∈ l, ch ≠ chr '=' ∧ entry inverse ch ≠ 77)
    (r : Bytes) :
    base64Len inverse (l ++ r) = (base64Len inverse r).map (· + l.length) := by
  induction l with
  | nil => simp
  | cons ch l ih =>
    obtain ⟨hne, hvalid⟩ := h ch mem_cons_self
    rw [cons_append, base64Len, if_neg hne, if_neg hvalid, ih fun x hx =>
      h x (mem_cons_of_mem _ hx), Option.map_map]
    rfl

theorem base64Len_filling (len : Nat) : base64Len inverse (base64Filling len) = some 0 := by
  rw [base64Filling]
  cases (3 - len % 3) % 3 with
  | zero => rfl
  | succ n => rw [replicate_succ, base64Len, if_pos rfl]

theorem decodeBase64Internal_body (h : Alphabet basis inverse) (src : Bytes) {filling : Bytes}
    (hfilling : base64Len inverse filling = some 0) :
    decodeBase64Internal inverse (base64Body basis src ++ filling) = some src := by
  have hchars : ∀ ch ∈ base64Body basis src, ch ≠ chr '=' ∧ entry inverse ch ≠ 77 := by
    intro ch hch
    obtain ⟨v, hv, rfl⟩ := exists_sextet_of_mem_base64Body hch
    rw [h.inverse_entry v hv]
    refine ⟨h.entry_ne v hv, ?_⟩
    rintro rfl
    exact absurd hv (by decide)
  have hlen : base64Len inverse (base64Body basis src ++ filling) =
    some (base64Body basis src).length := by
    rw [base64Len_append hchars, hfilling, Option.map_some, zero_add]
  have hwhole : (base64Body basis src).length % 4 ≠ 1 := by
    rw [length_base64Body]
    omega
  rw [decodeBase64Internal, hlen]
  change (if (base64Body basis src).length % 4 = 1 then none else _) = _
  rw [if_neg hwhole, take_left, base64Groups_body h]

theorem length_base64Groups (basis src : Bytes) :
    (base64Groups basis src).length ≤ base64DecodedLength src.length := by
  rw [base64DecodedLength]
  fun_induction base64Groups basis src with
  | case1 s₀ s₁ s₂ s₃ s ih =>
    simp only [length_cons]
    omega
  | case2 s₀ s₁ s₂ => simp
  | case3 s₀ s₁ => simp
  | case4 => simp

theorem length_decodeBase64Internal {src d : Bytes}
    (h : decodeBase64Internal inverse src = some d) :
    d.length ≤ base64DecodedLength src.length := by
  rw [decodeBase64Internal] at h
  cases hlen : base64Len inverse src with
  | none =>
    rw [hlen] at h
    cases h
  | some len =>
    rw [hlen] at h
    change (if len % 4 = 1 then none else some _) = some d at h
    split at h
    · cases h
    cases h
    have hle := length_base64Groups inverse (src.take len)
    have htake : (src.take len).length ≤ src.length := length_take_le' len src
    refine hle.trans ?_
    rw [base64DecodedLength, base64DecodedLength]
    omega

end RoundTrip

/-- **Base64 there and back.**  Either form of a text is decoded to the text; the form that is
filled up has the length that is reserved for it and the other one has no more; and nothing
decodes to more bytes than are reserved for it. -/
theorem base64_round_trip :
    (∀ s : Bytes, decodeBase64 (encodeBase64 s) = some s ∧
      (encodeBase64 s).length = base64EncodedLength s.length ∧
      decodeBase64url (encodeBase64url s) = some s ∧
        (encodeBase64url s).length ≤ base64EncodedLength s.length) ∧
    ∀ src d : Bytes, decodeBase64 src = some d ∨ decodeBase64url src = some d →
      d.length ≤ base64DecodedLength src.length := by
  refine ⟨fun s => ⟨?_, ?_, ?_, ?_⟩, ?_⟩
  · rw [decodeBase64, encodeBase64, encodeBase64Internal_true]
    exact decodeBase64Internal_body base64_alphabet s (base64Len_filling s.length)
  · rw [encodeBase64, encodeBase64Internal_true, length_append,
      length_base64Body, base64Filling, length_replicate,
      base64EncodedLength]
    omega
  · have hbody := @decodeBase64Internal_body _ _ base64url_alphabet s [] rfl
    rwa [append_nil] at hbody
  · have hlen : (encodeBase64url s).length = _ := length_base64Body s
    rw [hlen, base64EncodedLength]
    omega
  · rintro src d (h | h)
    · exact length_decodeBase64Internal h
    · exact length_decodeBase64Internal h

/-- Four bytes of a text of which one byte is decoded. -/
theorem base64_round_trip_padded :
    decodeBase64 (ascii "Zm==") = some (ascii "f") ∧ 1 ≤ base64DecodedLength 4 := by
  have h : decodeBase64 (ascii "Zm==") = some (ascii "f") := by decide
  exact ⟨h, base64_round_trip.2 (ascii "Zm==") (ascii "f") (.inl h)⟩

end Nginx.Core
