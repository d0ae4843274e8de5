/-
  Core/Utf8Exact.lean --- which sequences `ngx_utf8_decode` takes for characters
  (`src/core/ngx_string.c`).

  The bits of a byte that tell what kind of byte it is are compared for the first byte
  up to `0xf0` only, and for the other bytes no further than `0x80`.  What is decoded is
  what is encoded once the bits that are not looked at are cleared (`cleared`).
-/
import Nginx.Core.Utf8Decode
import Nginx.Http.Parse.Char

set_option autoImplicit false

namespace Nginx.Core

open List Foundation

/-! ## `ngx_utf8_length` -/

theorem utf8Decode_passed_pos {src : Bytes} (h : ¬ 0x10ffff < (utf8Decode src).1) :
    0 < (utf8Decode src).2 := by
  have hcomplete : Utf8Complete src := by
    by_contra hnot
    cases src with
    | nil => exact h (by decide)
    | cons u p =>
      have hincomplete := (utf8Decode_incomplete_iff (cons_ne_nil u p)).mpr hnot
      exact h (hincomplete ▸ by decide)
  exact (utf8Decode_passed hcomplete).1

/-- The loop of `ngx_utf8_length` on what is between `p` and `last`. -/
def utf8LengthLoop (n : Nat) (p : Bytes) (len : Nat) : Nat :=
  match p with
  | [] => len
  | c :: rest =>
    if c < 0x80 then utf8LengthLoop n rest (len + 1)
    else if h : 0x10ffff < (utf8Decode (c :: rest)).1 then n
    else utf8LengthLoop n ((c :: rest).drop (utf8Decode (c :: rest)).2) (len + 1)
termination_by p.length
decreasing_by
  · exact Nat.lt_succ_self _
  · have hpos := utf8Decode_passed_pos h
    rw [length_drop, length_cons]
    omega

/-- `ngx_utf8_length` -/
def ngxUtf8Length (p : Bytes) : Nat := utf8LengthLoop p.length p 0

/-! ## The bits that are not looked at -/

/-- A first byte from `0xf0` on has the bit `0x08`, and any other byte from `0xc0` on
the bit `0x40`, that the function does not look at. -/
def clearLead (u : Byte) : Byte := if 0xf0 ≤ u then u &&& 0xf7 else u

def clearTail (i : Byte) : Byte := if 0xc0 ≤ i then i &&& 0xbf else i

/-- The sequence without these bits. -/
def cleared : Bytes → Bytes
  | [] => []
  | u :: p => clearLead u :: p.map clearTail

set_option maxRecDepth 4000 in
theorem clearLead_toNat : ∀ u :
    Byte, (clearLead u).toNat = if 0xf0 ≤ u.toNat then 0xf0 + u.toNat % 8 else u.toNat := by
  apply forall_byte
  decide

set_option maxRecDepth 4000 in
theorem clearTail_toNat : ∀ i :
    Byte, (clearTail i).toNat = if 0x80 ≤ i.toNat then 0x80 + i.toNat % 64 else i.toNat := by
  apply forall_byte
  decide

/-! ## The value -/

theorem or_low (n : Nat) (i : Byte) : n <<< 6 ||| (i.toNat &&& 0x3f) = n * 64 + i.toNat % 64 := by
  have hmask : i.toNat &&& 0x3f = i.toNat % 64 := Nat.and_two_pow_sub_one_eq_mod i.toNat 6
  rw [hmask, ← Nat.shiftLeft_add_eq_or_of_lt (Nat.mod_lt _ (by decide)), Nat.shiftLeft_eq]

theorem utf8Tail_cons (valid len u : Nat) (i : Byte) (p : Bytes) (h : 0x80 ≤ i.toNat) :
    utf8Tail valid (len + 1) u (i :: p) =
      ((utf8Tail valid len (u * 64 + i.toNat % 64) p).1,
        (utf8Tail valid len (u * 64 + i.toNat % 64) p).2 + 1) := by
  have hnot : ¬ i < 0x80 := fun hlt => absurd (UInt8.lt_iff_toNat_lt.mp hlt) (not_lt.mpr h)
  rw [utf8Tail, if_neg hnot, or_low]

/-- The last `n` bytes of an encoding of `u`. -/
def utf8Tails : Nat → Nat → Bytes
  | 0, _ => []
  | n + 1, u => UInt8.ofNat (0x80 + u / 64 ^ n % 64) :: utf8Tails n u

theorem length_utf8Tails (n u : Nat) : (utf8Tails n u).length = n := by
  induction n with
  | zero => rfl
  | succ n ih => exact congrArg (· + 1) ih

theorem ofNat_eq_iff {n : Nat} (h : n < 256) {b : Byte} : UInt8.ofNat n = b ↔ n = b.toNat := by
  rw [← UInt8.toNat_inj, UInt8.toNat_ofNat', Nat.mod_eq_of_lt h]

theorem clearTail_eq_iff {i : Byte} {n : Nat} :
    UInt8.ofNat (0x80 + n % 64) = clearTail i ↔ 0x80 ≤ i.toNat ∧ i.toNat % 64 = n % 64 := by
  rw [ofNat_eq_iff (by omega), clearTail_toNat]
  split
  · next h => exact ⟨fun heq => ⟨h, by omega⟩, fun heq => by omega⟩
  · next h => exact ⟨fun heq => by omega, fun heq => absurd heq.1 h⟩

theorem utf8Tail_low (valid len u : Nat) (i : Byte) (p : Bytes) (h : ¬ 0x80 ≤ i.toNat) :
    utf8Tail valid (len + 1) u (i :: p) = (utf8Error, 1) := by
  have hlt : i < 0x80 := UInt8.lt_iff_toNat_lt.mpr (not_le.mp h)
  rw [utf8Tail, if_pos hlt]

variable {w : Nat}

variable {valid : Nat}

theorem utf8Tail_eq_iff (hw : w ≠ utf8Error) (len u : Nat) (p : Bytes) :
    (utf8Tail valid len u p).1 = w ↔ valid < w ∧ w / 64 ^ len = u ∧
      utf8Tails len w <+: p.map clearTail := by
  induction len generalizing u p with
  | zero =>
    rw [utf8Tail, Nat.pow_zero, Nat.div_one]
    split
    · next h =>
      constructor
      · rintro rfl
        exact ⟨h, rfl, nil_prefix⟩
      · rintro ⟨-, rfl, -⟩
        rfl
    · next h =>
      refine iff_of_false (Ne.symm hw) ?_
      rintro ⟨hvalid, rfl, -⟩
      exact h hvalid
  | succ len ih =>
    cases p with
    | nil =>
      refine iff_of_false (Ne.symm hw) ?_
      rintro ⟨-, -, hprefix⟩
      exact cons_ne_nil _ _ (prefix_nil.mp hprefix)
    | cons i p =>
      have hpow : w / 64 ^ (len + 1) = w / 64 ^ len / 64 := by
        rw [Nat.pow_succ, Nat.div_div_eq_div_mul]
      rw [hpow, utf8Tails, map_cons, cons_prefix_cons, clearTail_eq_iff]
      by_cases hi : 0x80 ≤ i.toNat
      · rw [utf8Tail_cons valid len u i p hi]
        simp only
        rw [ih]
        constructor
        · rintro ⟨hvalid, hu, hprefix⟩
          exact ⟨hvalid, by omega, ⟨hi, by omega⟩, hprefix⟩
        · rintro ⟨hvalid, hu, ⟨-, hlast⟩, hprefix⟩
          exact ⟨hvalid, by omega, hprefix⟩
      · rw [utf8Tail_low valid len u i p hi]
        refine iff_of_false (Ne.symm hw) ?_
        rintro ⟨-, -, ⟨hhigh, -⟩, -⟩
        exact hi hhigh

theorem utf8Tail_passed (len u : Nat) (p : Bytes) (h : (utf8Tail valid len u p).1 ≠ utf8Error) :
    (utf8Tail valid len u p).2 = len := by
  induction len generalizing u p with
  | zero => rfl
  | succ len ih =>
    cases p with
    | nil => exact absurd rfl h
    | cons i p =>
      by_cases hi : 0x80 ≤ i.toNat
      · rw [utf8Tail_cons valid len u i p hi] at h ⊢
        exact congrArg (· + 1) (ih _ p h)
      · rw [utf8Tail_low valid len u i p hi] at h
        exact absurd rfl h

/-! ## Sequences and encodings -/

/-- An encoding of a character that is not in ASCII. -/
structure NonAscii (w : Nat) : Prop where
  low : 0x80 ≤ w
  high : w ≤ 0x10ffff

theorem NonAscii.ne_error (h : NonAscii w) : w ≠ utf8Error ∧ w ≠ utf8Incomplete := by
  have := h.high
  rw [utf8Error, utf8Incomplete]
  omega

theorem utf8Bytes_two (h : 0x80 ≤ w) (h' : w < 0x800) :
    utf8Bytes w = UInt8.ofNat (0xc0 + w / 64) :: utf8Tails 1 w := by
  rw [utf8Bytes, if_neg (by omega), if_pos h']
  simp only [utf8Tails, Nat.pow_zero, Nat.div_one]

theorem utf8Bytes_three (h : 0x800 ≤ w) (h' : w < 0x10000) :
    utf8Bytes w = UInt8.ofNat (0xe0 + w / 4096) :: utf8Tails 2 w := by
  rw [utf8Bytes, if_neg (by omega), if_neg (by omega), if_pos h']
  simp only [utf8Tails, Nat.pow_zero, Nat.div_one, Nat.pow_one]

theorem utf8Bytes_four (h : 0x10000 ≤ w) :
    utf8Bytes w = UInt8.ofNat (0xf0 + w / 262144) :: utf8Tails 3 w := by
  rw [utf8Bytes, if_neg (by omega), if_neg (by omega), if_neg (by omega)]
  simp only [utf8Tails, Nat.pow_zero, Nat.div_one, Nat.pow_one]
  rfl

/-- The encoding is a first byte that says how many follow, and these. -/
theorem utf8Bytes_cases (hw : NonAscii w) : ∃ n f, utf8Bytes w = UInt8.ofNat f :: utf8Tails n w ∧
    (w < 0x800 ∧ n = 1 ∧ f = 0xc0 + w / 64 ∨
      0x800 ≤ w ∧ w < 0x10000 ∧ n = 2 ∧ f = 0xe0 + w / 4096 ∨
      0x10000 ≤ w ∧ n = 3 ∧ f = 0xf0 + w / 262144) := by
  rcases Nat.lt_or_ge w 0x800 with htwo | htwo
  · exact ⟨_, _, utf8Bytes_two hw.low htwo, .inl ⟨htwo, rfl, rfl⟩⟩
  rcases Nat.lt_or_ge w 0x10000 with hthree | hthree
  · exact ⟨_, _, utf8Bytes_three htwo hthree, .inr (.inl ⟨htwo, hthree, rfl, rfl⟩)⟩
  · exact ⟨_, _, utf8Bytes_four hthree, .inr (.inr ⟨hthree, rfl, rfl⟩)⟩

theorem utf8Lead_eq (u : Byte) :
    utf8Lead u =
      if 0xf0 ≤ u.toNat then some (3, u.toNat % 8, 0xffff)
      else if 0xe0 ≤ u.toNat then some (2, u.toNat % 16, 0x7ff)
      else if 0xc2 ≤ u.toNat then some (1, u.toNat % 32, 0x7f)
      else none := by
  have h₃ : u.toNat &&& 0x07 = u.toNat % 8 := Nat.and_two_pow_sub_one_eq_mod u.toNat 3
  have h₂ : u.toNat &&& 0x0f = u.toNat % 16 := Nat.and_two_pow_sub_one_eq_mod u.toNat 4
  have h₁ : u.toNat &&& 0x1f = u.toNat % 32 := Nat.and_two_pow_sub_one_eq_mod u.toNat 5
  rw [utf8Lead, h₁, h₂, h₃]
  rfl

variable {u : Byte} {p : Bytes}

theorem utf8Bytes_prefix_of {n f len bits : Nat}
    (hbytes : utf8Bytes w = UInt8.ofNat f :: utf8Tails n w) (hf : f < 256)
    (hlead : f = (clearLead u).toNat ↔ valid < w ∧ w / 64 ^ len = bits)
    (hlen : f = (clearLead u).toNat → n = len) :
    utf8Bytes w <+: clearLead u :: p ↔ valid < w ∧ w / 64 ^ len = bits ∧ utf8Tails len w <+: p := by
  rw [hbytes, cons_prefix_cons, ofNat_eq_iff hf, ← and_assoc, ← hlead]
  constructor
  · rintro ⟨heq, hprefix⟩
    exact ⟨heq, hlen heq ▸ hprefix⟩
  · rintro ⟨heq, hprefix⟩
    exact ⟨heq, (hlen heq).symm ▸ hprefix⟩

/-- An encoding begins with a byte that says how many follow, the first bits and the least value. -/
theorem utf8Bytes_prefix_iff {len bits : Nat} (hw : NonAscii w) (p : Bytes)
    (h : utf8Lead u = some (len, bits, valid)) :
    utf8Bytes w <+: clearLead u :: p ↔ valid < w ∧ w / 64 ^ len = bits ∧ utf8Tails len w <+: p := by
  have hlow := hw.low
  have hhigh := hw.high
  have hu := u.toNat_lt
  have hclear := clearLead_toNat u
  obtain ⟨n, f, hbytes, hfirst⟩ := utf8Bytes_cases hw
  rw [utf8Lead_eq] at h
  -- the kinds of first bytes, and for each the lengths of the encoding
  split at h
  · next hfour =>
    rw [if_pos hfour] at hclear
    cases h
    exact utf8Bytes_prefix_of hbytes (by omega) (by omega) (by omega)
  next hfour =>
  rw [if_neg hfour] at hclear
  split at h
  · cases h
    exact utf8Bytes_prefix_of hbytes (by omega) (by omega) (by omega)
  split at h
  · cases h
    exact utf8Bytes_prefix_of hbytes (by omega) (by omega) (by omega)
  · cases h

theorem not_begins_utf8Bytes (hw : NonAscii w) (p : Bytes) (h : utf8Lead u = none) :
    ¬ utf8Bytes w <+: clearLead u :: p := by
  have hlow := hw.low
  have hhigh := hw.high
  have hclear := clearLead_toNat u
  have hsmall : u.toNat < 0xc2 := by
    rw [utf8Lead_eq] at h
    by_contra hge
    split at h
    · cases h
    split at h
    · cases h
    · rw [if_pos (not_lt.mp hge)] at h
      cases h
  rw [if_neg (by omega)] at hclear
  obtain ⟨n, f, hbytes, hfirst⟩ := utf8Bytes_cases hw
  rw [hbytes, cons_prefix_cons, ofNat_eq_iff (by omega)]
  omega

/-- **What is decoded.**  A sequence gives the character that it encodes once the bits
that are not looked at are cleared. -/
theorem utf8Decode_eq_iff (hw : NonAscii w) (p : Bytes) :
    (utf8Decode p).1 = w ↔ utf8Bytes w <+: cleared p := by
  obtain ⟨herror, hincomplete⟩ := hw.ne_error
  cases p with
  | nil =>
    refine iff_of_false (Ne.symm herror) fun hprefix => ?_
    have hnil := prefix_nil.mp hprefix
    rw [utf8Bytes, if_neg (not_lt.mpr hw.low)] at hnil
    grind
  | cons u p =>
    rw [utf8Decode, cleared]
    cases hlead : utf8Lead u with
    | none => exact iff_of_false (Ne.symm herror) (not_begins_utf8Bytes hw _ hlead)
    | some lead =>
      obtain ⟨len, bits, valid⟩ := lead
      rw [utf8Bytes_prefix_iff hw _ hlead, ← utf8Tail_eq_iff herror]
      by_cases hlen : p.length < len
      · simp only [if_pos hlen]
        refine iff_of_false (Ne.symm hincomplete) fun heq => ?_
        have hprefix := ((utf8Tail_eq_iff herror len bits p).mp heq).2.2.length_le
        rw [length_utf8Tails, length_map] at hprefix
        exact absurd hlen (not_lt.mpr hprefix)
      · simp only [if_neg hlen]

theorem length_utf8Bytes {len bits : Nat} (hw : NonAscii w)
    (hlead : utf8Lead u = some (len, bits, valid))
    (hvalid : valid < w) (hbits : w / 64 ^ len = bits) : (utf8Bytes w).length = len + 1 := by
  rw [utf8Lead_eq] at hlead
  split at hlead
  · cases hlead
    rw [utf8Bytes_four hvalid, length_cons, length_utf8Tails]
  split at hlead
  · cases hlead
    rw [utf8Bytes_three hvalid (by omega), length_cons, length_utf8Tails]
  split at hlead
  · cases hlead
    rw [utf8Bytes_two hw.low (by omega), length_cons, length_utf8Tails]
  · cases hlead

theorem utf8Decode_advance (hw : NonAscii w) (h : (utf8Decode p).1 = w) :
    (utf8Decode p).2 = (utf8Bytes w).length := by
  obtain ⟨herror, hincomplete⟩ := hw.ne_error
  cases p with
  | nil => exact absurd h.symm herror
  | cons u p =>
    rw [utf8Decode] at h ⊢
    cases hlead : utf8Lead u with
    | none =>
      rw [hlead] at h
      exact absurd h.symm herror
    | some lead =>
      obtain ⟨len, bits, valid⟩ := lead
      rw [hlead] at h
      by_cases hlen : p.length < len
      · simp only [if_pos hlen] at h
        exact absurd h.symm hincomplete
      · simp only [if_neg hlen] at h ⊢
        obtain ⟨hvalid, hbits, -⟩ := (utf8Tail_eq_iff herror len bits p).mp h
        rw [length_utf8Bytes hw hlead hvalid hbits, utf8Tail_passed len bits p (h ▸ herror)]

theorem map_clearTail_utf8Tails (n w : Nat) : (utf8Tails n w).map clearTail = utf8Tails n w := by
  induction n with
  | zero => rfl
  | succ n ih =>
    have hbyte : (UInt8.ofNat (0x80 + w / 64 ^ n % 64)).toNat = 0x80 + w / 64 ^ n % 64 :=
      Nat.mod_eq_of_lt (by omega)
    have hfixed : clearTail (UInt8.ofNat (0x80 + w / 64 ^ n % 64)) =
      UInt8.ofNat (0x80 + w / 64 ^ n % 64) :=
      (clearTail_eq_iff.mpr ⟨by omega, by omega⟩).symm
    rw [utf8Tails, map_cons, hfixed, ih]

theorem cleared_utf8Bytes_append (hw : NonAscii w) (rest : Bytes) :
    cleared (utf8Bytes w ++ rest) = utf8Bytes w ++ rest.map clearTail := by
  have hhigh := hw.high
  obtain ⟨n, f, hbytes, hfirst⟩ := utf8Bytes_cases hw
  have hf : f < 0xf8 := by omega
  have hnat : (UInt8.ofNat f).toNat = f := Nat.mod_eq_of_lt (by omega)
  have hclear : UInt8.ofNat f = clearLead (UInt8.ofNat f) := by
    rw [ofNat_eq_iff (by omega), clearLead_toNat, hnat]
    split <;> omega
  rw [hbytes, cons_append, cleared, ← hclear, map_append, map_clearTail_utf8Tails, cons_append]

theorem utf8Decode_utf8Bytes (hw : NonAscii w) (rest : Bytes) :
    utf8Decode (utf8Bytes w ++ rest) = (w, (utf8Bytes w).length) := by
  have hvalue : (utf8Decode (utf8Bytes w ++ rest)).1 = w := by
    rw [utf8Decode_eq_iff hw, cleared_utf8Bytes_append hw]
    exact prefix_append ..
  exact Prod.ext hvalue (utf8Decode_advance hw hvalue)

/-! ## The length of a text -/

theorem utf8Bytes_head (hw : NonAscii w) : ∃ c rest, utf8Bytes w = c :: rest ∧ ¬ c < 0x80 := by
  have hhigh := hw.high
  have hnot : ∀ f, 0x80 ≤ f → f < 256 → ¬ UInt8.ofNat f < 0x80 := by
    intro f hf hlt hc
    have hc := UInt8.lt_iff_toNat_lt.mp hc
    rw [UInt8.toNat_ofNat', Nat.mod_eq_of_lt hlt] at hc
    exact absurd hf (not_le.mpr hc)
  obtain ⟨n, f, hbytes, hfirst⟩ := utf8Bytes_cases hw
  exact ⟨_, _, hbytes, hnot f (by omega) (by omega)⟩

theorem utf8LengthLoop_append (n : Nat) (hw : w ≤ 0x10ffff) (rest : Bytes) (len : Nat) :
    utf8LengthLoop n (utf8Bytes w ++ rest) len = utf8LengthLoop n rest (len + 1) := by
  by_cases hascii : w < 0x80
  · have hlt : UInt8.ofNat w < 0x80 := by
      rw [UInt8.lt_iff_toNat_lt, UInt8.toNat_ofNat', Nat.mod_eq_of_lt (by omega)]
      exact hascii
    rw [utf8Bytes, if_pos hascii, singleton_append, utf8LengthLoop, if_pos hlt]
  have hnon : NonAscii w := ⟨not_lt.mp hascii, hw⟩
  obtain ⟨c, tail, hbytes, hc⟩ := utf8Bytes_head hnon
  have hdecode := utf8Decode_utf8Bytes hnon rest
  have hdrop : (utf8Bytes w ++ rest).drop (utf8Bytes w).length = rest := drop_left
  have hturn : utf8LengthLoop n (c :: (tail ++ rest)) len =
      utf8LengthLoop n ((c :: (tail ++ rest)).drop (utf8Decode (c :: (tail ++ rest))).2)
        (len + 1) := by
    rw [utf8LengthLoop, if_neg hc, dif_neg]
    rw [← cons_append, ← hbytes, hdecode]
    exact not_lt.mpr hw
  rw [← cons_append, ← hbytes, hdecode] at hturn
  rw [hturn, hdrop]

theorem ngxUtf8Length_flatMap {us : List Nat} (h : ∀ u ∈ us, u ≤ 0x10ffff) :
    ngxUtf8Length (us.flatMap utf8Bytes) = us.length := by
  have hloop : ∀ n len, utf8LengthLoop n (us.flatMap utf8Bytes) len = len + us.length := by
    intro n
    induction us with
    | nil =>
      intro len
      rw [flatMap_nil, utf8LengthLoop]
      rfl
    | cons u us ih =>
      intro len
      obtain ⟨hu, hus⟩ := forall_mem_cons.mp h
      rw [flatMap_cons, utf8LengthLoop_append n hu, ih hus, length_cons, add_right_comm, add_assoc]
  exact (hloop _ 0).trans (zero_add _)

/-! ## Exactness -/

/-- A byte that begins an encoding, and too few bytes behind it. -/
def Utf8Cut : Bytes → Prop
  | [] => False
  | u :: p => 0xc2 ≤ u ∧ u ≤ 0xf4 ∧ p.length + 1 < if 0xf0 ≤ u then 4 else if 0xe0 ≤ u then 3 else 2

/-- What decoding owes: the character that is encoded at the beginning, and how far it goes. -/
structure Utf8Right (p : Bytes) : Prop where
  value : ∀ w ≤ 0x10ffff, (utf8Decode p).1 = w ↔ 0x80 ≤ w ∧ utf8Bytes w <+: p
  advance : ∀ w ≤ 0x10ffff, (utf8Decode p).1 = w → (utf8Decode p).2 = (utf8Bytes w).length
  incomplete : (utf8Decode p).1 = utf8Incomplete ↔ Utf8Cut p
  unmoved : (utf8Decode p).1 = utf8Incomplete → (utf8Decode p).2 = 0

/-- Nothing becomes an encoding by clearing bits, and no byte from `0xf5` on is among the
last three. -/
structure Utf8Plain (p : Bytes) : Prop where
  bits : ∀ w, 0x80 ≤ w → w ≤ 0x10ffff → utf8Bytes w <+: cleared p → utf8Bytes w <+: p
  long : ∀ u ∈ p.head?, 0xf5 ≤ u → 4 ≤ p.length

theorem utf8Decode_incomplete_cons (u : Byte) (p : Bytes) :
    (utf8Decode (u :: p)).1 = utf8Incomplete ↔
      0xc2 ≤ u ∧ p.length + 1 < if 0xf0 ≤ u then 4 else if 0xe0 ≤ u then 3 else 2 := by
  rw [utf8Decode_incomplete_iff (cons_ne_nil u p), Utf8Complete, utf8Length,
    utf8Lead_eq, length_cons, Nat.not_le]
  simp only [UInt8.le_iff_toNat_le]
  change _ ↔ 0xc2 ≤ u.toNat ∧
    p.length + 1 < if 0xf0 ≤ u.toNat then 4 else if 0xe0 ≤ u.toNat then 3 else 2
  by_cases hfour : 0xf0 ≤ u.toNat
  · simp only [if_pos hfour]
    exact ⟨fun hlt => ⟨by omega, hlt⟩, And.right⟩
  simp only [if_neg hfour]
  by_cases hthree : 0xe0 ≤ u.toNat
  · simp only [if_pos hthree]
    exact ⟨fun hlt => ⟨by omega, hlt⟩, And.right⟩
  simp only [if_neg hthree]
  by_cases htwo : 0xc2 ≤ u.toNat
  · simp only [if_pos htwo]
    exact ⟨fun hlt => ⟨htwo, hlt⟩, And.right⟩
  · simp only [if_neg htwo]
    exact iff_of_false (by omega) fun hlt => htwo hlt.1

theorem utf8Decode_unmoved (h : (utf8Decode p).1 = utf8Incomplete) : (utf8Decode p).2 = 0 := by
  cases p with
  | nil => rfl
  | cons u p =>
    have hnot := (utf8Decode_incomplete_iff (cons_ne_nil u p)).mp h
    rw [Utf8Complete, utf8Length] at hnot
    rw [utf8Decode]
    cases hlead : utf8Lead u with
    | none =>
      rw [hlead] at hnot
      exact absurd (Nat.succ_le_succ (Nat.zero_le _)) hnot
    | some lead =>
      obtain ⟨len, bits, valid⟩ := lead
      rw [hlead] at hnot
      have hlen : p.length < len := Nat.lt_of_succ_lt_succ (not_le.mp hnot)
      simp only [if_pos hlen]

theorem utf8Decode_value_iff (hw : w ≤ 0x10ffff) (p : Bytes) :
    (utf8Decode p).1 = w ↔ 0x80 ≤ w ∧ utf8Bytes w <+: cleared p := by
  constructor
  · intro h
    have hlow : 0x80 ≤ w := h ▸ utf8Decode_value
    exact ⟨hlow, (utf8Decode_eq_iff ⟨hlow, hw⟩ p).mp h⟩
  · rintro ⟨hlow, hprefix⟩
    exact (utf8Decode_eq_iff ⟨hlow, hw⟩ p).mpr hprefix

/-- Decoding is right where the bits that are not looked at do not matter. -/
theorem utf8Right_iff (p : Bytes) : Utf8Right p ↔ Utf8Plain p := by
  constructor
  · intro h
    refine ⟨fun w hlow hhigh hprefix => ?_, fun u hu hlead => ?_⟩
    · have hvalue := (utf8Decode_value_iff hhigh p).mpr ⟨hlow, hprefix⟩
      exact ((h.value w hhigh).mp hvalue).2
    cases p with
    | nil => cases hu
    | cons u' p =>
      obtain rfl : u' = u := Option.some.inj hu
      have hlead' := UInt8.le_iff_toNat_le.mp hlead
      change 0xf5 ≤ u'.toNat at hlead'
      by_contra hshort
      have hfour : 0xf0 ≤ u' := UInt8.le_iff_toNat_le.mpr (show 0xf0 ≤ u'.toNat by omega)
      have htwo : 0xc2 ≤ u' := UInt8.le_iff_toNat_le.mpr (show 0xc2 ≤ u'.toNat by omega)
      have hincomplete : (utf8Decode (u' :: p)).1 = utf8Incomplete := by
        rw [utf8Decode_incomplete_cons, if_pos hfour]
        exact ⟨htwo, not_le.mp hshort⟩
      have hvalid := UInt8.le_iff_toNat_le.mp (h.incomplete.mp hincomplete).2.1
      change u'.toNat ≤ 0xf4 at hvalid
      omega
  · intro h
    refine ⟨fun w hhigh => ?_, fun w hhigh hvalue => ?_, ?_, utf8Decode_unmoved⟩
    · rw [utf8Decode_value_iff hhigh]
      constructor
      · rintro ⟨hlow, hprefix⟩
        exact ⟨hlow, h.bits w hlow hhigh hprefix⟩
      · rintro ⟨hlow, rest, rfl⟩
        rw [cleared_utf8Bytes_append ⟨hlow, hhigh⟩]
        exact ⟨hlow, prefix_append ..⟩
    · have hlow : 0x80 ≤ w := hvalue ▸ utf8Decode_value
      exact utf8Decode_advance ⟨hlow, hhigh⟩ hvalue
    · cases p with
      | nil => exact iff_of_false (by decide) id
      | cons u p =>
        rw [utf8Decode_incomplete_cons, Utf8Cut]
        refine ⟨fun hcut => ⟨hcut.1, ?_, hcut.2⟩, fun hcut => ⟨hcut.1, hcut.2.2⟩⟩
        by_contra hlead
        have hlead := UInt8.lt_iff_toNat_lt.mp (UInt8.not_le.mp hlead)
        change 0xf4 < u.toNat at hlead
        have hfive : 0xf5 ≤ u := UInt8.le_iff_toNat_le.mpr (show 0xf5 ≤ u.toNat by omega)
        have hfour : 0xf0 ≤ u := UInt8.le_iff_toNat_le.mpr (show 0xf0 ≤ u.toNat by omega)
        have hlong := h.long u rfl hfive
        have hshort := hcut.2
        rw [if_pos hfour] at hshort
        rw [length_cons] at hlong
        omega

/-- Decoding is exact on the sequences whose bits that are not looked at do not matter, and
the characters of every valid text are counted. -/
theorem utf8Decode_exact_iff (p : Bytes) (_ : p ≠ []) (us : List Nat) (h : ∀ u ∈ us, u ≤ 0x10ffff) :
    (Utf8Right p ↔ Utf8Plain p) ∧ ngxUtf8Length (us.flatMap utf8Bytes) = us.length :=
  ⟨utf8Right_iff p, ngxUtf8Length_flatMap h⟩

/-- The euro sign and a digit: the sign is decoded, and the text has its length. -/
theorem utf8Decode_exact_iff_euro :
    Utf8Right [0xe2, 0x82, 0xac, 0x31] ∧ utf8Decode [0xe2, 0x82, 0xac, 0x31] = (0x20ac, 3) ∧
      ngxUtf8Length ([0x20ac, 0x31].flatMap utf8Bytes) = 2 := by
  obtain ⟨hiff, hlength⟩ :=
    utf8Decode_exact_iff [0xe2, 0x82, 0xac, 0x31] (cons_ne_nil _ _) [0x20ac, 0x31] (by decide)
  have hcleared : cleared [0xe2, 0x82, 0xac, 0x31] = [0xe2, 0x82, 0xac, 0x31] := by decide
  exact ⟨hiff.mpr ⟨fun w _ _ hw => hcleared ▸ hw, fun _ _ _ => le_refl 4⟩, by decide, hlength⟩

/-- Two bytes in Latin-1 that are decoded to the second one. -/
theorem not_utf8Right_latin1 : ¬ Utf8Right [0xc3, 0xe9] := by
  intro h
  have hprefix := ((h.value 0xe9 (by decide)).mp rfl).2
  exact absurd hprefix (by decide)

end Nginx.Core
