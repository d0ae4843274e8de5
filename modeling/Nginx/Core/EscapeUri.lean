/-
  Core/EscapeUri.lean --- quoting of the bytes of a URI (`src/core/ngx_string.c`).

  `ngx_escape_uri` counts or writes with one table.  The table of `NGX_ESCAPE_ARGS`
  comes first, with which captures are put into arguments and redirects, and
  `ngx_unescape_uri` of `NGX_UNESCAPE_REDIRECT` and of type 0, which work in place;
  then the functions of all types, and the way there and back.
-/
import Mathlib.Algebra.BigOperators.Group.List.Basic
import Nginx.Http.Parse.Char

set_option autoImplicit false

namespace Nginx.Core

open List Foundation Http.Parse

/-! ## `ngx_escape_uri` -/

/-- `args[]`: `" "`, `"#"`, `"%"`, `"&"`, `"+"`, `"?"`, `%00-%1F`, `%7F-%FF` -/
def escapeArgsTable : List UInt32 :=
  [0xffffffff, 0x88000869, 0x00000000, 0x80000000,
   0xffffffff, 0xffffffff, 0xffffffff, 0xffffffff]

/-- `escape[*src >> 5] & (1U << (*src & 0x1f))` -/
def isEscaped (ch : Byte) : Bool :=
  escapeArgsTable.getD (ch >>> 5).toNat 0 &&& ((1 : UInt32) <<< (ch &&& 0x1f).toUInt32) != 0

/-- `hex[]` -/
def hex (n : Byte) : Byte := (ascii "0123456789ABCDEF").getD n.toNat 0

/-- `ngx_escape_uri(NULL, src, size, NGX_ESCAPE_ARGS)`: the bytes to be escaped. -/
def countEscapes (src : Bytes) : Nat := src.countP isEscaped

/-- What a byte becomes. -/
def escapeByte (ch : Byte) : Bytes :=
  if isEscaped ch then [chr '%', hex (ch >>> 4), hex (ch &&& 0xf)] else [ch]

/-- What `ngx_escape_uri(dst, src, size, NGX_ESCAPE_ARGS)` writes at `dst`. -/
def escapeUri (src : Bytes) : Bytes := src.flatMap escapeByte

theorem length_escapeByte (ch : Byte) :
    (escapeByte ch).length = 1 + 2 * (if isEscaped ch then 1 else 0) := by
  unfold escapeByte
  split <;> rfl

theorem length_escapeUri (src : Bytes) :
    (escapeUri src).length = src.length + 2 * countEscapes src := by
  induction src with
  | nil => rfl
  | cons ch src ih =>
    have hcons : escapeUri (ch :: src) = escapeByte ch ++ escapeUri src := flatMap_cons
    rw [hcons, length_append, length_escapeByte, ih, countEscapes,
      countEscapes, countP_cons, length_cons]
    omega

/-! ## `ngx_unescape_uri` -/

/-- `state`, with what the machine still looks back at. -/
inductive UnescapeState where
  | usual
  | quoted
  | quotedSecond (first : Byte) (decoded : Nat)
  deriving DecidableEq

/-- The bytes that were read and are not written yet. -/
def UnescapeState.pending : UnescapeState → Nat
  | .usual => 0
  | .quoted => 1
  | .quotedSecond _ _ => 2

/-- `ngx_unescape_uri(&dst, &src, size, NGX_UNESCAPE_REDIRECT)` and the `ngx_movemem`
of what it leaves behind a `?`.  A second digit that is decimal cannot give a `?`. -/
def unescapeFrom : UnescapeState → Bytes → Bytes
  | _, [] => []
  | .usual, ch :: src =>
    if ch = chr '?' then
      ch :: src
    else if ch = chr '%' then
      unescapeFrom .quoted src
    else
      ch :: unescapeFrom .usual src
  | .quoted, ch :: src =>
    match hexDigit? ch with
    | some decoded => unescapeFrom (.quotedSecond ch decoded) src
    -- the invalid quoted character
    | none => ch :: unescapeFrom .usual src
  | .quotedSecond first decoded, ch :: src =>
    match hexDigit? ch with
    | some digit =>
      let c := UInt8.ofNat (decoded * 16 + digit)
      if c = chr '?' then
        c :: src
      else if chr '%' < c ∧ c < 0x7f then
        c :: unescapeFrom .usual src
      else
        chr '%' :: first :: ch :: unescapeFrom .usual src
    -- the invalid quoted character
    | none => unescapeFrom .usual src

def unescapeUri (src : Bytes) : Bytes := unescapeFrom .usual src

theorem length_unescapeFrom (state : UnescapeState) (src : Bytes) :
    (unescapeFrom state src).length ≤ state.pending + src.length := by
  fun_induction unescapeFrom state src with
  | case1 state => simp only [length_nil, zero_le]
  | case2 src => simp only [UnescapeState.pending, length_cons, zero_add, le_refl]
  | case3 src hnot ih =>
    simp only [UnescapeState.pending, length_cons] at ih ⊢
    omega
  | case4 ch src hnot husual ih =>
    simp only [UnescapeState.pending, length_cons] at ih ⊢
    omega
  | case5 ch src decoded hdigit ih =>
    simp only [UnescapeState.pending, length_cons] at ih ⊢
    omega
  | case6 ch src hdigit ih =>
    simp only [UnescapeState.pending, length_cons] at ih ⊢
    omega
  | case7 first decoded ch src digit hdigit c hend =>
    simp only [UnescapeState.pending, length_cons]
    omega
  | case8 first decoded ch src digit hdigit c hend hprinted ih =>
    simp only [UnescapeState.pending, length_cons] at ih ⊢
    omega
  | case9 first decoded ch src digit hdigit c hend hprinted ih =>
    simp only [UnescapeState.pending, length_cons] at ih ⊢
    omega
  | case10 first decoded ch src hdigit ih =>
    simp only [UnescapeState.pending, length_cons] at ih ⊢
    omega

theorem length_unescapeUri (src : Bytes) : (unescapeUri src).length ≤ src.length := by
  have hle := length_unescapeFrom .usual src
  simp only [UnescapeState.pending, zero_add] at hle
  exact hle

/-! ## `ngx_unescape_uri` of type 0 -/

/-- `ngx_unescape_uri(&dst, &src, size, 0)`: no byte ends it and all that is decoded is written. -/
def unescapePlainFrom : UnescapeState → Bytes → Bytes
  | _, [] => []
  | .usual, ch :: src =>
    if ch = chr '%' then
      unescapePlainFrom .quoted src
    else
      ch :: unescapePlainFrom .usual src
  | .quoted, ch :: src =>
    match hexDigit? ch with
    | some decoded => unescapePlainFrom (.quotedSecond ch decoded) src
    -- the invalid quoted character
    | none => ch :: unescapePlainFrom .usual src
  | .quotedSecond _ decoded, ch :: src =>
    match hexDigit? ch with
    | some digit => UInt8.ofNat (decoded * 16 + digit) :: unescapePlainFrom .usual src
    -- the invalid quoted character
    | none => unescapePlainFrom .usual src

def unescapePlain (src : Bytes) : Bytes := unescapePlainFrom .usual src

/-- A text of escapes that are cut short and of escapes whose second digit is none: nothing of it is
written. -/
inductive Vanishes : Bytes → Prop where
  | nil : Vanishes []
  | percent : Vanishes [chr '%']
  | digit {d : Byte} (hd : (hexDigit? d).isSome = true) : Vanishes [chr '%', d]
  | escape {d ch : Byte} {rest : Bytes} (hd : (hexDigit? d).isSome = true)
    (hch : hexDigit? ch = none) (hrest : Vanishes rest) :
      Vanishes (chr '%' :: d :: ch :: rest)

theorem Vanishes.unescapePlain {src : Bytes} (h : Vanishes src) : unescapePlain src = [] := by
  induction h with
  | nil => rfl
  | percent => rfl
  | digit hd =>
    obtain ⟨v, hv⟩ := Option.isSome_iff_exists.mp hd
    rw [Core.unescapePlain, unescapePlainFrom, if_pos rfl, unescapePlainFrom, hv]
    rfl
  | escape hd hch _ ih =>
    obtain ⟨v, hv⟩ := Option.isSome_iff_exists.mp hd
    rw [Core.unescapePlain, unescapePlainFrom, if_pos rfl, unescapePlainFrom, hv]
    dsimp only
    rw [unescapePlainFrom, hch]
    exact ih

theorem vanishes_of_unescapePlain : ∀ {src : Bytes}, unescapePlain src = [] → Vanishes src
  | [], _ => .nil
  | [ch], h => by
    rw [unescapePlain, unescapePlainFrom] at h
    by_cases hch : ch = chr '%'
    · exact hch ▸ .percent
    · rw [if_neg hch] at h
      cases h
  | [ch, d], h => by
    rw [unescapePlain, unescapePlainFrom] at h
    by_cases hch : ch = chr '%'
    · subst hch
      rw [if_pos rfl, unescapePlainFrom] at h
      cases hd : hexDigit? d with
      | none =>
        rw [hd] at h
        cases h
      | some v => exact .digit (hd ▸ rfl)
    · rw [if_neg hch] at h
      cases h
  | ch :: d :: c :: rest, h => by
    rw [unescapePlain, unescapePlainFrom] at h
    by_cases hch : ch = chr '%'
    · subst hch
      rw [if_pos rfl, unescapePlainFrom] at h
      cases hd : hexDigit? d with
      | none =>
        rw [hd] at h
        cases h
      | some v =>
        rw [hd] at h
        dsimp only at h
        rw [unescapePlainFrom] at h
        cases hc : hexDigit? c with
        | none =>
          rw [hc] at h
          exact .escape (hd ▸ rfl) hc (vanishes_of_unescapePlain h)
        | some v' =>
          rw [hc] at h
          cases h
    · rw [if_neg hch] at h
      cases h

theorem unescapePlain_eq_nil_iff {src : Bytes} : unescapePlain src = [] ↔ Vanishes src :=
  ⟨vanishes_of_unescapePlain, Vanishes.unescapePlain⟩

/-! ## The types of `ngx_escape_uri` -/

/-- `NGX_ESCAPE_URI` and the others, in the order of `map[]`. -/
inductive EscapeType where
  | uri
  | args
  | uriComponent
  | html
  | refresh
  | memcached
  | mailAuth
  deriving DecidableEq

namespace EscapeType

/-- `map[type]`; `mail_auth` is the same as `memcached`. -/
def map : EscapeType → List UInt32
  | uri =>
    [0xffffffff, 0x80000029, 0x00000000, 0x80000000, 0xffffffff, 0xffffffff, 0xffffffff, 0xffffffff]
  | args => escapeArgsTable
  | uriComponent =>
    [0xffffffff, 0xfc009fff, 0x78000001, 0xb8000001, 0xffffffff, 0xffffffff, 0xffffffff, 0xffffffff]
  | html =>
    [0xffffffff, 0x000000ad, 0x00000000, 0x80000000, 0xffffffff, 0xffffffff, 0xffffffff, 0xffffffff]
  | refresh =>
    [0xffffffff, 0x00000085, 0x00000000, 0x80000000, 0xffffffff, 0xffffffff, 0xffffffff, 0xffffffff]
  | memcached | mailAuth =>
    [0xffffffff, 0x00000021, 0x00000000, 0x00000000, 0x00000000, 0x00000000, 0x00000000, 0x00000000]

variable (type : EscapeType)

/-- `escape[*src >> 5] & (1U << (*src & 0x1f))` -/
def marks (ch : Byte) : Bool :=
  type.map.getD (ch >>> 5).toNat 0 &&& ((1 : UInt32) <<< (ch &&& 0x1f).toUInt32) != 0

/-- `ngx_escape_uri(NULL, src, size, type)` -/
def count (src : Bytes) : Nat := src.countP type.marks

/-- What a byte becomes. -/
def escapeByte (ch : Byte) : Bytes :=
  if type.marks ch then [chr '%', hex (ch >>> 4), hex (ch &&& 0xf)] else [ch]

/-- What `ngx_escape_uri(dst, src, size, type)` writes at `dst`. -/
def escape (src : Bytes) : Bytes := src.flatMap type.escapeByte

end EscapeType

namespace EscapeType

variable {type : EscapeType}

theorem escape_cons (type : EscapeType) (ch : Byte) (src : Bytes) :
    type.escape (ch :: src) = type.escapeByte ch ++ type.escape src := flatMap_cons

theorem length_escape (type : EscapeType) (src : Bytes) :
    (type.escape src).length = src.length + 2 * type.count src := by
  induction src with
  | nil => rfl
  | cons ch src ih =>
    rw [escape_cons, length_append, ih, escapeByte, count, count, countP_cons, length_cons]
    cases type.marks ch
    · simp only [Bool.false_eq_true, if_false, length_singleton]
      omega
    · simp only [if_true, length_cons, length_nil]
      omega

theorem marks_percent (h : type ≠ refresh) : type.marks (chr '%') = true := by
  cases type with
  | refresh => exact absurd rfl h
  | uri => decide
  | args => decide
  | uriComponent => decide
  | html => decide
  | memcached => decide
  | mailAuth => decide

/-- A digit of an escape. -/
structure Digit (type : EscapeType) (value : Nat) (ch : Byte) : Prop where
  unmarked : type.marks ch = false
  value_eq : hexDigit? ch = some value

theorem Digit.ne_percent {value : Nat} {ch : Byte} (h : Digit type value ch) : ch ≠ chr '%' := by
  rintro rfl
  cases h.value_eq

theorem digit_hex (type : EscapeType) {n : Nat} (hn : n < 16) :
    Digit type n (hex (UInt8.ofNat n)) := by
  have hmarks : ∀ n < 16, type.marks (hex (UInt8.ofNat n)) = false := by
    cases type with
    | uri => decide
    | args => decide
    | uriComponent => decide
    | html => decide
    | refresh => decide
    | memcached => decide
    | mailAuth => decide
  have hvalue : ∀ n < 16, hexDigit? (hex (UInt8.ofNat n)) = some n := by decide
  exact ⟨hmarks n hn, hvalue n hn⟩

set_option maxRecDepth 4000 in
theorem nibbles (ch : Byte) :
    ch >>> 4 = UInt8.ofNat (ch.toNat / 16) ∧ ch &&& 0xf = UInt8.ofNat (ch.toNat % 16) := by
  revert ch
  apply forall_byte
  decide

theorem digit_high (type : EscapeType) (ch : Byte) :
    Digit type (ch.toNat / 16) (hex (ch >>> 4)) := by
  rw [(nibbles ch).1]
  exact digit_hex type (Nat.div_lt_of_lt_mul ch.toNat_lt)

theorem digit_low (type : EscapeType) (ch : Byte) :
    Digit type (ch.toNat % 16) (hex (ch &&& 0xf)) := by
  rw [(nibbles ch).2]
  exact digit_hex type (Nat.mod_lt _ (by decide))

theorem escapeByte_eq (type : EscapeType) (ch : Byte) :
    (type.marks ch = false ∧ type.escapeByte ch = [ch]) ∨
    (type.marks ch = true ∧ ∃ high low, Digit type (ch.toNat / 16) high ∧
      Digit type (ch.toNat % 16) low ∧
      type.escapeByte ch = [chr '%', high, low]) := by
  cases hmarks : type.marks ch with
  | false => exact .inl ⟨rfl, by rw [escapeByte, hmarks, if_neg Bool.false_ne_true]⟩
  | true =>
    exact .inr ⟨rfl, _, _, digit_high type ch,
      digit_low type ch, by rw [escapeByte, hmarks, if_pos rfl]⟩

theorem marks_escapeByte (type : EscapeType) (ch : Byte) :
    ∀ x ∈ type.escapeByte ch, type.marks x = true → x = chr '%' := by
  rcases escapeByte_eq type ch with ⟨hmarks, heq⟩ | ⟨-, high, low, hhigh, hlow, heq⟩
  · rw [heq]
    exact forall_mem_singleton.mpr fun h => absurd (hmarks.symm.trans h) Bool.false_ne_true
  rw [heq]
  intro x hx hx'
  simp only [mem_cons, not_mem_nil, or_false] at hx
  rcases hx with rfl | rfl | rfl
  · rfl
  · exact absurd (hhigh.unmarked.symm.trans hx') Bool.false_ne_true
  · exact absurd (hlow.unmarked.symm.trans hx') Bool.false_ne_true

theorem marks_escape {src : Bytes} {x : Byte} (hx : x ∈ type.escape src)
    (hmarks : type.marks x = true) : x = chr '%' := by
  obtain ⟨ch, -, hx⟩ := mem_flatMap.mp hx
  exact marks_escapeByte type ch x hx hmarks

theorem ne_percent_of_unmarked (h : type ≠ refresh) {ch : Byte} (hmarks : type.marks ch = false) :
    ch ≠ chr '%' := by
  rintro rfl
  exact absurd (hmarks.symm.trans (marks_percent h)) Bool.false_ne_true

theorem count_percent (h : type ≠ refresh) (src : Bytes) :
    (type.escape src).count (chr '%') = type.count src := by
  induction src with
  | nil => rfl
  | cons ch src ih =>
    rw [escape_cons, count_append, ih, count, count, countP_cons]
    rcases escapeByte_eq type ch with ⟨hmarks, heq⟩ | ⟨hmarks, high, low, hhigh, hlow, heq⟩
    · have hne := ne_percent_of_unmarked h hmarks
      rw [heq, hmarks, count_singleton, beq_false_of_ne hne, if_neg Bool.false_ne_true]
      exact zero_add _
    · rw [heq, hmarks, count_cons_self, count_cons_of_ne hhigh.ne_percent,
        count_cons_of_ne hlow.ne_percent,
        count_nil, if_pos rfl]
      exact add_comm ..

theorem unescapePlain_escapeByte (h : type ≠ refresh) (ch : Byte) (rest : Bytes) :
    unescapePlain (type.escapeByte ch ++ rest) = ch :: unescapePlain rest := by
  rcases escapeByte_eq type ch with ⟨hmarks, heq⟩ | ⟨hmarks, high, low, hhigh, hlow, heq⟩
  · rw [heq, singleton_append, unescapePlain, unescapePlainFrom,
      if_neg (ne_percent_of_unmarked h hmarks)]
    rfl
  have hbyte : UInt8.ofNat (ch.toNat / 16 * 16 + ch.toNat % 16) = ch := by
    rw [show ch.toNat / 16 * 16 + ch.toNat % 16 = ch.toNat by omega, UInt8.ofNat_toNat]
  rw [heq, cons_append, cons_append, singleton_append, unescapePlain,
    unescapePlainFrom, if_pos rfl,
    unescapePlainFrom, hhigh.value_eq]
  dsimp only
  rw [unescapePlainFrom, hlow.value_eq]
  dsimp only
  rw [hbyte]
  rfl

theorem unescapePlain_escape (h : type ≠ refresh) (src : Bytes) :
    unescapePlain (type.escape src) = src := by
  induction src with
  | nil => rfl
  | cons ch src ih =>
    rw [escape_cons, unescapePlain_escapeByte h, ih]

end EscapeType

/-! ## The types of `ngx_unescape_uri` -/

/-- The bits of `type`: `NGX_UNESCAPE_URI` and `NGX_UNESCAPE_REDIRECT`. -/
structure UnescapeType where
  uri : Bool
  redirect : Bool
  deriving DecidableEq

/-- `ngx_unescape_uri(&dst, &src, size, type)`: what is written at `dst`, and what is
left behind `src`. -/
def UnescapeType.unescape (type : UnescapeType) : UnescapeState → Bytes → Bytes × Bytes
  | _, [] => ([], [])
  | .usual, ch :: src =>
    if ch = chr '?' ∧ (type.uri ∨ type.redirect) then ([ch], src)
    else if ch = chr '%' then type.unescape .quoted src
    else writes [ch] (type.unescape .usual src)
  | .quoted, ch :: src =>
    if chr '0' ≤ ch ∧ ch ≤ chr '9' then type.unescape (.quotedSecond ch (ch - chr '0').toNat) src
    else
      let c := ch ||| 0x20
      if chr 'a' ≤ c ∧
        c ≤ chr 'f' then type.unescape (.quotedSecond ch (c - chr 'a' + 10).toNat) src
      -- the invalid quoted character
      else writes [ch] (type.unescape .usual src)
  | .quotedSecond first decoded, ch :: src =>
    if chr '0' ≤ ch ∧ ch ≤ chr '9' then
      let x := UInt8.ofNat (decoded * 16) + (ch - chr '0')
      if type.redirect then
        if chr '%' < x ∧ x < 0x7f then writes [x] (type.unescape .usual src)
        else writes [chr '%', first, ch] (type.unescape .usual src)
      else writes [x] (type.unescape .usual src)
    else
      let c := ch ||| 0x20
      if chr 'a' ≤ c ∧ c ≤ chr 'f' then
        let x := UInt8.ofNat (decoded * 16) + (c - chr 'a') + 10
        if type.uri then
          if x = chr '?' then ([x], src) else writes [x] (type.unescape .usual src)
        else if type.redirect then
          if x = chr '?' then ([x], src)
          else if chr '%' < x ∧ x < 0x7f then writes [x] (type.unescape .usual src)
          else writes [chr '%', first, ch] (type.unescape .usual src)
        else writes [x] (type.unescape .usual src)
      -- the invalid quoted character
      else type.unescape .usual src
where
  writes (bytes : Bytes) (rest : Bytes × Bytes) : Bytes × Bytes := (bytes ++ rest.1, rest.2)

namespace UnescapeType

variable (type : UnescapeType)

-- the equations, for all that follows
attribute [local simp] unescape

@[simp] theorem length_writes (bytes : Bytes) (rest : Bytes × Bytes) :
    (unescape.writes bytes rest).1.length = bytes.length + rest.1.length :=
  length_append

@[simp] theorem writes_snd (bytes : Bytes) (rest : Bytes × Bytes) :
    (unescape.writes bytes rest).2 = rest.2 := rfl

theorem length_unescape (state : UnescapeState) (src : Bytes) :
    (type.unescape state src).1.length + (type.unescape state src).2.length ≤
      state.pending + src.length := by
  fun_induction UnescapeType.unescape type state src
  all_goals
    simp only [UnescapeState.pending, length_cons, length_nil, length_writes, writes_snd] at *
    omega

theorem unescape_suffix (state : UnescapeState) (src : Bytes) :
    (type.unescape state src).2 <:+ src := by
  fun_induction UnescapeType.unescape type state src with
  | case1 => exact suffix_rfl
  | case2 | case11 | case13 => exact suffix_cons ..
  | case3 | case17 | case4 | case5 | case6 | case7 | case8 | case9 | case10
    | case12 | case14 | case15 | case16 =>
    rename_i ih
    exact ih.trans (suffix_cons ..)

end UnescapeType

/-! ### The types the other functions are of -/

theorem decimal_second {decoded : Nat} {ch : Byte} :
    UInt8.ofNat (decoded * 16) + (ch - chr '0') =
      UInt8.ofNat (decoded * 16 + (ch - chr '0').toNat) := by
  rw [UInt8.ofNat_add, UInt8.ofNat_toNat]

theorem letter_second {decoded : Nat} {c : Byte} :
    UInt8.ofNat (decoded * 16) + (c - chr 'a') + 10 =
      UInt8.ofNat (decoded * 16 + (c - chr 'a' + 10).toNat) := by
  rw [UInt8.ofNat_add, UInt8.ofNat_toNat, UInt8.add_assoc]

namespace UnescapeType

variable {type : UnescapeType} {ch first : Byte} {src : Bytes} {decoded digit : Nat}

theorem unescape_quoted_some (h : hexDigit? ch = some digit) :
    type.unescape .quoted (ch :: src) = type.unescape (.quotedSecond ch digit) src := by
  rw [hexDigit?] at h
  rw [unescape]
  by_cases hdecimal : chr '0' ≤ ch ∧ ch ≤ chr '9'
  · rw [if_pos hdecimal] at h ⊢
    cases h
    rfl
  rw [if_neg hdecimal] at h ⊢
  dsimp only at h ⊢
  by_cases hletter : chr 'a' ≤ ch ||| 0x20 ∧ ch ||| 0x20 ≤ chr 'f'
  · rw [if_pos hletter] at h ⊢
    cases h
    rfl
  · rw [if_neg hletter] at h
    cases h

theorem not_digit_of_none (h : hexDigit? ch = none) :
    ¬ (chr '0' ≤ ch ∧ ch ≤ chr '9') ∧ ¬ (chr 'a' ≤ ch ||| 0x20 ∧ ch ||| 0x20 ≤ chr 'f') := by
  rw [hexDigit?] at h
  by_cases hdecimal : chr '0' ≤ ch ∧ ch ≤ chr '9'
  · rw [if_pos hdecimal] at h
    cases h
  rw [if_neg hdecimal] at h
  dsimp only at h
  by_cases hletter : chr 'a' ≤ ch ||| 0x20 ∧ ch ||| 0x20 ≤ chr 'f'
  · rw [if_pos hletter] at h
    cases h
  · exact ⟨hdecimal, hletter⟩

theorem unescape_quoted_none (h : hexDigit? ch = none) :
    type.unescape .quoted (ch :: src) = unescape.writes [ch] (type.unescape .usual src) := by
  obtain ⟨hdecimal, hletter⟩ := not_digit_of_none h
  rw [unescape, if_neg hdecimal]
  exact if_neg hletter

theorem unescape_second_none (h : hexDigit? ch = none) :
    type.unescape (.quotedSecond first decoded) (ch :: src) = type.unescape .usual src := by
  obtain ⟨hdecimal, hletter⟩ := not_digit_of_none h
  rw [unescape, if_neg hdecimal]
  exact if_neg hletter

theorem unescape_second_plain (h : hexDigit? ch = some digit) :
    unescape ⟨false, false⟩ (.quotedSecond first decoded) (ch :: src) =
      unescape.writes [UInt8.ofNat (decoded * 16 + digit)]
        (unescape ⟨false, false⟩ .usual src) := by
  rw [hexDigit?] at h
  rw [unescape]
  by_cases hdecimal : chr '0' ≤ ch ∧ ch ≤ chr '9'
  · rw [if_pos hdecimal] at h ⊢
    cases h
    rw [← decimal_second]
    rfl
  rw [if_neg hdecimal] at h ⊢
  dsimp only at h ⊢
  by_cases hletter : chr 'a' ≤ ch ||| 0x20 ∧ ch ||| 0x20 ≤ chr 'f'
  · rw [if_pos hletter] at h ⊢
    cases h
    rw [← letter_second]
    rfl
  · rw [if_neg hletter] at h
    cases h

theorem unescape_plain (state : UnescapeState) (src : Bytes) :
    unescape ⟨false, false⟩ state src = (unescapePlainFrom state src, []) := by
  fun_induction unescapePlainFrom state src with
  | case1 state => rw [unescape]
  | case2 src ih =>
    rw [unescape, if_neg (by decide), if_pos rfl, ih]
  | case3 ch src hne ih =>
    rw [unescape, if_neg (fun h => h.2.elim nofun nofun), if_neg hne, ih]
    rfl
  | case4 ch src decoded hdigit ih => rw [unescape_quoted_some hdigit, ih]
  | case5 ch src hdigit ih =>
    rw [unescape_quoted_none hdigit, ih]
    rfl
  | case6 first decoded ch src digit hdigit ih =>
    rw [unescape_second_plain hdigit, ih]
    rfl
  | case7 first decoded ch src hdigit ih => rw [unescape_second_none hdigit, ih]

end UnescapeType

/-! ## There and back -/

/-- Escaping takes the room that was counted and puts in the percent signs alone, and
reading it gives the text back; reading anything never takes more room than it is long. -/
theorem escapeUri_round_trip :
    (∀ type : EscapeType, type ≠ .refresh → ∀ s : Bytes,
      (type.escape s).length = s.length + 2 * type.count s ∧
      (∀ x ∈ type.escape s, type.marks x = true → x = chr '%') ∧
        (type.escape s).count (chr '%') = type.count s ∧
      UnescapeType.unescape ⟨false, false⟩ .usual (type.escape s) = (s, [])) ∧
    ∀ (type : UnescapeType) (src : Bytes), (type.unescape .usual src).2 <:+ src ∧
      (type.unescape .usual src).1.length ≤ src.length - (type.unescape .usual src).2.length := by
  constructor
  · intro type htype s
    refine ⟨type.length_escape s, fun x hx =>
      EscapeType.marks_escape hx, EscapeType.count_percent htype s, ?_⟩
    rw [UnescapeType.unescape_plain]
    exact congrArg (·, []) (EscapeType.unescapePlain_escape htype s)
  · intro type src
    have hlength := type.length_unescape .usual src
    simp only [UnescapeState.pending, zero_add] at hlength
    exact ⟨type.unescape_suffix .usual src, Nat.le_sub_of_add_le hlength⟩

theorem escapeUri_round_trip_space :
    UnescapeType.unescape ⟨false, false⟩ .usual (EscapeType.uri.escape (ascii "a b")) =
      (ascii "a b", []) :=
  (escapeUri_round_trip.1 .uri (by decide) (ascii "a b")).2.2.2

end Nginx.Core
