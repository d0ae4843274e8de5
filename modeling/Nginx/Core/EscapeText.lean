/-
  Core/EscapeText.lean --- quoting of text for HTML and for JSON strings
  (`ngx_escape_html` and `ngx_escape_json` in `src/core/ngx_string.c`).

  Either function counts when `dst` is `NULL`, and writes when it is not.  What its
  output is for is said by a reader: of the four entities, and of the body of a JSON
  string.
-/
import Mathlib.Algebra.BigOperators.Group.List.Basic
import Nginx.Core.Utf8Decode
import Nginx.Http.Parse.Char

set_option autoImplicit false

namespace Nginx.Core

open List Foundation Http.Parse Option

/-! ## `ngx_escape_html` -/

/-- What is added to `len` for a byte: `sizeof("&lt;") - 2` and so on. -/
def htmlExtra (ch : Byte) : Nat :=
  if ch = chr '<' then 3
  else if ch = chr '>' then 3
  else if ch = chr '&' then 4
  else if ch = chr '"' then 5
  else 0

/-- `ngx_escape_html(NULL, src, size)` -/
def countHtml (src : Bytes) : Nat := (src.map htmlExtra).sum

/-- What a byte becomes. -/
def escapeHtmlByte (ch : Byte) : Bytes :=
  if ch = chr '<' then ascii "&lt;"
  else if ch = chr '>' then ascii "&gt;"
  else if ch = chr '&' then ascii "&amp;"
  else if ch = chr '"' then ascii "&quot;"
  else [ch]

/-- What `ngx_escape_html(dst, src, size)` writes at `dst`. -/
def escapeHtml (src : Bytes) : Bytes := src.flatMap escapeHtmlByte

/-- The four entities are replaced. -/
def readHtml : Bytes → Bytes
  | 0x26 :: 0x6c :: 0x74 :: 0x3b :: rest => chr '<' :: readHtml rest
  | 0x26 :: 0x67 :: 0x74 :: 0x3b :: rest => chr '>' :: readHtml rest
  | 0x26 :: 0x61 :: 0x6d :: 0x70 :: 0x3b :: rest => chr '&' :: readHtml rest
  | 0x26 :: 0x71 :: 0x75 :: 0x6f :: 0x74 :: 0x3b :: rest => chr '"' :: readHtml rest
  | ch :: rest => ch :: readHtml rest
  | [] => []

theorem length_escapeHtmlByte (ch : Byte) : (escapeHtmlByte ch).length = 1 + htmlExtra ch := by
  rw [escapeHtmlByte, htmlExtra]
  repeat' split
  all_goals rfl

theorem length_flatMap_eq {f : Byte → Bytes} {extra : Byte → Nat}
    (h : ∀ ch, (f ch).length = 1 + extra ch) (src : Bytes) :
    (src.flatMap f).length = src.length + (src.map extra).sum := by
  induction src with
  | nil => rfl
  | cons ch src ih =>
    rw [flatMap_cons, length_append, h, ih, map_cons, sum_cons, length_cons]
    omega

theorem length_escapeHtml (src : Bytes) : (escapeHtml src).length = src.length + countHtml src :=
  length_flatMap_eq length_escapeHtmlByte src

theorem forall_of_all {P : Byte → Prop} [DecidablePred P] {text : Bytes}
    (h : text.all (fun ch => decide (P ch)) = true) :
    ∀ ch ∈ text, P ch := fun ch hch => of_decide_eq_true (all_eq_true.mp h ch hch)

theorem not_mem_escapeHtmlByte (ch : Byte) :
    ∀ x ∈ escapeHtmlByte ch, x ≠ chr '<' ∧ x ≠ chr '>' ∧ x ≠ chr '"' := by
  rw [escapeHtmlByte]
  repeat' split
  · exact forall_of_all (by decide)
  · exact forall_of_all (by decide)
  · exact forall_of_all (by decide)
  · exact forall_of_all (by decide)
  · next hlt hgt _ hquote => exact forall_mem_singleton.mpr ⟨hlt, hgt, hquote⟩

theorem not_mem_escapeHtml {src : Bytes} {x : Byte} (h : x ∈ escapeHtml src) :
    x ≠ chr '<' ∧ x ≠ chr '>' ∧ x ≠ chr '"' := by
  obtain ⟨ch, -, hx⟩ := mem_flatMap.mp h
  exact not_mem_escapeHtmlByte ch x hx

theorem readHtml_cons {ch : Byte} (h : ch ≠ chr '&') (rest : Bytes) :
    readHtml (ch :: rest) = ch :: readHtml rest := by
  rw [readHtml]
  all_goals exact fun _ hch _ => h hch

theorem readHtml_escapeHtmlByte (ch : Byte) (rest : Bytes) :
    readHtml (escapeHtmlByte ch ++ rest) = ch :: readHtml rest := by
  rw [escapeHtmlByte]
  repeat' split
  · next h => exact h ▸ rfl
  · next h => exact h ▸ rfl
  · next h => exact h ▸ rfl
  · next h => exact h ▸ rfl
  · next hamp _ => exact readHtml_cons hamp rest

theorem readHtml_escapeHtml (src : Bytes) : readHtml (escapeHtml src) = src := by
  induction src with
  | nil => rfl
  | cons ch src ih =>
    have hcons : escapeHtml (ch :: src) = escapeHtmlByte ch ++ escapeHtml src := flatMap_cons
    rw [hcons, readHtml_escapeHtmlByte, ih]

/-! ## `ngx_escape_json` -/

/-- `'\n'`, `'\r'`, `'\t'`, `'\b'` and `'\f'` with what stands for them. -/
def jsonShort? (ch : Byte) : Option Byte :=
  if ch = 0x0a then some (chr 'n')
  else if ch = 0x0d then some (chr 'r')
  else if ch = 0x09 then some (chr 't')
  else if ch = 0x08 then some (chr 'b')
  else if ch = 0x0c then some (chr 'f')
  else none

/-- What is added to `len` for a byte. -/
def jsonExtra (ch : Byte) : Nat :=
  if ch = chr '\\' ∨ ch = chr '"' then 1
  else if ch ≤ 0x1f then if (jsonShort? ch).isSome then 1 else 5
  else 0

/-- `ngx_escape_json(NULL, src, size)` -/
def countJson (src : Bytes) : Nat := (src.map jsonExtra).sum

/-- `(ch < 10) ? ('0' + ch) : ('A' + ch - 10)` -/
def jsonDigit (ch : Byte) : Byte := if ch < 10 then chr '0' + ch else chr 'A' + ch - 10

/-- What a byte becomes. -/
def escapeJsonByte (ch : Byte) : Bytes :=
  if 0x1f < ch then
    if ch = chr '\\' ∨ ch = chr '"' then [chr '\\', ch] else [ch]
  else
    match jsonShort? ch with
    | some short => [chr '\\', short]
    | none => [chr '\\', chr 'u', chr '0', chr '0', chr '0' + ch >>> 4, jsonDigit (ch &&& 0xf)]

/-- What `ngx_escape_json(dst, src, size)` writes at `dst`. -/
def escapeJson (src : Bytes) : Bytes := src.flatMap escapeJsonByte

set_option maxRecDepth 8000 in
theorem length_escapeJsonByte (ch : Byte) : (escapeJsonByte ch).length = 1 + jsonExtra ch := by
  revert ch
  apply forall_byte
  decide

theorem length_escapeJson (src : Bytes) : (escapeJson src).length = src.length + countJson src :=
  length_flatMap_eq length_escapeJsonByte src

/-! ### The reader -/

/-- A byte of the body of a string, or a `\u` escape. -/
inductive JsonItem where
  | byte (b : Byte)
  | unit (code : Nat)
  deriving DecidableEq

/-- The byte that a short escape stands for. -/
def jsonEscaped? (ch : Byte) : Option Byte :=
  if ch = chr '"' ∨ ch = chr '\\' ∨ ch = chr '/' then some ch
  else if ch = chr 'b' then some 0x08
  else if ch = chr 'f' then some 0x0c
  else if ch = chr 'n' then some 0x0a
  else if ch = chr 'r' then some 0x0d
  else if ch = chr 't' then some 0x09
  else none

/-- The items of the body of a string literal. -/
def jsonItems : Bytes → Option (List JsonItem)
  | [] => some []
  | ch :: rest =>
    if ch = chr '\\' then
      match rest with
      | [] => none
      | c :: rest =>
        if c = chr 'u' then
          match rest with
          | a :: b :: c :: d :: rest => do
            let a ← hexDigit? a
            let b ← hexDigit? b
            let c ← hexDigit? c
            let d ← hexDigit? d
            let items ← jsonItems rest
            some (.unit (a * 4096 + b * 256 + c * 16 + d) :: items)
          | _ => none
        else do
          let b ← jsonEscaped? c
          let items ← jsonItems rest
          some (.byte b :: items)
    else if ch < 0x20 ∨ ch = chr '"' then none
    else do
      let items ← jsonItems rest
      some (.byte ch :: items)

/-- The text of the items; two units may be the halves of one code point. -/
def jsonText : List JsonItem → Option Bytes
  | [] => some []
  | .byte b :: items => (jsonText items).map (b :: ·)
  | .unit high :: .unit low :: items =>
    if 0xd800 ≤ high ∧ high < 0xdc00 then
      if 0xdc00 ≤ low ∧ low < 0xe000 then
        (jsonText items).map (utf8Bytes (0x10000 + (high - 0xd800) * 1024 + (low - 0xdc00)) ++ ·)
      else none
    else if 0xdc00 ≤ high ∧ high < 0xe000 then none
    else (jsonText (.unit low :: items)).map (utf8Bytes high ++ ·)
  | .unit code :: items =>
    if 0xd800 ≤ code ∧ code < 0xe000 then none else (jsonText items).map (utf8Bytes code ++ ·)

/-- The text that the body of a string literal stands for. -/
def readJson (body : Bytes) : Option Bytes := jsonItems body >>= jsonText

/-- A quote that no backslash escapes: it would end the literal. -/
def BareQuote : Bytes → Prop
  | [] => False
  | [ch] => ch = chr '"'
  | ch :: next :: rest =>
    if ch = chr '\\' then BareQuote rest else ch = chr '"' ∨ BareQuote (next :: rest)

/-! ### There and back -/

/-- What a byte becomes, and what it is read as then. -/
inductive JsonEscaped (ch : Byte) : Bytes → JsonItem → Prop where
  | plain (hlow : 0x20 ≤ ch) (hslash : ch ≠ chr '\\')
    (hquote : ch ≠ chr '"') : JsonEscaped ch [ch] (.byte ch)
  | short {c : Byte} (hunit : c ≠ chr 'u')
    (hc : jsonEscaped? c = some ch) : JsonEscaped ch [chr '\\', c] (.byte ch)
  | unit {a b : Byte} (ha : hexDigit? a = some (ch.toNat / 16))
    (hb : hexDigit? b = some (ch.toNat % 16))
      (hcontrol : ch.toNat < 0x20) : JsonEscaped ch [chr '\\', chr 'u', chr '0', chr '0', a, b]
        (.unit ch.toNat)

set_option maxRecDepth 8000 in
theorem hexDigit?_control {ch : Byte} (h : ¬ 0x1f < ch) :
    hexDigit? (chr '0' + ch >>> 4) = some (ch.toNat / 16) ∧
      hexDigit? (jsonDigit (ch &&& 0xf)) = some (ch.toNat % 16) := by
  revert h
  revert ch
  apply forall_byte
  decide

theorem jsonEscaped?_short {ch short : Byte} (h : jsonShort? ch = some short) :
    short ≠ chr 'u' ∧ jsonEscaped? short = some ch := by
  rw [jsonShort?] at h
  split at h
  · next hch =>
    cases h
    exact ⟨by decide, hch ▸ rfl⟩
  split at h
  · next hch =>
    cases h
    exact ⟨by decide, hch ▸ rfl⟩
  split at h
  · next hch =>
    cases h
    exact ⟨by decide, hch ▸ rfl⟩
  split at h
  · next hch =>
    cases h
    exact ⟨by decide, hch ▸ rfl⟩
  split at h
  · next hch =>
    cases h
    exact ⟨by decide, hch ▸ rfl⟩
  · cases h

theorem exists_jsonEscaped (ch : Byte) : ∃ item, JsonEscaped ch (escapeJsonByte ch) item := by
  rw [escapeJsonByte]
  by_cases h : 0x1f < ch
  · have hlow : 0x20 ≤ ch := UInt8.le_iff_toNat_le.mpr (UInt8.lt_iff_toNat_lt.mp h)
    rw [if_pos h]
    by_cases hspecial : ch = chr '\\' ∨ ch = chr '"'
    · rw [if_pos hspecial]
      rcases hspecial with rfl | rfl
      · exact ⟨_, .short (by decide) rfl⟩
      · exact ⟨_, .short (by decide) rfl⟩
    · obtain ⟨hslash, hquote⟩ := not_or.mp hspecial
      rw [if_neg hspecial]
      exact ⟨_, .plain hlow hslash hquote⟩
  · rw [if_neg h]
    cases hshort : jsonShort? ch with
    | none =>
      obtain ⟨hhigh, hdigit⟩ := hexDigit?_control h
      have hcontrol : ch.toNat < 0x20 :=
        Nat.lt_succ_of_le (not_lt.mp fun hlt => h (UInt8.lt_iff_toNat_lt.mpr hlt))
      exact ⟨_, .unit hhigh hdigit hcontrol⟩
    | some short =>
      obtain ⟨hunit, hc⟩ := jsonEscaped?_short hshort
      exact ⟨_, .short hunit hc⟩

theorem jsonText_unit {code : Nat} (h : code < 0x80) (items : List JsonItem) :
    jsonText (.unit code :: items) = (jsonText items).map (UInt8.ofNat code :: ·) := by
  have hhigh : ¬ (0xd800 ≤ code ∧ code < 0xdc00) := fun hc => by omega
  have hlow : ¬ (0xdc00 ≤ code ∧ code < 0xe000) := fun hc => by omega
  have hneither : ¬ (0xd800 ≤ code ∧ code < 0xe000) := fun hc => by omega
  have hbytes : utf8Bytes code = [UInt8.ofNat code] := if_pos h
  cases items with
  | nil =>
    change (if 0xd800 ≤ code ∧
      code < 0xe000 then none else (jsonText []).map (utf8Bytes code ++ ·)) = _
    rw [if_neg hneither, hbytes]
    rfl
  | cons item items =>
    cases item with
    | byte b =>
      change (if 0xd800 ≤ code ∧
        code < 0xe000 then none else (jsonText (.byte b :: items)).map (utf8Bytes code ++ ·)) = _
      rw [if_neg hneither, hbytes]
      rfl
    | unit low =>
      rw [jsonText, if_neg hhigh, if_neg hlow, hbytes]
      rfl

variable {ch : Byte} {piece : Bytes} {item : JsonItem}

theorem JsonEscaped.read (h : JsonEscaped ch piece item) (rest : Bytes) :
    readJson (piece ++ rest) = (readJson rest).map (ch :: ·) := by
  rw [readJson, readJson]
  cases h with
  | plain hlow hslash hquote =>
    have hlt : ¬ ch < 0x20 := fun hlt =>
      absurd (UInt8.lt_iff_toNat_lt.mp hlt) (not_lt.mpr (UInt8.le_iff_toNat_le.mp hlow))
    have hitems : jsonItems ([ch] ++ rest) = (jsonItems rest).map (.byte ch :: ·) := by
      rw [singleton_append, jsonItems.eq_def]
      simp only [if_neg hslash, if_neg (not_or.mpr ⟨hlt, hquote⟩), bind_eq_bind]
      cases jsonItems rest <;> rfl
    rw [hitems]
    cases jsonItems rest <;> rfl
  | @short c hunit hc =>
    have hitems : jsonItems ([chr '\\', c] ++ rest) = (jsonItems rest).map (.byte ch :: ·) := by
      rw [cons_append, singleton_append, jsonItems.eq_def]
      simp only [if_true, if_neg hunit, hc, bind_eq_bind, bind_some]
      cases jsonItems rest <;> rfl
    rw [hitems]
    cases jsonItems rest <;> rfl
  | @unit a b ha hb hcontrol =>
    have hzero : hexDigit? (chr '0') = some 0 := rfl
    have hcode : 0 * 4096 + 0 * 256 + ch.toNat / 16 * 16 + ch.toNat % 16 = ch.toNat := by omega
    have hitems : jsonItems ([chr '\\', chr 'u', chr '0', chr '0', a, b] ++ rest) =
        (jsonItems rest).map (.unit ch.toNat :: ·) := by
      rw [cons_append, jsonItems.eq_def]
      simp only [cons_append, nil_append, if_true, hzero, ha, hb, bind_eq_bind, bind_some, hcode]
      cases jsonItems rest <;> rfl
    rw [hitems]
    cases jsonItems rest with
    | none => rfl
    | some items =>
      have htext := jsonText_unit (lt_trans hcontrol (by decide)) items
      rw [UInt8.ofNat_toNat] at htext
      exact htext

theorem readJson_escapeJson (src : Bytes) : readJson (escapeJson src) = some src := by
  induction src with
  | nil => rfl
  | cons ch src ih =>
    have hcons : escapeJson (ch :: src) = escapeJsonByte ch ++ escapeJson src := flatMap_cons
    obtain ⟨item, hpiece⟩ := exists_jsonEscaped ch
    rw [hcons, hpiece.read, ih]
    rfl

theorem bareQuote_cons (hslash : ch ≠ chr '\\') (hquote : ch ≠ chr '"') (rest : Bytes) :
    BareQuote (ch :: rest) ↔ BareQuote rest := by
  cases rest with
  | nil => exact iff_of_false hquote id
  | cons next rest => rw [BareQuote, if_neg hslash, or_iff_right hquote]

set_option maxRecDepth 8000 in
theorem hexDigit?_ne {x : Byte} {v : Nat} (h : hexDigit? x = some v) :
    x ≠ chr '\\' ∧ x ≠ chr '"' ∧ 0x20 ≤ x := by
  have hdigits : ∀ x : Byte, (hexDigit? x).isSome → x ≠ chr '\\' ∧ x ≠ chr '"' ∧ 0x20 ≤ x := by
    apply forall_byte
    decide
  exact hdigits x (isSome_iff_exists.mpr ⟨v, h⟩)

theorem JsonEscaped.bareQuote_iff (h : JsonEscaped ch piece item) (rest : Bytes) :
    BareQuote (piece ++ rest) ↔ BareQuote rest := by
  cases h with
  | plain hlow hslash hquote => exact bareQuote_cons hslash hquote rest
  | short hunit hc =>
    rw [cons_append, singleton_append, BareQuote, if_pos rfl]
  | unit ha hb hcontrol =>
    obtain ⟨haslash, haquote, -⟩ := hexDigit?_ne ha
    obtain ⟨hbslash, hbquote, -⟩ := hexDigit?_ne hb
    simp only [cons_append, nil_append]
    rw [BareQuote, if_pos rfl, bareQuote_cons (by decide) (by decide),
      bareQuote_cons (by decide) (by decide),
      bareQuote_cons haslash haquote, bareQuote_cons hbslash hbquote]

theorem not_bareQuote_escapeJson (src : Bytes) : ¬ BareQuote (escapeJson src) := by
  induction src with
  | nil => exact id
  | cons ch src ih =>
    have hcons : escapeJson (ch :: src) = escapeJsonByte ch ++ escapeJson src := flatMap_cons
    obtain ⟨item, hpiece⟩ := exists_jsonEscaped ch
    rwa [hcons, hpiece.bareQuote_iff]

theorem JsonEscaped.not_control (h : JsonEscaped ch piece item) : ∀ x ∈ piece, 0x20 ≤ x := by
  cases h with
  | plain hlow _ _ => exact forall_mem_singleton.mpr hlow
  | @short c hunit hc =>
    have hletter : 0x20 ≤ c := by
      revert hc
      rw [jsonEscaped?]
      repeat' split
      · next h => intro; rcases h with rfl | rfl | rfl <;> decide
      · next h => intro; exact h ▸ by decide
      · next h => intro; exact h ▸ by decide
      · next h => intro; exact h ▸ by decide
      · next h => intro; exact h ▸ by decide
      · next h => intro; exact h ▸ by decide
      · nofun
    exact forall_mem_cons.mpr ⟨by decide, forall_mem_singleton.mpr hletter⟩
  | unit ha hb _ =>
    intro x hx
    simp only [mem_cons, not_mem_nil, or_false] at hx
    rcases hx with rfl | rfl | rfl | rfl | rfl | rfl
    · decide
    · decide
    · decide
    · decide
    · exact (hexDigit?_ne ha).2.2
    · exact (hexDigit?_ne hb).2.2

theorem not_control_escapeJson {src : Bytes} {x : Byte} (h : x ∈ escapeJson src) : 0x20 ≤ x := by
  obtain ⟨ch, -, hx⟩ := mem_flatMap.mp h
  obtain ⟨item, hpiece⟩ := exists_jsonEscaped ch
  exact hpiece.not_control x hx

/-! ## Text in JSON and in HTML -/

/-- What is written is as long as was counted, nothing in it ends the literal or opens
a tag, and it reads as the text. -/
theorem escape_round_trip (src : Bytes) :
    ((escapeJson src).length = src.length + countJson src ∧ (∀ x ∈ escapeJson src, ¬ x < 0x20) ∧
      ¬ BareQuote (escapeJson src) ∧ readJson (escapeJson src) = some src) ∧
    (escapeHtml src).length = src.length + countHtml src ∧
      (∀ x ∈ escapeHtml src, x ≠ chr '<' ∧ x ≠ chr '>' ∧ x ≠ chr '"') ∧
        readHtml (escapeHtml src) = src :=
  ⟨⟨length_escapeJson src, fun _ hx =>
    UInt8.not_lt.mpr (not_control_escapeJson hx), not_bareQuote_escapeJson src,
      readJson_escapeJson src⟩,
    length_escapeHtml src, fun _ hx => not_mem_escapeHtml hx, readHtml_escapeHtml src⟩

example : escapeJson (ascii "a\"" ++ [0x0a, 0x1f]) = ascii "a\\\"\\n\\u001F" := by decide

end Nginx.Core
