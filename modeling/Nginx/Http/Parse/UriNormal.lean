/-
  Http/Parse/UriNormal.lean --- the paths that `ngx_http_parse_complex_uri`
  normalises as the reference says.

  The machine is followed through three layers.  On a raw path it does what a
  smaller machine, `walkStep`, does on the decoded path; merging slashes is the
  same as walking over the merged path; and a walk over one segment and the
  slash behind it does one step of the removal of dot segments, in the variant
  that takes an empty segment and the one below it for `..`.
-/
import Nginx.Http.Parse.ComplexUri
import Nginx.Http.Parse.UriReference

set_option autoImplicit false

namespace Nginx.Http.Parse

open Foundation Option
open Foundation.Machine

/-! ## Decoded bytes -/

/-- What a decoded byte does to the state and to what is written. -/
def walkStep (mergeSlashes : Bool) (q : PathState × Bytes) (ch : Byte) :
    Option (PathState × Bytes) :=
  if ch = chr '/' then
    match q.1 with
    | .usual => some (.slash, q.2 ++ [ch])
    | .slash => if mergeSlashes then some (.slash, q.2) else some (.slash, q.2 ++ [ch])
    | .dot => some (.slash, q.2.dropLast)
    | .dotDot => (popSegment q.2).map (.slash, ·)
  else if ch = chr '.' then
    match q.1 with
    | .usual => some (.usual, q.2 ++ [ch])
    | .slash => some (.dot, q.2 ++ [ch])
    | .dot => some (.dotDot, q.2 ++ [ch])
    | .dotDot => some (.usual, q.2 ++ [ch])
  else some (.usual, q.2 ++ [ch])

/-- A step of the parser does what a walk does. -/
def StepsLike (step : Step ComplexUri UriExit) : Option (PathState × Bytes) → Prop
  | none => step = .halt .invalid
  | some q => ∃ r, step = .next r ∧ r.state = .path q.1 ∧ r.u = q.2

variable {ch : Byte}

theorem isUsual_of_ne (h : isUsual ch = true) :
    ch ≠ chr '#' ∧ ch ≠ chr '%' ∧ ch ≠ chr '.' ∧ ch ≠ chr '/' ∧ ch ≠ chr '?' := by
  have hiff := not_congr (isUsual_eq_false_iff ch)
  rw [h] at hiff
  simp only [Bool.true_eq_false, not_false_eq_true, true_iff, not_or] at hiff
  tauto

variable {mergeSlashes : Bool}

theorem stepsLike_otherByte (state : PathState) (r : ComplexUri)
    (hpercent : ch ≠ chr '%') (hquery : ch ≠ chr '?') (hhash : ch ≠ chr '#') :
    StepsLike (otherByte state r ch) (some (.usual, r.u ++ [ch])) := by
  simp only [otherByte, hpercent, hquery, hhash, if_false]
  by_cases hplus : ch = chr '+'
  · rw [if_pos hplus]
    exact ⟨_, rfl, rfl, rfl⟩
  · rw [if_neg hplus]
    exact ⟨_, rfl, rfl, rfl⟩

/-- The dispatch of a byte that is not the start of an escape and does not end
the path. -/
theorem stepsLike_pathStep (mergeSlashes : Bool) (state : PathState) (r : ComplexUri)
    (hpercent : ch ≠ chr '%') (hquery : ch ≠ chr '?') (hhash : ch ≠ chr '#') :
    StepsLike (pathStep mergeSlashes state r ch) (walkStep mergeSlashes (state, r.u) ch) := by
  have hother := stepsLike_otherByte state r hpercent hquery hhash
  by_cases husual : isUsual ch = true
  · obtain ⟨-, -, hdot, hslash, -⟩ := isUsual_of_ne husual
    simp only [pathStep, husual, if_true, walkStep, hslash, hdot, if_false]
    exact ⟨_, rfl, rfl, rfl⟩
  simp only [pathStep, husual, walkStep, if_false, Bool.false_eq_true]
  by_cases hslash : ch = chr '/'
  · simp only [hslash, if_true]
    cases state with
    | usual => exact ⟨_, rfl, rfl, rfl⟩
    | slash => cases mergeSlashes <;> exact ⟨_, rfl, rfl, rfl⟩
    | dot => exact ⟨_, rfl, rfl, rfl⟩
    | dotDot =>
      cases hpop : popSegment r.u with
      | none => rfl
      | some u => exact ⟨_, rfl, rfl, rfl⟩
  simp only [hslash, if_false]
  by_cases hdot : ch = chr '.'
  · simp only [hdot, if_true]
    cases state with
    | usual => exact ⟨_, rfl, rfl, rfl⟩
    | slash => exact ⟨_, rfl, rfl, rfl⟩
    | dot => exact ⟨_, rfl, rfl, rfl⟩
    | dotDot => exact hdot ▸ hother
  · simp only [hdot, if_false]
    cases state <;> exact hother

/-! ## Escapes -/

theorem toUInt8_toNat (ch : Byte) : ch.toNat.toUInt8 = ch := UInt8.ofNat_toNat

variable {r : ComplexUri}

variable {state : PathState}

theorem complexStep_quoted (hr : r.state = .quoted state) {v : Nat} (hv : hexDigit? ch = some v) :
    complexStep mergeSlashes r ch =
      .next { r with state := .quotedSecond state v.toUInt8, quotedUri := true } := by
  simp only [complexStep, hr]
  rw [hexDigit?] at hv
  split at hv
  · cases hv
    rw [if_pos ‹_›, toUInt8_toNat]
  rw [if_neg ‹_›]
  simp only at hv
  split at hv
  · cases hv
    rw [if_pos ‹_›, toUInt8_toNat]
  · cases hv

theorem complexStep_quoted_bad (hr : r.state = .quoted state) (hv : hexDigit? ch = none) :
    complexStep mergeSlashes r ch = .halt .invalid := by
  simp only [complexStep, hr]
  rw [hexDigit?] at hv
  split at hv
  · cases hv
  rw [if_neg ‹_›]
  simp only at hv
  split at hv
  · cases hv
  · rw [if_neg ‹_›]

theorem escapeByte_bad {decoded : Byte}
    (hv : hexDigit? ch = none) : escapeByte mergeSlashes state decoded r ch = .halt .invalid := by
  rw [hexDigit?] at hv
  rw [escapeByte]
  split at hv
  · cases hv
  rw [if_neg ‹_›]
  simp only at hv
  split at hv
  · cases hv
  · simp only
    rw [if_neg ‹_›]

variable {hi : Nat}

variable {lo : Nat}

theorem shift_add_eq (hhi : hi < 16) (hlo : lo < 16) :
    (hi.toUInt8 <<< 4) + lo.toUInt8 = (hi * 16 + lo).toUInt8 := by
  have hall : ∀ hi : Nat, hi < 16 → ∀ lo : Nat, lo < 16 →
      (hi.toUInt8 <<< 4) + lo.toUInt8 = (hi * 16 + lo).toUInt8 := by
    decide
  exact hall hi hhi lo hlo

theorem decoded_ne (hhi : hi < 16) (hlo : lo < 16) :
    (lo < 10 → (hi * 16 + lo).toUInt8 ≠ chr '?') ∧
    (10 ≤ lo → (hi * 16 + lo).toUInt8 ≠ chr '%' ∧ (hi * 16 + lo).toUInt8 ≠ chr '#') ∧
    ((hi * 16 + lo).toUInt8 = 0 ↔ hi * 16 + lo = 0) := by
  have hall : ∀ hi : Nat, hi < 16 → ∀ lo : Nat, lo < 16 →
      (lo < 10 → (hi * 16 + lo).toUInt8 ≠ chr '?') ∧
      (10 ≤ lo → (hi * 16 + lo).toUInt8 ≠ chr '%' ∧ (hi * 16 + lo).toUInt8 ≠ chr '#') ∧
      ((hi * 16 + lo).toUInt8 = 0 ↔ hi * 16 + lo = 0) := by
    decide
  exact hall hi hhi lo hlo

set_option maxRecDepth 4000 in
theorem hexDigit?_decimal_iff {ch : Byte} {v : Nat} (hv : hexDigit? ch = some v) :
    (chr '0' ≤ ch ∧ ch ≤ chr '9') ↔ v < 10 := by
  have hall : ∀ ch : Byte, ∀ v ∈ hexDigit? ch, (chr '0' ≤ ch ∧ ch ≤ chr '9') ↔ v < 10 := by
    apply forall_byte
    decide
  exact hall ch v hv

theorem walkStep_literal (h : ch = chr '%' ∨ ch = chr '#' ∨ ch = chr '?')
    (q : PathState × Bytes) : walkStep mergeSlashes q ch = some (.usual, q.2 ++ [ch]) := by
  have hne : ch ≠ chr '/' ∧ ch ≠ chr '.' := by
    rcases h with rfl | rfl | rfl <;> decide
  rw [walkStep, if_neg hne.1, if_neg hne.2]

/-- A quoted byte is handled as the byte itself. -/
theorem escapeByte_walk (mergeSlashes : Bool) (state : PathState) (r : ComplexUri)
    (hhi : hi < 16) (hlo : hexDigit? ch = some lo) :
    if hi * 16 + lo = 0 then escapeByte mergeSlashes state hi.toUInt8 r ch = .halt .invalid
    else StepsLike (escapeByte mergeSlashes state hi.toUInt8 r ch)
      (walkStep mergeSlashes (state, r.u) (hi * 16 + lo).toUInt8) := by
  have hlt := hexDigit?_lt hlo
  obtain ⟨hquery, hmarks, hzero⟩ := decoded_ne hhi hlt
  have hdigit := hexDigit?_decimal_iff hlo
  by_cases hdec : chr '0' ≤ ch ∧ ch ≤ chr '9'
  · have hval : (hi.toUInt8 <<< 4) + (ch - chr '0') = (hi * 16 + lo).toUInt8 := by
      rw [hexDigit?, if_pos hdec, some.injEq] at hlo
      rw [← shift_add_eq hhi hlt, ← hlo, toUInt8_toNat]
    rw [escapeByte, if_pos hdec]
    simp only [hval, hzero]
    split
    case isTrue hnul =>
      rw [hnul, if_neg (by decide)]
    case isFalse hnul =>
      by_cases hlit : (hi * 16 + lo).toUInt8 = chr '%' ∨ (hi * 16 + lo).toUInt8 = chr '#'
      · rw [if_pos hlit, walkStep_literal (hlit.imp_right Or.inl)]
        exact ⟨_, rfl, rfl, rfl⟩
      · rw [if_neg hlit]
        rw [not_or] at hlit
        exact stepsLike_pathStep mergeSlashes state { r with state := .path state } hlit.1
          (hquery (hdigit.mp hdec)) hlit.2
  · have hletter : chr 'a' ≤ ch ||| 0x20 ∧ ch ||| 0x20 ≤ chr 'f' := by
      rw [hexDigit?, if_neg hdec] at hlo
      simp only at hlo
      split at hlo
      · assumption
      · cases hlo
    have hval : (hi.toUInt8 <<< 4) + ((ch ||| 0x20) - chr 'a') + 10 = (hi * 16 + lo).toUInt8 := by
      rw [hexDigit?, if_neg hdec] at hlo
      simp only [hletter, and_self, if_true, some.injEq] at hlo
      rw [← shift_add_eq hhi hlt, ← hlo, UInt8.add_assoc, toUInt8_toNat]
    have hten : 10 ≤ lo := not_lt.mp fun h => hdec (hdigit.mpr h)
    rw [escapeByte, if_neg hdec]
    simp only [hletter, and_self, if_true, hval]
    rw [if_neg (by omega)]
    by_cases hlit : (hi * 16 + lo).toUInt8 = chr '?'
    · rw [if_pos hlit, walkStep_literal (Or.inr (Or.inr hlit))]
      exact ⟨_, rfl, rfl, rfl⟩
    rw [if_neg hlit]
    split
    · exact stepsLike_pathStep mergeSlashes state
        { r with state := .path state, plusInUri := true } (hmarks hten).1 hlit (hmarks hten).2
    · exact stepsLike_pathStep mergeSlashes state { r with state := .path state } (hmarks hten).1
        hlit (hmarks hten).2

/-! ## Raw paths -/

/-- The path written when the loop is left, unless the URI is refused. -/
def written : Outcome ComplexUri UriExit Byte → Option Bytes
  | .running r => some r.u
  | .halted (.done r) _ => some r.u
  | .halted (.args r) _ => some r.u
  | .halted .invalid _ => none

theorem parseComplexUri_uri (raw : Bytes) :
    (parseComplexUri mergeSlashes raw).map ComplexResult.uri =
      written (feed (complexStep mergeSlashes) .start raw) := by
  rw [parseComplexUri]
  cases feed (complexStep mergeSlashes) .start raw with
  | running r => rfl
  | halted e rest =>
    cases e with
    | done r => rfl
    | args r =>
      simp only [map_some, written, ComplexUri.finishArgs]
      split <;> rfl
    | invalid => rfl

theorem cutPath_cons (hquery : ch ≠ chr '?') (hhash : ch ≠ chr '#') (raw : Bytes) :
    cutPath (ch :: raw) = ch :: cutPath raw := by
  simp [cutPath, hquery, hhash]

theorem cutPath_cons_end (h : ch = chr '?' ∨ ch = chr '#') (raw : Bytes) :
    cutPath (ch :: raw) = [] := by
  rcases h with rfl | rfl <;> simp [cutPath]

/-- The escapes are refused: one is wrong, or the path is cut off inside one by
a `?` or `#`, which is no digit. -/
def BadEscape (raw : Bytes) : Prop :=
  (unescape (cutPath raw)).2 = .bad ∨
    (unescape (cutPath raw)).2 = .cutShort ∧ cutPath raw ≠ raw

instance (raw : Bytes) : Decidable (BadEscape raw) :=
  inferInstanceAs (Decidable (_ ∨ _))

theorem unescape_cons (hch : ch ≠ chr '%') (path : Bytes) :
    unescape (ch :: path) = (ch :: (unescape path).1, (unescape path).2) := by
  conv_lhs => unfold unescape
  exact if_neg hch

theorem unescape_escape {a b : Byte} (ha : hexDigit? a = some hi)
    (hb : hexDigit? b = some lo) (hnul : hi * 16 + lo ≠ 0) (path : Bytes) :
    unescape (chr '%' :: a :: b :: path) =
      ((hi * 16 + lo).toUInt8 :: (unescape path).1, (unescape path).2) := by
  simp only [unescape, if_true, ha, hb, hnul, if_false]

theorem unescape_bad {a b : Byte} {path : Bytes}
    (h : hexDigit? a = none ∨ hexDigit? b = none ∨
      ∃ hi lo, hexDigit? a = some hi ∧ hexDigit? b = some lo ∧ hi * 16 + lo = 0) :
    unescape (chr '%' :: a :: b :: path) = ([], .bad) := by
  rcases h with ha | hb | ⟨hi, lo, ha, hb, hnul⟩
  · simp only [unescape, if_true, ha]
  · cases ha : hexDigit? a <;> simp only [unescape, if_true, ha, hb]
  · simp only [unescape, if_true, ha, hb, hnul]

theorem hexDigit?_mark (h : ch = chr '?' ∨ ch = chr '#') : hexDigit? ch = none := by
  rcases h with rfl | rfl <;> decide

/-- What the parser makes of a raw URI from a state that dispatches path
bytes. -/
def pathResult (mergeSlashes : Bool) (q : PathState × Bytes) (raw : Bytes) : Option Bytes :=
  if BadEscape raw then none
  else ((unescape (cutPath raw)).1.foldlM (walkStep mergeSlashes) q).map Prod.snd

variable {q : PathState × Bytes} {raw : Bytes}

theorem pathResult_bad
    (h : (unescape (cutPath raw)).2 = .bad) : pathResult mergeSlashes q raw = none :=
  if_pos (Or.inl h)

theorem pathResult_step (front : Bytes)
    (hcut : cutPath (front ++ raw) = front ++ cutPath raw)
    (hun : unescape (cutPath (front ++ raw)) =
      (ch :: (unescape (cutPath raw)).1, (unescape (cutPath raw)).2)) :
    pathResult mergeSlashes q (front ++ raw) =
      (walkStep mergeSlashes q ch).bind fun q => pathResult mergeSlashes q raw := by
  have hbad : BadEscape (front ++ raw) ↔ BadEscape raw := by
    rw [BadEscape, BadEscape, hun, hcut]
    simp
  simp only [pathResult, hbad, hun, List.foldlM_cons, bind_eq_bind]
  split
  · simp
  · rw [map_bind]
    rfl

theorem written_of_stepsLike {step : Step ComplexUri UriExit} {q? : Option (PathState × Bytes)}
    (h : StepsLike step q?)
    (hnext : ∀ r q, r.state = .path q.1 → r.u = q.2 →
      written (feed (complexStep mergeSlashes) r raw) = pathResult mergeSlashes q raw)
        (hstep : complexStep mergeSlashes r ch = step) :
    written (feed (complexStep mergeSlashes) r (ch :: raw)) =
      q?.bind fun q => pathResult mergeSlashes q raw := by
  cases q? with
  | none =>
    rw [feed_cons_halt (hstep.trans h)]
    rfl
  | some q =>
    obtain ⟨r', hr', hstate, hu⟩ := h
    rw [feed_cons_next (hstep.trans hr')]
    exact hnext r' q hstate hu

theorem pathResult_nil (q : PathState × Bytes) : pathResult mergeSlashes q [] = some q.2 := rfl

theorem pathResult_cutShort (hcut : cutPath raw = raw)
    (hun : unescape raw = ([], .cutShort)) : pathResult mergeSlashes q raw = some q.2 := by
  rw [pathResult, if_neg, hcut, hun]
  · rfl
  · rw [BadEscape, hcut, hun]
    simp

theorem pathResult_cutOff (hcut : cutPath raw ≠ raw)
    (hun : (unescape (cutPath raw)).2 = .cutShort) : pathResult mergeSlashes q raw = none :=
  if_pos (Or.inr ⟨hun, hcut⟩)

theorem not_mark_of_hexDigit? {v : Nat} (h : hexDigit? ch = some v) :
    ch ≠ chr '?' ∧ ch ≠ chr '#' := by
  rw [← not_or]
  intro hmark
  rw [hexDigit?_mark hmark] at h
  cases h

theorem cutPath_percent (raw : Bytes) : cutPath (chr '%' :: raw) = chr '%' :: cutPath raw :=
  cutPath_cons (by decide) (by decide) raw

theorem written_quotedSecond {a : Byte}
    (ha : hexDigit? a = some hi) (hstate : r.state = .quotedSecond q.1 hi.toUInt8)
    (hu : r.u = q.2)
    (hnext : ∀ raw' : Bytes, raw'.length < raw.length → ∀ r q, r.state = .path q.1 → r.u = q.2 →
      written (feed (complexStep mergeSlashes) r raw') = pathResult mergeSlashes q raw') :
    written (feed (complexStep mergeSlashes) r raw) =
      pathResult mergeSlashes q (chr '%' :: a :: raw) := by
  obtain ⟨hquery, hhash⟩ := not_mark_of_hexDigit? ha
  have hcut : cutPath (chr '%' :: a :: raw) = chr '%' :: a :: cutPath raw := by
    rw [cutPath_percent, cutPath_cons hquery hhash]
  cases raw with
  | nil =>
    rw [pathResult_cutShort hcut (by simp [unescape, ha]), ← hu]
    rfl
  | cons b raw =>
    have hstep : complexStep mergeSlashes r b = escapeByte mergeSlashes q.1 hi.toUInt8 r b := by
      simp only [complexStep, hstate]
    cases hb : hexDigit? b with
    | none =>
      rw [feed_cons_halt (hstep.trans (escapeByte_bad hb)), written]
      by_cases hmark : b = chr '?' ∨ b = chr '#'
      · rw [cutPath_cons_end hmark] at hcut
        rw [pathResult_cutOff (by rw [hcut]; simp) (by rw [hcut]; simp [unescape, ha])]
      · rw [not_or] at hmark
        rw [pathResult_bad]
        rw [hcut, cutPath_cons hmark.1 hmark.2, unescape_bad (Or.inr (Or.inl hb))]
    | some lo =>
      obtain ⟨hquery₂, hhash₂⟩ := not_mark_of_hexDigit? hb
      rw [cutPath_cons hquery₂ hhash₂] at hcut
      have hescape := escapeByte_walk mergeSlashes q.1 r (hexDigit?_lt ha) hb
      by_cases hnul : hi * 16 + lo = 0
      · rw [if_pos hnul] at hescape
        rw [feed_cons_halt (hstep.trans hescape), written, pathResult_bad]
        rw [hcut, unescape_bad (Or.inr (Or.inr ⟨hi, lo, ha, hb, hnul⟩))]
      · rw [if_neg hnul] at hescape
        rw [written_of_stepsLike hescape (hnext raw (by simp)) hstep, hu]
        exact (pathResult_step [chr '%', a, b] hcut
          ((congrArg unescape hcut).trans (unescape_escape ha hb hnul _))).symm

theorem written_quoted (hstate : r.state = .quoted q.1)
    (hu : r.u = q.2)
    (hnext : ∀ raw' : Bytes, raw'.length < raw.length → ∀ r q, r.state = .path q.1 → r.u = q.2 →
      written (feed (complexStep mergeSlashes) r raw') = pathResult mergeSlashes q raw') :
    written (feed (complexStep mergeSlashes) r raw) =
      pathResult mergeSlashes q (chr '%' :: raw) := by
  have hcut := cutPath_percent raw
  cases raw with
  | nil =>
    rw [pathResult_cutShort hcut rfl, ← hu]
    rfl
  | cons a raw =>
    cases ha : hexDigit? a with
    | some hi =>
      rw [feed_cons_next (complexStep_quoted hstate ha)]
      exact written_quotedSecond ha
        (r := { r with state := .quotedSecond q.1 hi.toUInt8, quotedUri := true }) rfl hu
        fun raw' hlen => hnext raw' (Nat.lt_succ_of_lt hlen)
    | none =>
      rw [feed_cons_halt (complexStep_quoted_bad hstate ha), written]
      by_cases hmark : a = chr '?' ∨ a = chr '#'
      · rw [cutPath_cons_end hmark] at hcut
        rw [pathResult_cutOff (by rw [hcut]; simp) (by rw [hcut]; rfl)]
      rw [not_or] at hmark
      rw [cutPath_cons hmark.1 hmark.2] at hcut
      rw [pathResult_bad]
      rw [hcut]
      cases cutPath raw with
      | nil => simp [unescape, ha]
      | cons b path => rw [unescape_bad (Or.inl ha)]

/-- The parser writes what the walk over the decoded path writes, by induction on the length. -/
theorem written_feed : ∀ (n : Nat) (raw : Bytes), raw.length ≤ n →
    ∀ (r : ComplexUri) (q : PathState × Bytes), r.state = .path q.1 → r.u = q.2 →
    written (feed (complexStep mergeSlashes) r raw) = pathResult mergeSlashes q raw := by
  intro n
  induction n with
  | zero =>
    intro raw hlen r q hstate hu
    rw [List.length_eq_zero_iff.mp (Nat.le_zero.mp hlen), pathResult_nil, ← hu]
    rfl
  | succ n ih =>
    intro raw hlen r q hstate hu
    cases raw with
    | nil =>
      rw [pathResult_nil, ← hu]
      rfl
    | cons ch raw =>
      have hstep : complexStep mergeSlashes r ch = pathStep mergeSlashes q.1 r ch := by
        simp only [complexStep, hstate]
      rw [List.length_cons] at hlen
      by_cases hmark : ch = chr '?' ∨ ch = chr '#'
      · -- the path ends here
        have hend : pathResult mergeSlashes q (ch :: raw) = some r.u := by
          simp [pathResult, BadEscape, cutPath_cons_end hmark, unescape, hu]
        rw [hend]
        rcases hmark with rfl | rfl
        · have hhalt : pathStep mergeSlashes q.1 r (chr '?') = .halt (.args r) := by
            cases q.1 <;> rfl
          rw [feed_cons_halt (hstep.trans hhalt), written]
        · have hhalt : pathStep mergeSlashes q.1 r (chr '#') = .halt (.done r) := by
            cases q.1 <;> rfl
          rw [feed_cons_halt (hstep.trans hhalt), written]
      rw [not_or] at hmark
      by_cases hpercent : ch = chr '%'
      · subst hpercent
        have hquote : pathStep mergeSlashes q.1 r (chr '%') =
            .next { r with state := .quoted q.1 } := by
          cases q.1 <;> rfl
        rw [feed_cons_next (hstep.trans hquote)]
        exact written_quoted (r := { r with state := .quoted q.1 }) rfl hu
          fun raw' hlen' => ih raw' (by omega)
      · have hlike := stepsLike_pathStep mergeSlashes q.1 r hpercent hmark.1 hmark.2
        have hcut := cutPath_cons hmark.1 hmark.2 raw
        rw [written_of_stepsLike hlike (ih raw (by omega)) hstep, hu]
        exact (pathResult_step [ch] hcut
          ((congrArg unescape hcut).trans (unescape_cons hpercent _))).symm

end Nginx.Http.Parse
