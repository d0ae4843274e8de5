/-
  Http/RangeSet.lean --- the grammar of byte ranges, and what the ranges of a
  header ask for.  `ngx_http_range_parse` stores those that can be satisfied.

  The grammar is a relation between texts and lists of ranges; it knows nothing
  of the parser.  The reading of one range is sound and complete for it, and the
  loop follows the list.
-/
import Mathlib.Data.List.TakeWhile
import Nginx.Http.RangeBody
import Nginx.Http.Slice.Filter

set_option autoImplicit false

namespace Nginx.Http

open List Foundation Option
open Http.Parse (isDigit)

/-! ## The grammar -/

/-- The value of decimal digits. -/
def decimal (digits : Bytes) : Nat := digits.foldl (fun n ch => 10 * n + digitValue ch) 0

/-- A number that `off_t` has. -/
structure Number (digits : Bytes) : Prop where
  ne_nil : digits ≠ []
  digit : ∀ ch ∈ digits, isDigit ch = true
  le : (decimal digits : Int) ≤ maxOffT

/-- `first-last`, `first-` or `-length`. -/
inductive ByteRange where
  | closed (first last : Nat)
  | openEnd (first : Nat)
  | suffix (length : Nat)
  deriving DecidableEq

/-- Any number of spaces. -/
def Spaces (text : Bytes) : Prop := ∀ ch ∈ text, ch = chr ' '

/-- The text of one range. -/
inductive Element : Bytes → ByteRange → Prop where
  | closed {before after space a b trail : Bytes} (hbefore : Spaces before) (ha : Number a)
      (hafter : Spaces after) (hspace : Spaces space) (hb : Number b) (htrail : Spaces trail) :
      Element (before ++ a ++ after ++ [chr '-'] ++ space ++ b ++ trail)
        (.closed (decimal a) (decimal b))
  | openEnd {before after trail a : Bytes} (hbefore : Spaces before) (ha : Number a)
      (hafter : Spaces after) (htrail : Spaces trail) :
      Element (before ++ a ++ after ++ [chr '-'] ++ trail) (.openEnd (decimal a))
  | suffix {before a trail : Bytes} (hbefore : Spaces before) (ha : Number a)
    (htrail : Spaces trail) :
      Element (before ++ [chr '-'] ++ a ++ trail) (.suffix (decimal a))

/-- Ranges with commas between them, up to the end of the text. -/
inductive Elements : Bytes → List ByteRange → Prop where
  | last {text : Bytes} {range : ByteRange} (h : Element text range) : Elements text [range]
  | cons {text more : Bytes} {range : ByteRange} {ranges : List ByteRange} (h : Element text range)
      (hmore : Elements more ranges) : Elements (text ++ chr ',' :: more) (range :: ranges)

/-- Ranges at the beginning of the text, the last one followed by a comma or by the end. -/
inductive Leading : Bytes → List ByteRange → Prop where
  | last {text : Bytes} {range : ByteRange} (h : Element text range) : Leading text [range]
  | comma {text more : Bytes} {range : ByteRange} (h : Element text range) :
      Leading (text ++ chr ',' :: more) [range]
  | cons {text more : Bytes} {range : ByteRange} {ranges : List ByteRange} (h : Element text range)
      (hmore : Leading more ranges) : Leading (text ++ chr ',' :: more) (range :: ranges)

/-! ## What a range asks for -/

/-- The bytes of a body of `length` bytes that a range selects, if there are any. -/
def ByteRange.select (length : Nat) : ByteRange → Option HttpRange
  | closed first last =>
    if first < length ∧ first ≤ last then some ⟨first, min (last + 1) length⟩ else none
  | openEnd first => if first < length then some ⟨first, length⟩ else none
  | suffix n => if 0 < n ∧ 0 < length then some ⟨length - min n length, length⟩ else none

/-- The ranges that can be satisfied, in their order. -/
def satisfiable (length : Nat) (ranges : List ByteRange) : List HttpRange :=
  ranges.filterMap (ByteRange.select length)

/-- The number of bytes of ranges. -/
def rangesSize (ranges : List HttpRange) : Int := (ranges.map fun r => r.stop - r.start).sum

/-- The range begins with the first byte of an empty body. -/
def ByteRange.AtZero (length : Nat) : ByteRange → Prop
  | closed first _ => length = 0 ∧ first = 0
  | openEnd first => length = 0 ∧ first = 0
  | suffix _ => length = 0

/-! ## Reading a number -/

theorem offT_eq {n : Int} (hlow : -maxOffT - 1 ≤ n) (hhigh : n ≤ maxOffT) : offT n = some n :=
  if_pos ⟨hlow, hhigh⟩

set_option maxRecDepth 2000 in
theorem digitValue_le {ch : Byte} (h : isDigit ch = true) : digitValue ch ≤ 9 := by
  revert ch
  apply forall_byte
  decide

theorem not_isDigit_space : isDigit (chr ' ') = false := by decide

theorem not_isDigit_dash : isDigit (chr '-') = false := by decide

theorem not_isDigit_comma : isDigit (chr ',') = false := by decide

/-- The number that is read from `n` on. -/
def decimalFrom (n : Nat) (digits : Bytes) :
    Nat := digits.foldl (fun n ch => 10 * n + digitValue ch) n

theorem le_decimalFrom (n : Nat) (digits : Bytes) : n ≤ decimalFrom n digits := by
  induction digits generalizing n with
  | nil => exact le_rfl
  | cons ch digits ih =>
    have hle := ih (10 * n + digitValue ch)
    simp only [decimalFrom, foldl_cons] at hle ⊢
    omega

theorem readOffset_append {n : Nat} {digits rest : Bytes} (hn : (n : Int) ≤ maxOffT)
    (hdigits : ∀ ch ∈ digits, isDigit ch = true) (hrest : isDigit (peek rest) = false) :
    readOffset n (digits ++ rest) =
      if (decimalFrom n digits : Int) ≤ maxOffT then some (.ok (decimalFrom n digits, rest))
      else some (.error .notSatisfiable) := by
  have hmax : maxOffT = 9223372036854775807 := rfl
  induction digits generalizing n with
  | nil =>
    rw [nil_append, if_pos (show (decimalFrom n [] : Int) ≤ maxOffT from hn)]
    cases rest with
    | nil => rfl
    | cons ch rest =>
      have hch : ¬ isDigit ch = true := by
        rw [show isDigit ch = false from hrest]
        exact Bool.false_ne_true
      rw [readOffset, if_neg hch]
      rfl
  | cons ch digits ih =>
    have hch := hdigits ch mem_cons_self
    have hvalue := digitValue_le hch
    have hle := le_decimalFrom (10 * n + digitValue ch) digits
    have hcons : decimalFrom n (ch :: digits) = decimalFrom (10 * n + digitValue ch) digits := rfl
    rw [cons_append, readOffset, if_pos hch, hcons]
    by_cases hbig : (n : Int) ≥ maxOffT / 10 ∧
        ((n : Int) > maxOffT / 10 ∨ (digitValue ch : Int) > maxOffT % 10)
    · rw [if_pos hbig, if_neg]
      rw [hmax] at hbig ⊢
      omega
    rw [if_neg hbig]
    have hnext : (n : Int) * 10 + digitValue ch = ((10 * n + digitValue ch : Nat) : Int) := by
      push_cast
      ring
    have hfit : ((10 * n + digitValue ch : Nat) : Int) ≤ maxOffT := by
      rw [hmax] at hbig ⊢
      omega
    have htens : offT ((n : Int) * 10) = some ((n : Int) * 10) :=
      offT_eq (by rw [hmax]; omega) (by omega)
    have hsum : offT ((n : Int) * 10 + digitValue ch) = some ((n : Int) * 10 + digitValue ch) :=
      offT_eq (by rw [hmax]; omega) (by omega)
    rw [hnext] at hsum
    simp only [htens, hnext, hsum]
    exact ih hfit fun other hmem => hdigits other (mem_cons_of_mem _ hmem)

variable {rest : Bytes}

theorem Number.readOffset {digits : Bytes} (h : Number digits)
    (hrest : isDigit (peek rest) = false) :
    readOffset 0 (digits ++ rest) = some (.ok (decimal digits, rest)) := by
  have hread := @readOffset_append 0 digits rest (by decide) h.digit hrest
  rw [if_pos (show (decimalFrom 0 digits : Int) ≤ maxOffT from h.le)] at hread
  exact hread

/-! ## Reading a range -/

theorem skipSpaces_append {spaces rest : Bytes} (h : Spaces spaces) (hrest : peek rest ≠ chr ' ') :
    skipSpaces (spaces ++ rest) = rest := by
  induction spaces with
  | nil =>
    cases rest with
    | nil => rfl
    | cons ch rest =>
      have hch : ch ≠ chr ' ' := hrest
      exact dropWhile_cons_of_neg (by simpa using hch)
  | cons ch spaces ih =>
    have hch : ch = chr ' ' := h ch mem_cons_self
    rw [cons_append, skipSpaces, dropWhile_cons_of_pos (by simp [hch])]
    exact ih fun other hmem => h other (mem_cons_of_mem _ hmem)

theorem spaces_takeWhile (p : Bytes) : Spaces (p.takeWhile (· = chr ' ')) := fun ch hmem => by
  simpa using mem_takeWhile_imp hmem

theorem takeWhile_append_skipSpaces (p : Bytes) : p.takeWhile (· = chr ' ') ++ skipSpaces p = p :=
  takeWhile_append_dropWhile

/-- `start` and `end` at `found`. -/
def ByteRange.bounds (length : Int) : ByteRange → Int × Int
  | closed first last => (first, if (last : Int) ≥ length then length else last + 1)
  | openEnd first => (first, length)
  | suffix n => (if (n : Int) < length then length - n else 0, length)

theorem clipRange_closed {length start : Int} {last : Nat} (hmax : length ≤ maxOffT) :
    clipRange length start last false =
      some (start, if (last : Int) ≥ length then length else last + 1) := by
  have hvalue : maxOffT = 9223372036854775807 := rfl
  simp only [clipRange, Bool.false_eq_true, if_false, bind_eq_bind, Option.bind_some]
  split
  next => rfl
  next hlt =>
    rw [offT_eq (by rw [hvalue]; omega) (by omega)]
    rfl

theorem clipRange_suffix {length : Int} {n : Nat} (hpos : 0 ≤ length) (hmax : length ≤ maxOffT) :
    clipRange length 0 n true = some (if (n : Int) < length then length - n else 0, length) := by
  have hvalue : maxOffT = 9223372036854775807 := rfl
  have hlast : offT (length - 1) = some (length - 1) := offT_eq (by rw [hvalue]; omega) (by omega)
  have hend : offT (length - 1 + 1) = some length := by
    rw [Int.sub_add_cancel]
    exact offT_eq (by rw [hvalue]; omega) hmax
  have hnot : ¬ length - 1 ≥ length := by omega
  simp only [clipRange, if_true, bind_eq_bind, hlast, Option.bind_some]
  split
  next hlt =>
    rw [offT_eq (by rw [hvalue]; omega) (by omega)]
    simp only [Option.bind_some, Option.pure_def, if_neg hnot, hend]
  next => simp only [Option.bind_some, Option.pure_def, if_neg hnot, hend]

/-- A range is followed by a comma or by the end of the text. -/
def Ends (rest : Bytes) : Prop := rest = [] ∨ peek rest = chr ','

theorem Ends.not_space (h : Ends rest) : peek rest ≠ chr ' ' := by
  rcases h with rfl | h
  · decide
  · rw [h]
    decide

theorem Ends.not_digit (h : Ends rest) : isDigit (peek rest) = false := by
  rcases h with rfl | h
  · decide
  · rw [h]
    decide

theorem Ends.peek_eq (h : Ends rest) : peek rest = chr ',' ∨ peek rest = 0 := by
  rcases h with rfl | h
  · exact .inr rfl
  · exact .inl h

theorem Number.peek {digits : Bytes} (h : Number digits) (rest : Bytes) :
    isDigit (peek (digits ++ rest)) = true := by
  obtain ⟨ch, digits', rfl⟩ := exists_cons_of_ne_nil h.ne_nil
  exact h.digit ch mem_cons_self

theorem ne_of_isDigit {ch other : Byte} (h : isDigit ch = true) (hother : isDigit other = false) :
    ch ≠ other := by
  rintro rfl
  rw [h] at hother
  exact Bool.false_ne_true hother.symm

theorem Spaces.not_digit {spaces : Bytes} (h : Spaces spaces)
    (hrest : isDigit (peek rest) = false) :
    isDigit (peek (spaces ++ rest)) = false := by
  cases spaces with
  | nil => exact hrest
  | cons ch spaces =>
    have hch : ch = chr ' ' := h ch mem_cons_self
    rw [cons_append, hch]
    exact not_isDigit_space

theorem rangeEnd_complete {length start : Int} {digits trail : Bytes} (hnumber : Number digits)
    (htrail : Spaces trail) (hends : Ends rest) (suffix : Bool) :
    rangeEnd length start suffix (digits ++ (trail ++ rest)) =
      (clipRange length start (decimal digits) suffix).map fun r => .ok (r.1, r.2, rest) := by
  have hskip := skipSpaces_append htrail hends.not_space
  have hclose : ¬ (peek rest ≠ chr ',' ∧ peek rest ≠ 0) := fun hnot =>
    hends.peek_eq.elim hnot.1 hnot.2
  rw [rangeEnd, if_neg (not_not.mpr (hnumber.peek _)),
    hnumber.readOffset (htrail.not_digit hends.not_digit)]
  simp only [hskip, if_neg hclose]

/-- Complete: an element of the grammar is parsed to its bounds. -/
theorem Element.rangeBounds {length : Int} {text rest : Bytes} {range : ByteRange}
    (h : Element text range)
    (hends : Ends rest) (hpos : 0 ≤ length) (hmax : length ≤ maxOffT) :
    rangeBounds length (text ++ rest) =
      some (.ok ((range.bounds length).1, (range.bounds length).2, rest)) := by
  cases h with
  | @closed before after space a b trail hbefore ha hafter hspace hb htrail =>
    have hdash : peek ([chr '-'] ++ (space ++ (b ++ (trail ++ rest)))) = chr '-' := rfl
    have hnumber := ha.peek (after ++ ([chr '-'] ++ (space ++ (b ++ (trail ++ rest)))))
    have hlast := hb.peek (trail ++ rest)
    have hfirst := skipSpaces_append hbefore (ne_of_isDigit hnumber not_isDigit_space)
    have hafter' := skipSpaces_append hafter
      (show peek ([chr '-'] ++ (space ++ (b ++ (trail ++ rest)))) ≠ chr ' ' by rw [hdash]; decide)
    have hspace' := skipSpaces_append hspace (ne_of_isDigit hlast not_isDigit_space)
    have hopen : ¬ (peek (b ++ (trail ++ rest)) = chr ',' ∨ peek (b ++ (trail ++ rest)) = 0) :=
      not_or.mpr ⟨ne_of_isDigit hlast not_isDigit_comma, ne_of_isDigit hlast (by decide)⟩
    simp only [append_assoc]
    unfold Http.rangeBounds
    simp only [hfirst]
    rw [if_pos (ne_of_isDigit hnumber not_isDigit_dash), if_neg (not_not.mpr hnumber),
      ha.readOffset (hafter.not_digit (by rw [hdash]; exact not_isDigit_dash))]
    simp only [hafter']
    rw [if_neg (not_not.mpr hdash)]
    simp only [cons_append, nil_append, tail_cons, hspace']
    rw [if_neg hopen, rangeEnd_complete hb htrail hends, clipRange_closed hmax]
    rfl
  | @openEnd before after trail a hbefore ha hafter htrail =>
    have hdash : peek ([chr '-'] ++ (trail ++ rest)) = chr '-' := rfl
    have hnumber := ha.peek (after ++ ([chr '-'] ++ (trail ++ rest)))
    have hfirst := skipSpaces_append hbefore (ne_of_isDigit hnumber not_isDigit_space)
    have hafter' := skipSpaces_append hafter
      (show peek ([chr '-'] ++ (trail ++ rest)) ≠ chr ' ' by rw [hdash]; decide)
    have htrail' := skipSpaces_append htrail hends.not_space
    simp only [append_assoc]
    unfold Http.rangeBounds
    simp only [hfirst]
    rw [if_pos (ne_of_isDigit hnumber not_isDigit_dash), if_neg (not_not.mpr hnumber),
      ha.readOffset (hafter.not_digit (by rw [hdash]; exact not_isDigit_dash))]
    simp only [hafter']
    rw [if_neg (not_not.mpr hdash)]
    simp only [cons_append, nil_append, tail_cons, htrail']
    rw [if_pos hends.peek_eq]
    rfl
  | @suffix before a trail hbefore ha htrail =>
    have hdash : peek ([chr '-'] ++ (a ++ (trail ++ rest))) = chr '-' := rfl
    have hfirst := skipSpaces_append hbefore
      (show peek ([chr '-'] ++ (a ++ (trail ++ rest))) ≠ chr ' ' by rw [hdash]; decide)
    simp only [append_assoc]
    unfold Http.rangeBounds
    simp only [hfirst]
    rw [if_neg (not_not.mpr hdash)]
    simp only [cons_append, nil_append, tail_cons]
    rw [rangeEnd_complete ha htrail hends, clipRange_suffix hpos hmax]
    rfl

variable {p : Bytes}

theorem exists_digits (h : isDigit (peek p) = true) :
    ∃ digits rest, p = digits ++ rest ∧ digits ≠ [] ∧ (∀ ch ∈ digits, isDigit ch = true) ∧
      isDigit (peek rest) = false := by
  refine ⟨p.takeWhile isDigit, p.dropWhile isDigit, takeWhile_append_dropWhile.symm, ?_,
    fun ch hmem => mem_takeWhile_imp hmem, ?_⟩
  · cases p with
    | nil => exact absurd h (by decide)
    | cons ch p =>
      rw [takeWhile_cons_of_pos (show isDigit ch = true from h)]
      exact cons_ne_nil _ _
  · cases hrest : p.dropWhile isDigit with
    | nil => decide
    | cons ch rest =>
      have hnot := head_dropWhile_not isDigit
        (show p.dropWhile isDigit ≠ [] by rw [hrest]; exact cons_ne_nil _ _)
      simp only [hrest, head_cons] at hnot
      exact hnot

theorem exists_dash (h : peek p = chr '-') : ∃ rest, p = chr '-' :: rest := by
  cases p with
  | nil => exact absurd h (by decide)
  | cons ch rest => exact ⟨rest, congrArg (· :: rest) h⟩

theorem exists_spaces (p : Bytes) : ∃ spaces, p = spaces ++ skipSpaces p ∧ Spaces spaces :=
  ⟨_, (takeWhile_append_skipSpaces p).symm, spaces_takeWhile p⟩

theorem readOffset_sound (h : isDigit (peek p) = true) :
    readOffset 0 p = some (.error .notSatisfiable) ∨
      ∃ digits rest, p = digits ++ rest ∧ Number digits ∧
        readOffset 0 p = some (.ok (decimal digits, rest)) := by
  obtain ⟨digits, rest, rfl, hne, hdigits, hrest⟩ := exists_digits h
  by_cases hle : (decimal digits : Int) ≤ maxOffT
  · have hnumber : Number digits := ⟨hne, hdigits, hle⟩
    exact .inr ⟨digits, rest, rfl, hnumber, hnumber.readOffset hrest⟩
  · have hread := @readOffset_append 0 digits rest (by decide) hdigits hrest
    rw [if_neg (show ¬ (decimalFrom 0 digits : Int) ≤ maxOffT from hle)] at hread
    exact .inl hread

theorem ends_of_peek (hnul : 0 ∉ p) (h : peek p = chr ',' ∨ peek p = 0) : Ends p := by
  rcases h with h | h
  · exact .inr h
  cases p with
  | nil => exact .inl rfl
  | cons ch p =>
    have hch : ch = 0 := h
    exact absurd (hch ▸ mem_cons_self) hnul

theorem rangeEnd_sound {length start : Int} {suffix : Bool} {p : Bytes} (hnul : 0 ∉ p) :
    rangeEnd length start suffix p = some (.error .notSatisfiable) ∨
      ∃ digits trail rest, p = digits ++ (trail ++ rest) ∧ Number digits ∧
        Spaces trail ∧ Ends rest := by
  rw [rangeEnd]
  split
  next => exact .inl rfl
  next hdigit =>
    rcases readOffset_sound (not_not.mp hdigit) with herror | ⟨digits, rest, hp, hnumber, hread⟩
    · rw [herror]
      exact .inl rfl
    obtain ⟨trail, hrest, htrail⟩ := exists_spaces rest
    have hnul' : 0 ∉ skipSpaces rest := fun hmem => hnul (by
      rw [hp, hrest]
      exact mem_append_right _ (mem_append_right _ hmem))
    rw [hread]
    simp only
    split
    next => exact .inl rfl
    next hclose =>
      refine .inr
        ⟨digits, trail, skipSpaces rest, hrest ▸ hp, hnumber, htrail, ends_of_peek hnul' ?_⟩
      rcases not_and_or.mp hclose with hcomma | hend
      · exact .inl (not_not.mp hcomma)
      · exact .inr (not_not.mp hend)

/-- Sound: what is parsed is an element of the grammar. -/
theorem rangeBounds_sound (length : Int) (hnul : 0 ∉ p) :
    rangeBounds length p = some (.error .notSatisfiable) ∨
      ∃ text range rest, p = text ++ rest ∧ Element text range ∧ Ends rest := by
  obtain ⟨before, hp, hbefore⟩ := exists_spaces p
  have hnul₁ : 0 ∉ skipSpaces p := fun hmem => hnul (by
    rw [hp]
    exact mem_append_right _ hmem)
  rw [rangeBounds]
  set p₁ := skipSpaces p
  split
  next hdash =>
    split
    next => exact .inl rfl
    next hdigit =>
      rcases readOffset_sound (not_not.mp hdigit) with herror | ⟨a, p₂, hp₁, ha, hread⟩
      · rw [herror]
        exact .inl rfl
      obtain ⟨after, hp₂, hafter⟩ := exists_spaces p₂
      rw [hread]
      simp only
      set p₃ := skipSpaces p₂
      split
      next => exact .inl rfl
      next hminus =>
        obtain ⟨p₄, hp₃⟩ := exists_dash (not_not.mp hminus)
        obtain ⟨space, hp₄, hspace⟩ := exists_spaces p₄
        have hall : p = before ++ a ++ after ++ [chr '-'] ++ space ++ skipSpaces p₄ := by
          rw [hp, hp₁, hp₂, hp₃]
          conv => lhs; rw [hp₄]
          simp only [append_assoc, cons_append, nil_append]
        have hnul₅ : 0 ∉ skipSpaces p₄ := fun hmem => hnul (by
          rw [hall]
          exact mem_append_right _ hmem)
        rw [hp₃, tail_cons]
        split
        next hends =>
          exact .inr ⟨_, _, skipSpaces p₄, hall, .openEnd hbefore ha hafter hspace,
            ends_of_peek hnul₅ hends⟩
        rcases @rangeEnd_sound length (decimal a) false _ hnul₅ with
          herror | ⟨b, trail, rest, hp₅, hb, htrail, hends⟩
        · exact .inl herror
        · refine .inr ⟨_, _, rest, ?_, .closed hbefore ha hafter hspace hb htrail, hends⟩
          rw [hall, hp₅]
          simp only [append_assoc]
  next hdash =>
    obtain ⟨p₂, hp₁⟩ := exists_dash (not_not.mp hdash)
    rw [hp₁] at hnul₁ ⊢
    rcases @rangeEnd_sound length 0 true p₂ fun hmem => hnul₁ (mem_cons_of_mem _ hmem) with
      herror | ⟨a, trail, rest, hp₂, ha, htrail, hends⟩
    · exact .inl herror
    · refine .inr ⟨_, _, rest, ?_, .suffix hbefore ha htrail, hends⟩
      rw [hp, hp₁, hp₂]
      simp only [append_assoc, cons_append, nil_append]

/-! ## What is stored -/

theorem bounds_spec (length : Nat) (range : ByteRange) :
    ((range.bounds length).1 < (range.bounds length).2 ∧
        range.select length = some ⟨(range.bounds length).1, (range.bounds length).2⟩ ∧
        0 ≤ (range.bounds length).1 ∧ (range.bounds length).2 ≤ length) ∨
      (¬ (range.bounds length).1 < (range.bounds length).2 ∧ range.select length = none ∧
        ((range.bounds length).1 = 0 ↔ range.AtZero length)) := by
  cases range with
  | closed first last =>
    simp only [ByteRange.bounds, ByteRange.select, ByteRange.AtZero]
    by_cases hin : first < length ∧ first ≤ last
    · left
      rw [if_pos hin]
      split
      · refine ⟨by omega, ?_, by omega, by omega⟩
        congr 2
        omega
      · refine ⟨by omega, ?_, by omega, by omega⟩
        congr 2
        omega
    · right
      rw [if_neg hin]
      split <;> exact ⟨by omega, rfl, by omega⟩
  | openEnd first =>
    simp only [ByteRange.bounds, ByteRange.select, ByteRange.AtZero]
    by_cases hin : first < length
    · exact .inl ⟨by omega, if_pos hin, by omega, le_rfl⟩
    · exact .inr ⟨by omega, if_neg hin, by omega⟩
  | suffix n =>
    simp only [ByteRange.bounds, ByteRange.select, ByteRange.AtZero]
    by_cases hin : 0 < n ∧ 0 < length
    · left
      rw [if_pos hin]
      split
      · refine ⟨by omega, ?_, by omega, le_rfl⟩
        congr 2
        omega
      · refine ⟨by omega, ?_, by omega, le_rfl⟩
        congr 2
        omega
    · right
      rw [if_neg hin]
      split <;> exact ⟨by omega, rfl, by omega⟩

theorem not_atZero_of_bounds {length : Nat} {range : ByteRange}
    (h : (range.bounds length).1 < (range.bounds length).2) : ¬ range.AtZero length := by
  cases range <;> simp only [ByteRange.bounds] at h <;> simp only [ByteRange.AtZero] <;> omega

theorem select_eq_of_bounds {length : Nat} {range range' : ByteRange}
    (h : range.bounds length = range'.bounds length) :
    range.select length = range'.select length ∧
      (range.AtZero length ↔ range'.AtZero length) := by
  have hspec := bounds_spec length range
  have hspec' := bounds_spec length range'
  rw [h] at hspec
  rcases hspec with ⟨hlt, hsel, -, -⟩ | ⟨hnot, hsel, hzero⟩
  · rcases hspec' with ⟨-, hsel', -, -⟩ | ⟨hnot', -, -⟩
    · exact ⟨hsel.trans hsel'.symm,
        iff_of_false (not_atZero_of_bounds (h ▸ hlt)) (not_atZero_of_bounds hlt)⟩
    · exact absurd hlt hnot'
  · rcases hspec' with ⟨hlt', -, -, -⟩ | ⟨-, hsel', hzero'⟩
    · exact absurd hlt' hnot
    · exact ⟨hsel.trans hsel'.symm, hzero.symm.trans hzero'⟩

variable {length : Nat}

theorem Element.unique {text text' rest' : Bytes} {range range' : ByteRange}
    (h : Element text range)
    (hends : Ends rest) (h' : Element text' range') (hends' : Ends rest')
    (heq : text ++ rest = text' ++ rest') (hmax : (length : Int) ≤ maxOffT) :
    rest = rest' ∧ range.select length = range'.select length ∧
      (range.AtZero length ↔ range'.AtZero length) := by
  have hread := @Element.rangeBounds length _ _ _ h hends (Int.natCast_nonneg _) hmax
  have hread' := @Element.rangeBounds length _ _ _ h' hends' (Int.natCast_nonneg _) hmax
  rw [heq, hread'] at hread
  simp only [some.injEq, Except.ok.injEq, Prod.mk.injEq] at hread
  exact ⟨hread.2.2.symm, select_eq_of_bounds (Prod.ext hread.1.symm hread.2.1.symm)⟩

theorem satisfiable_cons (range : ByteRange) (ranges : List ByteRange) :
    satisfiable length (range :: ranges) = (range.select length).toList ++
      satisfiable length ranges := by
  rw [satisfiable, filterMap_cons]
  cases range.select length <;> rfl

theorem satisfiable_singleton (range : ByteRange) :
    satisfiable length [range] = (range.select length).toList := by
  rw [satisfiable_cons]
  exact append_nil _

theorem ends_comma (more : Bytes) : Ends (chr ',' :: more) := .inr rfl

/-- The first range of a list, and what is behind it. -/
theorem Elements.first {specs : List ByteRange} (hspecs : Elements p specs) :
    ∃ text range rest ranges, p = text ++ rest ∧ Element text range ∧ Ends rest ∧
      specs = range :: ranges ∧
      (rest = [] ∧ ranges = [] ∨ ∃ more, rest = chr ',' :: more ∧ Elements more ranges) := by
  cases hspecs with
  | last h => exact ⟨_, _, [], _, (append_nil _).symm, h, .inl rfl, rfl, .inl ⟨rfl, rfl⟩⟩
  | cons h hmore => exact ⟨_, _, _, _, rfl, h, ends_comma _, rfl, .inr ⟨_, rfl, hmore⟩⟩

theorem Leading.first {specs : List ByteRange} (hspecs : Leading p specs) :
    ∃ text range rest ranges, p = text ++ rest ∧ Element text range ∧ Ends rest ∧
      specs = range :: ranges ∧
      (ranges = [] ∨ ∃ more, rest = chr ',' :: more ∧ Leading more ranges) := by
  cases hspecs with
  | last h => exact ⟨_, _, [], _, (append_nil _).symm, h, .inl rfl, rfl, .inl rfl⟩
  | comma h => exact ⟨_, _, _, _, rfl, h, ends_comma _, rfl, .inl rfl⟩
  | cons h hmore => exact ⟨_, _, _, _, rfl, h, ends_comma _, rfl, .inr ⟨_, rfl, hmore⟩⟩

theorem rangesSize_append (ranges more : List HttpRange) :
    rangesSize (ranges ++ more) = rangesSize ranges + rangesSize more := by
  simp [rangesSize]

theorem select_bounds {range : ByteRange} {r : HttpRange} (h : range.select length = some r) :
    0 ≤ r.start ∧ r.start < r.stop ∧ r.stop ≤ length := by
  rcases bounds_spec length range with ⟨hlt, hsel, hpos, hle⟩ | ⟨-, hsel, -⟩
  · rw [h] at hsel
    obtain rfl := some.inj hsel
    exact ⟨hpos, hlt, hle⟩
  · rw [h] at hsel
    exact absurd hsel (some_ne_none r)

theorem rangesSize_satisfiable (ranges : List ByteRange) :
    0 ≤ rangesSize (satisfiable length ranges) := by
  induction ranges with
  | nil => exact le_rfl
  | cons range ranges ih =>
    rw [satisfiable_cons, rangesSize_append]
    cases hsel : range.select length with
    | none => simpa [rangesSize] using ih
    | some r =>
      have hr := select_bounds hsel
      have hsize : rangesSize (some r).toList = r.stop - r.start := by simp [rangesSize]
      rw [hsize]
      omega

/-- Ranges at the beginning of the text are refused before the next one is read: one begins with the
first byte of an empty body, or there are more than `left`.  The total, from `size` on, is one that
`off_t` has. -/
def StopsEarly (length : Nat) (p : Bytes) (size : Int) (left : Nat) : Prop :=
  ∃ specs, Leading p specs ∧ size + rangesSize (satisfiable length specs) ≤ maxOffT ∧
    ((∃ range ∈ specs, range.AtZero length) ∨ left < (satisfiable length specs).length)

/-- The ranges of the whole text have more bytes than the body, though not more than `off_t` has. -/
def TooLong (length : Nat) (p : Bytes) (size : Int) : Prop :=
  ∃ specs, Elements p specs ∧ (length : Int) < size + rangesSize (satisfiable length specs) ∧
    size + rangesSize (satisfiable length specs) ≤ maxOffT

/-- What the loop does from a place of the text on, with the variables `size` and `ranges` and
what is stored. -/
structure LoopRight (length : Nat) (p : Bytes) (size : Int) (stored : List HttpRange) (left : Nat)
    (rc : RangeRc) : Prop where
  sound : ∀ ranges, rc = .ok ranges → ∃ specs, Elements p specs ∧
    ranges = stored ++ satisfiable length specs ∧ ranges ≠ [] ∧
    (satisfiable length specs).length ≤ left ∧
    size + rangesSize (satisfiable length specs) ≤ length
  complete : ∀ specs, Elements p specs → 0 < length → stored ++ satisfiable length specs ≠ [] →
    (satisfiable length specs).length ≤ left →
    size + rangesSize (satisfiable length specs) ≤ length →
    rc = .ok (stored ++ satisfiable length specs)
  declined : rc = .declined ↔ StopsEarly length p size left ∨ TooLong length p size

variable {size : Int} {stored : List HttpRange} {left : Nat} {rc : RangeRc} {text more : Bytes}
  {range : ByteRange}

/-- What the first range of the text is, is known. -/
theorem Element.first_eq (hmax : (length : Int) ≤ maxOffT) {rest text' rest' : Bytes}
    {range' : ByteRange} {ranges : List ByteRange} (h : Element text range) (hends : Ends rest)
    (h' : Element text' range') (hends' : Ends rest') (heq : text ++ rest = text' ++ rest') :
    rest' = rest ∧ (range'.AtZero length ↔ range.AtZero length) ∧
      satisfiable length (range' :: ranges) =
        (range.select length).toList ++ satisfiable length ranges := by
  obtain ⟨hrest, hsel, hzero⟩ := h.unique hends h' hends' heq hmax
  exact ⟨hrest.symm, hzero.symm, by rw [satisfiable_cons, hsel]⟩

/-- The last range of the text. -/
theorem LoopRight.last (hmax : (length : Int) ≤ maxOffT) (h : Element text range)
    (hzero : ¬ range.AtZero length) (hleft : (range.select length).toList.length ≤ left)
    (hsize : stored = [] → size = 0)
    (hfits : size + rangesSize (range.select length).toList ≤ maxOffT) :
    LoopRight length text size stored left
      (rangeFinish length (size + rangesSize (range.select length).toList)
        (stored ++ (range.select length).toList)) := by
  have hone : Elements text [range] := .last h
  have hsat := @satisfiable_singleton length range
  have hall : ∀ specs, Elements text specs →
      satisfiable length specs = (range.select length).toList := fun specs hspecs => by
    obtain ⟨text', range', rest', ranges, heq, h', hends', rfl, hrest⟩ := hspecs.first
    obtain ⟨hnil, -, hfirst⟩ := @Element.first_eq length _ _ hmax [] _ _ _ ranges h (.inl rfl) h'
      hends' ((append_nil text).trans heq)
    rcases hrest with ⟨-, rfl⟩ | ⟨more, rfl, -⟩
    · exact hfirst.trans (append_nil _)
    · exact absurd hnil (cons_ne_nil _ _)
  have hgoes : ¬ StopsEarly length text size left := by
    rintro ⟨specs, hspecs, -, hgate⟩
    obtain ⟨text', range', rest', ranges, heq, h', hends', rfl, hrest⟩ := hspecs.first
    obtain ⟨hnil, hzero', hfirst⟩ :=
      @Element.first_eq length _ _ hmax [] _ _ _ ranges h (.inl rfl) h'
      hends' ((append_nil text).trans heq)
    rcases hrest with rfl | ⟨more, rfl, -⟩
    · rw [hfirst, satisfiable, filterMap_nil, append_nil] at hgate
      rcases hgate with ⟨other, hmem, hother⟩ | hgate
      · rw [mem_singleton.mp hmem] at hother
        exact hzero (hzero'.mp hother)
      · exact absurd hleft (not_le.mpr hgate)
    · exact absurd hnil (cons_ne_nil _ _)
  have htoo : TooLong length text size ↔
      (length : Int) < size + rangesSize (range.select length).toList := by
    refine ⟨fun ⟨specs, hspecs, hlt, _⟩ => hall specs hspecs ▸ hlt, fun hlt => ⟨_, hone, ?_⟩⟩
    rw [hsat]
    exact ⟨hlt, hfits⟩
  unfold rangeFinish
  split
  next hnone =>
    obtain ⟨hstored, hsel⟩ := append_eq_nil_iff.mp hnone
    refine ⟨nofun, fun specs hspecs _ hne _ _ => ?_, iff_of_false nofun (not_or.mpr ⟨hgoes, ?_⟩)⟩
    · rw [hall specs hspecs] at hne
      exact absurd hnone hne
    · rw [htoo, hsel, hsize hstored]
      exact not_lt.mpr (Int.natCast_nonneg _)
  next hsome =>
    split
    next hbig =>
      refine ⟨nofun, fun specs hspecs _ _ _ hle => ?_, iff_of_true rfl (.inr (htoo.mpr hbig))⟩
      rw [hall specs hspecs] at hle
      exact absurd hbig (not_lt.mpr hle)
    next hfit =>
      refine ⟨fun ranges hranges => ?_, fun specs hspecs _ _ _ _ => by rw [hall specs hspecs],
        iff_of_false nofun (not_or.mpr ⟨hgoes, htoo.not.mpr hfit⟩)⟩
      obtain rfl := RangeRc.ok.inj hranges
      rw [← hsat] at hsome hleft hfit ⊢
      exact ⟨_, hone, rfl, hsome, hleft, not_lt.mp hfit⟩

/-- A range, and what the loop does behind its comma. -/
theorem LoopRight.cons (hmax : (length : Int) ≤ maxOffT) (h : Element text range)
    (hzero : ¬ range.AtZero length) (hleft : (range.select length).toList.length ≤ left)
    (hmore : LoopRight length more (size + rangesSize (range.select length).toList)
      (stored ++ (range.select length).toList) (left - (range.select length).toList.length) rc) :
    LoopRight length (text ++ chr ',' :: more) size stored left rc := by
  have hall : ∀ specs, Elements (text ++ chr ',' :: more) specs → ∃ ranges, Elements more ranges ∧
      satisfiable length specs = (range.select length).toList ++ satisfiable length ranges :=
      fun specs hspecs => by
    obtain ⟨text', range', rest', ranges, heq, h', hends', rfl, hrest⟩ := hspecs.first
    obtain ⟨hcomma, -, hfirst⟩ := @Element.first_eq length _ _ hmax _ _ _ _ ranges h
      (ends_comma more) h' hends' heq
    rcases hrest with ⟨rfl, -⟩ | ⟨more', rfl, hmore'⟩
    · exact absurd hcomma.symm (cons_ne_nil _ _)
    · exact ⟨ranges, (cons.inj hcomma).2 ▸ hmore', hfirst⟩
  refine ⟨fun ranges hranges => ?_, fun specs hspecs hpos hne hlen hle => ?_, ?_⟩
  · obtain ⟨specs, hspecs, hstored, hne, hlen, hle⟩ := hmore.sound ranges hranges
    refine ⟨range :: specs, .cons h hspecs, ?_, hne, ?_, ?_⟩
    · rw [satisfiable_cons, ← append_assoc]
      exact hstored
    · rw [satisfiable_cons, length_append]
      omega
    · rw [satisfiable_cons, rangesSize_append]
      omega
  · obtain ⟨ranges, hranges, hsat⟩ := hall specs hspecs
    rw [hsat] at hne hlen hle ⊢
    rw [length_append] at hlen
    rw [rangesSize_append] at hle
    rw [← append_assoc] at hne ⊢
    exact hmore.complete _ hranges hpos hne (by omega) (by omega)
  · rw [hmore.declined]
    refine or_congr ⟨fun ⟨specs, hspecs, hle, hgate⟩ => ?_, fun ⟨specs, hspecs, hle, hgate⟩ => ?_⟩
      ⟨fun ⟨specs, hspecs, hlt, hle⟩ => ?_, fun ⟨specs, hspecs, hlt, hle⟩ => ?_⟩
    · refine ⟨range :: specs, .cons h hspecs, ?_, ?_⟩
      · rw [satisfiable_cons, rangesSize_append]
        omega
      rcases hgate with ⟨other, hmem, hother⟩ | hlen
      · exact .inl ⟨other, mem_cons_of_mem _ hmem, hother⟩
      · right
        rw [satisfiable_cons, length_append]
        omega
    · obtain ⟨text', range', rest', ranges, heq, h', hends', rfl, hrest⟩ := hspecs.first
      obtain ⟨hcomma, hzero', hfirst⟩ := @Element.first_eq length _ _ hmax _ _ _ _ ranges h
        (ends_comma more) h' hends' heq
      have hnot : ¬ range'.AtZero length := hzero'.not.mpr hzero
      rw [hfirst, rangesSize_append] at hle
      rw [hfirst, length_append] at hgate
      rcases hrest with rfl | ⟨more', rfl, hmore'⟩
      · rcases hgate with ⟨other, hmem, hother⟩ | hlen
        · exact absurd (mem_singleton.mp hmem ▸ hother) hnot
        · exact absurd hlen (not_lt.mpr hleft)
      refine ⟨ranges, (cons.inj hcomma).2 ▸ hmore', by omega, ?_⟩
      rcases hgate with ⟨other, hmem, hother⟩ | hlen
      · rcases mem_cons.mp hmem with rfl | hmem
        · exact absurd hother hnot
        · exact .inl ⟨other, hmem, hother⟩
      · right
        omega
    · refine ⟨range :: specs, .cons h hspecs, ?_⟩
      rw [satisfiable_cons, rangesSize_append]
      exact ⟨by omega, by omega⟩
    · obtain ⟨ranges, hranges, hsat⟩ := hall specs hspecs
      rw [hsat, rangesSize_append] at hlt hle
      exact ⟨ranges, hranges, by omega, by omega⟩

/-- A range at which the text is refused. -/
theorem LoopRight.stop (hmax : (length : Int) ≤ maxOffT) (h : Element text range)
    (hends : Ends rest) (hfits : size + rangesSize (range.select length).toList ≤ maxOffT)
    (hgate : range.AtZero length ∨ left < (range.select length).toList.length) :
    LoopRight length (text ++ rest) size stored left .declined := by
  have hleading : Leading (text ++ rest) [range] := by
    cases rest with
    | nil => exact (append_nil text).symm ▸ .last h
    | cons ch rest =>
      have hch : ch = chr ',' := hends.resolve_left (cons_ne_nil _ _)
      exact hch ▸ .comma h
  refine ⟨nofun, fun specs hspecs hpos _ hlen _ => ?_, iff_of_true rfl (.inl ⟨_, hleading, ?_, ?_⟩)⟩
  · obtain ⟨text', range', rest', ranges, heq, h', hends', rfl, -⟩ := hspecs.first
    obtain ⟨-, -, hfirst⟩ := @Element.first_eq length _ _ hmax _ _ _ _ ranges h hends h' hends' heq
    rw [hfirst, length_append] at hlen
    rcases hgate with hzero | hgate
    · cases range <;> simp only [ByteRange.AtZero] at hzero <;> omega
    · omega
  · rw [satisfiable_singleton]
    exact hfits
  · rw [satisfiable_singleton]
    exact hgate.imp_left fun hzero => ⟨range, mem_singleton_self _, hzero⟩

/-- A range with which the total is none that `off_t` has. -/
theorem LoopRight.overflow (hmax : (length : Int) ≤ maxOffT) (h : Element text range)
    (hends : Ends rest) (hbig : maxOffT < size + rangesSize (range.select length).toList) :
    LoopRight length (text ++ rest) size stored left .notSatisfiable := by
  have hall : ∀ {text' rest' : Bytes} {range' : ByteRange} (ranges : List ByteRange),
      text ++ rest = text' ++ rest' → Element text' range' → Ends rest' →
      maxOffT < size + rangesSize (satisfiable length (range' :: ranges)) :=
      fun {text' rest' range'} ranges heq h' hends' => by
    obtain ⟨-, -, hfirst⟩ := @Element.first_eq length _ _ hmax _ _ _ _ ranges h hends h' hends' heq
    have hrest := @rangesSize_satisfiable length ranges
    rw [hfirst, rangesSize_append]
    omega
  refine ⟨nofun, fun specs hspecs _ _ _ hle => ?_, iff_of_false nofun (not_or.mpr ⟨?_, ?_⟩)⟩
  · obtain ⟨_, _, _, ranges, heq, h', hends', rfl, -⟩ := hspecs.first
    have hover := hall ranges heq h' hends'
    omega
  · rintro ⟨specs, hspecs, hle, -⟩
    obtain ⟨_, _, _, ranges, heq, h', hends', rfl, -⟩ := hspecs.first
    exact absurd hle (not_le.mpr (hall ranges heq h' hends'))
  · rintro ⟨specs, hspecs, -, hle⟩
    obtain ⟨_, _, _, ranges, heq, h', hends', rfl, -⟩ := hspecs.first
    exact absurd hle (not_le.mpr (hall ranges heq h' hends'))

/-- A text that begins with no range. -/
theorem LoopRight.error {p : Bytes}
    (hnone : ∀ text range rest, p = text ++ rest → Element text range → ¬ Ends rest) :
    LoopRight length p size stored left .notSatisfiable := by
  refine ⟨nofun, fun specs hspecs => ?_, iff_of_false nofun (not_or.mpr ⟨?_, ?_⟩)⟩
  · obtain ⟨text, range, rest, ranges, heq, h, hends, -⟩ := hspecs.first
    exact absurd hends (hnone text range rest heq h)
  · rintro ⟨specs, hspecs, -⟩
    obtain ⟨text, range, rest, ranges, heq, h, hends, -⟩ := hspecs.first
    exact hnone text range rest heq h hends
  · rintro ⟨specs, hspecs, -⟩
    obtain ⟨text, range, rest, ranges, heq, h, hends, -⟩ := hspecs.first
    exact hnone text range rest heq h hends

/-- The induction is on the bytes that are left; `size` is a value of `off_t` all the time. -/
theorem rangeLoop_spec (hmax : (length : Int) ≤ maxOffT) {fuel : Nat} {p : Bytes}
    (hfuel : p.length < fuel) (hnul : 0 ∉ p) (hsize : 0 ≤ size) (hsizeMax : size ≤ maxOffT)
    (hstored : stored = [] → size = 0) :
    ∃ rc, rangeLoop length fuel p size stored left = some rc ∧
      LoopRight length p size stored left rc := by
  have hvalue : maxOffT = 9223372036854775807 := rfl
  induction fuel generalizing p size stored left with
  | zero => omega
  | succ fuel ih =>
    rw [rangeLoop]
    rcases rangeBounds_sound length hnul with herror | ⟨text, range, rest, rfl, h, hends⟩
    · rw [herror]
      refine ⟨_, rfl, .error fun text range rest heq h hends => ?_⟩
      rw [heq, h.rangeBounds hends (Int.natCast_nonneg _) hmax] at herror
      exact absurd (some.inj herror) nofun
    rw [h.rangeBounds hends (Int.natCast_nonneg _) hmax]
    simp only
    have hshort : peek rest = chr ',' → rest.tail.length < fuel ∧ 0 ∉ rest.tail ∧
        rest = chr ',' :: rest.tail := fun hcomma => by
      cases rest with
      | nil => exact absurd hcomma (by decide)
      | cons ch more =>
        rw [length_append, length_cons] at hfuel
        exact ⟨by rw [tail_cons]; omega,
          fun hmem => hnul (mem_append_right _ (mem_cons_of_mem _ hmem)),
          congrArg (· :: more) hcomma⟩
    have hlast : peek rest ≠ chr ',' → text ++ rest = text := fun hcomma => by
      rw [hends.resolve_right hcomma, append_nil]
    rcases bounds_spec length range with ⟨hlt, hsel, hpos, hle⟩ | ⟨hnot, hsel, hzero⟩
    · have hgo := not_atZero_of_bounds hlt
      set start := (range.bounds length).1
      set stop := (range.bounds length).2
      have hone : (range.select length).toList = [⟨start, stop⟩] := by rw [hsel]; rfl
      have htotal : rangesSize (range.select length).toList = stop - start := by
        rw [hone]
        exact Int.add_zero _
      rw [if_pos hlt, offT_eq (by rw [hvalue]; omega) (by omega)]
      simp only
      rw [offT_eq (by rw [hvalue]; omega) (by omega)]
      simp only
      split
      next hbig => exact ⟨_, rfl, .overflow hmax h hends (by rw [htotal]; omega)⟩
      next hroom =>
        rw [offT_eq (by rw [hvalue]; omega) (by omega)]
        simp only
        split
        next hleft =>
          refine ⟨_, rfl, .stop hmax h hends (by rw [htotal]; omega) (.inr ?_)⟩
          rw [hone, hleft]
          exact zero_lt_one
        next hleft =>
          have hone_le : (range.select length).toList.length ≤ left := by
            rw [hone]
            exact pos_of_ne_zero hleft
          rw [← htotal, ← hone]
          split
          next hcomma =>
            exact ⟨_, rfl, (hlast hcomma).symm ▸
              .last hmax h hgo hone_le hstored (by rw [htotal]; omega)⟩
          next hcomma =>
            obtain ⟨hfuel', hnul', hrest⟩ := hshort (not_not.mp hcomma)
            obtain ⟨rc, hrun, hright⟩ := @ih (size + rangesSize (range.select length).toList)
              (stored ++ (range.select length).toList) (left - 1) rest.tail hfuel' hnul'
              (by rw [htotal]; omega) (by rw [htotal]; omega)
              (fun hnil => by simp [hone] at hnil)
            refine ⟨rc, hrun, ?_⟩
            rw [hrest]
            refine .cons hmax h hgo hone_le ?_
            rw [show (range.select length).toList.length = 1 by rw [hone]; rfl]
            exact hright
    · have hnone : (range.select length).toList = [] := by rw [hsel]; rfl
      have htotal : rangesSize (range.select length).toList = 0 := by rw [hnone]; rfl
      have hnone_le : (range.select length).toList.length ≤ left := by
        rw [hnone]
        exact Nat.zero_le _
      rw [if_neg hnot]
      split
      next hstart =>
        exact ⟨_, rfl, .stop hmax h hends (by rw [htotal]; omega) (.inl (hzero.mp hstart))⟩
      next hstart =>
        have hgo := hzero.not.mp hstart
        split
        next hcomma =>
          refine ⟨_, rfl, ?_⟩
          have hright := @LoopRight.last length size stored left text range hmax h hgo hnone_le
            hstored (by rw [htotal]; omega)
          rw [htotal, hnone, append_nil, Int.add_zero] at hright
          exact (hlast hcomma).symm ▸ hright
        next hcomma =>
          obtain ⟨hfuel', hnul', hrest⟩ := hshort (not_not.mp hcomma)
          obtain ⟨rc, hrun, hright⟩ := @ih size stored left rest.tail hfuel' hnul' hsize hsizeMax
            hstored
          refine ⟨rc, hrun, ?_⟩
          rw [hrest]
          refine .cons hmax h hgo hnone_le ?_
          rw [htotal, hnone, append_nil, Int.add_zero]
          exact hright

/-! ## The whole header -/

/-- A Range header asks for `specs`. -/
def AsksFor (text : Bytes) (specs : List ByteRange) : Prop := Elements (cString text) specs

theorem zero_notMem_cString (text : Bytes) : 0 ∉ cString text := fun hmem => by
  simpa using mem_takeWhile_imp hmem

/-- Outside of subrequests of a request with ranges: what is stored, and exactly when; exactly when
a header is declined; and what is returned for one that cannot be satisfied. -/
theorem rangeParse_right (text : Bytes) (ranges : Nat) (hmax : (length : Int) ≤ maxOffT) :
    ∃ rc, rangeParse none text length ranges = some rc ∧
      (∀ stored, rc = .ok stored ↔ ∃ specs, AsksFor text specs ∧
        stored = satisfiable length specs ∧ stored ≠ [] ∧ stored.length ≤ ranges ∧
        rangesSize stored ≤ length) ∧
      (∀ stored, rc = .ok stored →
        ∀ r ∈ stored, 0 ≤ r.start ∧ r.start < r.stop ∧ r.stop ≤ length) ∧
      (rc = .declined ↔
        StopsEarly length (cString text) 0 ranges ∨ TooLong length (cString text) 0) ∧
      ((∀ specs, AsksFor text specs → satisfiable length specs = []) →
        rc = .notSatisfiable ∧ ¬ StopsEarly length (cString text) 0 ranges ∨
          rc = .declined ∧ StopsEarly length (cString text) 0 ranges) := by
  obtain ⟨rc, hrun, hright⟩ := @rangeLoop_spec length 0 [] ranges hmax _ (cString text)
    (Nat.lt_succ_self _) (zero_notMem_cString text) le_rfl (by decide) (fun _ => rfl)
  have hstored : ∀ stored, rc = .ok stored → ∃ specs, AsksFor text specs ∧
      stored = satisfiable length specs ∧ stored ≠ [] ∧ stored.length ≤ ranges ∧
      rangesSize stored ≤ length := fun stored hok => by
    obtain ⟨specs, hspecs, heq, hne, hlen, hle⟩ := hright.sound stored hok
    rw [nil_append] at heq
    rw [← heq] at hlen hle
    exact ⟨specs, hspecs, heq, hne, hlen, by omega⟩
  refine ⟨rc, hrun, fun stored => ⟨hstored stored, ?_⟩, fun stored hok r hmem => ?_,
    hright.declined, fun hnone => ?_⟩
  · rintro ⟨specs, hspecs, rfl, hne, hlen, hle⟩
    obtain ⟨r, hr⟩ := exists_mem_of_ne_nil _ hne
    obtain ⟨range, -, hsel⟩ := mem_filterMap.mp hr
    have hin := select_bounds hsel
    exact hright.complete specs hspecs (by omega) hne hlen (by omega)
  · obtain ⟨specs, -, rfl, -⟩ := hstored stored hok
    obtain ⟨range, -, hsel⟩ := mem_filterMap.mp hmem
    exact select_bounds hsel
  have hshort : ¬ TooLong length (cString text) 0 := by
    rintro ⟨specs, hspecs, hlt, -⟩
    rw [hnone specs hspecs] at hlt
    exact absurd hlt (by simp [rangesSize])
  have hdeclined := hright.declined.trans (or_iff_left hshort)
  cases rc with
  | ok stored =>
    obtain ⟨specs, hspecs, heq, hne, -⟩ := hstored stored rfl
    exact absurd (heq.trans (hnone specs hspecs)) hne
  | notSatisfiable => exact .inl ⟨rfl, fun hstop => nomatch hdeclined.mpr hstop⟩
  | declined => exact .inr ⟨rfl, hdeclined.mp rfl⟩

/-- Four ranges of a body of 30 bytes, with room for five and for two; an error behind a range
that the body does not have; and ranges whose total `off_t` does not have, one more than there is
room for.
-/
theorem rangeParse_threeRanges :
    let text := ascii "0-4, 25- ,-3,90-"
    rangeParse none text 30 5 = some (.ok [⟨0, 5⟩, ⟨25, 30⟩, ⟨27, 30⟩]) ∧
      (∃ specs, AsksFor text specs ∧ [⟨0, 5⟩, ⟨25, 30⟩, ⟨27, 30⟩] = satisfiable 30 specs) ∧
      rangeParse none text 30 2 = some .declined ∧
      StopsEarly 30 (cString text) 0 2 ∧ ¬ StopsEarly 30 (cString text) 0 5 ∧
      rangeParse none (ascii "90-,x") 30 5 = some .notSatisfiable ∧
      ¬ StopsEarly 30 (cString (ascii "90-,x")) 0 5 ∧
      rangeParse none (ascii "0-,0-,x") (2 ^ 62) 1 = some .notSatisfiable ∧
      ¬ StopsEarly (2 ^ 62) (cString (ascii "0-,0-,x")) 0 1 := by
  intro text
  have hok : rangeParse none text (30 : Nat) 5 =
      some (.ok [⟨0, 5⟩, ⟨25, 30⟩, ⟨27, 30⟩]) := by decide
  have hdeclined : rangeParse none text (30 : Nat) 2 = some .declined := by decide
  have herror : rangeParse none (ascii "90-,x") (30 : Nat) 5 = some .notSatisfiable := by decide
  have hbig : rangeParse none (ascii "0-,0-,x") (2 ^ 62 : Nat) 1 = some .notSatisfiable := by decide
  obtain ⟨rc, hrun, hstored, -, hgate, -⟩ := @rangeParse_right 30 text 5 (by decide)
  obtain rfl := some.inj (hok.symm.trans hrun)
  obtain ⟨specs, hasks, hsat, -⟩ := (hstored _).mp rfl
  obtain ⟨hearly, hlong⟩ := not_or.mp (mt hgate.mpr nofun)
  obtain ⟨rc, hrun, -, -, hgate, -⟩ := @rangeParse_right 30 text 2 (by decide)
  obtain rfl := some.inj (hdeclined.symm.trans hrun)
  have hstops := (hgate.mp rfl).resolve_right hlong
  obtain ⟨rc, hrun, -, -, hgate, -⟩ := @rangeParse_right 30 (ascii "90-,x") 5 (by decide)
  obtain rfl := some.inj (herror.symm.trans hrun)
  have hbehind := (not_or.mp (mt hgate.mpr nofun)).1
  obtain ⟨rc, hrun, -, -, hgate, -⟩ := @rangeParse_right (2 ^ 62) (ascii "0-,0-,x") 1 (by decide)
  obtain rfl := some.inj (hbig.symm.trans hrun)
  exact ⟨hok, ⟨specs, hasks, hsat⟩, hdeclined, hstops, hearly, herror, hbehind, hbig,
    (not_or.mp (mt hgate.mpr nofun)).1⟩

/-- The whole of an empty body, and a header that breaks off after one range too many. -/
theorem rangeParse_declines :
    AsksFor (ascii "0-") [.openEnd 0] ∧ satisfiable 0 [.openEnd 0] = [] ∧
      rangeParse none (ascii "0-") 0 1 = some .declined ∧
      rangeParse none (ascii "0-0,1-1,x") 10 1 = some .declined ∧
      rangeParse none (ascii "0-0,1-1,x") 10 2 = some .notSatisfiable := by
  have hzero : Number (ascii "0") := by
    refine ⟨by decide, fun ch hch => ?_, ?_⟩
    · obtain rfl : ch = chr '0' := mem_singleton.mp hch
      decide
    have hvalue : decimal (ascii "0") = 0 := by decide
    rw [hvalue]
    unfold maxOffT
    omega
  refine ⟨.last ?_, rfl, by decide, by decide, by decide⟩
  exact @Element.openEnd [] [] [] (ascii "0") (by simp [Spaces]) hzero
    (by simp [Spaces]) (by simp [Spaces])

/-! ## The response -/

section Served

open RangeBody

theorem singlepart_contentLength {conf : Slice.Conf} {req : Slice.Request} {a : Slice.Answer}
    {out out' : Slice.HeadersOut} {mainRanges : Option (List HttpRange)} {ctx : Slice.RangeCtx}
    {r : HttpRange}
    (h : Slice.rangeHeaderFilter conf req true mainRanges a out = some (.single ctx out'))
    (hr : ctx.ranges = [r]) : out'.contentLength = r.stop - r.start := by
  unfold Slice.rangeHeaderFilter at h
  split at h
  next => cases h
  split at h
  next => cases h
  split at h
  next => cases h
  split at h
  next =>
    split at h
    next => cases h
    next range hparse =>
      simp only [if_true] at h
      cases hlength : offT (range.stop - range.start) with
      | none =>
        rw [hlength] at h
        cases h
      | some length =>
        rw [hlength] at h
        cases h
        obtain rfl : range = r := (cons.inj hr).1
        unfold offT at hlength
        split at hlength
        next => exact (some.inj hlength).symm
        next => cases hlength
    next => cases h
    next => cases h
    next => cases h
  next => cases h

/-- **Range requests.**  Where one range of a header is stored, it is the only one asked for that
the body has, and the response is of its bytes, as many as the `Content-Length` says that the header
filter sets for this range. -/
theorem range_served {text : Bytes} {ranges : Nat} {r : HttpRange} (main : Bool) (d : Delivery)
    (hmax : (d.body.length : Int) ≤ maxOffT)
    (hparse : rangeParse none text d.body.length ranges = some (.ok [r])) :
    ∃ range : RangeBody.ByteRange, r = ⟨range.start, range.stop⟩ ∧
      (∃ specs, AsksFor text specs ∧ satisfiable d.body.length specs = [r]) ∧
      dataOf (deliver main range 0 d.calls) = (d.body.take range.stop).drop range.start ∧
      (dataOf (deliver main range 0 d.calls)).length = range.stop - range.start ∧
      ∀ conf req a out ctx out',
        Slice.rangeHeaderFilter conf req true none a out = some (.single ctx out') →
        ctx.ranges = [r] →
        out'.contentLength = (dataOf (deliver main range 0 d.calls)).length := by
  obtain ⟨rc, hrun, hright⟩ := @rangeLoop_spec d.body.length 0 [] ranges hmax _ (cString text)
    (Nat.lt_succ_self _) (zero_notMem_cString text) le_rfl (by decide) (fun _ => rfl)
  obtain rfl : rc = .ok [r] := some.inj (hrun.symm.trans hparse)
  obtain ⟨specs, hspecs, heq, -⟩ := hright.sound [r] rfl
  obtain ⟨spec, -, hsel⟩ :=
    mem_filterMap.mp (heq ▸ mem_singleton_self r : r ∈ satisfiable _ specs)
  obtain ⟨hpos, hlt, hstop⟩ := select_bounds hsel
  obtain ⟨start, hstart⟩ := Int.eq_ofNat_of_zero_le hpos
  obtain ⟨stop, hend⟩ := Int.eq_ofNat_of_zero_le (hpos.trans hlt.le)
  rw [hstart, hend] at hlt
  rw [hend] at hstop
  have hlt' : start < stop := Int.ofNat_lt.mp hlt
  have hdata := @dataOf_deliver main ⟨start, stop, hlt'⟩ 0 d.calls d.sound_calls
  have hlength : (dataOf (deliver main ⟨start, stop, hlt'⟩ 0 d.calls)).length = stop - start := by
    rw [hdata, window, length_drop, length_take]
    exact congrArg (· - start) (min_eq_left (Int.ofNat_le.mp hstop))
  refine ⟨_, congrArg₂ HttpRange.mk hstart hend, ⟨specs, hspecs, heq.symm⟩, hdata, hlength,
    fun conf req a out ctx out' hfilter hctx => ?_⟩
  rw [singlepart_contentLength hfilter hctx, hstart, hend, hlength]
  omega

/-- The bytes from 2 to 5, and what the header filter says about them. -/
theorem range_served_middle : ∃ range : RangeBody.ByteRange, range.start = 2 ∧ range.stop = 6 ∧
    dataOf (deliver true range 0 endLater.calls) = ascii "2345" ∧
    ∃ ctx out',
      Slice.rangeHeaderFilter ⟨1, 1⟩ ⟨1001, some (ascii "bytes=2-5"), none, by decide⟩ true
        none ⟨200, none, none, none, []⟩ ⟨200, 10, 0⟩ = some (.single ctx out') ∧
      out'.contentLength = (dataOf (deliver true range 0 endLater.calls)).length := by
  obtain ⟨range, hr, -, hdata, -, hfilter⟩ :=
    @range_served (ascii "2-5") 1 ⟨2, 6⟩ true endLater (by decide) (by decide)
  obtain ⟨hstart, hstop⟩ := HttpRange.mk.injEq .. ▸ hr
  have hsingle : Slice.rangeHeaderFilter ⟨1, 1⟩
    ⟨1001, some (ascii "bytes=2-5"), none, by decide⟩ true
      none ⟨200, none, none, none, []⟩ ⟨200, 10, 0⟩ = some (.single ⟨[⟨2, 6⟩], 0⟩ ⟨206, 4, 2⟩) := by
    decide
  refine ⟨range, by omega, by omega, ?_, _, _, hsingle, hfilter _ _ _ _ _ _ hsingle rfl⟩
  rw [hdata, show range.start = 2 by omega, show range.stop = 6 by omega]
  decide

end Served

end Nginx.Http
