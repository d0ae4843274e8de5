/-
  Http/Parse/StatusGrammar.lean --- the status lines that
  `ngx_http_parse_status_line` accepts.

  Each part of the machine reads a part of the line, and the rest of the line is
  read from where it stops.  The digits of the code are read with spaces
  before each of them; a status line has them side by side.
-/
import Nginx.Http.FastUri
import Nginx.Http.Parse.StatusLine

set_option autoImplicit false

namespace Nginx.Http.Parse

open List Foundation

/-! ## The grammar -/

/-- A version number, at most 999, from a digit that is not less than `least`. -/
structure Version (least : Char) (digits : Bytes) : Prop where
  ne_nil : digits ≠ []
  digit : ∀ ch ∈ digits, isDigit ch = true
  head : ∀ ch ∈ digits.head?, chr least ≤ ch
  le : decimal digits ≤ 999

/-- What follows the code: nothing, or a space or a dot and any text. -/
def IsTail (tail : Bytes) :
    Prop := tail = [] ∨ ∃ ch text, tail = ch :: text ∧ (ch = chr ' ' ∨ ch = chr '.') ∧ NoEol text

/-- The parts of a status line, with what is between the digits of the code. -/
structure Reply where
  major : Bytes
  minor : Bytes
  spaces : Bytes
  first : Byte
  gap : Bytes
  second : Byte
  gap' : Bytes
  third : Byte
  tail : Bytes
  eol : Bytes

namespace Reply

/-- The line up to its last digit. -/
def head (l : Reply) : Bytes :=
  ascii "HTTP/" ++
    (l.major ++ chr '.' ::
    (l.minor ++ chr ' ' :: (l.spaces ++ l.first :: (l.gap ++ l.second :: (l.gap' ++ [l.third])))))

def text (l : Reply) : Bytes := l.head ++ (l.tail ++ l.eol)

/-- The value of the three digits. -/
def code (l : Reply) : Nat := decimal [l.first, l.second, l.third]

/-- A status line, but for the digits: they may have spaces between them. -/
structure Wf (l : Reply) : Prop where
  major : Version '1' l.major
  minor : Version '0' l.minor
  spaces : Spaces l.spaces
  first : isDigit l.first = true
  gap : Spaces l.gap
  second : isDigit l.second = true
  gap' : Spaces l.gap'
  third : isDigit l.third = true
  tail : IsTail l.tail
  eol : IsEol l.eol

/-- The three digits are consecutive. -/
def Consecutive (l : Reply) : Prop := l.gap = [] ∧ l.gap' = []

end Reply

/-! ## The parts of the machine -/

section Parts

variable {p : Nat} {s : StatusLine} {rc : StatusLine × Nat} {text : Bytes}

/-- The run accepts with this result. -/
def Accepts (p : Nat) (s : StatusLine) (text : Bytes) (rc : StatusLine × Nat) :
    Prop := statusRun p s text = .ok rc.1 rc.2

theorem accepts_nil : ¬ Accepts p s [] rc := fun h => by cases h

theorem accepts_next {s' : StatusLine} {ch : Byte} (hstep : statusStep p ch s = .next s') :
    Accepts p s (ch :: text) rc ↔ Accepts (p + 1) s' text rc := by
  rw [Accepts, statusRun, hstep, Accepts]

theorem accepts_error {ch : Byte} (hstep : statusStep p ch s = .error) :
    ¬ Accepts p s (ch :: text) rc := by
  rw [Accepts, statusRun, hstep]
  exact fun h => by cases h

theorem accepts_done {s' : StatusLine} {ch : Byte} (hstep : statusStep p ch s = .done s') :
    Accepts p s (ch :: text) rc ↔ rc = (finishStatus s' p, p + 1) := by
  rw [Accepts, statusRun, hstep]
  simp only [StatusRc.ok.injEq]
  exact ⟨fun h => Prod.ext h.1.symm h.2.symm, fun h => by rw [h]; exact ⟨rfl, rfl⟩⟩

theorem accepts_expect {want : Char} {state : StatusState}
    (hstep : ∀ ch, statusStep p ch s = expectStatus want state ch s) :
    Accepts p s text rc ↔ ∃ rest, text = chr want :: rest ∧
      Accepts (p + 1) { s with state := state } rest rc := by
  cases text with
  | nil => exact iff_of_false accepts_nil fun ⟨rest, heq, _⟩ => by cases heq
  | cons ch text =>
    by_cases hch : ch = chr want
    · subst hch
      rw [accepts_next ((hstep _).trans (if_pos rfl))]
      exact ⟨fun h => ⟨text, rfl, h⟩, fun ⟨rest, heq, h⟩ => by rw [(cons.inj heq).2]; exact h⟩
    · exact iff_of_false (accepts_error ((hstep _).trans (if_neg hch))) fun ⟨rest, heq, _⟩ =>
        hch (cons.inj heq).1

theorem accepts_http (hs : s.state = .start) : Accepts p s text rc ↔
    ∃ rest, text = ascii "HTTP/" ++ rest ∧
      Accepts (p + 5) { s with state := .firstMajorDigit } rest rc := by
  have hstart : ∀ {text}, Accepts p s text rc ↔ ∃ rest, text = chr 'H' :: rest ∧
    Accepts (p + 1) { s with state := .h } rest rc :=
    accepts_expect fun ch => by rw [statusStep, hs]
  have hh : ∀ {text}, Accepts (p + 1) { s with state := .h } text rc ↔
      ∃ rest, text = chr 'T' :: rest ∧ Accepts (p + 2) { s with state := .ht } rest rc :=
        accepts_expect fun ch => rfl
  have hht : ∀ {text}, Accepts (p + 2) { s with state := .ht } text rc ↔
      ∃ rest, text = chr 'T' :: rest ∧ Accepts (p + 3) { s with state := .htt } rest rc :=
        accepts_expect fun ch => rfl
  have hhtt : ∀ {text}, Accepts (p + 3) { s with state := .htt } text rc ↔
      ∃ rest, text = chr 'P' :: rest ∧ Accepts (p + 4) { s with state := .http } rest rc :=
        accepts_expect fun ch => rfl
  have hhttp : ∀ {text}, Accepts (p + 4) { s with state := .http } text rc ↔
      ∃ rest, text = chr '/' :: rest ∧
        Accepts (p + 5) { s with state := .firstMajorDigit } rest rc := accepts_expect fun ch => rfl
  constructor
  · intro h
    obtain ⟨text₁, heq₁, h₁⟩ := hstart.mp h
    obtain ⟨text₂, heq₂, h₂⟩ := hh.mp h₁
    obtain ⟨text₃, heq₃, h₃⟩ := hht.mp h₂
    obtain ⟨text₄, heq₄, h₄⟩ := hhtt.mp h₃
    obtain ⟨rest, heq₅, h₅⟩ := hhttp.mp h₄
    exact ⟨rest, by rw [heq₁, heq₂, heq₃, heq₄, heq₅]; rfl, h₅⟩
  · rintro ⟨rest, rfl, h⟩
    exact hstart.mpr
      ⟨_, rfl, hh.mpr ⟨_, rfl, hht.mpr ⟨_, rfl, hhtt.mpr ⟨_, rfl, hhttp.mpr ⟨rest, rfl, h⟩⟩⟩⟩⟩

end Parts

/-! ### Version numbers -/

section Numbers

variable {p : Nat} {s : StatusLine} {rc : StatusLine × Nat} {text : Bytes}

theorem isDigit_iff {ch : Byte} : isDigit ch = true ↔ ¬ (ch < chr '0' ∨ ch > chr '9') := by
  rw [isDigit, decide_eq_true_eq, not_or, UInt8.not_lt, gt_iff_lt, UInt8.not_lt]

theorem decimal_concat (digits : Bytes) (ch : Byte) :
    decimal (digits ++ [ch]) = decimal digits * 10 + digitValue ch := by
  rw [decimal, foldl_append, ← decimal, foldl_cons, foldl_nil, mul_comm]

theorem le_decimal_append (digits more : Bytes) : decimal digits ≤ decimal (digits ++ more) := by
  rw [decimal, decimal, foldl_append]
  exact le_decimalFrom _ more

theorem decimal_le_iff {ch : Byte} {digits : Bytes} (hch : isDigit ch = true)
    (hdigits : ∀ ch ∈ digits, isDigit ch = true) :
    decimal (ch :: digits) ≤ 999 ↔ (digits ≠ [] → decimal ([ch] ++ digits).dropLast ≤ 99) := by
  by_cases hnil : digits = []
  · subst hnil
    have hle : decimal [ch] ≤ 9 := by
      rw [← nil_append [ch], decimal_concat]
      have hle := digitValue_le hch
      simpa [decimal] using hle
    exact iff_of_true (by omega) fun h => absurd rfl h
  have hlast : digitValue (digits.getLast hnil) ≤ 9 :=
    digitValue_le (hdigits _ (getLast_mem hnil))
  have hsplit : decimal (ch :: digits) =
    decimal ([ch] ++ digits).dropLast * 10 + digitValue (digits.getLast hnil) := by
    rw [dropLast_append_of_ne_nil hnil, ← decimal_concat, append_assoc,
      dropLast_append_getLast hnil]
    rfl
  rw [hsplit]
  constructor
  · intro h _
    omega
  · intro h
    have h := h hnil
    omega

theorem accepts_number {stopChar : Char} (field : Nat → StatusLine) (ended : Nat → StatusLine)
    (hstopChar : isDigit (chr stopChar) = false)
    (hstep : ∀ p n ch, statusStep p ch (field n) =
      if ch = chr stopChar then .next (ended n) else if ch < chr '0' ∨ ch > chr '9' then .error
      else if n > 99 then .error else .next (field (n * 10 + digitValue ch)))
    (seen : Bytes) : Accepts p (field (decimal seen)) text rc ↔
      ∃ digits rest, text = digits ++ chr stopChar :: rest ∧ (∀ ch ∈ digits, isDigit ch = true) ∧
        (digits ≠ [] → decimal (seen ++ digits).dropLast ≤ 99) ∧
        Accepts (p + digits.length + 1) (ended (decimal (seen ++ digits))) rest rc := by
  induction text generalizing p seen with
  | nil =>
    exact iff_of_false accepts_nil fun ⟨digits, rest, heq, _⟩ => by cases digits <;> cases heq
  | cons ch text ih =>
    by_cases hend : ch = chr stopChar
    · subst hend
      rw [accepts_next ((hstep p (decimal seen) _).trans (if_pos rfl))]
      constructor
      · exact fun h =>
          ⟨[], text, rfl, fun ch hch => absurd hch not_mem_nil, fun h =>
            absurd rfl h, by rwa [append_nil]⟩
      rintro ⟨digits, rest, heq, hdigits, -, h⟩
      cases digits with
      | nil =>
        rw [(cons.inj heq).2]
        rwa [append_nil] at h
      | cons d digits =>
        have hd := hdigits d mem_cons_self
        rw [← (cons.inj heq).1, hstopChar] at hd
        cases hd
    · by_cases hdigit : isDigit ch = true
      · have hstep' :=
          (hstep p (decimal seen) ch).trans ((if_neg hend).trans (if_neg (isDigit_iff.mp hdigit)))
        have hmore : ∀ digits, seen ++ ch :: digits = seen ++ [ch] ++ digits := fun digits => by
          rw [append_assoc, singleton_append]
        by_cases hlarge : decimal seen > 99
        · refine iff_of_false (accepts_error (hstep'.trans (if_pos hlarge))) ?_
          rintro ⟨digits, rest, heq, -, hle, -⟩
          cases digits with
          | nil => exact hend (cons.inj heq).1
          | cons d digits =>
            have hle := hle (cons_ne_nil _ _)
            rw [dropLast_append_of_ne_nil (cons_ne_nil _ _)] at hle
            exact absurd (le_trans (le_decimal_append seen _) hle) (not_le.mpr hlarge)
        · rw [accepts_next (hstep'.trans (if_neg hlarge)), ← decimal_concat, ih (seen ++ [ch])]
          constructor
          · rintro ⟨digits, rest, rfl, hdigits, hle, h⟩
            refine ⟨ch :: digits, rest, rfl, forall_mem_cons.mpr ⟨hdigit, hdigits⟩, fun _ => ?_, ?_⟩
            · rw [hmore]
              by_cases hnil : digits = []
              · rw [hnil, append_nil, dropLast_concat]
                exact not_lt.mp hlarge
              · exact hle hnil
            · rw [hmore, length_cons, add_comm digits.length 1, ← add_assoc]
              exact h
          · rintro ⟨digits, rest, heq, hdigits, hle, h⟩
            cases digits with
            | nil => exact absurd (cons.inj heq).1 hend
            | cons d digits =>
              obtain ⟨rfl, htext⟩ := cons.inj heq
              refine ⟨digits, rest, htext, (forall_mem_cons.mp hdigits).2, fun _ => ?_, ?_⟩
              · rw [← hmore]
                exact hle (cons_ne_nil _ _)
              · rw [hmore, length_cons, add_comm digits.length 1, ← add_assoc] at h
                exact h
      · refine iff_of_false
          (accepts_error ((hstep p (decimal seen) ch).trans ((if_neg hend).trans (if_pos ?_)))) ?_
        · exact not_not.mp (mt isDigit_iff.mpr hdigit)
        rintro ⟨digits, rest, heq, hdigits, -⟩
        cases digits with
        | nil => exact hend (cons.inj heq).1
        | cons d digits =>
          refine hdigit ?_
          rw [(cons.inj heq).1]
          exact hdigits d mem_cons_self

theorem accepts_version {stopChar least : Char} (field : Nat → StatusLine)
    (ended : Nat → StatusLine)
    (hstopChar : isDigit (chr stopChar) = false) (hleast : chr '0' ≤ chr least)
    (hfirst : ∀ p ch, statusStep p ch s =
      if ch < chr least ∨ ch > chr '9' then .error else .next (field (digitValue ch)))
    (hstep : ∀ p n ch, statusStep p ch (field n) =
      if ch = chr stopChar then .next (ended n) else if ch < chr '0' ∨ ch > chr '9' then .error
      else if n > 99 then .error else .next (field (n * 10 + digitValue ch))) :
    Accepts p s text rc ↔ ∃ version rest, text = version ++ chr stopChar :: rest ∧
      Version least version ∧
      Accepts (p + version.length + 1) (ended (decimal version)) rest rc := by
  cases text with
  | nil =>
    refine iff_of_false accepts_nil ?_
    rintro ⟨version, rest, heq, -⟩
    exact absurd heq.symm (append_ne_nil_of_right_ne_nil _ (cons_ne_nil _ _))
  | cons ch text =>
    by_cases hch : ch < chr least ∨ ch > chr '9'
    · refine iff_of_false (accepts_error ((hfirst p ch).trans (if_pos hch))) ?_
      rintro ⟨version, rest, heq, hversion, -⟩
      cases version with
      | nil => exact hversion.ne_nil rfl
      | cons d digits =>
        have hd : ch = d := (cons.inj heq).1
        have hle : chr least ≤ d := hversion.head d rfl
        have hdigit := isDigit_iff.mp (hversion.digit d mem_cons_self)
        rw [hd] at hch
        exact hdigit (hch.imp (fun h => absurd hle (UInt8.not_le.mpr h)) id)
    · have hfield : field (digitValue ch) = field (decimal [ch]) := by
        rw [decimal, foldl_cons, foldl_nil, mul_zero, zero_add]
      have hdigit : isDigit ch = true := by
        refine isDigit_iff.mpr fun h => hch ?_
        exact h.imp (fun h => UInt8.lt_of_lt_of_le h hleast) id
      rw [accepts_next ((hfirst p ch).trans (if_neg hch)), hfield,
        accepts_number field ended hstopChar hstep]
      constructor
      · rintro ⟨digits, rest, rfl, hdigits, hle, h⟩
        refine ⟨ch :: digits, rest, rfl,
          ⟨cons_ne_nil _ _, forall_mem_cons.mpr ⟨hdigit, hdigits⟩, ?_, ?_⟩, ?_⟩
        · rintro _ ⟨⟩
          exact UInt8.not_lt.mp (not_or.mp hch).1
        · exact (decimal_le_iff hdigit hdigits).mpr hle
        · rw [length_cons, add_comm digits.length 1, ← add_assoc]
          exact h
      · rintro ⟨version, rest, heq, hversion, h⟩
        cases version with
        | nil => exact absurd rfl hversion.ne_nil
        | cons d digits =>
          obtain ⟨rfl, htext⟩ := cons.inj heq
          have hdigits := (forall_mem_cons.mp hversion.digit).2
          refine ⟨digits, rest, htext, hdigits, (decimal_le_iff hdigit hdigits).mp hversion.le, ?_⟩
          rw [length_cons, add_comm digits.length 1, ← add_assoc] at h
          exact h

theorem accepts_major (hs : s.state = .firstMajorDigit) : Accepts p s text rc ↔
    ∃ version rest, text = version ++ chr '.' :: rest ∧ Version '1' version ∧
      Accepts (p + version.length + 1)
        { s with httpMajor := decimal version, state := .firstMinorDigit } rest rc := by
  refine accepts_version (fun n => { s with httpMajor := n, state := .majorDigit })
    (fun n => { s with httpMajor := n, state := .firstMinorDigit })
      (by decide) (by decide) ?_ fun p n ch => rfl
  intro p ch
  rw [statusStep, hs]

theorem accepts_minor (hs : s.state = .firstMinorDigit) : Accepts p s text rc ↔
    ∃ version rest, text = version ++ chr ' ' :: rest ∧ Version '0' version ∧
      Accepts (p + version.length + 1)
        { s with httpMinor := decimal version, state := .status } rest rc := by
  refine accepts_version (fun n => { s with httpMinor := n, state := .minorDigit })
    (fun n => { s with httpMinor := n, state := .status }) (by decide) (by decide) ?_ fun p n ch =>
      rfl
  intro p ch
  rw [statusStep, hs]

end Numbers

/-! ### The code -/

section Code

variable {p : Nat} {s : StatusLine} {rc : StatusLine × Nat} {text : Bytes}

/-- After a digit of the code at `p`. -/
def afterDigit (p : Nat) (digit : Byte) (s : StatusLine) : StatusLine :=
  let s := { s with code := s.code * 10 + digitValue digit, count := s.count + 1 }
  if s.count = 3 then { s with state := .spaceAfterStatus, start := p - 2 } else s

theorem accepts_code_digit (hs : s.state = .status) : Accepts p s text rc ↔
    ∃ spaces digit rest, text = spaces ++ digit :: rest ∧ Spaces spaces ∧ isDigit digit = true ∧
      Accepts (p + spaces.length + 1) (afterDigit (p + spaces.length) digit s) rest rc := by
  have hstep : ∀ p ch, statusStep p ch s = if ch = chr ' ' then .next s else if ch < chr '0' ∨
    ch > chr '9' then .error
      else .next (afterDigit p ch s) := by
    intro p ch
    cases s
    cases hs
    rw [afterDigit, apply_ite StatusStep.next]
    rfl
  have hspace : isDigit (chr ' ') = false := by decide
  induction text generalizing p with
  | nil =>
    refine iff_of_false accepts_nil ?_
    rintro ⟨spaces, digit, rest, heq, -⟩
    exact absurd heq.symm (append_ne_nil_of_right_ne_nil _ (cons_ne_nil _ _))
  | cons ch text ih =>
    by_cases hch : ch = chr ' '
    · subst hch
      refine (accepts_next ((hstep p _).trans (if_pos rfl))).trans (ih.trans ?_)
      constructor
      · rintro ⟨spaces, digit, rest, rfl, hspaces, hdigit, h⟩
        refine ⟨chr ' ' :: spaces, digit, rest, rfl, forall_mem_cons.mpr ⟨rfl, hspaces⟩, hdigit, ?_⟩
        rw [length_cons, add_comm spaces.length 1, ← add_assoc]
        exact h
      rintro ⟨spaces, digit, rest, heq, hspaces, hdigit, h⟩
      cases spaces with
      | nil =>
        rw [← (cons.inj heq).1, hspace] at hdigit
        cases hdigit
      | cons space spaces =>
        refine ⟨spaces, digit, rest, (cons.inj heq).2, (forall_mem_cons.mp hspaces).2, hdigit, ?_⟩
        rw [length_cons, add_comm spaces.length 1, ← add_assoc] at h
        exact h
    · by_cases hdigit : isDigit ch = true
      · rw [accepts_next ((hstep p ch).trans ((if_neg hch).trans (if_neg (isDigit_iff.mp hdigit))))]
        constructor
        · exact fun h => ⟨[], ch, text, rfl, fun ch hch => absurd hch not_mem_nil, hdigit, h⟩
        rintro ⟨spaces, digit, rest, heq, hspaces, -, h⟩
        cases spaces with
        | nil =>
          obtain ⟨rfl, rfl⟩ := cons.inj heq
          exact h
        | cons space spaces =>
          exact absurd ((cons.inj heq).1.trans (hspaces space mem_cons_self)) hch
      · refine iff_of_false (accepts_error ((hstep p ch).trans ((if_neg hch).trans (if_pos ?_)))) ?_
        · exact not_not.mp (mt isDigit_iff.mpr hdigit)
        · rintro ⟨spaces, digit, rest, heq, hspaces, hdigit', -⟩
          cases spaces with
          | nil => exact hdigit ((cons.inj heq).1 ▸ hdigit')
          | cons space spaces => exact hch ((cons.inj heq).1.trans (hspaces space mem_cons_self))

end Code

/-! ### The end of the line -/

section Tail

variable {p : Nat} {s : StatusLine} {rc : StatusLine × Nat} {text : Bytes}

/-- What `NGX_OK` leaves, where the text of the line ends at `q`. -/
def StatusLine.ended (s : StatusLine) (q : Nat) : StatusLine :=
  { s with stop := q, httpVersion := s.httpMajor * 1000 + s.httpMinor, state := .start }

theorem finishStatus_of_stop_eq (state : StatusState) (hstop : s.stop = 0) :
    finishStatus { s with state := state } p = s.ended p := by
  rw [finishStatus, hstop, if_pos rfl, StatusLine.ended]

theorem accepts_almostDone (hp : 0 < p) : Accepts (p + 1) { s with state := .almostDone } text rc ↔
    ∃ rest, text = lf :: rest ∧ rc = (s.ended p, p + 2) := by
  cases text with
  | nil => exact iff_of_false accepts_nil fun ⟨rest, heq, _⟩ => by cases heq
  | cons ch text =>
    by_cases hch : ch = lf
    · subst hch
      have hfinish : finishStatus
        { s with state := .almostDone, stop := p + 1 - 1 } (p + 1) = s.ended p := by
        rw [finishStatus, Nat.add_sub_cancel, if_neg (ne_of_gt hp), StatusLine.ended]
      have hstep : statusStep (p + 1) lf { s with state := .almostDone } =
          .done { s with state := .almostDone, stop := p + 1 - 1 } := rfl
      rw [accepts_done hstep, hfinish]
      exact ⟨fun h => ⟨text, rfl, h⟩, fun ⟨_, _, h⟩ => h⟩
    · exact iff_of_false (accepts_error (if_neg hch)) fun ⟨rest, heq, _⟩ => hch (cons.inj heq).1

theorem cr_ne_lf : cr ≠ lf := by decide

theorem accepts_eol (hp : 0 < p) (hstop : s.stop = 0)
    (hcr : ∀ p, statusStep p cr s = .next { s with state := .almostDone })
    (hlf : ∀ p, statusStep p lf s = .done s)
    {ch : Byte} (hch : ch = cr ∨ ch = lf) : Accepts p s (ch :: text) rc ↔
      ∃ eol rest, ch :: text = eol ++ rest ∧ IsEol eol ∧ rc = (s.ended p, p + eol.length) := by
  rcases hch with rfl | rfl
  · rw [accepts_next (hcr p), accepts_almostDone hp]
    constructor
    · rintro ⟨rest, rfl, h⟩
      exact ⟨[cr, lf], rest, rfl, .inl rfl, h⟩
    · rintro ⟨eol, rest, heq, rfl | rfl, h⟩
      · exact ⟨rest, (cons.inj heq).2, h⟩
      · exact absurd (cons.inj heq).1 cr_ne_lf
  · rw [accepts_done (hlf p), finishStatus_of_stop_eq s.state hstop]
    constructor
    · exact fun h => ⟨[lf], text, rfl, .inr rfl, h⟩
    · rintro ⟨eol, rest, heq, rfl | rfl, h⟩
      · exact absurd (cons.inj heq).1.symm cr_ne_lf
      · exact h

theorem accepts_line (hp : 0 < p) (hs : s.state = .statusText) (hstop : s.stop = 0) :
    Accepts p s text rc ↔
    ∃ line eol rest, text = line ++ (eol ++ rest) ∧ NoEol line ∧ IsEol eol ∧
      rc = (s.ended (p + line.length), p + line.length + eol.length) := by
  have hstep : ∀ p ch, statusStep p ch s =
      if ch = cr then .next
        { s with state := .almostDone } else if ch = lf then .done s else .next s := by
    intro p ch
    cases s
    cases hs
    rfl
  induction text generalizing p with
  | nil =>
    refine iff_of_false accepts_nil ?_
    rintro ⟨line, eol, rest, heq, -, rfl | rfl, -⟩ <;> cases line <;> cases heq
  | cons ch text ih =>
    by_cases hch : ch = cr ∨ ch = lf
    · have hlf : ∀ p, statusStep p lf s = .done s := fun p =>
        (hstep p lf).trans ((if_neg cr_ne_lf.symm).trans (if_pos rfl))
      rw [accepts_eol hp hstop (fun p => (hstep p cr).trans (if_pos rfl)) hlf hch]
      constructor
      · rintro ⟨eol, rest, heq, heol, h⟩
        exact ⟨[], eol, rest, heq, fun ch hch => absurd hch not_mem_nil, heol, h⟩
      rintro ⟨line, eol, rest, heq, hline, heol, h⟩
      cases line with
      | nil => exact ⟨eol, rest, heq, heol, h⟩
      | cons d line =>
        have hd := hline d mem_cons_self
        rw [← (cons.inj heq).1] at hd
        exact (hch.elim hd.1 hd.2).elim
    · obtain ⟨hcr, hlf⟩ := not_or.mp hch
      refine (accepts_next ((hstep p ch).trans ((if_neg hcr).trans (if_neg hlf)))).trans
        ((ih (Nat.succ_pos p)).trans ?_)
      constructor
      · rintro ⟨line, eol, rest, rfl, hline, heol, h⟩
        refine ⟨ch :: line, eol, rest, rfl, forall_mem_cons.mpr ⟨⟨hcr, hlf⟩, hline⟩, heol, ?_⟩
        rw [length_cons, add_comm line.length 1, ← add_assoc]
        exact h
      rintro ⟨line, eol, rest, heq, hline, heol, h⟩
      cases line with
      | nil =>
        rcases heol with rfl | rfl
        · exact absurd (cons.inj heq).1 hcr
        · exact absurd (cons.inj heq).1 hlf
      | cons d line =>
        refine ⟨line, eol, rest, (cons.inj heq).2, (forall_mem_cons.mp hline).2, heol, ?_⟩
        rw [length_cons, add_comm line.length 1, ← add_assoc] at h
        exact h

set_option maxRecDepth 4000 in
theorem accepts_tail (hp : 0 < p) (hs : s.state = .spaceAfterStatus) (hstop : s.stop = 0) :
    Accepts p s text rc ↔
    ∃ tail eol rest, text = tail ++ (eol ++ rest) ∧ IsTail tail ∧ IsEol eol ∧
      rc = (s.ended (p + tail.length), p + tail.length + eol.length) := by
  have hstep : ∀ p ch, statusStep p ch s =
      if ch = chr ' ' then .next { s with state := .statusText } else if ch = chr '.' then .next
        { s with state := .statusText }
      else if ch = cr then .next
        { s with state := .almostDone } else if ch = lf then .done s else .error := by
    intro p ch
    cases s
    cases hs
    rfl
  have heolStart : ∀ {eol : Bytes}, IsEol eol → ∃ ch eol', eol = ch :: eol' ∧
    (ch = cr ∨ ch = lf) := by
    rintro eol (rfl | rfl)
    · exact ⟨cr, [lf], rfl, .inl rfl⟩
    · exact ⟨lf, [], rfl, .inr rfl⟩
  cases text with
  | nil =>
    refine iff_of_false accepts_nil ?_
    rintro ⟨tail, eol, rest, heq, -, rfl | rfl, -⟩ <;> cases tail <;> cases heq
  | cons ch text =>
    by_cases hmark : ch = chr ' ' ∨ ch = chr '.'
    · have hnext : statusStep p ch s = .next { s with state := .statusText } := by
        rw [hstep]
        split
        · rfl
        · next hne => exact if_pos (hmark.resolve_left hne)
      refine (accepts_next hnext).trans
        ((accepts_line (s := { s with state := .statusText }) (Nat.succ_pos p) rfl hstop).trans ?_)
      constructor
      · rintro ⟨line, eol, rest, rfl, hline, heol, h⟩
        refine ⟨ch :: line, eol, rest, rfl, .inr ⟨ch, line, rfl, hmark, hline⟩, heol, ?_⟩
        rw [length_cons, add_comm line.length 1, ← add_assoc]
        exact h
      rintro ⟨tail, eol, rest, heq, rfl | ⟨d, line, rfl, -, hline⟩, heol, h⟩
      · obtain ⟨d, eol', rfl, hd⟩ := heolStart heol
        have hne : ∀ mark ∈ [chr ' ', chr '.'], mark ≠ cr ∧ mark ≠ lf := by decide
        rw [← (cons.inj heq).1] at hd
        have hboth := hne ch (by rcases hmark with rfl | rfl <;> simp)
        exact (hd.elim hboth.1 hboth.2).elim
      · refine ⟨line, eol, rest, (cons.inj heq).2, hline, heol, ?_⟩
        rw [length_cons, add_comm line.length 1, ← add_assoc] at h
        exact h
    · obtain ⟨hspace, hdot⟩ := not_or.mp hmark
      have hrest := fun p => (hstep p ch).trans ((if_neg hspace).trans (if_neg hdot))
      by_cases hch : ch = cr ∨ ch = lf
      · have hcr : ∀ p, statusStep p cr s = .next { s with state := .almostDone } :=
          fun p => hstep p cr
        rw [accepts_eol hp hstop hcr (fun p => hstep p lf) hch]
        constructor
        · rintro ⟨eol, rest, heq, heol, h⟩
          exact ⟨[], eol, rest, heq, .inl rfl, heol, h⟩
        · rintro ⟨tail, eol, rest, heq, rfl | ⟨d, line, rfl, hd, -⟩, heol, h⟩
          · exact ⟨eol, rest, heq, heol, h⟩
          · exact absurd ((cons.inj heq).1 ▸ hd) hmark
      · obtain ⟨hcr, hlf⟩ := not_or.mp hch
        refine iff_of_false (accepts_error ((hrest p).trans ((if_neg hcr).trans (if_neg hlf)))) ?_
        rintro ⟨tail, eol, rest, heq, rfl | ⟨d, line, rfl, hd, -⟩, heol, -⟩
        · obtain ⟨d, eol', rfl, hd⟩ := heolStart heol
          exact hch ((cons.inj heq).1 ▸ hd)
        · exact hmark ((cons.inj heq).1 ▸ hd)

end Tail

end Nginx.Http.Parse
