/-
  Foundation/Substitution.lean --- replacing occurrences of patterns in a text.

  A text is read from the left; where a pattern occurs it is replaced, the first
  pattern of the list going first, and reading goes on behind it.  A reader that
  does not see the whole text yet has to hold back what may still become an
  occurrence: what can be said of a piece of text, whatever comes after it, is
  `Passed`.
-/
import Mathlib.Data.List.Basic

set_option autoImplicit false

namespace Nginx.Foundation

open List Option

variable {α : Type} [DecidableEq α]

/-- A pattern and what replaces it. -/
structure Rule (α : Type) where
  pattern : List α
  value : List α
  deriving DecidableEq

section definitions

variable (norm : α → α)

/-- Compare a text with a pattern: `none` where they differ, and otherwise what is left of the
pattern when it or the text ends. -/
def compareText : List α → List α → Option (List α)
  | _, [] => some []
  | [], p :: pattern => some (p :: pattern)
  | b :: text, p :: pattern => if norm b = p then compareText text pattern else none

/-- The pattern stands at the beginning of the text. -/
def Rule.occurs (r : Rule α) (text : List α) : Bool := compareText norm text r.pattern = some []

/-- The text does not differ from the pattern, as far as it goes. -/
def Rule.stands (r : Rule α) (text : List α) : Bool := (compareText norm text r.pattern).isSome

variable (rules : List (Rule α))

/-- A text with its occurrences replaced, after some characters that are skipped. -/
def substitute : Nat → List α → List α
  | _, [] => []
  | skip + 1, _ :: text => substitute skip text
  | 0, b :: text =>
    match rules.find? fun r => r.occurs norm (b :: text) with
    | some r => r.value ++ substitute (r.pattern.length - 1) text
    | none => b :: substitute 0 text

/-- The end of a text, from where a pattern is cut off that goes before all that occur there. -/
def cutOff : Nat → List α → List α
  | _, [] => []
  | skip + 1, _ :: text => cutOff skip text
  | 0, b :: text =>
    match rules.find? fun r => r.stands norm (b :: text) with
    | some r => if r.occurs norm (b :: text) then cutOff (r.pattern.length - 1) text else b :: text
    | none => cutOff 0 text

/-- No pattern occurs in the text. -/
def Free (text : List α) : Prop := ∀ k, ∀ r ∈ rules, r.occurs norm (text.drop k) = false

/-- Whatever comes after `text`, the beginning of it becomes `out`, and `rest` is left to be read.
-/
structure Passed (text out rest : List α) : Prop where
  substitute : ∀ more,
    substitute norm rules 0 (text ++ more) = out ++ substitute norm rules 0 (rest ++ more)
  cutOff : ∀ more, cutOff norm rules 0 (text ++ more) = cutOff norm rules 0 (rest ++ more)

end definitions

variable {norm : α → α} {rules : List (Rule α)} {text more out out' rest rest' : List α}
    {r : Rule α}

/-! ## Comparing -/

theorem compareText_nil (text : List α) : compareText norm text [] = some [] := by
  cases text <;> rfl

theorem compareText_cons (b : α) (text : List α) (p : α) (pattern : List α) :
    compareText norm (b :: text) (p :: pattern) = if norm b =
      p then compareText norm text pattern else none := rfl

theorem compareText_append (text more pattern : List α) :
    compareText norm (text ++ more) pattern =
      (compareText norm text pattern).bind (compareText norm more) := by
  induction text generalizing pattern with
  | nil =>
    cases pattern with
    | nil => rw [compareText_nil, compareText_nil, bind_some, compareText_nil]
    | cons p pattern => rfl
  | cons b text ih =>
    cases pattern with
    | nil => rw [compareText_nil, compareText_nil, bind_some, compareText_nil]
    | cons p pattern =>
      rw [cons_append, compareText_cons, compareText_cons]
      split
      · exact ih pattern
      · rfl

theorem length_lt_of_cut {pattern left : List α} (h : compareText norm text pattern = some left)
    (hleft : left ≠ []) :
    text.length < pattern.length := by
  induction text generalizing pattern with
  | nil =>
    cases pattern with
    | nil =>
      rw [compareText_nil] at h
      exact absurd (some.inj h).symm hleft
    | cons p pattern => exact Nat.succ_pos _
  | cons b text ih =>
    cases pattern with
    | nil =>
      rw [compareText_nil] at h
      exact absurd (some.inj h).symm hleft
    | cons p pattern =>
      unfold compareText at h
      split at h
      · exact Nat.succ_lt_succ (ih h)
      · exact absurd h.symm (some_ne_none _)

theorem length_le_of_occurs {pattern : List α} (h : compareText norm text pattern = some []) :
    pattern.length ≤ text.length := by
  induction text generalizing pattern with
  | nil =>
    cases pattern with
    | nil => exact Nat.le_refl _
    | cons p pattern => exact absurd (some.inj h) (cons_ne_nil p pattern)
  | cons b text ih =>
    cases pattern with
    | nil => exact Nat.zero_le _
    | cons p pattern =>
      unfold compareText at h
      split at h
      · exact Nat.succ_le_succ (ih h)
      · exact absurd h.symm (some_ne_none _)

theorem getElem?_of_stands {pattern left : List α}
    (h : compareText norm text pattern = some left) {k : Nat} {b : α}
    (hb : text[k]? = some b) (hk : k < pattern.length) : pattern[k]? = some (norm b) := by
  induction text generalizing pattern k with
  | nil => exact absurd hb (by simp)
  | cons c text ih =>
    cases pattern with
    | nil => exact absurd hk (Nat.not_lt_zero k)
    | cons p pattern =>
      unfold compareText at h
      split at h
      next heq =>
        cases k with
        | zero =>
          obtain rfl : c = b := some.inj hb
          rw [heq]
          rfl
        | succ k => exact ih h (by simpa using hb) (Nat.lt_of_succ_lt_succ hk)
      next => exact absurd h.symm (some_ne_none _)

theorem stands_append_of_not (h : r.stands norm text = false) (more : List α) :
    r.stands norm (text ++ more) = false := by
  have hnone := isNone_iff_eq_none.mp (isSome_eq_false_iff.mp h)
  unfold Rule.stands
  rw [compareText_append, hnone]
  rfl

theorem occurs_append (h : r.occurs norm text = true) (more : List α) :
    r.occurs norm (text ++ more) = true := by
  unfold Rule.occurs at h ⊢
  rw [compareText_append, of_decide_eq_true h, bind_some, compareText_nil]
  rfl

theorem stands_of_occurs (h : r.occurs norm text = true) : r.stands norm text = true := by
  unfold Rule.occurs at h
  unfold Rule.stands
  rw [of_decide_eq_true h]
  rfl

theorem occurs_of_not_stands (h : r.stands norm text = false) : r.occurs norm text = false := by
  apply Bool.eq_false_iff.mpr
  intro hoccurs
  exact Bool.false_ne_true (h.symm.trans (stands_of_occurs hoccurs))

/-! ## Reading on -/

theorem substitute_skip (skip : Nat) (text : List α) :
    substitute norm rules skip text = substitute norm rules 0 (text.drop skip) := by
  induction text generalizing skip with
  | nil => cases skip <;> rfl
  | cons b text ih =>
    cases skip with
    | zero => rfl
    | succ skip => exact ih skip

theorem cutOff_skip (skip : Nat) (text : List α) :
    cutOff norm rules skip text = cutOff norm rules 0 (text.drop skip) := by
  induction text generalizing skip with
  | nil => cases skip <;> rfl
  | cons b text ih =>
    cases skip with
    | zero => rfl
    | succ skip => exact ih skip

namespace Passed

theorem refl (text : List α) : Passed norm rules text [] text := ⟨fun _ => rfl, fun _ => rfl⟩

theorem trans (h : Passed norm rules text out rest) (h' : Passed norm rules rest out' rest') :
    Passed norm rules text (out ++ out') rest' where
  substitute := fun more => by rw [h.substitute, h'.substitute, append_assoc]
  cutOff := fun more => by rw [h.cutOff, h'.cutOff]

theorem append (h : Passed norm rules text out rest) (more : List α) :
    Passed norm rules (text ++ more) out (rest ++ more) where
  substitute := fun more' => by rw [append_assoc, append_assoc, h.substitute]
  cutOff := fun more' => by rw [append_assoc, append_assoc, h.cutOff]

theorem one {b : α} (hnone : ∀ r ∈ rules, r.stands norm (b :: text) = false) :
    Passed norm rules (b :: text) [b] text := by
  have hlater : ∀ more, ∀ r ∈ rules, r.stands norm (b :: (text ++ more)) = false :=
    fun more r hr => stands_append_of_not (hnone r hr) more
  refine ⟨fun more => ?_, fun more => ?_⟩
  · have hfind : (rules.find? fun r => r.occurs norm (b :: (text ++ more))) = none :=
      find?_eq_none.mpr fun r hr => by simp [occurs_of_not_stands (hlater more r hr)]
    rw [cons_append, Foundation.substitute, hfind]
    rfl
  · have hfind : (rules.find? fun r => r.stands norm (b :: (text ++ more))) = none :=
      find?_eq_none.mpr fun r hr => by simp [hlater more r hr]
    rw [cons_append, Foundation.cutOff, hfind]

theorem many {k : Nat} (hk : k ≤ text.length)
    (hnone : ∀ s < k, ∀ r ∈ rules, r.stands norm (text.drop s) = false) :
    Passed norm rules text (text.take k) (text.drop k) := by
  induction k generalizing text with
  | zero => exact refl text
  | succ k ih =>
    cases text with
    | nil => exact absurd hk (Nat.not_succ_le_zero k)
    | cons b text =>
      have hrest := ih (Nat.le_of_succ_le_succ hk) fun s hs => hnone (s + 1) (Nat.succ_lt_succ hs)
      exact (one (hnone 0 (Nat.succ_pos k))).trans hrest

theorem rule (hfind : (rules.find? fun r => r.stands norm text) = some r)
    (hoccurs : r.occurs norm text = true)
    (hne : r.pattern ≠ []) : Passed norm rules text r.value (text.drop r.pattern.length) := by
  obtain ⟨hstands, before, after, rfl, hbefore⟩ := find?_eq_some_iff_append.mp hfind
  have hlength : r.pattern.length ≤ text.length := length_le_of_occurs (of_decide_eq_true hoccurs)
  obtain ⟨n, hn⟩ : ∃ n, r.pattern.length = n + 1 :=
    ⟨r.pattern.length - 1, by have := length_pos_of_ne_nil hne; omega⟩
  cases text with
  | nil =>
    rw [hn] at hlength
    exact absurd hlength (Nat.not_succ_le_zero n)
  | cons b text =>
    have hnot : ∀ more, ∀ x ∈ before, x.stands norm (b :: (text ++ more)) = false :=
      fun more x hx => @stands_append_of_not _ _ _ (b :: text) x (by simpa using hbefore x hx) more
    have hlater : ∀ more, r.occurs norm (b :: (text ++ more)) = true :=
      fun more => occurs_append hoccurs more
    have hdrop : ∀ more, (text ++ more).drop n = text.drop n ++ more := fun more =>
      drop_append_of_le_length (by rw [hn] at hlength; exact Nat.le_of_succ_le_succ hlength)
    rw [hn, drop_succ_cons]
    refine ⟨fun more => ?_, fun more => ?_⟩
    · have hfirst : ((before ++ r :: after).find? fun r => r.occurs norm (b :: (text ++ more))) =
        some r :=
        find?_eq_some_iff_append.mpr ⟨hlater more, before, after, rfl, fun x hx => by
          simp [occurs_of_not_stands (hnot more x hx)]⟩
      rw [cons_append, Foundation.substitute, hfirst]
      simp only
      rw [hn, Nat.add_sub_cancel, substitute_skip, hdrop]
    · have hfirst : ((before ++ r :: after).find? fun r => r.stands norm (b :: (text ++ more))) =
        some r :=
        find?_eq_some_iff_append.mpr
          ⟨stands_of_occurs (hlater more), before, after, rfl, fun x hx => by
          simp [hnot more x hx]⟩
      rw [cons_append, Foundation.cutOff, hfirst]
      simp only
      rw [if_pos (hlater more), hn, Nat.add_sub_cancel, cutOff_skip, hdrop]

end Passed

/-! ## The end of the text -/

theorem cutOff_eq_self (hfind : (rules.find? fun r => r.stands norm text) = some r)
    (hcut : r.occurs norm text = false) : cutOff norm rules 0 text = text := by
  cases text with
  | nil => rfl
  | cons b text =>
    rw [cutOff, hfind]
    simp only [hcut, Bool.false_eq_true, if_false]

theorem Free.drop (h : Free norm rules text) (n : Nat) : Free norm rules (text.drop n) := by
  intro k r hr
  rw [drop_drop]
  exact h (n + k) r hr

theorem exists_cutOff_eq_drop (skip : Nat) (text : List α) :
    ∃ n, cutOff norm rules skip text = text.drop n := by
  induction text generalizing skip with
  | nil => exact ⟨0, by cases skip <;> rfl⟩
  | cons b text ih =>
    cases skip with
    | succ skip =>
      obtain ⟨n, hn⟩ := ih skip
      exact ⟨n + 1, hn⟩
    | zero =>
      unfold cutOff
      split
      next r _ =>
        split
        · obtain ⟨n, hn⟩ := ih (r.pattern.length - 1)
          exact ⟨n + 1, hn⟩
        · exact ⟨0, rfl⟩
      next =>
        obtain ⟨n, hn⟩ := ih 0
        exact ⟨n + 1, hn⟩

theorem free_of_short (hshort : ∀ r ∈ rules, text.length < r.pattern.length) :
    Free norm rules text := by
  intro k r hr
  apply Bool.eq_false_iff.mpr
  intro hoccurs
  have hle := length_le_of_occurs (of_decide_eq_true hoccurs)
  rw [length_drop] at hle
  have hlt := hshort r hr
  omega

theorem substitute_of_free (h : Free norm rules text) : substitute norm rules 0 text = text := by
  induction text with
  | nil => rfl
  | cons b text ih =>
    have hfind : (rules.find? fun r => r.occurs norm (b :: text)) = none :=
      find?_eq_none.mpr fun r hr => by
        simp [show r.occurs norm (b :: text) = false from h 0 r hr]
    rw [substitute, hfind]
    simp only
    rw [ih (h.drop 1)]

end Nginx.Foundation
