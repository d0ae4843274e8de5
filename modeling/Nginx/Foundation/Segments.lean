/-
  Foundation/Segments.lean --- paths as sequences of segments, and the removal
  of dot segments.

  The first section is RFC 3986, section 5.2.4, for a path that starts with the
  separator, one segment standing for itself and the separator before it.  The
  second splits the removal into what the segments before the last one do to a
  stack and what the last one does, and compares the rule with a variant that
  pops more.  The third goes from sequences of segments to their text and back.
-/
import Mathlib.Data.List.Basic
import Mathlib.Data.List.TakeWhile
import Mathlib.Tactic.Ring

set_option autoImplicit false

namespace Nginx.Foundation.Segments

open List Option

section Stack

variable {S : Type} [DecidableEq S] (here up empty : S)

/-- The removal of dot segments: `out` is the output buffer, last segment
first.  A dot segment at the end is replaced by the separator alone, an empty
segment.  There is no result when `up` finds no segment to remove. -/
def removeDotSegments : List S → List S → Option (List S)
  | out, [] => some out
  | out, s :: input =>
      if s = here then
        match input with
        | [] => some (empty :: out)
        | _ :: _ => removeDotSegments out input
      else if s = up then
        match out with
        | [] => none
        | _ :: out =>
            match input with
            | [] => some (empty :: out)
            | _ :: _ => removeDotSegments out input
      else removeDotSegments (s :: out) input

/-- What a segment with a segment behind it does to the output, when `up` does
`pop`. -/
def enter (pop : List S → Option (List S)) (out : List S) (s : S) : Option (List S) :=
  if s = here then some out else if s = up then pop out else some (s :: out)

/-- Remove one segment. -/
def popOne : List S → Option (List S)
  | [] => none
  | _ :: out => some out

/-- Remove one segment, and one more when the first is empty. -/
def popThrough : List S → Option (List S)
  | [] => none
  | s :: out => if s = empty then popOne out else some out

/-- What the last segment does. -/
def enterLast (out : List S) (s : S) : Option (List S) :=
  if s = here then some (empty :: out)
  else if s = up then (popOne out).map (empty :: ·)
  else some (s :: out)

theorem removeDotSegments_concat (dirs : List S) (last : S) : ∀ out,
    removeDotSegments here up empty out (dirs ++ [last]) =
      (dirs.foldlM (enter here up popOne) out).bind (enterLast here up empty · last) := by
  induction dirs with
  | nil =>
    intro out
    simp only [nil_append, foldlM_nil, Option.pure_def, Option.bind_some]
    by_cases hhere : last = here
    · simp [removeDotSegments, enterLast, hhere]
    by_cases hup : last = up
    · cases out <;> simp [removeDotSegments, enterLast, hup, hup ▸ hhere, popOne]
    · simp [removeDotSegments, enterLast, hhere, hup]
  | cons s dirs ih =>
    intro out
    obtain ⟨next, input, hinput⟩ : ∃ next input, dirs ++ [last] = next :: input :=
      exists_cons_of_ne_nil (by simp)
    rw [cons_append, foldlM_cons, bind_eq_bind]
    by_cases hhere : s = here
    · rw [enter, if_pos hhere, Option.bind_some, ← ih, hinput]
      conv_lhs => unfold removeDotSegments
      exact if_pos hhere
    by_cases hup : s = up
    · cases out with
      | nil => simp [removeDotSegments, enter, hup, hup ▸ hhere, popOne]
      | cons t out =>
        rw [enter, if_neg hhere, if_pos hup, popOne, Option.bind_some, ← ih, hinput]
        conv_lhs => unfold removeDotSegments
        rw [if_neg hhere, if_pos hup]
    · rw [enter, if_neg hhere, if_neg hup, Option.bind_some, ← ih]
      conv_lhs => unfold removeDotSegments
      rw [if_neg hhere, if_neg hup]

/-- Some `up` with a segment behind it finds the empty segment on top. -/
def UpOverEmpty (dirs : List S) (out : List S) : Prop :=
  ∃ pre post out', dirs = pre ++ up :: post ∧
    pre.foldlM (enter here up popOne) out = some (empty :: out')

variable {here up empty}

variable {dirs : List S}

theorem upOverEmpty_cons_iff {s : S} {out : List S} :
    UpOverEmpty here up empty (s :: dirs) out ↔
      (s = up ∧ ∃ out', out = empty :: out') ∨
      ∃ out₁, enter here up popOne out s = some out₁ ∧ UpOverEmpty here up empty dirs out₁ := by
  constructor
  · rintro ⟨pre, post, out', hsplit, hrun⟩
    cases pre with
    | nil =>
      rw [nil_append, cons.injEq] at hsplit
      rw [foldlM_nil, Option.pure_def, Option.some.injEq] at hrun
      exact Or.inl ⟨hsplit.1, out', hrun⟩
    | cons t pre =>
      rw [cons_append, cons.injEq] at hsplit
      obtain ⟨rfl, hsplit⟩ := hsplit
      rw [foldlM_cons, bind_eq_bind, bind_eq_some_iff] at hrun
      obtain ⟨out₁, hstep, hrun⟩ := hrun
      exact Or.inr ⟨out₁, hstep, pre, post, out', hsplit, hrun⟩
  · rintro (⟨rfl, out', rfl⟩ | ⟨out₁, hstep, pre, post, out', rfl, hrun⟩)
    · exact ⟨[], dirs, out', rfl, rfl⟩
    · refine ⟨s :: pre, post, out', rfl, ?_⟩
      rw [foldlM_cons, hstep, bind_eq_bind, Option.bind_some, hrun]

theorem foldlM_popThrough_eq (hne : up ≠ here) : ∀ {out : List S},
    ¬ UpOverEmpty here up empty dirs out →
    dirs.foldlM (enter here up (popThrough empty)) out =
      dirs.foldlM (enter here up popOne) out := by
  induction dirs with
  | nil => exact fun _ => rfl
  | cons s dirs ih =>
    intro out hover
    rw [upOverEmpty_cons_iff, not_or] at hover
    obtain ⟨hhead, htail⟩ := hover
    have hsame : enter here up (popThrough empty) out s = enter here up popOne out s := by
      by_cases hup : s = up
      · cases out with
        | nil => rfl
        | cons t out =>
          have ht : t ≠ empty := fun ht => hhead ⟨hup, out, by rw [ht]⟩
          simp only [enter, hup, hne, if_false, if_true, popThrough, ht, popOne]
      · simp only [enter, hup, if_false]
    rw [foldlM_cons, foldlM_cons, hsame]
    cases hstep : enter here up popOne out s with
    | none => rfl
    | some out₁ => exact ih fun hover => htail ⟨out₁, hstep, hover⟩

theorem enter_popThrough_le {low high high' : List S} {s : S} (k : Nat)
    (hle : low.length + k ≤ high.length) (hstep : enter here up popOne high s = some high') :
    enter here up (popThrough empty) low s = none ∨
    ∃ low', enter here up (popThrough empty) low s = some low' ∧
      low'.length + k ≤ high'.length := by
  by_cases hhere : s = here
  · simp only [enter, hhere, if_true, Option.some.injEq] at hstep ⊢
    exact Or.inr ⟨low, rfl, hstep ▸ hle⟩
  by_cases hup : s = up
  · subst hup
    simp only [enter, hhere, if_false, if_true] at hstep ⊢
    cases high with
    | nil => cases hstep
    | cons t high =>
      simp only [popOne, Option.some.injEq] at hstep
      subst hstep
      cases low with
      | nil => exact Or.inl rfl
      | cons b low =>
        simp only [length_cons] at hle
        rw [popThrough]
        split
        · cases low with
          | nil => exact Or.inl rfl
          | cons c low => exact Or.inr ⟨low, rfl, by simp only [length_cons] at hle; omega⟩
        · exact Or.inr ⟨low, rfl, by omega⟩
  · simp only [enter, hhere, hup, if_false, Option.some.injEq] at hstep ⊢
    refine Or.inr ⟨s :: low, rfl, ?_⟩
    rw [← hstep, length_cons, length_cons]
    omega

theorem foldlM_popThrough_le (k : Nat) : ∀ {low high : List S},
    low.length + k ≤ high.length →
    dirs.foldlM (enter here up (popThrough empty)) low = none ∨
    ∃ low' high', dirs.foldlM (enter here up (popThrough empty)) low = some low' ∧
      dirs.foldlM (enter here up popOne) high = some high' ∧
      low'.length + k ≤ high'.length := by
  induction dirs with
  | nil => exact fun {low high} hle => Or.inr ⟨low, high, rfl, rfl, hle⟩
  | cons s dirs ih =>
    intro low high hle
    rw [foldlM_cons, foldlM_cons]
    cases hhigh : enter here up popOne high s with
    | none =>
      -- the higher stack is empty, and so is the lower one
      have hlow : enter here up (popThrough empty) low s = none := by
        simp only [enter] at hhigh ⊢
        split at hhigh
        · cases hhigh
        split at hhigh
        · cases high with
          | nil =>
            have hnil : low = [] := length_eq_zero_iff.mp (by
              simp only [length_nil] at hle
              omega)
            simp_all [popThrough]
          | cons t high => cases hhigh
        · cases hhigh
      rw [hlow]
      exact Or.inl rfl
    | some high₁ =>
      rcases enter_popThrough_le k hle hhigh with hlow | ⟨low₁, hlow, hle₁⟩
      · rw [hlow]
        exact Or.inl rfl
      · rw [hlow]
        exact ih hle₁

theorem foldlM_popThrough_lt (hne : up ≠ here) : ∀ {out : List S},
    UpOverEmpty here up empty dirs out →
    dirs.foldlM (enter here up (popThrough empty)) out = none ∨
    ∃ low high, dirs.foldlM (enter here up (popThrough empty)) out = some low ∧
      dirs.foldlM (enter here up popOne) out = some high ∧ low.length < high.length := by
  induction dirs with
  | nil =>
    rintro out ⟨pre, post, out', hsplit, -⟩
    exact absurd hsplit (by simp)
  | cons s dirs ih =>
    intro out hover
    by_cases hhead : s = up ∧ ∃ out', out = empty :: out'
    · obtain ⟨rfl, out', rfl⟩ := hhead
      rw [foldlM_cons, foldlM_cons]
      have hlow : enter here s (popThrough empty) (empty :: out') s = popOne out' := by
        simp only [enter, hne, if_false, if_true, popThrough]
      have hhigh : enter here s popOne (empty :: out') s = some out' := by
        simp only [enter, hne, if_false, if_true, popOne]
      rw [hlow, hhigh]
      cases out' with
      | nil => exact Or.inl rfl
      | cons t out'' => exact foldlM_popThrough_le 1 (le_rfl)
    · rcases upOverEmpty_cons_iff.mp hover with hhead' | ⟨out₁, hstep, htail⟩
      · exact absurd hhead' hhead
      have hsame : enter here up (popThrough empty) out s = some out₁ := by
        rw [← hstep]
        by_cases hup : s = up
        · cases out with
          | nil => rfl
          | cons t out =>
            have ht : t ≠ empty := fun ht => hhead ⟨hup, out, by rw [ht]⟩
            simp only [enter, hup, hne, if_false, if_true, popThrough, ht, popOne]
        · simp only [enter, hup, if_false]
      rw [foldlM_cons, foldlM_cons, hsame, hstep]
      exact ih htail

/-! ### Where the segments come from -/

omit [DecidableEq S] in
theorem popOne_mem {out out' : List S} (h : popOne out = some out') : ∀ s ∈ out', s ∈ out := by
  cases out with
  | nil => cases h
  | cons t out =>
    cases h
    exact fun s hs => mem_cons_of_mem t hs

theorem popThrough_mem {out out' : List S} (h : popThrough empty out = some out') :
    ∀ s ∈ out', s ∈ out := by
  cases out with
  | nil => cases h
  | cons t out =>
    rw [popThrough] at h
    split at h
    · exact fun s hs => mem_cons_of_mem t (popOne_mem h s hs)
    · cases h
      exact fun s hs => mem_cons_of_mem t hs

theorem enter_mem {pop : List S → Option (List S)}
    (hpop : ∀ out out', pop out = some out' → ∀ s ∈ out', s ∈ out) {out out' : List S} {s : S}
    (h : enter here up pop out s = some out') : ∀ t ∈ out', t = s ∨ t ∈ out := by
  rw [enter] at h
  split at h
  · cases h
    exact fun t ht => Or.inr ht
  · split at h
    · exact fun t ht => Or.inr (hpop _ _ h t ht)
    · cases h
      exact fun t ht => mem_cons.mp ht

theorem foldlM_enter_mem {pop : List S → Option (List S)}
    (hpop : ∀ out out', pop out = some out' → ∀ s ∈ out', s ∈ out) :
    ∀ {out out' : List S}, dirs.foldlM (enter here up pop) out = some out' →
    ∀ s ∈ out', s ∈ dirs ∨ s ∈ out := by
  induction dirs with
  | nil =>
    intro out out' hrun
    cases hrun
    exact fun s hs => Or.inr hs
  | cons t dirs ih =>
    intro out out' hrun s hs
    rw [foldlM_cons, bind_eq_bind, bind_eq_some_iff] at hrun
    obtain ⟨out₁, hstep, hrun⟩ := hrun
    rcases ih hrun s hs with hmem | hmem
    · exact Or.inl (mem_cons_of_mem t hmem)
    · rcases enter_mem hpop hstep s hmem with rfl | hmem
      · exact Or.inl mem_cons_self
      · exact Or.inr hmem

end Stack

/-! ## Texts -/

section Text

variable {α : Type} [DecidableEq α] (sep : α)

/-- The text of a stack of segments, each behind a separator. -/
def pathText : List (List α) → List α
  | [] => []
  | s :: out => pathText out ++ sep :: s

theorem splitOn_pathText {out : List (List α)} (hfree : ∀ s ∈ out, sep ∉ s) :
    (pathText sep out).splitOn sep = [] :: out.reverse := by
  induction out with
  | nil => simp [pathText]
  | cons s out ih =>
    rw [pathText, splitOn_append_cons_self, ih fun t ht => hfree t (mem_cons_of_mem s ht),
      splitOn_eq_singleton (hfree s mem_cons_self)]
    simp

theorem pathText_injective {out out' : List (List α)} (hfree : ∀ s ∈ out, sep ∉ s)
    (hfree' : ∀ s ∈ out', sep ∉ s) (h : pathText sep out = pathText sep out') : out = out' := by
  have hsplit := congrArg (List.splitOn sep) h
  rw [splitOn_pathText sep hfree, splitOn_pathText sep hfree', cons.injEq] at hsplit
  exact reverse_injective hsplit.2

theorem not_mem_of_mem_splitOn {text : List α} : ∀ s ∈ text.splitOn sep, sep ∉ s := by
  induction text with
  | nil => simp
  | cons a text ih =>
    rw [splitOn_cons_eq_if_modifyHead]
    split
    · intro s hs
      rcases mem_cons.mp hs with rfl | hs
      · exact not_mem_nil
      · exact ih s hs
    rename_i hne
    obtain ⟨head, tail, hsplit⟩ := exists_cons_of_ne_nil (splitOn_ne_nil sep text)
    rw [hsplit] at ih ⊢
    intro s hs
    rcases mem_cons.mp hs with rfl | hs
    · have hhead := ih head mem_cons_self
      simp only [beq_iff_eq] at hne
      exact fun hmem => (mem_cons.mp hmem).elim (fun h => hne h.symm) hhead
    · exact ih s (mem_cons_of_mem head hs)

theorem takeWhile_ne_self {sep : α} {text : List α} (h : sep ∉ text) :
    text.takeWhile (· != sep) = text := by
  rw [takeWhile_eq_self_iff]
  intro a ha
  rw [bne_iff_ne]
  rintro rfl
  exact h ha

theorem not_mem_takeWhile_ne (text : List α) : sep ∉ text.takeWhile (· != sep) := by
  intro hmem
  have hne := mem_takeWhile_imp hmem
  rw [bne_self_eq_false] at hne
  cases hne

theorem exists_splitOn (text : List α) : ∃ head, sep ∉ head ∧
    ((text = head ∧ text.splitOn sep = [head]) ∨
      ∃ rest, text = head ++ sep :: rest ∧ text.splitOn sep = head :: rest.splitOn sep) := by
  by_cases hmem : sep ∈ text
  · obtain ⟨head, rest, rfl, hfree⟩ := eq_append_cons_of_mem hmem
    refine ⟨head, hfree, .inr ⟨rest, rfl, ?_⟩⟩
    rw [splitOn_append_cons_self, splitOn_eq_singleton hfree, singleton_append]
  · exact ⟨text, hmem, .inl ⟨rfl, splitOn_eq_singleton hmem⟩⟩

end Text

end Nginx.Foundation.Segments
