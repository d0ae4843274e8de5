/-
  Foundation/Elements.lean --- words between separators, and words joined by one.

  The words of a list are its longest runs without a separator; empty ones do not count.
  Words that are joined by a separator they do not contain can be told apart again.
-/
import Mathlib.Data.List.Basic

set_option autoImplicit false

namespace Nginx.Foundation

open List

variable {α : Type}

/-! ## The words of a list -/

/-- Separators are skipped and a word is taken, so many times at most. -/
def elementsLoop (sep : α → Bool) : Nat → List α → List (List α)
  | 0, _ => []
  | fuel + 1, p =>
    let start := p.dropWhile sep
    let word := start.takeWhile fun x => !sep x
    if word.isEmpty then [] else word :: elementsLoop sep fuel (start.drop word.length)

/-- The words of a list. -/
def elements (sep : α → Bool) (p : List α) : List (List α) := elementsLoop sep p.length p

variable {sep : α → Bool}

variable {fuel : Nat} {p : List α}

variable {word : List α}

variable {s : List α}

theorem elementsLoop_word {rest : List α} (hs : ∀ x ∈ s, sep x = true) (hne : word ≠ [])
    (hw : ∀ x ∈ word, sep x = false) (hrest : ∀ x ∈ rest.head?, sep x = true) :
    elementsLoop sep (fuel + 1) (s ++ word ++ rest) = word :: elementsLoop sep fuel rest := by
  obtain ⟨a, w, rfl⟩ := exists_cons_of_ne_nil hne
  have hstart : (s ++ a :: w ++ rest).dropWhile sep = a :: w ++ rest := by
    rw [append_assoc, dropWhile_append_of_pos hs]
    exact dropWhile_cons_of_neg (by rw [hw a mem_cons_self]; exact Bool.false_ne_true)
  have hstop : rest.takeWhile (fun x => !sep x) = [] := by
    cases rest with
    | nil => rfl
    | cons x rest => exact takeWhile_cons_of_neg (by rw [hrest x rfl]; decide)
  have hword : (a :: w ++ rest).takeWhile (fun x => !sep x) = a :: w := by
    rw [takeWhile_append_of_pos (by intro x hx; rw [hw x hx]; rfl), hstop, append_nil]
  rw [elementsLoop]
  simp only [hstart, hword]
  rw [if_neg (by exact Bool.false_ne_true), drop_left]

theorem elementsLoop_separators (hs : ∀ x ∈ s, sep x = true) (fuel : Nat) :
    elementsLoop sep fuel s = [] := by
  cases fuel with
  | zero => rfl
  | succ fuel =>
    have hstart := @dropWhile_append_of_pos _ sep s [] hs
    rw [append_nil] at hstart
    rw [elementsLoop]
    simp only [hstart]
    rfl

theorem elements_separators (hs : ∀ x ∈ s, sep x = true) : elements sep s = [] :=
  elementsLoop_separators hs _

theorem elementsLoop_succ (hfuel : p.length ≤ fuel) :
    elementsLoop sep (fuel + 1) p = elementsLoop sep fuel p := by
  induction fuel generalizing p with
  | zero =>
    rw [eq_nil_of_length_eq_zero (Nat.le_zero.mp hfuel)]
    rfl
  | succ fuel ih =>
    have hround : ∀ k, elementsLoop sep (k + 1) p =
        if ((p.dropWhile sep).takeWhile fun x => !sep x).isEmpty then []
        else ((p.dropWhile sep).takeWhile fun x => !sep x) ::
          elementsLoop sep k
            ((p.dropWhile sep).drop ((p.dropWhile sep).takeWhile fun x => !sep x).length) :=
            fun _ => rfl
    rw [hround (fuel + 1), hround fuel]
    split
    · rfl
    next hne =>
    refine congrArg _ (ih ?_)
    have hpos : 0 < ((p.dropWhile sep).takeWhile fun x => !sep x).length :=
      length_pos_of_ne_nil fun hnil => hne (by rw [hnil]; rfl)
    have hle := (dropWhile_suffix sep (l := p)).length_le
    rw [length_drop]
    omega

theorem elementsLoop_eq (hfuel : p.length ≤ fuel) : elementsLoop sep fuel p = elements sep p := by
  induction fuel with
  | zero =>
    rw [eq_nil_of_length_eq_zero (Nat.le_zero.mp hfuel)]
    rfl
  | succ fuel ih =>
    rcases Nat.lt_or_ge fuel p.length with hlt | hle
    · rw [elements, Nat.le_antisymm hfuel hlt]
    · rw [elementsLoop_succ hle, ih hle]

theorem elements_word {rest : List α} (hs : ∀ x ∈ s, sep x = true) (hne : word ≠ [])
    (hw : ∀ x ∈ word, sep x = false) (hrest : ∀ x ∈ rest.head?, sep x = true) :
    elements sep (s ++ word ++ rest) = word :: elements sep rest := by
  have hpos := length_pos_of_ne_nil hne
  obtain ⟨fuel, hfuel⟩ : ∃ fuel, (s ++ word ++ rest).length = fuel + 1 :=
    Nat.exists_eq_succ_of_ne_zero (by rw [length_append, length_append]; omega)
  rw [elements, hfuel, elementsLoop_word hs hne hw hrest, elementsLoop_eq]
  rw [length_append, length_append] at hfuel
  omega

theorem elements_cons {x : α} (hx : sep x = true) (p : List α) :
    elements sep (x :: p) = elements sep p := by
  have hround : elements sep (x :: p) = elementsLoop sep (p.length + 1) p := by
    rw [elements, length_cons, elementsLoop, elementsLoop, dropWhile_cons_of_pos hx]
  rw [hround, elementsLoop_eq (Nat.le_succ _)]

/-! ## Words that are joined -/

/-- Words joined by a separator, one being in front of the first word where there are words before
it. -/
def joinFrom (x : α) : Bool → List (List α) → List α
  | _, [] => []
  | multiple, w :: ws => (if multiple then [x] else []) ++ w ++ joinFrom x true ws

theorem append_cons_inj {x : α} {a b t : List α} (ha : x ∉ a) (hb : x ∉ b)
    (h : a ++ x :: s = b ++ x :: t) : a = b ∧ s = t := by
  induction a generalizing b with
  | nil =>
    cases b with
    | nil => exact ⟨rfl, (cons.inj h).2⟩
    | cons y b => exact absurd ((cons.inj h).1 ▸ mem_cons_self) hb
  | cons y a ih =>
    cases b with
    | nil => exact absurd ((cons.inj h).1 ▸ mem_cons_self) ha
    | cons z b =>
      obtain ⟨rfl, htail⟩ := cons.inj h
      obtain ⟨rfl, rfl⟩ :=
        ih (fun hx => ha (mem_cons_of_mem _ hx)) (fun hx => hb (mem_cons_of_mem _ hx)) htail
      exact ⟨rfl, rfl⟩

end Nginx.Foundation
