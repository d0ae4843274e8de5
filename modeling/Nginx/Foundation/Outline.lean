/-
  Foundation/Outline.lean --- trees of text, read in order.

  An outline is a sequence of texts and of named nodes with outlines of their own.
  `addTo` writes at the end of the node with a name.  `up` puts an outline into
  the frames around it; how `addTo` meets the frames is `addTo_up`.
-/
import Mathlib.Data.List.Basic
import Mathlib.Data.List.Nodup

set_option autoImplicit false

namespace Nginx.Foundation

open List

/-- Texts and named nodes, one after the other. -/
inductive Outline (ι β : Type) where
  | nil
  | text (b : β) (rest : Outline ι β)
  | node (i : ι) (inner rest : Outline ι β)
  deriving DecidableEq

namespace Outline

variable {ι β : Type}

def append : Outline ι β → Outline ι β → Outline ι β
  | nil, g => g
  | text b rest, g => text b (rest.append g)
  | node i inner rest, g => node i inner (rest.append g)

instance : Append (Outline ι β) := ⟨append⟩

/-- The texts in order. -/
def flatten : Outline ι β → List β
  | nil => []
  | text b rest => b :: rest.flatten
  | node _ inner rest => inner.flatten ++ rest.flatten

/-- The names of the nodes. -/
def names : Outline ι β → List ι
  | nil => []
  | text _ rest => rest.names
  | node i inner rest => i :: (inner.names ++ rest.names)

/-- Texts only. -/
def texts : List β → Outline ι β
  | [] => nil
  | b :: bs => text b (texts bs)

attribute [local simp] flatten names

@[simp] theorem nil_append (f : Outline ι β) : nil ++ f = f := rfl

@[simp] theorem text_append (b : β) (f g : Outline ι β) : text b f ++ g = text b (f ++ g) := rfl

@[simp] theorem node_append (i : ι) (x f g : Outline ι β) :
    node i x f ++ g = node i x (f ++ g) := rfl

@[simp] theorem append_nil (f : Outline ι β) : f ++ nil = f := by
  induction f with
  | nil => rfl
  | text b rest ih => rw [text_append, ih]
  | node i inner rest _ ih => rw [node_append, ih]

theorem append_assoc (f g h : Outline ι β) : f ++ g ++ h = f ++ (g ++ h) := by
  induction f with
  | nil => rfl
  | text b rest ih => rw [text_append, text_append, text_append, ih]
  | node i inner rest _ ih => rw [node_append, node_append, node_append, ih]

@[simp] theorem flatten_append (f g : Outline ι β) : (f ++ g).flatten = f.flatten ++ g.flatten := by
  induction f with
  | nil => rfl
  | text b rest ih => rw [text_append, flatten, flatten, ih, cons_append]
  | node i inner rest _ ih => rw [node_append, flatten, flatten, ih, List.append_assoc]

@[simp] theorem names_append (f g : Outline ι β) : (f ++ g).names = f.names ++ g.names := by
  induction f with
  | nil => rfl
  | text b rest ih => rw [text_append, names, names, ih]
  | node i inner rest _ ih => rw [node_append, names, names, ih, cons_append, List.append_assoc]

@[simp] theorem flatten_texts (bs : List β) : (texts bs : Outline ι β).flatten = bs := by
  induction bs with
  | nil => rfl
  | cons b bs ih => rw [texts, flatten, ih]

@[simp] theorem names_texts (bs : List β) : (texts bs : Outline ι β).names = [] := by
  induction bs with
  | nil => rfl
  | cons b bs ih => rw [texts, names, ih]

section AddTo

variable [DecidableEq ι]

/-- `g` is written at the end of every node with the name `r`. -/
def addTo (r : ι) (g : Outline ι β) : Outline ι β → Outline ι β
  | nil => nil
  | text b rest => text b (addTo r g rest)
  | node i inner rest => node i (if i = r then inner ++ g else addTo r g inner) (addTo r g rest)

attribute [local simp] addTo

theorem addTo_append (r : ι) (g a b : Outline ι β) :
    addTo r g (a ++ b) = addTo r g a ++ addTo r g b := by
  induction a with
  | nil => rfl
  | text c rest ih => rw [text_append, addTo, addTo, ih, text_append]
  | node i inner rest _ ih => rw [node_append, addTo, addTo, ih, node_append]

@[simp] theorem addTo_nil (r : ι) (f : Outline ι β) : addTo r nil f = f := by
  induction f with
  | nil => rfl
  | text b rest ih => rw [addTo, ih]
  | node i inner rest ihInner ihRest => rw [addTo, append_nil, ihInner, ihRest, ite_self]

theorem addTo_of_not_mem {r : ι} {g f : Outline ι β} (h : r ∉ f.names) : addTo r g f = f := by
  induction f with
  | nil => rfl
  | text b rest ih => rw [addTo, ih h]
  | node i inner rest ihInner ihRest =>
    rw [names, mem_cons, mem_append, not_or, not_or] at h
    obtain ⟨hi, hinner, hrest⟩ := h
    rw [addTo, if_neg (Ne.symm hi), ihInner hinner, ihRest hrest]

theorem mem_names_addTo {r : ι} {g f : Outline ι β} {i : ι} :
    i ∈ (addTo r g f).names ↔ i ∈ f.names ∨ r ∈ f.names ∧ i ∈ g.names := by
  induction f with
  | nil => simp [addTo, names]
  | text b rest ih => exact ih
  | node j inner rest ihInner ihRest =>
    simp only [addTo, names, mem_cons, mem_append, ihRest]
    by_cases hj : j = r
    · subst hj
      simp only [if_true, names_append, mem_append, true_or, true_and]
      grind
    · simp only [if_neg hj, ihInner]
      grind

theorem nodup_names_addTo {r : ι} {g f : Outline ι β} (hf : f.names.Nodup) (hg : g.names.Nodup)
    (hfresh : ∀ i ∈ g.names, i ∉ f.names) : (addTo r g f).names.Nodup := by
  induction f with
  | nil => exact nodup_nil
  | text b rest ih => exact ih hf hfresh
  | node j inner rest ihInner ihRest =>
    simp only [names] at hf hfresh
    obtain ⟨hj, hboth⟩ := nodup_cons.mp hf
    obtain ⟨hinner, hrest, hapart⟩ := nodup_append.mp hboth
    have hfreshInner : ∀ i ∈ g.names, i ∉ inner.names := fun i hi hmem =>
      hfresh i hi (mem_cons_of_mem _ (mem_append_left _ hmem))
    have hfreshRest : ∀ i ∈ g.names, i ∉ rest.names := fun i hi hmem =>
      hfresh i hi (mem_cons_of_mem _ (mem_append_right _ hmem))
    have hne : ∀ i ∈ g.names, i ≠ j := fun i hi heq =>
      hfresh i hi (by rw [heq]; exact mem_cons_self)
    simp only [addTo, names]
    have hmemRest : ∀ i, i ∈ (addTo r g rest).names → i ∈ rest.names ∨
      r ∈ rest.names ∧ i ∈ g.names :=
      fun i => mem_names_addTo.mp
    by_cases hjr : j = r
    · subst hjr
      have hsame : addTo j g rest = rest :=
        addTo_of_not_mem fun h => hj (mem_append_right _ h)
      rw [if_pos rfl, hsame, names_append]
      refine nodup_cons.mpr ⟨?_, ?_⟩
      · intro hmem
        rcases mem_append.mp hmem with hmem | hmem
        · rcases mem_append.mp hmem with hmem | hmem
          · exact hj (mem_append_left _ hmem)
          · exact hne j hmem rfl
        · exact hj (mem_append_right _ hmem)
      · refine nodup_append.mpr ⟨nodup_append.mpr ⟨hinner, hg, ?_⟩, hrest, ?_⟩
        · rintro i hi k hk rfl
          exact hfreshInner i hk hi
        · rintro i hi k hk rfl
          rcases mem_append.mp hi with hi | hi
          · exact hapart i hi i hk rfl
          · exact hfreshRest i hi hk
    · rw [if_neg hjr]
      refine nodup_cons.mpr ⟨?_, ?_⟩
      · intro hmem
        rcases mem_append.mp hmem with hmem | hmem
        · rcases mem_names_addTo.mp hmem with hmem | ⟨-, hmem⟩
          · exact hj (mem_append_left _ hmem)
          · exact hne j hmem rfl
        · rcases mem_names_addTo.mp hmem with hmem | ⟨-, hmem⟩
          · exact hj (mem_append_right _ hmem)
          · exact hne j hmem rfl
      · refine nodup_append.mpr ⟨ihInner hinner hfreshInner, ihRest hrest hfreshRest, ?_⟩
        rintro i hi k hk rfl
        rcases mem_names_addTo.mp hi with hi | ⟨hr, hi⟩
        · rcases mem_names_addTo.mp hk with hk | ⟨-, hk⟩
          · exact hapart i hi i hk rfl
          · exact hfreshInner i hk hi
        · rcases mem_names_addTo.mp hk with hk | ⟨hr', -⟩
          · exact hfreshRest i hi hk
          · exact hapart r hr r hr' rfl

end AddTo

/-! ## Frames -/

/-- A node that is open, with what stands before and after the open node in it. -/
structure Frame (ι β : Type) where
  name : ι
  before : Outline ι β
  after : Outline ι β

/-- The node `i` with the contents `x` in its frames; the innermost frame comes first. -/
def up (i : ι) (x : Outline ι β) : List (Frame ι β) → Outline ι β
  | [] => node i x nil
  | frame :: frames => up frame.name (frame.before ++ node i x frame.after) frames

/-- What stands before the open node, from the outermost frame on. -/
def textBefore : List (Frame ι β) → List β
  | [] => []
  | frame :: frames => textBefore frames ++ frame.before.flatten

/-- What stands behind it, from the innermost frame on. -/
def textAfter : List (Frame ι β) → List β
  | [] => []
  | frame :: frames => frame.after.flatten ++ textAfter frames

theorem flatten_up (i : ι) (x : Outline ι β) (frames : List (Frame ι β)) :
    (up i x frames).flatten = textBefore frames ++ x.flatten ++ textAfter frames := by
  induction frames generalizing i x with
  | nil => simp [up, flatten, textBefore, textAfter]
  | cons frame frames ih =>
    rw [up, ih, flatten_append, flatten, textBefore, textAfter]
    simp only [List.append_assoc]

/-- The names in the frames, with those before and after. -/
def frameNames : List (Frame ι β) → List ι
  | [] => []
  | frame :: frames => frame.name :: (frame.before.names ++ frame.after.names ++ frameNames frames)

theorem perm_names_up (i : ι) (x : Outline ι β) (frames : List (Frame ι β)) :
    (up i x frames).names.Perm (i :: (x.names ++ frameNames frames)) := by
  classical
  induction frames generalizing i x with
  | nil => simp [up, names, frameNames]
  | cons frame frames ih =>
    have hup := ih frame.name (frame.before ++ node i x frame.after)
    rw [up]
    refine hup.trans ?_
    rw [names_append, names, frameNames]
    simp only [List.append_assoc, cons_append]
    rw [perm_iff_count]
    intro j
    simp only [count_cons, count_append]
    omega

section AddTo

variable [DecidableEq ι]

/-- `addTo` at a frame: before the open node nothing is written any more. -/
def Frame.addTo (r : ι) (g : Outline ι β) (frame : Frame ι β) : Frame ι β :=
  { frame with after := if frame.name = r then frame.after ++ g else Outline.addTo r g frame.after }

theorem names_frames_not_mem {r : ι} {frames : List (Frame ι β)}
    (h : r ∉ frameNames frames) (g : Outline ι β) :
    frames.map (Frame.addTo r g) = frames := by
  induction frames with
  | nil => rfl
  | cons frame frames ih =>
    simp only [frameNames, mem_cons, mem_append, not_or] at h
    obtain ⟨hname, ⟨-, hafter⟩, hframes⟩ := h
    rw [map_cons, ih hframes, Frame.addTo, if_neg (Ne.symm hname), addTo_of_not_mem hafter]

theorem addTo_up {r : ι} {g : Outline ι β} {i : ι} {x : Outline ι β} {frames : List (Frame ι β)}
    (hnodup : (i :: (x.names ++ frameNames frames)).Nodup)
    (hbefore : ∀ frame ∈ frames, r ∉ frame.before.names) :
    addTo r g (up i x frames) =
      up i (if i = r then x ++ g else addTo r g x) (frames.map (Frame.addTo r g)) := by
  induction frames generalizing i x with
  | nil => rfl
  | cons frame frames ih =>
    have hperm : (i :: (x.names ++ frameNames (frame :: frames))).Perm
        (frame.name :: ((frame.before ++ node i x frame.after).names ++ frameNames frames)) := by
      rw [names_append, names, frameNames]
      simp only [List.append_assoc, cons_append]
      rw [perm_iff_count]
      intro j
      simp only [count_cons, count_append]
      omega
    have hbeforeHere := hbefore frame mem_cons_self
    rw [up, ih (hperm.nodup_iff.mp hnodup) fun f hf =>
      hbefore f (mem_cons_of_mem _ hf), map_cons, up]
    obtain ⟨hi, hrest⟩ := nodup_cons.mp hnodup
    simp only [frameNames, mem_append, mem_cons, not_or] at hi
    obtain ⟨hix, hiname, ⟨hib, hia⟩, hif⟩ := hi
    by_cases hname : frame.name = r
    · -- the frame's own node: the other parts do not have the name
      subst hname
      have hapart := nodup_append.mp hrest
      have hx : frame.name ∉ x.names := fun h =>
        hapart.2.2 _ h _ (by rw [frameNames]; exact mem_cons_self) rfl
      simp only [Frame.addTo, if_true, if_neg hiname, addTo_of_not_mem hx,
        append_assoc, node_append]
    · simp only [Frame.addTo, if_neg hname, addTo_append, addTo_of_not_mem hbeforeHere, addTo]

end AddTo

end Outline

end Nginx.Foundation
