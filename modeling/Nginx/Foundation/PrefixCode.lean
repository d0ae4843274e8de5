/-
  Foundation/PrefixCode.lean --- prefix codes, and how a sequence of bits is read
  by walking down the tree of a code again and again.

  A code is a function to lists of bits, a tree holds it at its leaves.  Nothing
  is said about how long the codes are or whether all places of the tree are
  taken: a place may be empty, and a walk that comes to one fails.
-/
import Mathlib.Data.List.Basic
import Mathlib.Tactic.Ring

set_option autoImplicit false

namespace Nginx.Foundation

open List

variable {α : Type}

/-- A binary tree with symbols at some of its leaves. -/
inductive CodeTree (α : Type) where
  | empty
  | leaf (a : α)
  | node (zero one : CodeTree α)
  deriving DecidableEq

namespace CodeTree

/-- The subtree below a path. -/
def descend : CodeTree α → List Bool → CodeTree α
  | t, [] => t
  | node zero one, b :: bits => descend (if b then one else zero) bits
  | empty, _ :: _ => empty
  | leaf _, _ :: _ => empty

/-- The tree goes on here. -/
def isNode : CodeTree α → Bool
  | node _ _ => true
  | _ => false

/-- Put a symbol at the end of a path. -/
def insert : CodeTree α → List Bool → α → CodeTree α
  | _, [], a => leaf a
  | node zero one, b :: bits, a =>
    if b then node zero (insert one bits a) else node (insert zero bits a) one
  | _, b :: bits, a =>
    if b then node empty (insert empty bits a) else node (insert empty bits a) empty

/-- The symbols with their paths. -/
def leaves : CodeTree α → List Bool → List (α × List Bool)
  | empty, _ => []
  | leaf a, path => [(a, path)]
  | node zero one, path => leaves zero (path ++ [false]) ++ leaves one (path ++ [true])

/-- Walk down from the subtree below `path`, and from the root again behind every
symbol: the symbols passed, and the path of the place where the bits end. -/
def walk (root : CodeTree α) : CodeTree α → List Bool → List Bool → Option (List α × List Bool)
  | _, path, [] => some ([], path)
  | node zero one, path, b :: bits =>
    match (if b then one else zero) with
    | leaf a => (walk root root [] bits).map fun r => (a :: r.1, r.2)
    | empty => none
    | node zero' one' => walk root (node zero' one') (path ++ [b]) bits
  | empty, _, _ :: _ => none
  | leaf _, _, _ :: _ => none

/-- The tree holds the code `code`. -/
def Holds (root : CodeTree α) (code : α → List Bool) : Prop :=
  ∀ a path, root.descend path = leaf a ↔ path = code a

attribute [local simp] descend walk

variable {root t : CodeTree α} {code : α → List Bool} {path bits p q : List Bool}
    {s : List α} {a : α}

@[simp] theorem descend_nil (t : CodeTree α) : t.descend [] = t := by
  cases t <;> rfl

theorem descend_append (t : CodeTree α) (p q : List Bool) :
    t.descend (p ++ q) = (t.descend p).descend q := by
  induction p generalizing t with
  | nil => rw [descend_nil, nil_append]
  | cons b p ih =>
    cases t with
    | node zero one => exact ih _
    | empty => cases q <;> rfl
    | leaf a => cases q <;> rfl

theorem exists_node (h : t.isNode) : ∃ zero one, t = node zero one := by
  cases t with
  | node zero one => exact ⟨zero, one, rfl⟩
  | empty => cases h
  | leaf a => cases h

theorem isNode_of_descend_cons {b : Bool} (h : (t.descend (b :: bits)).isNode) : t.isNode := by
  cases t with
  | node zero one => rfl
  | empty => cases h
  | leaf a => cases h

theorem isNode_of_descend_leaf {b : Bool} (h : t.descend (b :: bits) = leaf a) : t.isNode := by
  cases t with
  | node zero one => rfl
  | empty => cases h
  | leaf a' => cases h

/-! ## Walks -/

theorem walk_node (h : (t.descend bits).isNode) :
    walk root t path bits = some ([], path ++ bits) := by
  induction bits generalizing t path with
  | nil => cases t <;> simp [walk]
  | cons b bits ih =>
    obtain ⟨zero, one, rfl⟩ := exists_node (isNode_of_descend_cons h)
    have h : ((if b then one else zero).descend bits).isNode := h
    have hnode : (if b then one else zero).isNode := by
      cases bits with
      | nil => simpa using h
      | cons b' bits => exact isNode_of_descend_cons h
    obtain ⟨zero', one', heq⟩ := exists_node hnode
    rw [walk, heq]
    rw [heq] at h
    simpa using @ih _ (path ++ [b]) h

theorem walk_leaf (ht : t.isNode) (h : t.descend bits = leaf a) (more : List Bool) :
    walk root t path (bits ++ more) = (walk root root [] more).map fun r => (a :: r.1, r.2) := by
  induction bits generalizing t path with
  | nil =>
    rw [descend_nil] at h
    rw [h] at ht
    cases ht
  | cons b bits ih =>
    obtain ⟨zero, one, rfl⟩ := exists_node ht
    have h : (if b then one else zero).descend bits = leaf a := h
    rw [cons_append, walk]
    cases bits with
    | nil =>
      rw [descend_nil] at h
      rw [h]
      rfl
    | cons b' bits =>
      have hnode := isNode_of_descend_leaf h
      obtain ⟨zero', one', heq⟩ := exists_node hnode
      rw [heq] at h ⊢
      exact ih rfl h

theorem walk_codes (hroot : root.isNode) (hcode : root.Holds code) (s : List α)
    (hp : (root.descend p).isNode) :
    walk root root [] ((s.map code).flatten ++ p) = some (s, p) := by
  induction s with
  | nil => exact walk_node hp
  | cons a s ih =>
    rw [map_cons, flatten_cons, append_assoc,
      walk_leaf hroot ((hcode a _).mpr rfl), ih]
    rfl

theorem codes_of_walk (hroot : root.isNode) (hcode : root.Holds code)
    (ht : root.descend path = t) (hnode : t.isNode) (h : walk root t path bits = some (s, p)) :
    path ++ bits = (s.map code).flatten ++ p ∧ (root.descend p).isNode := by
  induction bits generalizing t path s with
  | nil =>
    have h : some ([], path) = some (s, p) := by cases t <;> exact h
    obtain ⟨rfl, rfl⟩ := Prod.mk.inj (Option.some.inj h)
    exact ⟨by simp, ht ▸ hnode⟩
  | cons b bits ih =>
    obtain ⟨zero, one, rfl⟩ := exists_node hnode
    have hchild : root.descend (path ++ [b]) = if b then one else zero := by
      rw [descend_append, ht]
      cases b <;> simp [descend]
    rw [walk] at h
    split at h
    next a hleaf =>
      obtain ⟨r, hwalk, hr⟩ := Option.map_eq_some_iff.mp h
      obtain ⟨rfl, rfl⟩ := Prod.mk.inj hr
      obtain ⟨hbits, hp⟩ := ih (descend_nil root) hroot hwalk
      have hpath := (hcode a (path ++ [b])).mp (hchild.trans hleaf)
      rw [nil_append] at hbits
      refine ⟨?_, hp⟩
      rw [map_cons, flatten_cons, ← hpath, append_assoc, append_assoc, ← hbits]
      rfl
    next => cases h
    next zero' one' hinner =>
      obtain ⟨hbits, hp⟩ := ih (hchild.trans hinner) rfl h
      exact ⟨by rw [← hbits]; simp, hp⟩

theorem walk_eq_some_iff (hroot : root.isNode) (hcode : root.Holds code) :
    walk root root [] bits = some (s, p) ↔
      bits = (s.map code).flatten ++ p ∧ (root.descend p).isNode := by
  constructor
  · intro h
    simpa using codes_of_walk hroot hcode (descend_nil root) hroot h
  · rintro ⟨rfl, hp⟩
    exact walk_codes hroot hcode s hp

theorem walk_append (t : CodeTree α) (path bits bits' : List Bool) (ht : root.descend path = t)
    (hnode : t.isNode) (hroot : root.isNode) :
    walk root t path (bits ++ bits') =
      (walk root t path bits).bind fun r =>
        (walk root (root.descend r.2) r.2 bits').map fun r' => (r.1 ++ r'.1, r'.2) := by
  induction bits generalizing t path with
  | nil =>
    have hnil : walk root t path [] = some ([], path) := by cases t <;> rfl
    rw [hnil, nil_append, Option.bind_some, ht]
    cases walk root t path bits' <;> simp
  | cons b bits ih =>
    obtain ⟨zero, one, rfl⟩ := exists_node hnode
    have hchild : root.descend (path ++ [b]) = if b then one else zero := by
      rw [descend_append, ht]
      cases b <;> simp [descend]
    rw [cons_append, walk, walk]
    split
    next a hleaf =>
      rw [ih root [] (descend_nil root) hroot]
      cases walk root root [] bits with
      | none => rfl
      | some r => simp [Option.map_map, Function.comp_def]
    next => rfl
    next zero' one' hinner => exact ih _ _ (hchild.trans hinner) rfl

/-! ## Checking a tree -/

/-- A walk with another notion of a path. -/
def walkBy {π : Type} (push : π → Bool → π) (start : π) (root : CodeTree α) :
    CodeTree α → π → List Bool → Option (List α × π)
  | _, path, [] => some ([], path)
  | node zero one, path, b :: bits =>
    match (if b then one else zero) with
    | leaf a => (walkBy push start root root start bits).map fun r => (a :: r.1, r.2)
    | empty => none
    | node zero' one' => walkBy push start root (node zero' one') (push path b) bits
  | empty, _, _ :: _ => none
  | leaf _, _, _ :: _ => none

theorem walk_eq_walkBy {π : Type} {push : π → Bool → π} {start : π} {f : π → List Bool}
    {Valid : π → Prop} (hstart : Valid start ∧ f start = [])
    (hpush : ∀ path b, Valid path → Valid (push path b) ∧ f (push path b) = f path ++ [b])
    (t : CodeTree α) {path : π} (hpath : Valid path) (bits : List Bool) :
    walk root t (f path) bits =
      (walkBy push start root t path bits).map fun r => (r.1, f r.2) := by
  induction bits generalizing t path with
  | nil => cases t <;> rfl
  | cons b bits ih =>
    cases t with
    | empty => rfl
    | leaf a => rfl
    | node zero one =>
      rw [walk, walkBy]
      split
      next a hleaf =>
        have hroot := ih root hstart.1
        rw [hstart.2] at hroot
        rw [hroot, Option.map_map, Option.map_map]
        rfl
      next => rfl
      next zero' one' hinner =>
        obtain ⟨hvalid, heq⟩ := hpush path b hpath
        rw [← heq]
        exact ih _ hvalid

theorem mem_leaves (h : t.descend p = leaf a) : (a, path ++ p) ∈ t.leaves path := by
  induction p generalizing t path with
  | nil =>
    rw [descend_nil] at h
    rw [h]
    simp [leaves]
  | cons b p ih =>
    obtain ⟨zero, one, rfl⟩ := exists_node (isNode_of_descend_leaf h)
    have h : (if b then one else zero).descend p = leaf a := h
    have hmem := @ih _ (path ++ [b]) h
    rw [append_assoc] at hmem
    cases b with
    | true => exact mem_append_right _ hmem
    | false => exact mem_append_left _ hmem

theorem holds_of_leaves (hcode : ∀ a, t.descend (code a) = leaf a)
    (hleaves : ∀ l ∈ t.leaves [], l.2 = code l.1) : t.Holds code := by
  intro a p
  constructor
  · exact fun h => hleaves _ (mem_leaves h)
  · rintro rfl
    exact hcode a

end CodeTree

end Nginx.Foundation
