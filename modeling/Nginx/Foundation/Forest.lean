/-
  Foundation/Forest.lean --- forests kept by links from each element to its parent.

  An element hangs under the root, under another element, or nowhere.  Its depth
  is the number of links up to the root; an element has one only if the links
  above it make no cycle.
-/
import Mathlib.Data.List.Basic
import Mathlib.Data.List.Perm.Subperm
import Mathlib.Tactic.Ring

set_option autoImplicit false

namespace Nginx.Foundation

/-- Where an element of a forest hangs. -/
inductive Parent (α : Type) where
  | null
  | root
  | node (a : α)
  deriving DecidableEq

variable {α : Type} {par par' : α → Parent α} {a b m n p : α} {j k : Nat}

theorem Parent.root_ne_null : (root : Parent α) ≠ null := by
  intro h
  cases h

theorem Parent.node_ne_null (a : α) : node a ≠ null := by
  intro h
  cases h

/-- The element `a` is `k` links below the root. -/
inductive Depth (par : α → Parent α) : α → Nat → Prop
  | root {a : α} : par a = .root → Depth par a 1
  | node {a p : α} {k : Nat} : par a = .node p → Depth par p k → Depth par a (k + 1)

/-- The element `m` is below `n`. -/
inductive Under (par : α → Parent α) (n : α) : α → Prop
  | child {m : α} : par m = .node n → Under par n m
  | deeper {m p : α} : par m = .node p → Under par n p → Under par n m

namespace Depth

theorem pos (h : Depth par a k) : 0 < k := by
  cases h with
  | root => exact Nat.one_pos
  | node _ _ => exact Nat.succ_pos _

theorem of_node (h : Depth par a k) (hp : par a = .node p) : ∃ j, k = j + 1 ∧ Depth par p j := by
  cases h with
  | root hroot =>
    rw [hp] at hroot
    cases hroot
  | node hnode hd =>
    rw [hp] at hnode
    cases hnode
    exact ⟨_, rfl, hd⟩

theorem of_root (h : Depth par a k) (hp : par a = .root) : k = 1 := by
  cases h with
  | root => rfl
  | node hnode _ =>
    rw [hp] at hnode
    cases hnode

theorem ne_null (h : Depth par a k) : par a ≠ .null := by
  cases h with
  | root hroot =>
    rw [hroot]
    exact nofun
  | node hnode _ =>
    rw [hnode]
    exact nofun

theorem unique (h : Depth par a j) (h' : Depth par a k) : j = k := by
  induction h generalizing k with
  | root hroot => exact (h'.of_root hroot).symm
  | node hnode _ ih =>
    obtain ⟨i, rfl, hd⟩ := h'.of_node hnode
    rw [ih hd]

theorem lt_of_under (hu : Under par n m) (hn : Depth par n j) (hm : Depth par m k) : j < k := by
  induction hu generalizing k with
  | child hp =>
    obtain ⟨i, rfl, hd⟩ := hm.of_node hp
    rw [hn.unique hd]
    exact Nat.lt_succ_self i
  | deeper hp _ ih =>
    obtain ⟨i, rfl, hd⟩ := hm.of_node hp
    exact Nat.lt_succ_of_lt (ih hd)

theorem not_under_self (h : Depth par a k) : ¬ Under par a a :=
  fun hu => lt_irrefl k (lt_of_under hu h h)

theorem exists_of_under (hu : Under par n m) (hm : Depth par m k) : ∃ j, Depth par n j := by
  induction hu generalizing k with
  | child hp =>
    obtain ⟨i, -, hd⟩ := hm.of_node hp
    exact ⟨i, hd⟩
  | deeper hp _ ih =>
    obtain ⟨i, -, hd⟩ := hm.of_node hp
    exact ih hd

theorem congr (h : Depth par a k) (heq : ∀ x, x = a ∨ Under par x a → par' x = par x) :
    Depth par' a k := by
  induction h with
  | root hroot => exact .root ((heq _ (.inl rfl)).trans hroot)
  | node hnode _ ih =>
    refine .node ((heq _ (.inl rfl)).trans hnode) (ih fun x hx => heq x (.inr ?_))
    obtain rfl | hx := hx
    · exact .child hnode
    · exact .deeper hnode hx

theorem exists_of_changed (h : Depth par a k)
    (hch : ∀ x, par' x = par x ∨ ∃ j, Depth par' x j) : ∃ j, Depth par' a j := by
  induction h with
  | root hroot =>
    obtain heq | hdepth := hch _
    · exact ⟨1, .root (heq.trans hroot)⟩
    · exact hdepth
  | node hnode _ ih =>
    obtain heq | hdepth := hch _
    · obtain ⟨j, hj⟩ := ih
      exact ⟨j + 1, .node (heq.trans hnode) hj⟩
    · exact hdepth

theorem exists_trail (h : Depth par a k) :
    ∃ l : List α, l.length = k ∧ l.Nodup ∧ ∀ x ∈ l, x = a ∨ Under par x a := by
  induction h with
  | root _ => exact ⟨[_], rfl, by simp, fun x hx => .inl (List.mem_singleton.mp hx)⟩
  | @node a p k hnode hd ih =>
    obtain ⟨l, rfl, hnodup, hl⟩ := ih
    have habove : ∀ x ∈ l, Under par x a := fun x hx => by
      obtain rfl | hx := hl x hx
      · exact .child hnode
      · exact .deeper hnode hx
    refine ⟨a :: l, rfl, List.nodup_cons.mpr ⟨fun hmem => ?_, hnodup⟩, fun x hx => ?_⟩
    · exact (Depth.node hnode hd).not_under_self (habove a hmem)
    · exact (List.mem_cons.mp hx).imp_right (habove x)

theorem le_bound {par : Nat → Parent Nat} {a bound : Nat} (h : Depth par a k)
    (hlt : ∀ x, x = a ∨ Under par x a → x < bound) : k ≤ bound := by
  obtain ⟨l, rfl, hnodup, hl⟩ := h.exists_trail
  have hsub : l ⊆ List.range bound := fun x hx => List.mem_range.mpr (hlt x (hl x hx))
  simpa using (List.subperm_of_subset hnodup hsub).length_le

end Depth

namespace Under

theorem iff_of_node (hp : par m = .node p) : Under par n m ↔ p = n ∨ Under par n p := by
  constructor
  · intro h
    cases h with
    | child h =>
      rw [hp] at h
      cases h
      exact .inl rfl
    | deeper h hu =>
      rw [hp] at h
      cases h
      exact .inr hu
  · rintro (rfl | h)
    · exact .child hp
    · exact .deeper hp h

theorem not_of_root (hp : par m = .root) : ¬ Under par n m := by
  intro h
  cases h with
  | child h =>
    rw [hp] at h
    cases h
  | deeper h _ =>
    rw [hp] at h
    cases h

theorem trans (h : Under par n m) (h' : Under par m b) : Under par n b := by
  induction h' with
  | child hp => exact .deeper hp h
  | deeper hp _ ih => exact .deeper hp ih

theorem cases_child (h : Under par n m) : ∃ x, par x = .node n ∧ (m = x ∨ Under par x m) := by
  induction h with
  | child hp => exact ⟨_, hp, .inl rfl⟩
  | deeper hp _ ih =>
    obtain ⟨x, hx, hcases⟩ := ih
    refine ⟨x, hx, .inr ?_⟩
    obtain rfl | hu := hcases
    · exact .child hp
    · exact .deeper hp hu

theorem of_child (hp : par m = .node n) (h : Under par m b) : Under par n b :=
  (Under.child hp).trans h

end Under

end Nginx.Foundation
