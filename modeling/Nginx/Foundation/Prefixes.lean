/-
  Foundation/Prefixes.lean --- maps from sequences to values, looked up by the longest
  prefix of a key, and words in the order of a dictionary.

  `bestBelow` is what a walk along the key has seen so far; a walk that stops
  where no longer prefix is stored has the longest match.  In the order of a
  dictionary the words with a common prefix stand together, right behind it.
-/
import Mathlib.Data.List.Basic
import Mathlib.Data.List.Infix
import Mathlib.Tactic.Ring

set_option autoImplicit false

namespace Nginx.Foundation

open List

/-- The values that are stored, each at a prefix. -/
abbrev PrefixMap (α β : Type) : Type := List α → Option β

namespace PrefixMap

variable {α β : Type}

/-- The value of the longest stored prefix of fewer than `n` symbols of `key`. -/
def bestBelow (σ : PrefixMap α β) (key : List α) (n : Nat) : Option β :=
  (List.range n).reverse.findSome? fun m => σ (key.take m)

/-- The value of the longest stored prefix of `key`. -/
def longestMatch (σ : PrefixMap α β) (key : List α) : Option β :=
  σ.bestBelow key (key.length + 1)

@[simp] theorem bestBelow_zero (σ : PrefixMap α β) (key : List α) : σ.bestBelow key 0 = none := rfl

theorem bestBelow_succ (σ : PrefixMap α β) (key : List α) (n : Nat) :
    σ.bestBelow key (n + 1) = (σ (key.take n)).or (σ.bestBelow key n) := by
  rw [bestBelow, range_succ, reverse_append, reverse_singleton,
    singleton_append, findSome?_cons]
  cases σ (key.take n) <;> rfl

theorem bestBelow_eq_of_none {σ : PrefixMap α β} {key : List α} {n m : Nat} (hle : n ≤ m)
    (h : ∀ k, n ≤ k → k < m → σ (key.take k) = none) :
    σ.bestBelow key m = σ.bestBelow key n := by
  induction hle with
  | refl => rfl
  | @step m hle ih =>
    rw [bestBelow_succ, h m hle (Nat.lt_succ_self m), Option.none_or]
    exact ih fun k hk hkm => h k hk (Nat.lt_succ_of_lt hkm)

end PrefixMap

variable {α : Type} (rank : α → Nat)

/-- `u` stands in front of `v`. -/
def Before : List α → List α → Prop
  | _, [] => False
  | [], _ :: _ => True
  | a :: u, b :: v => rank a < rank b ∨ (rank a = rank b ∧ Before u v)

namespace Before

variable {rank} {p u v w : List α}

@[simp] theorem not_nil (u : List α) : ¬Before rank u [] := by
  cases u <;> exact id

@[simp] theorem nil_cons (b : α) (v : List α) : Before rank [] (b :: v) := trivial

@[simp] theorem cons_cons {a b : α} :
    Before rank (a :: u) (b :: v) ↔ rank a < rank b ∨ (rank a = rank b ∧ Before rank u v) := Iff.rfl

theorem irrefl (u : List α) : ¬Before rank u u := by
  induction u with
  | nil => exact id
  | cons a u ih => simpa using ih

theorem trans (huv : Before rank u v) (hvw : Before rank v w) : Before rank u w := by
  induction u generalizing v w with
  | nil =>
    cases w with
    | nil => exact absurd hvw (not_nil v)
    | cons c w => exact trivial
  | cons a u ih =>
    cases v with
    | nil => exact absurd huv (not_nil _)
    | cons b v =>
      cases w with
      | nil => exact absurd hvw (not_nil _)
      | cons c w =>
        rw [cons_cons] at huv hvw ⊢
        rcases huv with huv | ⟨hab, huv⟩
        · rcases hvw with hvw | ⟨hbc, _⟩ <;> left <;> omega
        · rcases hvw with hvw | ⟨hbc, hvw⟩
          · left; omega
          · exact .inr ⟨by omega, ih huv hvw⟩

theorem asymm (h : Before rank u v) : ¬Before rank v u := fun h' => irrefl u (h.trans h')

theorem ne (h : Before rank u v) : u ≠ v := by
  rintro rfl
  exact irrefl _ h

theorem total (hrank : Function.Injective rank) (u v : List α) :
    Before rank u v ∨ u = v ∨ Before rank v u := by
  induction u generalizing v with
  | nil => cases v <;> simp
  | cons a u ih =>
    cases v with
    | nil => simp
    | cons b v =>
      simp only [cons_cons, cons.injEq]
      rcases lt_trichotomy (rank a) (rank b) with h | h | h
      · exact .inl (.inl h)
      · obtain rfl := hrank h
        rcases ih v with h | h | h
        · exact .inl (.inr ⟨rfl, h⟩)
        · exact .inr (.inl ⟨rfl, h⟩)
        · exact .inr (.inr (.inr ⟨rfl, h⟩))
      · exact .inr (.inr (.inl h))

@[simp] theorem append_left (p : List α) : Before rank (p ++ u) (p ++ v) ↔ Before rank u v := by
  induction p with
  | nil => rfl
  | cons a p ih => simpa using ih

theorem of_isPrefix (h : p <+: v) (hne : p ≠ v) : Before rank p v := by
  obtain ⟨t, rfl⟩ := h
  cases t with
  | nil => simp at hne
  | cons b t =>
    rw [show p = p ++ [] by simp, append_assoc, append_left]
    exact trivial

theorem not_of_isPrefix (h : p <+: v) : ¬Before rank v p := by
  by_cases hne : p = v
  · rw [hne]
    exact irrefl v
  · exact (of_isPrefix h hne).asymm

theorem trans_not (hrank : Function.Injective rank) (huv : Before rank u v)
    (hvw : ¬Before rank w v) : Before rank u w := by
  rcases total hrank v w with h | rfl | h
  · exact huv.trans h
  · exact huv
  · exact absurd h hvw

theorem not_trans (hrank : Function.Injective rank) (huv : ¬Before rank v u)
    (hvw : Before rank v w) : Before rank u w := by
  rcases total hrank u v with h | rfl | h
  · exact h.trans hvw
  · exact hvw
  · exact absurd h huv

theorem prefix_between (hrank : Function.Injective rank) (hpu : ¬Before rank u p)
    (huv : ¬Before rank v u) (hpv : p <+: v) :
    p <+: u := by
  obtain ⟨t, rfl⟩ := hpv
  induction p generalizing u with
  | nil => exact List.nil_prefix
  | cons a p ih =>
    cases u with
    | nil => simp at hpu
    | cons b u =>
      simp only [cons_append, cons_cons, not_or, not_and, not_lt] at hpu huv
      obtain rfl : b = a := hrank (by omega)
      exact cons_prefix_cons.mpr ⟨rfl, ih (hpu.2 rfl) (huv.2 rfl)⟩

end Before

end Nginx.Foundation
