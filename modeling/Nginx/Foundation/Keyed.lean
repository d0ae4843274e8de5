/-
  Foundation/Keyed.lean --- items with keys: a stable sort that keeps the first item
  of every key, and the item that comes next on the circle of keys.

  What is kept depends on the order of the list only among items of one key, so
  more items in the list change little: an item that is next for some key stays so,
  or one of the new items is.
-/
import Mathlib.Data.List.Sort

set_option autoImplicit false

namespace Nginx.Foundation

open List

variable {α κ : Type} [LinearOrder κ] (key : α → κ)

/-! ## The first item of every key -/

/-- Of items with equal keys in a row the first is kept. -/
def keepFirst : α → List α → List α
  | a, [] => [a]
  | a, b :: l => if key a ≠ key b then a :: keepFirst b l else keepFirst a l

/-- The items in the order of their keys, of equal keys in the order of the list. -/
def sortByKey (l : List α) : List α := l.mergeSort fun a b => decide (key a ≤ key b)

/-- The first item of every key, in the order of the keys. -/
def firstOfKeys (l : List α) : List α :=
  match sortByKey key l with
  | [] => []
  | a :: l => keepFirst key a l

variable {key}

theorem pairwise_sortByKey (l : List α) : (sortByKey key l).Pairwise fun a b => key a ≤ key b := by
  have hsorted := @pairwise_mergeSort _ (fun a b => decide (key a ≤ key b))
    (fun a b c hab hbc => by simp only [decide_eq_true_eq] at *; exact hab.trans hbc)
    (fun a b => by simpa using le_total (key a) (key b)) l
  exact hsorted.imp fun h => of_decide_eq_true h

theorem filter_sortByKey (l : List α) (k : κ) :
    (sortByKey key l).filter (fun a => decide (key a = k)) = l.filter fun a =>
      decide (key a = k) := by
  have hsub : List.Sublist (l.filter fun a => decide (key a = k)) (sortByKey key l) := by
    refine sublist_mergeSort
      (fun a b c hab hbc => by simp only [decide_eq_true_eq] at *; exact hab.trans hbc)
      (fun a b => by simpa using le_total (key a) (key b)) ?_ filter_sublist
    refine pairwise_of_forall_mem_list fun a ha b hb => ?_
    simp only [mem_filter, decide_eq_true_eq] at ha hb
    simp [ha.2, hb.2]
  have hperm := (mergeSort_perm l fun a b => decide (key a ≤ key b)).filter fun a =>
    decide (key a = k)
  have hsub' := hsub.filter fun a => decide (key a = k)
  rw [filter_filter] at hsub'
  simp only [Bool.and_self] at hsub'
  exact (hsub'.eq_of_length hperm.length_eq.symm).symm

theorem find?_sortByKey (l : List α) (k : κ) :
    (sortByKey key l).find? (fun a => decide (key a = k)) = l.find? fun a =>
      decide (key a = k) := by
  rw [← head?_filter, ← head?_filter, filter_sortByKey]

theorem length_sortByKey (l : List α) : (sortByKey key l).length = l.length := length_mergeSort l

variable {l : List α}

theorem mem_sortByKey {a : α} : a ∈ sortByKey key l ↔ a ∈ l := mem_mergeSort

theorem find?_sortByKey_of_key {test : α → Bool} (k : κ) (h : ∀ a ∈ l, test a = true → key a = k) :
    (sortByKey key l).find? test = l.find? test := by
  have hsame : ∀ l' : List α, (∀ a ∈ l', a ∈ l) →
      l'.find? test = (l'.filter fun a => decide (key a = k)).find? test := by
    intro l' hl
    induction l' with
    | nil => rfl
    | cons a l' ih =>
      have hrest := ih fun b hb => hl b (mem_cons_of_mem _ hb)
      by_cases hkey : key a = k
      · rw [filter_cons, if_pos (decide_eq_true hkey), find?_cons, find?_cons, hrest]
      · have htest : test a ≠ true := fun ht => hkey (h a (hl a mem_cons_self) ht)
        rw [filter_cons, if_neg (fun hk => hkey (of_decide_eq_true hk)),
          find?_cons_of_neg htest, hrest]
  rw [hsame (sortByKey key l) fun a ha =>
    mem_sortByKey.mp ha, filter_sortByKey, ← hsame l fun a ha => ha]

theorem find?_key_cons (a : α) (l : List α) (k : κ) :
    (a :: l).find? (fun q => decide (key q = k)) =
      if key a = k then some a else l.find? fun q => decide (key q = k) := by
  rw [find?_cons]
  by_cases h : key a = k <;> simp [h]

/-- The first of equal keys is kept. -/
theorem keepFirst_spec {a : α} (h : (a :: l).Pairwise fun a b => key a ≤ key b) :
    (keepFirst key a l).Pairwise (fun a b => key a < key b) ∧
      (∀ p ∈ keepFirst key a l, key a ≤ key p) ∧
      ∀ p, p ∈ keepFirst key a l ↔ (a :: l).find? (fun q => decide (key q = key p)) = some p := by
  induction l generalizing a with
  | nil =>
    refine ⟨pairwise_singleton _ _, fun p hp => (mem_singleton.mp hp ▸ le_rfl), fun p => ?_⟩
    rw [keepFirst, mem_singleton, find?_key_cons]
    constructor
    · rintro rfl
      exact if_pos rfl
    · intro hfind
      split at hfind
      · exact (Option.some.inj hfind).symm
      · exact absurd hfind nofun
  | cons b l ih =>
    obtain ⟨hfirst, hrest⟩ := pairwise_cons.mp h
    have hab := hfirst b mem_cons_self
    rw [keepFirst]
    split
    next hne =>
      have hlt : key a < key b := lt_of_le_of_ne hab hne
      obtain ⟨hpair, hle, hmem⟩ := ih hrest
      refine ⟨pairwise_cons.mpr ⟨fun p hp => lt_of_lt_of_le hlt (hle p hp), hpair⟩, fun p hp => ?_,
        fun p => ?_⟩
      · rcases mem_cons.mp hp with rfl | hp
        · exact le_rfl
        · exact hab.trans (hle p hp)
      rw [mem_cons, hmem p, find?_key_cons a]
      constructor
      · rintro (rfl | hfind)
        · exact if_pos rfl
        · have hp := hle p ((hmem p).mpr hfind)
          rw [if_neg (ne_of_lt (lt_of_lt_of_le hlt hp))]
          exact hfind
      · intro hfind
        split at hfind
        · exact .inl (Option.some.inj hfind).symm
        · exact .inr hfind
    next heq =>
      have hkey : key a = key b := not_not.mp heq
      have hskip : (a :: l).Pairwise fun a b => key a ≤ key b :=
        pairwise_cons.mpr ⟨fun p hp => hfirst p (mem_cons_of_mem _ hp), (pairwise_cons.mp hrest).2⟩
      obtain ⟨hpair, hle, hmem⟩ := ih hskip
      refine ⟨hpair, hle, fun p => ?_⟩
      rw [hmem p, find?_key_cons, find?_key_cons, find?_key_cons, ← hkey]
      split <;> rfl

theorem pairwise_firstOfKeys (l : List α) :
    (firstOfKeys key l).Pairwise fun a b => key a < key b := by
  have hsorted := @pairwise_sortByKey α κ _ key l
  unfold firstOfKeys
  split
  next => exact List.Pairwise.nil
  next heq => exact (keepFirst_spec (heq ▸ hsorted)).1

theorem mem_firstOfKeys (l : List α) (p : α) :
    p ∈ firstOfKeys key l ↔ l.find? (fun q => decide (key q = key p)) = some p := by
  have hsorted := @pairwise_sortByKey α κ _ key l
  rw [← find?_sortByKey]
  unfold firstOfKeys
  split
  next heq =>
    rw [heq]
    exact iff_of_false not_mem_nil nofun
  next heq =>
    rw [heq] at hsorted ⊢
    exact (keepFirst_spec hsorted).2.2 p

/-! ## The next item on the circle -/

/-- `p` has the least key from `x` on, or the least of all where there is none. -/
def IsNext (key : α → κ) (l : List α) (x : κ) (p : α) : Prop :=
  p ∈ l ∧ ((x ≤ key p ∧ ∀ q ∈ l, x ≤ key q → key p ≤ key q) ∨
    (∀ q ∈ l, key q < x) ∧ ∀ q ∈ l, key p ≤ key q)

theorem exists_firstOfKeys {l : List α} {a : α} (h : a ∈ l) :
    ∃ p ∈ firstOfKeys key l, key p = key a := by
  cases hfind : l.find? fun q => decide (key q = key a) with
  | none =>
    have hnot := find?_eq_none.mp hfind a h
    simp at hnot
  | some p =>
    have hkey : key p = key a := by simpa using find?_some hfind
    exact ⟨p, (mem_firstOfKeys l p).mpr (hkey ▸ hfind), hkey⟩

theorem mem_of_mem_firstOfKeys {p : α} (h : p ∈ firstOfKeys key l) : p ∈ l :=
  mem_of_find?_eq_some ((mem_firstOfKeys l p).mp h)

theorem firstOfKeys_eq_nil : firstOfKeys key l = [] ↔ l = [] := by
  constructor
  · intro h
    refine eq_nil_iff_forall_not_mem.mpr fun a ha => ?_
    obtain ⟨p, hp, -⟩ := @exists_firstOfKeys _ _ _ key l a ha
    rw [h] at hp
    exact not_mem_nil hp
  · rintro rfl
    simp [firstOfKeys, sortByKey]

/-- What comes next after a place stays, or is one of those added. -/
theorem isNext_insert {before added after : List α} {x : κ} {p p' : α}
    (h : IsNext key (firstOfKeys key (before ++ after)) x p)
    (h' : IsNext key (firstOfKeys key (before ++ (added ++ after))) x p') :
    p' ∈ added ∨ p' = p := by
  obtain ⟨hp, hnext⟩ := h
  obtain ⟨hp', hnext'⟩ := h'
  by_cases hadded : p' ∈ added
  · exact .inl hadded
  right
  have hfind := (mem_firstOfKeys _ p).mp hp
  have hfind' := (mem_firstOfKeys _ p').mp hp'
  -- the item was kept before, too
  have hold : p' ∈ firstOfKeys key (before ++ after) := by
    rw [mem_firstOfKeys]
    rw [find?_append, find?_append] at hfind'
    rw [find?_append]
    cases hb : before.find? fun q => decide (key q = key p') with
    | some q =>
      rw [hb] at hfind'
      exact hfind'
    | none =>
      rw [hb, Option.none_or] at hfind'
      rw [Option.none_or]
      cases ha : added.find? fun q => decide (key q = key p') with
      | some q =>
        rw [ha, Option.some_or] at hfind'
        exact absurd (Option.some.inj hfind' ▸ mem_of_find?_eq_some ha) hadded
      | none =>
        rw [ha, Option.none_or] at hfind'
        exact hfind'
  -- all keys are still there
  have hkeys : ∀ q ∈ firstOfKeys key (before ++ after),
      ∃ q' ∈ firstOfKeys key (before ++ (added ++ after)), key q' = key q := fun q hq => by
    refine exists_firstOfKeys ?_
    rcases mem_append.mp (mem_of_mem_firstOfKeys hq) with hb | ha
    · exact mem_append_left _ hb
    · exact mem_append_right _ (mem_append_right _ ha)
  have hkey : key p' = key p := by
    obtain ⟨q, hq, hqp⟩ := hkeys p hp
    rcases hnext' with ⟨hx', hleast'⟩ | ⟨hnone', hleast'⟩
    · rcases hnext with ⟨hx, hleast⟩ | ⟨hnone, -⟩
      · exact le_antisymm (hqp ▸ hleast' q hq (hqp ▸ hx)) (hleast p' hold hx')
      · exact absurd hx' (not_le.mpr (hnone p' hold))
    · rcases hnext with ⟨hx, -⟩ | ⟨-, hleast⟩
      · exact absurd (hqp ▸ hx) (not_le.mpr (hnone' q hq))
      · exact le_antisymm (hqp ▸ hleast' q hq) (hleast p' hold)
  have hfirst := (mem_firstOfKeys _ p').mp hold
  rw [hkey, hfind] at hfirst
  exact (Option.some.inj hfirst).symm

end Nginx.Foundation
