/-
  Foundation/Regions.lean --- regions of memory: apart, covered, handed out.

  A region is a base and a size; what it is about are its addresses.  `Apart` and
  `Covered` are about addresses only, so that an empty region is apart from
  everything and covered by anything.
-/
import Mathlib.Data.List.Basic
import Mathlib.Data.List.Nodup
import Mathlib.Data.List.Perm.Basic

set_option autoImplicit false

namespace Nginx.Foundation

structure Region where
  base : Nat
  size : Nat
  deriving DecidableEq

namespace Region

instance : Membership Nat Region := ⟨fun r x => r.base ≤ x ∧ x < r.base + r.size⟩

theorem mem_iff {r : Region} {x : Nat} : x ∈ r ↔ r.base ≤ x ∧ x < r.base + r.size := Iff.rfl

instance (r : Region) (x : Nat) : Decidable (x ∈ r) := inferInstanceAs (Decidable (_ ∧ _))

/-- No address is in both. -/
def Apart (r t : Region) : Prop := ∀ x, x ∈ r → x ∉ t

/-- Every address is in one of `rs`. -/
def Covered (r : Region) (rs : List Region) : Prop := ∀ x, x ∈ r → ∃ t ∈ rs, x ∈ t

theorem Apart.symm {r t : Region} (h : Apart r t) : Apart t r := fun x ht hr => h x hr ht

instance : Std.Symm Apart := ⟨fun _ _ => Apart.symm⟩

variable {rs : List Region}

theorem Covered.mono {r : Region} {ts : List Region} (h : r.Covered rs)
    (hsub : ∀ t ∈ rs, t.Covered ts) :
    r.Covered ts := by
  intro x hx
  obtain ⟨t, ht, hxt⟩ := h x hx
  exact hsub t ht x hxt

theorem covered_of_mem {r : Region} (h : r ∈ rs) : r.Covered rs := fun _ hx => ⟨r, h, hx⟩

theorem Covered.apart {r t : Region} (h : r.Covered rs) (hapart : ∀ s ∈ rs, Apart s t) :
    Apart r t := by
  intro x hr ht
  obtain ⟨s, hs, hxs⟩ := h x hr
  exact hapart s hs x hxs ht

theorem covered_of_bounds {r t : Region} (ht : t ∈ rs) (hbase : t.base ≤ r.base)
    (hend : r.base + r.size ≤ t.base + t.size) : r.Covered rs :=
  fun _ hx => ⟨t, ht, Nat.le_trans hbase hx.1, Nat.lt_of_lt_of_le hx.2 hend⟩

theorem apart_of_le {r t : Region} (h : r.base + r.size ≤ t.base ∨ t.base + t.size ≤ r.base) :
    Apart r t := by
  intro x hr ht
  rw [mem_iff] at hr ht
  omega

theorem Apart.mono {r r' t : Region} (h : Apart r t) (hsub : ∀ x, x ∈ r' → x ∈ r) : Apart r' t :=
  fun x hr' ht => h x (hsub x hr') ht

end Region

open Region List

/-- Regions in use, `claims`: covered by `usable`, apart from each other; one that meets a
region of `wholes` is the one that was given the whole of it. -/
structure Claimed (usable wholes claims : List Region) : Prop where
  covered : ∀ x ∈ claims, x.Covered usable
  apart : claims.Pairwise Apart
  whole : ∀ x ∈ claims, ∀ r ∈ wholes, ¬ Apart x r → x.base = r.base

namespace Claimed

variable {usable usable' wholes wholes' claims claims' : List Region} {x r : Region}

theorem perm (h : Claimed usable wholes claims) (hperm : claims.Perm claims') :
    Claimed usable wholes claims' where
  covered x hx := h.covered x (hperm.mem_iff.mpr hx)
  apart := hperm.pairwise h.apart Apart.symm
  whole x hx := h.whole x (hperm.mem_iff.mpr hx)

theorem sublist (h : Claimed usable wholes claims) (hsub : claims'.Sublist claims) :
    Claimed usable wholes claims' where
  covered x hx := h.covered x (hsub.subset hx)
  apart := h.apart.sublist hsub
  whole x hx := h.whole x (hsub.subset hx)

theorem restrict (h : Claimed usable wholes claims) (hcovered : ∀ x ∈ claims, x.Covered usable')
    (hwholes : ∀ r ∈ wholes', r ∈ wholes) : Claimed usable' wholes' claims where
  covered := hcovered
  apart := h.apart
  whole x hx r hr := h.whole x hx r (hwholes r hr)

theorem add (h : Claimed usable wholes claims) (hsub : ∀ t ∈ usable, t.Covered usable')
    (hx : x.Covered usable')
    (hfresh : ∀ t ∈ usable, Apart t x) (hwhole : ∀ r ∈ wholes, ¬ Apart x r → x.base = r.base) :
    Claimed usable' wholes (x :: claims) where
  covered y hy := (mem_cons.mp hy).elim (fun heq => heq ▸ hx) fun hy => (h.covered y hy).mono hsub
  apart := pairwise_cons.mpr ⟨fun y hy => ((h.covered y hy).apart hfresh).symm, h.apart⟩
  whole y hy := (mem_cons.mp hy).elim (fun heq => heq ▸ hwhole) (h.whole y)

theorem addWhole (h : Claimed usable wholes claims) (hfresh : ∀ t ∈ usable, Apart t r) :
    Claimed usable (r :: wholes) claims where
  covered := h.covered
  apart := h.apart
  whole y hy t ht hmeet := by
    rcases mem_cons.mp ht with rfl | ht
    · exact absurd ((h.covered y hy).apart hfresh) hmeet
    · exact h.whole y hy t ht hmeet

theorem merge {base k d : Nat} (h : Claimed usable wholes (⟨base + k, d⟩ :: ⟨base, k⟩ :: claims))
    (hapart : ∀ r ∈ wholes, Apart ⟨base + k, d⟩ r) :
    Claimed usable wholes (⟨base, k + d⟩ :: claims) := by
  have hparts : ∀ x, x ∈ (⟨base, k + d⟩ : Region) → x ∈ (⟨base, k⟩ : Region) ∨
    x ∈ (⟨base + k, d⟩ : Region) := by
    intro x hx
    simp only [mem_iff] at hx ⊢
    omega
  have hback : (⟨base + k, d⟩ : Region) ∈ (⟨base + k, d⟩ :: ⟨base, k⟩ :: claims : List Region) :=
    mem_cons_self
  have hfront : (⟨base, k⟩ : Region) ∈ (⟨base + k, d⟩ :: ⟨base, k⟩ :: claims : List Region) :=
    mem_cons_of_mem _ mem_cons_self
  obtain ⟨hbacks, hrest⟩ := pairwise_cons.mp h.apart
  obtain ⟨hfronts, hclaims⟩ := pairwise_cons.mp hrest
  refine ⟨fun y hy =>
    ?_, pairwise_cons.mpr ⟨fun y hy x hx hxy => ?_, hclaims⟩, fun y hy r hr hmeet => ?_⟩
  · rcases mem_cons.mp hy with rfl | hy
    · intro x hx
      rcases hparts x hx with hx | hx
      · exact h.covered _ hfront x hx
      · exact h.covered _ hback x hx
    · exact h.covered y (mem_cons_of_mem _ (mem_cons_of_mem _ hy))
  · rcases hparts x hx with hx | hx
    · exact hfronts y hy x hx hxy
    · exact hbacks y (mem_cons_of_mem _ hy) x hx hxy
  · rcases mem_cons.mp hy with rfl | hy
    · refine h.whole _ hfront r hr fun hmiss => hmeet fun x hx hxr => ?_
      rcases hparts x hx with hx | hx
      · exact hmiss x hx hxr
      · exact hapart r hr x hx hxr
    · exact h.whole y (mem_cons_of_mem _ (mem_cons_of_mem _ hy)) r hr hmeet

end Claimed

end Nginx.Foundation
