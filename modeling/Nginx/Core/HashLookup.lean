/-
  Core/HashLookup.lean --- what the passes of `ngx_hash_init` compute, and what
  `ngx_hash_find` finds in the table that they have built.

  All three passes add up the same sizes, in counters that wrap at 65536.
  While a bucket's true sum stays below that bound, its elements lie one behind
  the other in the bytes that are set aside for it, with a null pointer behind
  them; once the sum passes the bound, some element ends beyond whatever is set aside.
-/
import Nginx.Core.Hash

set_option autoImplicit false

namespace Nginx.Core

open List Foundation Function

/-! ## Sizes -/

theorem CacheLine.size_pos (line : CacheLine) : 0 < line.size := Nat.two_pow_pos _

theorem CacheLine.dvd_size (line : CacheLine) : pointerSize ∣ line.size :=
  Nat.pow_dvd_pow 2 line.min_shift

theorem short_lt (n : Nat) : short n < 65536 := Nat.mod_lt _ (by decide)

theorem short_of_lt {n : Nat} (h : n < 65536) : short n = n := Nat.mod_eq_of_lt h

theorem short_short_add (a b : Nat) : short (short a + b) = short (a + b) := by
  simp only [short]
  omega

theorem eltSize_ge (k : HashKey) : 10 + k.key.length ≤ eltSize k := by
  have := le_align (show 0 < pointerSize by decide) (k.key.length + 2)
  simp only [eltSize]
  simp only [pointerSize] at this ⊢
  omega

theorem eltSize_lt (k : HashKey) : eltSize k < 10 + k.key.length + pointerSize := by
  have := align_lt (show 0 < pointerSize by decide) (k.key.length + 2)
  simp only [eltSize]
  simp only [pointerSize] at this ⊢
  omega

theorem dvd_eltSize (k : HashKey) : pointerSize ∣ eltSize k :=
  Nat.dvd_add (Nat.dvd_refl _) (dvd_align _ _)

/-- The sizes of the elements of one bucket. -/
def bucketSum (size i : Nat) : List HashKey → Nat
  | [] => 0
  | k :: ks =>
    (if k.isNull = false ∧ k.keyHash % size = i then eltSize k else 0) + bucketSum size i ks

attribute [local simp] bucketSum

variable {k : HashKey}

theorem bucketSum_cons_of_in {size i : Nat} (ks : List HashKey)
    (hnull : k.isNull = false) (hkey : k.keyHash % size = i) :
    bucketSum size i (k :: ks) = eltSize k + bucketSum size i ks := by
  rw [bucketSum, if_pos ⟨hnull, hkey⟩]

theorem bucketSum_cons_of_out {size i : Nat} (ks : List HashKey)
    (h : ¬ (k.isNull = false ∧ k.keyHash % size = i)) :
    bucketSum size i (k :: ks) = bucketSum size i ks := by
  rw [bucketSum, if_neg h, zero_add]

theorem bucketSum_cons_null {size : Nat} (ks : List HashKey) (hnull : k.isNull = true) (i : Nat) :
    bucketSum size i (k :: ks) = bucketSum size i ks :=
  bucketSum_cons_of_out ks (by simp [hnull])

/-- An element that is written leaves room for those behind it. -/
theorem fits_cons {size : Nat} {ks : List HashKey} {test : Nat → Nat} (hnull : k.isNull = false)
    (hfit : ∀ i, test i + bucketSum size i (k :: ks) < 65536) :
    short (test (k.keyHash % size) + eltSize k) = test (k.keyHash % size) + eltSize k ∧
      ∀ i, update test (k.keyHash % size) (test (k.keyHash % size) + eltSize k) i +
        bucketSum size i ks < 65536 := by
  have hself := bucketSum_cons_of_in ks hnull (Eq.refl (k.keyHash % size))
  have hbound := hfit (k.keyHash % size)
  refine ⟨short_of_lt (by omega), fun i => ?_⟩
  by_cases hi : i = k.keyHash % size
  · subst hi
    rw [update_self]
    omega
  · have hother := hfit i
    rw [bucketSum_cons_of_out ks fun h => hi h.2.symm] at hother
    rwa [update_of_ne hi]

theorem dvd_bucketSum (size i : Nat) (keys : List HashKey) :
    pointerSize ∣ bucketSum size i keys := by
  induction keys with
  | nil => exact Nat.dvd_zero _
  | cons k ks ih =>
    rw [bucketSum]
    refine Nat.dvd_add ?_ ih
    split
    · exact dvd_eltSize k
    · exact Nat.dvd_zero _

theorem bucketSum_ne_zero {size : Nat} {keys : List HashKey} (hk : k ∈ keys)
    (hnull : k.isNull = false) : bucketSum size (k.keyHash % size) keys ≠ 0 := by
  induction keys with
  | nil => exact absurd hk not_mem_nil
  | cons k' ks ih =>
    rcases mem_cons.mp hk with rfl | hk
    · have := eltSize_ge k
      rw [bucketSum_cons_of_in ks hnull rfl]
      omega
    · have := ih hk
      rw [bucketSum]
      omega

/-! ## The counters -/

variable {test : Nat → Nat}

theorem sumSizes_apply {size : Nat} (keys : List HashKey) {i : Nat}
    (htest : test i < 65536) :
    sumSizes size keys test i = short (test i + bucketSum size i keys) := by
  induction keys generalizing test with
  | nil => exact (short_of_lt htest).symm
  | cons k ks ih =>
    rw [sumSizes]
    by_cases hnull : k.isNull
    · rw [if_pos hnull, ih htest, bucketSum_cons_of_out ks (by simp [hnull])]
    rw [if_neg hnull]
    by_cases hkey : k.keyHash % size = i
    · subst hkey
      rw [ih (by rw [update_self]; exact short_lt _), update_self,
        short_short_add, bucketSum_cons_of_in ks (by simpa using hnull) rfl, add_assoc]
    · rw [ih (by rwa [update_of_ne (Ne.symm hkey)]),
        update_of_ne (Ne.symm hkey), bucketSum_cons_of_out ks fun h => hkey h.2]

theorem dvd_short {n : Nat} (h : pointerSize ∣ n) : pointerSize ∣ short n :=
  (Nat.dvd_mod_iff (by decide)).mpr h

section

variable {line : CacheLine} {size : Nat} {keys : List HashKey} {i : Nat}

theorem dvd_roundUp (test : Nat → Nat) (i : Nat) : pointerSize ∣ roundUp line test i := by
  rw [roundUp]
  split
  · rename_i h
    exact h ▸ Nat.dvd_refl _
  · exact dvd_short (Nat.dvd_trans line.dvd_size (dvd_align _ _))

theorem roundUp_lt (test : Nat → Nat) (i : Nat) : roundUp line test i < 65536 := by
  rw [roundUp]
  split
  · rename_i h
    rw [h]
    decide
  · exact short_lt _

theorem test_eq (i : Nat) :
    sumSizes size keys (fun _ => pointerSize) i = short (pointerSize + bucketSum size i keys) :=
  sumSizes_apply keys (by decide)

theorem reserved_of_fits (hne : bucketSum size i keys ≠ 0)
    (hfits : align (pointerSize + bucketSum size i keys) line.size < 65536) :
    roundUp line (sumSizes size keys fun _ => pointerSize) i =
      align (pointerSize + bucketSum size i keys) line.size := by
  have hle := le_align line.size_pos (pointerSize + bucketSum size i keys)
  rw [roundUp, test_eq, short_of_lt (by omega), if_neg (by omega), short_of_lt hfits]

theorem reserved_of_not_fits (hne : bucketSum size i keys ≠ 0)
    (hlt : bucketSum size i keys < 65536)
    (hfits : ¬ align (pointerSize + bucketSum size i keys) line.size < 65536) :
    roundUp line (sumSizes size keys fun _ => pointerSize) i = 0 := by
  have hpointer : pointerSize = 8 := rfl
  obtain ⟨m, hm⟩ := dvd_bucketSum size i keys
  rw [hpointer] at hm
  rw [roundUp, test_eq]
  rcases lt_or_ge (pointerSize + bucketSum size i keys) 65536 with hsmall | hlarge
  · rw [short_of_lt hsmall, if_neg (by omega)]
    have hzero : align (pointerSize + bucketSum size i keys) line.size % 65536 = 0 := by
      rcases le_total line.shift 16 with hle | hge
      · have hdvd : line.size ∣ 65536 := Nat.pow_dvd_pow 2 hle
        have := align_le_of_dvd line.size_pos hdvd (le_of_lt hsmall)
        omega
      · have hdvd : 65536 ∣ line.size := Nat.pow_dvd_pow 2 hge
        exact Nat.mod_eq_zero_of_dvd (Nat.dvd_trans hdvd (dvd_align _ _))
    exact hzero
  · have hsum : pointerSize + bucketSum size i keys = 65536 := by omega
    have hself : align 0 line.size = 0 := align_eq_self line.size_pos (Nat.dvd_zero _)
    rw [hsum, show short 65536 = 0 from rfl, hself]
    rfl

theorem reserved_of_empty (hempty : bucketSum size i keys = 0) :
    roundUp line (sumSizes size keys fun _ => pointerSize) i = pointerSize := by
  rw [roundUp, test_eq, hempty]
  rfl

end

/-! ## The buckets -/

/-- Buckets lie one behind the other, and each has what was reserved for it. -/
theorem placeBuckets_spec (reserved : Nat → Nat) (n i elts : Nat) (buckets : Nat → Nat) :
    (∀ j, j < i ∨ i + n ≤ j ∨ reserved j = pointerSize →
      placeBuckets reserved n i elts buckets j = buckets j) ∧
    (∀ j, i ≤ j → j < i + n → reserved j ≠ pointerSize →
      elts ≤ placeBuckets reserved n i elts buckets j) ∧
    (∀ j k, i ≤ j → j < k → k < i + n → reserved j ≠ pointerSize → reserved k ≠ pointerSize →
      placeBuckets reserved n i elts buckets j + reserved j ≤
        placeBuckets reserved n i elts buckets k) ∧
    (∀ j, pointerSize ∣ elts → (∀ k, pointerSize ∣ reserved k) → (∀ k, pointerSize ∣ buckets k) →
      pointerSize ∣ placeBuckets reserved n i elts buckets j) := by
  induction n generalizing i elts buckets with
  | zero =>
    exact ⟨fun j _ => rfl, fun j h₁ h₂ => by omega, fun j k h₁ h₂ h₃ => by omega,
      fun j _ _ hbuckets => hbuckets j⟩
  | succ n ih =>
    rw [placeBuckets]
    split
    · rename_i hskip
      obtain ⟨hout, hge, hmono, hdvd⟩ := ih (i + 1) elts buckets
      refine ⟨fun j hj => hout j ?_, fun j h₁ h₂ hj => hge j ?_ (by omega) hj,
        fun j k h₁ h₂ h₃ hj hk => hmono j k ?_ h₂ (by omega) hj hk, hdvd⟩
      · rcases hj with hj | hj | hj
        · exact Or.inl (by omega)
        · exact Or.inr (Or.inl (by omega))
        · exact Or.inr (Or.inr hj)
      · rcases Nat.eq_or_lt_of_le h₁ with rfl | hlt
        · exact absurd hskip hj
        · exact hlt
      · rcases Nat.eq_or_lt_of_le h₁ with rfl | hlt
        · exact absurd hskip hj
        · exact hlt
    · rename_i hused
      obtain ⟨hout, hge, hmono, hdvd⟩ := ih (i + 1) (elts + reserved i) (update buckets i elts)
      have hself : placeBuckets reserved n (i + 1) (elts + reserved i)
          (update buckets i elts) i = elts := by
        rw [hout i (Or.inl (Nat.lt_succ_self i)), update_self]
      refine ⟨fun j hj => ?_, fun j h₁ h₂ hj => ?_, fun j k h₁ h₂ h₃ hj hk => ?_,
        fun j helts hres hbuckets => hdvd j (Nat.dvd_add helts (hres i)) hres fun k => ?_⟩
      · have hne : j ≠ i := by
          rintro rfl
          rcases hj with hj | hj | hj
          · omega
          · omega
          · exact hused hj
        rw [hout j, update_of_ne hne]
        rcases hj with hj | hj | hj
        · exact Or.inl (by omega)
        · exact Or.inr (Or.inl (by omega))
        · exact Or.inr (Or.inr hj)
      · rcases Nat.eq_or_lt_of_le h₁ with rfl | hlt
        · exact Nat.le_of_eq hself.symm
        · exact Nat.le_trans (Nat.le_add_right _ _) (hge j hlt (by omega) hj)
      · rcases Nat.eq_or_lt_of_le h₁ with rfl | hlt
        · rw [hself]
          exact hge k h₂ (by omega) hk
        · exact hmono j k hlt h₂ (by omega) hj hk
      · by_cases hk : k = i
        · rw [hk, update_self]
          exact helts
        · rw [update_of_ne hk]
          exact hbuckets k

/-! ## The elements -/

/-- The elements with their addresses. -/
def placements (hash : Hash) : List HashKey → (Nat → Nat) → List (HashKey × Nat)
  | [], _ => []
  | k :: ks, test =>
      if k.isNull then placements hash ks test
      else
        let key := k.keyHash % hash.size
        (k, hash.buckets key + test key) ::
          placements hash ks (update test key (short (test key + eltSize k)))

/-- The bytes of an element. -/
def eltBytes (k : HashKey) : Bytes :=
  leBytes 8 k.value ++ leBytes 2 (short k.key.length) ++ strlow k.key

@[simp] theorem length_strlow (s : Bytes) : (strlow s).length = s.length := length_map _

theorem length_eltBytes (k : HashKey) : (eltBytes k).length = 10 + k.key.length := by
  simp only [eltBytes, length_append, length_leBytes, length_strlow]

/-- What is written for an element. -/
def eltWrite (e : HashKey × Nat) : Nat × Bytes := (e.2, eltBytes e.1)

/-- What is written for a terminator. -/
def endWrites (hash : Hash) (ends : Nat → Nat) : List (Nat × Bytes) :=
  ((List.range hash.size).filter fun i => hash.buckets i ≠ 0).map fun i => (ends i, leBytes 8 0)

theorem fillElts_eq {hash : Hash} {keys : List HashKey} {test : Nat → Nat} {mem : Nat → Byte}
    (hused : ∀ k ∈ keys, k.isNull = false → hash.buckets (k.keyHash % hash.size) ≠ 0) :
    fillElts hash keys test mem =
      .ok (writeAll mem ((placements hash keys test).map eltWrite),
        sumSizes hash.size keys test, placements hash keys test) := by
  induction keys generalizing test mem with
  | nil => rfl
  | cons k ks ih =>
    have hks : ∀ k' ∈ ks, k'.isNull = false → hash.buckets (k'.keyHash % hash.size) ≠ 0 :=
      fun k' hk' => hused k' (mem_cons_of_mem _ hk')
    rw [fillElts, sumSizes, placements]
    by_cases hnull : k.isNull
    · rw [if_pos hnull, if_pos hnull, if_pos hnull, ih hks]
    rw [if_neg hnull, if_neg hnull, if_neg hnull,
      if_neg (hused k (mem_cons_self ..) (by simpa using hnull))]
    simp only
    rw [ih hks]
    have hwrite : ∀ (mem : Nat → Byte) (a : Nat),
        memcpy (memcpy (memcpy mem a (leBytes 8 k.value)) (a + 8)
          (leBytes 2 (short k.key.length))) (a + 10) (strlow k.key) =
        memcpy mem a (eltBytes k) := by
      intro mem a
      have h₁ := memcpy_append mem a (leBytes 8 k.value) (leBytes 2 (short k.key.length))
      have h₂ := memcpy_append mem a (leBytes 8 k.value ++ leBytes 2 (short k.key.length))
        (strlow k.key)
      rw [length_leBytes] at h₁
      rw [length_append, length_leBytes, length_leBytes] at h₂
      rw [h₁, h₂, eltBytes]
    rw [hwrite, map_cons, writeAll_cons]
    rfl

variable {mem : Nat → Byte}

theorem buckets_of_fillElts {hash : Hash} {keys : List HashKey}
    {r : (Nat → Byte) × (Nat → Nat) × List (HashKey × Nat)}
    (hfill : fillElts hash keys test mem = .ok r) :
    ∀ k ∈ keys, k.isNull = false → hash.buckets (k.keyHash % hash.size) ≠ 0 := by
  induction keys generalizing test mem r with
  | nil => exact fun k hk => absurd hk not_mem_nil
  | cons k ks ih =>
    intro k' hk' hnull'
    rw [fillElts] at hfill
    by_cases hnull : k.isNull
    · rw [if_pos hnull] at hfill
      rcases mem_cons.mp hk' with rfl | hk'
      · exact absurd hnull (by simp [hnull'])
      · exact ih hfill k' hk' hnull'
    rw [if_neg hnull] at hfill
    by_cases hzero : hash.buckets (k.keyHash % hash.size) = 0
    · rw [if_pos hzero] at hfill
      cases hfill
    rw [if_neg hzero] at hfill
    simp only at hfill
    rcases mem_cons.mp hk' with rfl | hk'
    · exact hzero
    · split at hfill
      · rename_i hrest
        exact ih hrest k' hk' hnull'
      · cases hfill

theorem writeEnds_eq (hash : Hash) (ends : Nat → Nat) (mem : Nat → Byte) :
    writeEnds hash ends mem = writeAll mem (endWrites hash ends) := by
  rw [writeEnds, endWrites, writeAll]
  induction List.range hash.size generalizing mem with
  | nil => rfl
  | cons i is ih =>
    rw [foldl_cons, filter_cons]
    by_cases hi : hash.buckets i = 0
    · rw [if_pos hi, if_neg (by simp [hi]), ih]
    · rw [if_neg hi, if_pos (by simp [hi]), ih]
      rfl

theorem map_fst_placements (hash : Hash) (keys : List HashKey) (test : Nat → Nat) :
    (placements hash keys test).map Prod.fst = keys.filter fun k => !k.isNull := by
  induction keys generalizing test with
  | nil => rfl
  | cons k ks ih =>
    rw [placements, filter_cons]
    cases hnull : k.isNull with
    | true => simpa using ih test
    | false => simpa using ih _

/-! ## Where the elements lie -/

section

variable {hash : Hash}

/-- Every element is inside what its bucket adds up to. -/
theorem bounds_of_mem_placements {keys : List HashKey} {test : Nat → Nat}
    (hfit : ∀ i, test i + bucketSum hash.size i keys < 65536) {e : HashKey × Nat}
    (he : e ∈ placements hash keys test) :
    (e.1 ∈ keys ∧ e.1.isNull = false) ∧
      ∃ o, e.2 = hash.buckets (e.1.keyHash % hash.size) + o ∧
        test (e.1.keyHash % hash.size) ≤ o ∧
        o + eltSize e.1 ≤ test (e.1.keyHash % hash.size) +
          bucketSum hash.size (e.1.keyHash % hash.size) keys := by
  induction keys generalizing test with
  | nil => exact absurd he not_mem_nil
  | cons k ks ih =>
    rw [placements] at he
    by_cases hnull : k.isNull
    · rw [if_pos hnull] at he
      have hsum := @bucketSum_cons_null k hash.size ks hnull
      obtain ⟨⟨hmem, hval⟩, o, ho⟩ := ih (fun i => hsum i ▸ hfit i) he
      rw [hsum]
      exact ⟨⟨mem_cons_of_mem _ hmem, hval⟩, o, ho⟩
    rw [if_neg hnull] at he
    have hfalse : k.isNull = false := by simpa using hnull
    have hself := bucketSum_cons_of_in ks hfalse (Eq.refl (k.keyHash % hash.size))
    have hbound := hfit (k.keyHash % hash.size)
    rcases mem_cons.mp he with rfl | he
    · exact ⟨⟨mem_cons_self .., hfalse⟩, test _, rfl, le_rfl, by simp only; omega⟩
    obtain ⟨hnext, hfit'⟩ := fits_cons hfalse hfit
    rw [hnext] at he
    obtain ⟨⟨hmem, hval⟩, o, haddr, hlow, hhigh⟩ := ih hfit' he
    refine ⟨⟨mem_cons_of_mem _ hmem, hval⟩, o, haddr, ?_⟩
    by_cases hi : e.1.keyHash % hash.size = k.keyHash % hash.size
    · rw [hi, update_self] at hlow hhigh
      rw [hi]
      omega
    · rw [update_of_ne hi] at hlow hhigh
      rw [bucketSum_cons_of_out ks fun h => hi h.2.symm]
      exact ⟨hlow, hhigh⟩

theorem ordered_placements {keys : List HashKey} {test : Nat → Nat}
    (hfit : ∀ i, test i + bucketSum hash.size i keys < 65536) :
    (placements hash keys test).Pairwise fun e₁ e₂ =>
      e₁.1.keyHash % hash.size = e₂.1.keyHash % hash.size → e₁.2 + eltSize e₁.1 ≤ e₂.2 := by
  induction keys generalizing test with
  | nil => exact List.Pairwise.nil
  | cons k ks ih =>
    rw [placements]
    by_cases hnull : k.isNull
    · rw [if_pos hnull]
      exact ih fun i => bucketSum_cons_null ks hnull i ▸ hfit i
    rw [if_neg hnull]
    have hfalse : k.isNull = false := by simpa using hnull
    obtain ⟨hnext, hfit'⟩ := fits_cons hfalse hfit
    simp only [hnext]
    refine pairwise_cons.mpr ⟨fun e he hsame => ?_, ih hfit'⟩
    obtain ⟨-, o, haddr, hlow, -⟩ := bounds_of_mem_placements hfit' he
    have hkey : k.keyHash % hash.size = e.1.keyHash % hash.size := hsame
    rw [← hkey, update_self] at hlow
    rw [haddr, ← hkey]
    change hash.buckets (k.keyHash % hash.size) + test (k.keyHash % hash.size) + eltSize k ≤ _
    omega

/-- Where the sum does not fit, some element ends beyond what a counter holds. -/
theorem exists_past_bound {keys : List HashKey} {test : Nat → Nat} {i : Nat}
    (htest : test i < 65536) (hsum : 65536 ≤ test i + bucketSum hash.size i keys) :
    ∃ e ∈ placements hash keys test, e.1.keyHash % hash.size = i ∧
      hash.buckets i + 65536 ≤ e.2 + eltSize e.1 := by
  induction keys generalizing test with
  | nil =>
    simp only [bucketSum] at hsum
    omega
  | cons k ks ih =>
    rw [placements]
    by_cases hnull : k.isNull
    · rw [bucketSum_cons_null ks hnull] at hsum
      rw [if_pos hnull]
      exact ih htest hsum
    have hfalse : k.isNull = false := by simpa using hnull
    rw [if_neg hnull]
    by_cases hi : k.keyHash % hash.size = i
    · subst hi
      rw [bucketSum_cons_of_in ks hfalse rfl] at hsum
      rcases lt_or_ge (test (k.keyHash % hash.size) + eltSize k) 65536 with hlt | hge
      · obtain ⟨e, he, hrest⟩ := @ih (update test (k.keyHash % hash.size)
          (short (test (k.keyHash % hash.size) + eltSize k)))
          (by rw [update_self]; exact short_lt _)
          (by rw [update_self, short_of_lt hlt]; omega)
        exact ⟨e, mem_cons_of_mem _ he, hrest⟩
      · refine ⟨_, mem_cons_self .., rfl, ?_⟩
        simp only
        omega
    · rw [bucketSum_cons_of_out ks fun h => hi h.2] at hsum
      have hkeep : update test (k.keyHash % hash.size)
          (short (test (k.keyHash % hash.size) + eltSize k)) i = test i :=
        update_of_ne (Ne.symm hi) ..
      obtain ⟨e, he, hrest⟩ := @ih (update test (k.keyHash % hash.size)
          (short (test (k.keyHash % hash.size) + eltSize k)))
          (by rwa [hkeep]) (by rwa [hkeep])
      exact ⟨e, mem_cons_of_mem _ he, hrest⟩

theorem exists_mem_placements {keys : List HashKey} {test : Nat → Nat} {k : HashKey}
    (hk : k ∈ keys) (hnull : k.isNull = false) :
    ∃ a, (k, a) ∈ placements hash keys test := by
  have hmem : k ∈ (placements hash keys test).map Prod.fst := by
    rw [map_fst_placements, mem_filter]
    exact ⟨hk, by simp [hnull]⟩
  obtain ⟨e, he, rfl⟩ := mem_map.mp hmem
  exact ⟨e.2, he⟩

theorem exists_key_of_bucketSum_ne {size i : Nat} {keys : List HashKey}
    (hne : bucketSum size i keys ≠ 0) :
    ∃ k ∈ keys, k.isNull = false ∧ k.keyHash % size = i := by
  induction keys with
  | nil => exact absurd rfl hne
  | cons k ks ih =>
    by_cases hk : k.isNull = false ∧ k.keyHash % size = i
    · exact ⟨k, mem_cons_self .., hk⟩
    · rw [bucketSum_cons_of_out ks hk] at hne
      obtain ⟨k', hk', hrest⟩ := ih hne
      exact ⟨k', mem_cons_of_mem _ hk', hrest⟩

end

/-! ## Chains -/

/-- The elements `ks` lie one behind the other from an address on, and a null
pointer behind them. -/
def Chain (mem : Nat → Byte) : Nat → List HashKey → Prop
  | a, [] => eltValue mem a = 0
  | a, k :: ks =>
      (eltValue mem a = k.value ∧ eltLen mem a = k.key.length ∧
        load mem (a + 10) k.key.length = strlow k.key) ∧ Chain mem (a + eltSize k) ks

theorem reads_of_load {a : Nat}
    (hlen : k.key.length < 65536) (h : load mem a (10 + k.key.length) = eltBytes k) :
    eltValue mem a = k.value ∧ eltLen mem a = k.key.length ∧
      load mem (a + 10) k.key.length = strlow k.key := by
  rw [load_append, load_append mem a 8 2, eltBytes] at h
  obtain ⟨hhead, hname⟩ := append_inj h (by simp)
  obtain ⟨hvalue, hshort⟩ := append_inj hhead (by simp)
  refine ⟨?_, ?_, hname⟩
  · rw [eltValue, hvalue, leNat_leBytes]
    exact Nat.mod_eq_of_lt k.value_lt
  · rw [eltLen, hshort, leNat_leBytes, short_of_lt hlen]
    exact Nat.mod_eq_of_lt hlen

/-- The elements of one bucket. -/
def bucketKeys (size i : Nat) (keys : List HashKey) : List HashKey :=
  keys.filter fun k => !k.isNull && k.keyHash % size == i

theorem mem_bucketKeys {size i : Nat} {keys : List HashKey} :
    k ∈ bucketKeys size i keys ↔ k ∈ keys ∧ k.isNull = false ∧ k.keyHash % size = i := by
  simp [bucketKeys]

theorem length_bucketKeys_le (size i : Nat) (keys : List HashKey) :
    (bucketKeys size i keys).length ≤ bucketSum size i keys := by
  induction keys with
  | nil => exact le_refl 0
  | cons k ks ih =>
    rw [bucketKeys, filter_cons, bucketSum]
    have hge := eltSize_ge k
    by_cases hk : k.isNull = false ∧ k.keyHash % size = i
    · rw [if_pos (by simp [hk]), if_pos hk, length_cons]
      rw [bucketKeys] at ih
      omega
    · rw [if_neg (by simpa using hk), if_neg hk, zero_add]
      exact ih

/-- The elements of a bucket follow one another up to the null pointer. -/
theorem chain_of_placements {hash : Hash} {i : Nat} (keys : List HashKey)
    (hfit : ∀ j, test j + bucketSum hash.size j keys < 65536)
    (hreads : ∀ e ∈ placements hash keys test,
      load mem e.2 (10 + e.1.key.length) = eltBytes e.1)
    (hend : eltValue mem (hash.buckets i + (test i + bucketSum hash.size i keys)) = 0) :
    Chain mem (hash.buckets i + test i) (bucketKeys hash.size i keys) := by
  induction keys generalizing test with
  | nil => exact hend
  | cons k ks ih =>
    rw [placements] at hreads
    rw [bucketKeys, filter_cons]
    by_cases hnull : k.isNull
    · have hsum := @bucketSum_cons_null k hash.size ks hnull
      rw [if_pos hnull] at hreads
      rw [if_neg (by simp [hnull])]
      exact ih (fun j => hsum j ▸ hfit j) hreads (hsum i ▸ hend)
    have hfalse : k.isNull = false := by simpa using hnull
    have hself := bucketSum_cons_of_in ks hfalse (Eq.refl (k.keyHash % hash.size))
    have hbound := hfit (k.keyHash % hash.size)
    obtain ⟨hnext, hfit'⟩ := fits_cons hfalse hfit
    rw [if_neg hnull] at hreads
    simp only [hnext] at hreads
    have hrest := fun e he => hreads e (mem_cons_of_mem _ he)
    by_cases hi : k.keyHash % hash.size = i
    · subst hi
      have hchain := ih hfit' hrest (by
        rw [update_self, add_assoc, ← hself]
        exact hend)
      rw [update_self, ← add_assoc] at hchain
      rw [if_pos (by simp [hfalse])]
      have hge := eltSize_ge k
      exact ⟨reads_of_load (by omega) (hreads _ (mem_cons_self ..)), hchain⟩
    · rw [if_neg (by simp [hi])]
      have hkeep : update test (k.keyHash % hash.size)
          (test (k.keyHash % hash.size) + eltSize k) i = test i :=
        update_of_ne (Ne.symm hi) ..
      have hchain := ih hfit' hrest (by
        rw [hkeep, ← bucketSum_cons_of_out ks fun h => hi h.2]
        exact hend)
      rwa [hkeep] at hchain

theorem findElt_chain {name : Bytes} {fuel a : Nat} {ks : List HashKey}
    (hchain : Chain mem a ks) (halign : pointerSize ∣ a) (hvalue : ∀ k ∈ ks, k.value ≠ 0)
    (hfuel : ks.length < fuel) :
    findElt mem name fuel a =
      .ok (((ks.find? fun k => strlow k.key = name).map HashKey.value).getD 0) := by
  induction ks generalizing fuel a with
  | nil =>
    obtain ⟨fuel, rfl⟩ : ∃ n, fuel = n + 1 := ⟨fuel - 1, by omega⟩
    rw [findElt, if_pos (show eltValue mem a = 0 from hchain)]
    rfl
  | cons k ks ih =>
    obtain ⟨fuel, rfl⟩ : ∃ n, fuel = n + 1 := ⟨fuel - 1, by omega⟩
    obtain ⟨⟨hval, hlen, hname⟩, hrest⟩ := hchain
    rw [findElt, hval, if_neg (hvalue k (mem_cons_self ..)), hlen, find?_cons]
    by_cases hk : strlow k.key = name
    · have hmatch : name.length = k.key.length := by rw [← hk, length_strlow]
      rw [if_pos ⟨hmatch, by rw [hmatch, hname, hk]⟩]
      simp [hk]
    have hmiss : ¬ (name.length = k.key.length ∧ load mem (a + 10) name.length = name) := by
      rintro ⟨hmatch, hload⟩
      rw [hmatch, hname] at hload
      exact hk hload
    rw [if_neg hmiss]
    have hnext : align (a + 10 + k.key.length) pointerSize = a + eltSize k := by
      obtain ⟨m, rfl⟩ := halign
      simp only [align, eltSize, pointerSize]
      omega
    rw [hnext, ih hrest (Nat.dvd_add halign (dvd_eltSize k))
      (fun k' hk' => hvalue k' (mem_cons_of_mem _ hk'))
      (by rw [length_cons] at hfuel; omega)]
    simp [hk]

end Nginx.Core
