/-
  Core/HashTable.lean --- when the table of `ngx_hash_init` is right.

  Right is a table whose elements and terminators lie in the bytes that are set
  aside for their buckets, apart from each other, and in which the lookup finds
  every name and no other.  The table is right exactly if every bucket fits,
  that is, if the 16-bit counters hold the rounded size of every bucket in use.
-/
import Mathlib.Data.List.Find
import Nginx.Core.HashLookup

set_option autoImplicit false

namespace Nginx.Core

open List Foundation Option

/-! ## What is asked of the keys and of the table -/

/-- The names that count are distinct in lower case, their hashes are those of
the names in lower case, and their values are not null. -/
structure ValidKeys (h : Bytes → Nat) (keys : List HashKey) : Prop where
  distinct : (keys.filter fun k => !k.isNull).Pairwise fun k k' => strlow k.key ≠ strlow k'.key
  hashed : ∀ k ∈ keys, k.isNull = false → k.keyHash = h (strlow k.key)
  value_ne : ∀ k ∈ keys, k.isNull = false → k.value ≠ 0

/-- Every key has its element, nothing overlaps or leaves its bucket, and the
lookup returns the value of a name in the table and `NULL` for every other. -/
structure BuiltHash.Right (h : Bytes → Nat) (keys : List HashKey) (built : BuiltHash) : Prop where
  all : built.elts.map Prod.fst = keys.filter fun k => !k.isNull
  apart : built.elts.Pairwise fun e₁ e₂ =>
    Apart e₁.2 (10 + e₁.1.key.length) e₂.2 (10 + e₂.1.key.length)
  inside : ∀ e ∈ built.elts,
    built.hash.buckets (e.1.keyHash % built.hash.size) ≤ e.2 ∧
      e.2 + (10 + e.1.key.length) ≤
        built.hash.buckets (e.1.keyHash % built.hash.size) +
          built.reserved (e.1.keyHash % built.hash.size)
  ends : ∀ i, i < built.hash.size → built.hash.buckets i ≠ 0 →
    built.hash.buckets i ≤ built.ends i ∧
      built.ends i + pointerSize ≤ built.hash.buckets i + built.reserved i
  found : ∀ k ∈ keys, k.isNull = false →
    hashFind built.mem built.hash (h (strlow k.key)) (strlow k.key) = .ok k.value
  missing : ∀ name, (∀ k ∈ keys, k.isNull = false → strlow k.key ≠ name) →
    hashFind built.mem built.hash (h name) name = .ok 0

/-- The rounded size of every bucket in use is in the range of `u_short`. -/
def Fits (line : CacheLine) (size : Nat) (keys : List HashKey) : Prop :=
  ∀ i, i < size → bucketSum size i keys ≠ 0 →
    align (pointerSize + bucketSum size i keys) line.size < 65536

instance (line : CacheLine) (size : Nat) (keys : List HashKey) : Decidable (Fits line size keys) :=
  inferInstanceAs (Decidable (∀ i, i < size → bucketSum size i keys ≠ 0 →
    align (pointerSize + bucketSum size i keys) line.size < 65536))

/-! ## The table that is built -/

theorem startSize_pos (conf : HashInit) (bucketSize nelts : Nat) :
    0 < startSize conf bucketSize nelts := by
  unfold startSize
  by_cases hstart : nelts / (bucketSize / (2 * pointerSize)) ≠ 0
  · have hpos := pos_of_ne_zero hstart
    simp only [if_pos hstart]
    split <;> omega
  · simp only [if_neg hstart]
    split <;> omega

theorem bounds_of_findSize {bucketSize : Nat} {keys : List HashKey} {n start size : Nat}
    (h : findSize bucketSize keys n start = some size) : start ≤ size ∧ size < start + n := by
  induction n generalizing start with
  | zero => cases h
  | succ n ih =>
    rw [findSize] at h
    split at h
    · obtain rfl := some.inj h
      omega
    · obtain ⟨hle, hlt⟩ := ih h
      omega

variable {conf : HashInit}

theorem tableSize_bounds (keys : List HashKey) (hmax : conf.maxSize ≠ 0) :
    0 < tableSize conf keys ∧ tableSize conf keys ≤ conf.maxSize := by
  have hstart := startSize_pos conf (subWord conf.bucketSize pointerSize) keys.length
  rw [tableSize]
  cases hfind : findSize (subWord conf.bucketSize pointerSize) keys
      (conf.maxSize + 1 - startSize conf (subWord conf.bucketSize pointerSize) keys.length)
      (startSize conf (subWord conf.bucketSize pointerSize) keys.length) with
  | none => exact ⟨pos_of_ne_zero hmax, le_rfl⟩
  | some size =>
    obtain ⟨hle, hlt⟩ := bounds_of_findSize hfind
    simp only [getD_some]
    omega

/-- The bytes set aside for each bucket. -/
def tableReserved (line : CacheLine) (size : Nat) (keys : List HashKey) : Nat → Nat :=
  roundUp line (sumSizes size keys fun _ => pointerSize)

/-- The buckets, from an address on. -/
def tableHash (line : CacheLine) (size base : Nat) (keys : List HashKey) : Hash where
  buckets := placeBuckets (tableReserved line size keys) size 0 base fun _ => 0
  size := size

/-- The table of the given size, from an address on. -/
def builtAt (line : CacheLine) (size base : Nat) (keys : List HashKey) (mem : Nat → Byte) :
    BuiltHash :=
  let hash := tableHash line size base keys
  let elts := placements hash keys fun _ => 0
  let ends := fun i => hash.buckets i + sumSizes size keys (fun _ => 0) i
  { hash := hash
    mem := writeAll mem (elts.map eltWrite ++ endWrites hash ends)
    elts := elts
    reserved := tableReserved line size keys
    ends := ends }

/-- What `ngx_hash_init` has built when it succeeds. -/
theorem hashInit_eq {line : CacheLine} {allocs : HashAllocs}
    {mem : Nat → Byte} {keys : List HashKey} {built : BuiltHash}
    (h : hashInit line conf allocs mem keys = .ok (some built)) :
    conf.maxSize ≠ 0 ∧ ∃ base, base ≠ 0 ∧ pointerSize ∣ base ∧
      (∀ k ∈ keys, k.isNull = false →
        (tableHash line (tableSize conf keys) base keys).buckets
          (k.keyHash % tableSize conf keys) ≠ 0) ∧
      built = builtAt line (tableSize conf keys) base keys mem := by
  rw [hashInit] at h
  split at h
  · cases h
  rename_i hmax
  split at h
  · cases h
  split at h
  · cases h
  split at h
  · cases h
  simp only at h
  split at h
  · cases h
  cases helts : allocs.elts (totalLen (tableSize conf keys)
      (sumSizes (tableSize conf keys) keys fun _ => pointerSize)
      (roundUp line (sumSizes (tableSize conf keys) keys fun _ => pointerSize)) + line.size) with
  | none =>
    rw [helts] at h
    cases h
  | some addr =>
    rw [helts] at h
    simp only at h
    cases hfill : fillElts (tableHash line (tableSize conf keys) (align addr line.size) keys) keys
        (fun _ => 0) mem with
    | error fault =>
      have hfill' := hfill
      rw [tableHash, tableReserved] at hfill'
      rw [hfill'] at h
      cases h
    | ok r =>
      have hused := buckets_of_fillElts hfill
      have hfill' := hfill
      rw [tableHash, tableReserved] at hfill'
      rw [hfill'] at h
      rw [fillElts_eq hused] at hfill
      cases hfill
      cases h
      have haddr := allocs.elts_ne _ _ helts
      have hle := le_align line.size_pos addr
      refine ⟨hmax, align addr line.size, by omega,
        dvd_trans line.dvd_size (dvd_align _ _), hused, ?_⟩
      rw [writeEnds_eq, ← writeAll_append]
      rfl

theorem exists_built {line : CacheLine} {conf : HashInit} {allocs : HashAllocs}
    (mem : Nat → Byte) {keys : List HashKey} (hmax : conf.maxSize ≠ 0)
    (hroom : ∀ k ∈ keys, eltSize k + pointerSize ≤ conf.bucketSize)
    (hdiv : subWord conf.bucketSize pointerSize / (2 * pointerSize) ≠ 0)
    (htest : allocs.test = true) (hbuckets : allocs.buckets = true)
    (helts : ∀ len, allocs.elts len ≠ none)
    (hused : ∀ k ∈ keys, k.isNull = false →
      tableReserved line (tableSize conf keys) keys (k.keyHash % tableSize conf keys) ≠
        pointerSize) :
    ∃ built, hashInit line conf allocs mem keys = .ok (some built) := by
  have hsize := (tableSize_bounds keys hmax).1
  obtain ⟨addr, haddr⟩ := ne_none_iff_exists'.mp (helts
    (totalLen (tableSize conf keys) (sumSizes (tableSize conf keys) keys fun _ => pointerSize)
      (tableReserved line (tableSize conf keys) keys) + line.size))
  have hfill := @fillElts_eq (tableHash line (tableSize conf keys) (align addr line.size) keys) keys
    (fun _ => 0) mem fun k hk hnull => by
      obtain ⟨-, hge, -⟩ := placeBuckets_spec (tableReserved line (tableSize conf keys) keys)
        (tableSize conf keys) 0 (align addr line.size) fun _ => 0
      have hbase : align addr line.size ≤ (tableHash line (tableSize conf keys)
          (align addr line.size) keys).buckets (k.keyHash % tableSize conf keys) :=
        hge _ (Nat.zero_le _) (by rw [zero_add]; exact Nat.mod_lt _ hsize) (hused k hk hnull)
      have hne := allocs.elts_ne _ _ haddr
      have hle := le_align line.size_pos addr
      change (tableHash line (tableSize conf keys) (align addr line.size) keys).buckets
        (k.keyHash % tableSize conf keys) ≠ 0
      omega
  rw [hashInit, if_neg hmax, if_neg (fun ⟨k, hk, hlt⟩ => absurd (hroom k hk) (by omega)),
    if_neg (by simp [htest]), if_neg hdiv]
  rw [tableReserved] at haddr
  rw [tableHash, tableReserved] at hfill
  simp only [haddr, hfill, hbuckets]
  exact ⟨_, rfl⟩

/-! ## A table that fits -/

section

variable {line : CacheLine} {size base : Nat} {keys : List HashKey} {mem : Nat → Byte}

theorem room_of_fits (hfits : Fits line size keys) {i : Nat} (hi : i < size)
    (hne : bucketSum size i keys ≠ 0) :
    pointerSize + bucketSum size i keys ≤ tableReserved line size keys i := by
  rw [tableReserved, reserved_of_fits hne (hfits i hi hne)]
  exact le_align line.size_pos _

theorem bucket_of_fits (base : Nat) (hfits : Fits line size keys) {i : Nat} (hi : i < size)
    (hne : bucketSum size i keys ≠ 0) :
    base ≤ (tableHash line size base keys).buckets i ∧
      ∀ j, j < size → bucketSum size j keys ≠ 0 → i ≠ j →
        Apart ((tableHash line size base keys).buckets i) (tableReserved line size keys i)
          ((tableHash line size base keys).buckets j) (tableReserved line size keys j) := by
  have hused : ∀ j, j < size → bucketSum size j keys ≠ 0 →
      tableReserved line size keys j ≠ pointerSize := by
    intro j hj hsum
    have := room_of_fits hfits hj hsum
    omega
  obtain ⟨-, hge, hmono, -⟩ :=
    placeBuckets_spec (tableReserved line size keys) size 0 base fun _ => 0
  refine ⟨hge i (Nat.zero_le i) (by omega) (hused i hi hne), fun j hj hsum hij => ?_⟩
  rcases Nat.lt_or_gt_of_ne hij with hlt | hgt
  · exact Or.inl (hmono i j (Nat.zero_le i) hlt (by omega) (hused i hi hne) (hused j hj hsum))
  · exact Or.inr (hmono j i (Nat.zero_le j) hgt (by omega) (hused j hj hsum) (hused i hi hne))

theorem bucket_of_empty {i : Nat} (hempty : bucketSum size i keys = 0) :
    (tableHash line size base keys).buckets i = 0 := by
  obtain ⟨hout, -⟩ := placeBuckets_spec (tableReserved line size keys) size 0 base fun _ => 0
  exact hout i (Or.inr (Or.inr (reserved_of_empty hempty)))

theorem dvd_bucket (hbase : pointerSize ∣ base) (i : Nat) :
    pointerSize ∣ (tableHash line size base keys).buckets i := by
  obtain ⟨-, -, -, hdvd⟩ := placeBuckets_spec (tableReserved line size keys) size 0 base fun _ => 0
  exact hdvd i hbase (dvd_roundUp _) fun _ => dvd_zero _

theorem sum_lt_of_fits (hfits : Fits line size keys) (hsize : 0 < size) (i : Nat) :
    0 + bucketSum size i keys < 65536 := by
  rw [zero_add]
  by_cases hne : bucketSum size i keys = 0
  · omega
  obtain ⟨k, -, -, hkey⟩ := exists_key_of_bucketSum_ne hne
  have hi : i < size := hkey ▸ Nat.mod_lt _ hsize
  have hle := le_align line.size_pos (pointerSize + bucketSum size i keys)
  have := hfits i hi hne
  omega

theorem ends_of_fits (hfits : Fits line size keys) (hsize : 0 < size) (i : Nat) :
    (builtAt line size base keys mem).ends i =
      (tableHash line size base keys).buckets i + bucketSum size i keys := by
  have hsum : sumSizes size keys (fun _ => 0) i = bucketSum size i keys := by
    rw [sumSizes_apply keys (show (0 : Nat) < 65536 by decide),
      short_of_lt (sum_lt_of_fits hfits hsize i), zero_add]
  simp only [builtAt, hsum]

theorem bounds_of_fits (hfits : Fits line size keys) (hsize : 0 < size) {e : HashKey × Nat}
    (he : e ∈ (builtAt line size base keys mem).elts) :
    e.1.keyHash % size < size ∧ bucketSum size (e.1.keyHash % size) keys ≠ 0 ∧
      (tableHash line size base keys).buckets (e.1.keyHash % size) ≤ e.2 ∧
      e.2 + eltSize e.1 ≤ (tableHash line size base keys).buckets (e.1.keyHash % size) +
        bucketSum size (e.1.keyHash % size) keys := by
  obtain ⟨⟨hmem, hnull⟩, o, haddr, -, hhigh⟩ :=
    bounds_of_mem_placements (sum_lt_of_fits hfits hsize) he
  refine ⟨Nat.mod_lt _ hsize, bucketSum_ne_zero hmem hnull, ?_, ?_⟩
  · rw [haddr]
    exact Nat.le_add_right _ _
  · rw [haddr]
    change (tableHash line size base keys).buckets (e.1.keyHash % size) + o + eltSize e.1 ≤ _
    change o + eltSize e.1 ≤ 0 + bucketSum size (e.1.keyHash % size) keys at hhigh
    omega

theorem apart_of_fits (base : Nat) (mem : Nat → Byte) (hfits : Fits line size keys)
    (hsize : 0 < size) :
    (builtAt line size base keys mem).elts.Pairwise fun e₁ e₂ =>
      Apart e₁.2 (10 + e₁.1.key.length) e₂.2 (10 + e₂.1.key.length) := by
  have hordered : (builtAt line size base keys mem).elts.Pairwise fun e₁ e₂ =>
      e₁.1.keyHash % size = e₂.1.keyHash % size → e₁.2 + eltSize e₁.1 ≤ e₂.2 :=
    @ordered_placements (tableHash line size base keys) keys (fun _ => 0)
      (sum_lt_of_fits hfits hsize)
  refine List.Pairwise.imp_of_mem (fun {e₁ e₂} he₁ he₂ hsame => ?_) hordered
  have hlen₁ := eltSize_ge e₁.1
  have hlen₂ := eltSize_ge e₂.1
  by_cases hkey : e₁.1.keyHash % size = e₂.1.keyHash % size
  · have := hsame hkey
    exact Or.inl (by omega)
  obtain ⟨hi₁, hne₁, hlow₁, hhigh₁⟩ := bounds_of_fits hfits hsize he₁
  obtain ⟨hi₂, hne₂, hlow₂, hhigh₂⟩ := bounds_of_fits hfits hsize he₂
  have hroom₁ := room_of_fits hfits hi₁ hne₁
  have hroom₂ := room_of_fits hfits hi₂ hne₂
  exact ((bucket_of_fits base hfits hi₁ hne₁).2 _ hi₂ hne₂ hkey).mono hlow₁
    (by omega) hlow₂ (by omega)

/-- No two writes of the initialization meet where every bucket fits. -/
theorem writes_apart_of_fits (base : Nat) (mem : Nat → Byte) (hfits : Fits line size keys)
    (hsize : 0 < size) :
    ((builtAt line size base keys mem).elts.map eltWrite ++
      endWrites (tableHash line size base keys) (builtAt line size base keys mem).ends).Pairwise
      fun v w => Apart v.1 v.2.length w.1 w.2.length := by
  have hused : ∀ i, i < size → (tableHash line size base keys).buckets i ≠ 0 →
      bucketSum size i keys ≠ 0 := fun i _ hb hsum => hb (bucket_of_empty hsum)
  refine pairwise_append.mpr ⟨?_, ?_, ?_⟩
  · refine pairwise_map.mpr ?_
    refine List.Pairwise.imp (fun {e₁ e₂} h => ?_) (apart_of_fits base mem hfits hsize)
    simpa only [eltWrite, length_eltBytes] using h
  · refine pairwise_map.mpr ?_
    refine List.Pairwise.imp_of_mem (fun {i j} hi hj hlt => ?_) (pairwise_lt_range.filter _)
    rw [mem_filter, mem_range] at hi hj
    have hbi : (tableHash line size base keys).buckets i ≠ 0 := by simpa using hi.2
    have hbj : (tableHash line size base keys).buckets j ≠ 0 := by simpa using hj.2
    have hne : i ≠ j := ne_of_lt hlt
    have hroom₁ := room_of_fits hfits hi.1 (hused i hi.1 hbi)
    have hroom₂ := room_of_fits hfits hj.1 (hused j hj.1 hbj)
    have hpointer : pointerSize = 8 := rfl
    refine ((bucket_of_fits base hfits hi.1 (hused i hi.1 hbi)).2 j hj.1
      (hused j hj.1 hbj) hne).mono
      ?_ ?_ ?_ ?_
    · rw [ends_of_fits hfits hsize]
      exact Nat.le_add_right _ _
    · rw [ends_of_fits hfits hsize, length_leBytes]
      omega
    · rw [ends_of_fits hfits hsize]
      exact Nat.le_add_right _ _
    · rw [ends_of_fits hfits hsize, length_leBytes]
      omega
  · intro v hv w hw
    obtain ⟨e, he, rfl⟩ := mem_map.mp hv
    obtain ⟨i, hi, rfl⟩ := mem_map.mp hw
    rw [mem_filter, mem_range] at hi
    have hbi : (tableHash line size base keys).buckets i ≠ 0 := by simpa using hi.2
    have hsum := hused i hi.1 hbi
    obtain ⟨hkey, hne, hlow, hhigh⟩ := bounds_of_fits hfits hsize he
    have hlen := eltSize_ge e.1
    have hroom := room_of_fits hfits hi.1 hsum
    have hpointer : pointerSize = 8 := rfl
    simp only [eltWrite, length_eltBytes, length_leBytes, ends_of_fits hfits hsize]
    by_cases hsame : e.1.keyHash % size = i
    · rw [hsame] at hhigh
      exact Or.inl (by omega)
    · have hroom' := room_of_fits hfits hkey hne
      exact ((bucket_of_fits base hfits hkey hne).2 i hi.1 hsum hsame).mono hlow (by omega)
        (Nat.le_add_right _ _) (by omega)

theorem load_of_fits (base : Nat) (mem : Nat → Byte) (hfits : Fits line size keys)
    (hsize : 0 < size) {w : Nat × Bytes}
    (hw : w ∈ (builtAt line size base keys mem).elts.map eltWrite ++
      endWrites (tableHash line size base keys) (builtAt line size base keys mem).ends) :
    load (builtAt line size base keys mem).mem w.1 w.2.length = w.2 :=
  load_writeAll_of_mem (writes_apart_of_fits base mem hfits hsize) hw

/-- A lookup in a table whose buckets fit is a search of the names of one bucket. -/
theorem hashFind_of_fits (mem : Nat → Byte) (hfits : Fits line size keys) (hsize : 0 < size)
    (hbase : base ≠ 0) (halign : pointerSize ∣ base) {h : Bytes → Nat}
    (hkeys : ValidKeys h keys) (key : Nat)
    (name : Bytes) :
    hashFind (builtAt line size base keys mem).mem (tableHash line size base keys) key name =
      .ok ((((bucketKeys size (key % size) keys).find? fun k => strlow k.key = name).map
        HashKey.value).getD 0) := by
  have hi : key % size < size := Nat.mod_lt _ hsize
  rw [hashFind]
  change (if (tableHash line size base keys).buckets (key % size) = 0 then _ else _) = _
  by_cases hsum : bucketSum size (key % size) keys = 0
  · have hnone : bucketKeys size (key % size) keys = [] := by
      have := length_bucketKeys_le size (key % size) keys
      exact eq_nil_of_length_eq_zero (by omega)
    rw [if_pos (bucket_of_empty hsum), hnone]
    rfl
  have hbucket := (bucket_of_fits base hfits hi hsum).1
  rw [if_neg (by omega)]
  have hreads : ∀ e ∈ (builtAt line size base keys mem).elts,
      load (builtAt line size base keys mem).mem e.2 (10 + e.1.key.length) = eltBytes e.1 := by
    intro e he
    have hload := load_of_fits base mem hfits hsize
      (mem_append_left _ (mem_map_of_mem he))
    rwa [eltWrite, length_eltBytes] at hload
  have hend : eltValue (builtAt line size base keys mem).mem
      ((tableHash line size base keys).buckets (key % size) +
        (0 + bucketSum size (key % size) keys)) = 0 := by
    have hused : key % size ∈ (List.range size).filter fun i =>
        (tableHash line size base keys).buckets i ≠ 0 := by
      rw [mem_filter, mem_range, decide_eq_true_eq]
      exact ⟨hi, by omega⟩
    have hload := load_of_fits base mem hfits hsize
      (mem_append_right _ (mem_map_of_mem hused))
    rw [ends_of_fits hfits hsize, length_leBytes] at hload
    rw [zero_add, eltValue, hload]
    rfl
  have hchain := chain_of_placements (i := key % size) keys (sum_lt_of_fits hfits hsize)
    hreads hend
  refine findElt_chain hchain (dvd_bucket halign _) (fun k hk => ?_) ?_
  · obtain ⟨hmem, hnull, -⟩ := mem_bucketKeys.mp hk
    exact hkeys.value_ne k hmem hnull
  · have hlen := length_bucketKeys_le size (key % size) keys
    have := sum_lt_of_fits hfits hsize (key % size)
    exact lt_of_le_of_lt hlen (lt_of_lt_of_le (by omega) (show 65536 ≤ 2 ^ 64 by decide))

end

/-! ## The main result -/

variable {h : Bytes → Nat}

theorem find?_bucketKeys {size : Nat} {keys : List HashKey}
    (hkeys : ValidKeys h keys) (name : Bytes) :
    ((bucketKeys size (h name % size) keys).find? fun k => strlow k.key = name) =
      (keys.filter fun k => !k.isNull).find? fun k => strlow k.key = name := by
  rw [bucketKeys, find?_filter, find?_filter]
  refine find?_congr fun k hk => ?_
  rw [Bool.eq_iff_iff]
  simp only [Bool.and_eq_true, Bool.not_eq_true', beq_iff_eq, decide_eq_true_eq]
  constructor
  · rintro ⟨⟨hnull, -⟩, hname⟩
    exact ⟨hnull, hname⟩
  · rintro ⟨hnull, hname⟩
    exact ⟨⟨hnull, by rw [hkeys.hashed k hk hnull, hname]⟩, hname⟩

theorem find?_of_mem {keys : List HashKey} (hkeys : ValidKeys h keys)
    {k : HashKey} (hk : k ∈ keys) (hnull : k.isNull = false) :
    ((keys.filter fun k => !k.isNull).find? fun k' => strlow k'.key = strlow k.key) = some k := by
  have hmem : k ∈ keys.filter fun k => !k.isNull := mem_filter.mpr ⟨hk, by simp [hnull]⟩
  obtain ⟨front, back, hsplit⟩ := append_of_mem hmem
  have hdistinct := hkeys.distinct
  rw [hsplit, pairwise_append] at hdistinct
  rw [hsplit, find?_eq_some_iff_append]
  refine ⟨by simp, front, back, rfl, fun k' hk' => ?_⟩
  simpa using hdistinct.2.2 k' hk' k (mem_cons_self ..)

theorem find?_of_not_mem {keys : List HashKey} {name : Bytes}
    (hname : ∀ k ∈ keys, k.isNull = false → strlow k.key ≠ name) :
    ((keys.filter fun k => !k.isNull).find? fun k => strlow k.key = name) = none := by
  rw [find?_eq_none]
  intro k hk
  obtain ⟨hmem, hnull⟩ := mem_filter.mp hk
  simpa using hname k hmem (by simpa using hnull)

theorem fits_of_inside {line : CacheLine} {size base : Nat} {keys : List HashKey}
    {mem : Nat → Byte}
    (hinside : ∀ e ∈ (builtAt line size base keys mem).elts,
      (tableHash line size base keys).buckets (e.1.keyHash % size) ≤ e.2 ∧
        e.2 + (10 + e.1.key.length) ≤ (tableHash line size base keys).buckets (e.1.keyHash % size) +
          tableReserved line size keys (e.1.keyHash % size)) :
    Fits line size keys := by
  intro i hi hne
  by_contra hfits
  rcases lt_or_ge (bucketSum size i keys) 65536 with hlt | hge
  · -- nothing is set aside
    have hzero : tableReserved line size keys i = 0 := reserved_of_not_fits hne hlt hfits
    obtain ⟨k, hk, hnull, rfl⟩ := exists_key_of_bucketSum_ne hne
    obtain ⟨a, he⟩ := @exists_mem_placements (tableHash line size base keys) keys (fun _ => 0) k
      hk hnull
    obtain ⟨hlow, hhigh⟩ := hinside (k, a) he
    simp only at hlow hhigh
    omega
  · -- some element ends at the bound, and less than that is set aside
    obtain ⟨e, he, rfl, hpast⟩ := @exists_past_bound (tableHash line size base keys) keys
      (fun _ => 0) i (show (0 : Nat) < 65536 by decide) (by rw [zero_add]; exact hge)
    obtain ⟨hlow, hhigh⟩ := hinside e he
    have hlen := eltSize_lt e.1
    have hbound : tableReserved line size keys (e.1.keyHash % size) < 65536 := roundUp_lt _ _
    obtain ⟨m, hm⟩ : 8 ∣ tableReserved line size keys (e.1.keyHash % size) := dvd_roundUp _ _
    have hpointer : pointerSize = 8 := rfl
    change (tableHash line size base keys).buckets (e.1.keyHash % size) + 65536 ≤ _ at hpast
    omega

theorem fits_of_right {line : CacheLine} {allocs : HashAllocs}
    {mem : Nat → Byte} {keys : List HashKey} {built : BuiltHash}
    (hinit : hashInit line conf allocs mem keys = .ok (some built)) (hright : built.Right h keys) :
    Fits line (tableSize conf keys) keys := by
  obtain ⟨-, base, -, -, -, rfl⟩ := hashInit_eq hinit
  exact fits_of_inside hright.inside

/-- **The static hash.**  Where `ngx_hash_init` returns `NGX_OK`, the table is
right exactly if every bucket fits. -/
theorem hashInit_right_iff (line : CacheLine) (conf : HashInit) (allocs : HashAllocs)
    (mem : Nat → Byte) (h : Bytes → Nat) (keys : List HashKey) (hkeys : ValidKeys h keys)
    (built : BuiltHash) (hinit : hashInit line conf allocs mem keys = .ok (some built)) :
    built.Right h keys ↔ Fits line (tableSize conf keys) keys := by
  refine ⟨fits_of_right hinit, fun hfits => ?_⟩
  obtain ⟨hmax, base, hbase, halign, -, rfl⟩ := hashInit_eq hinit
  have hsize : 0 < tableSize conf keys := (tableSize_bounds keys hmax).1
  have hroom : ∀ {i}, i < tableSize conf keys → bucketSum (tableSize conf keys) i keys ≠ 0 →
      pointerSize + bucketSum (tableSize conf keys) i keys ≤
        tableReserved line (tableSize conf keys) keys i := fun hi hne => room_of_fits hfits hi hne
  exact
    { all := map_fst_placements _ _ _
      apart := apart_of_fits base mem hfits hsize
      inside := by
        intro e he
        obtain ⟨hi, hne, hlow, hhigh⟩ := bounds_of_fits hfits hsize he
        have hlen := eltSize_ge e.1
        have hspace := hroom hi hne
        refine ⟨hlow, ?_⟩
        change e.2 + (10 + e.1.key.length) ≤
          (tableHash line (tableSize conf keys) base keys).buckets
            (e.1.keyHash % tableSize conf keys) +
            tableReserved line (tableSize conf keys) keys (e.1.keyHash % tableSize conf keys)
        omega
      ends := by
        intro i hi hused
        have hspace := hroom hi fun hsum => hused (bucket_of_empty hsum)
        rw [ends_of_fits hfits hsize]
        refine ⟨Nat.le_add_right _ _, ?_⟩
        change _ ≤ (tableHash line (tableSize conf keys) base keys).buckets i +
          tableReserved line (tableSize conf keys) keys i
        omega
      found := by
        intro k hk hnull
        have hfind := hashFind_of_fits mem hfits hsize hbase halign hkeys
          (h (strlow k.key)) (strlow k.key)
        rw [find?_bucketKeys hkeys, find?_of_mem hkeys hk hnull] at hfind
        exact hfind
      missing := by
        intro name hname
        have hfind := hashFind_of_fits mem hfits hsize hbase halign hkeys (h name) name
        rw [find?_bucketKeys hkeys, find?_of_not_mem hname] at hfind
        exact hfind }

/-! ## Two tables -/

/-- Cache lines of 64 bytes. -/
def smallLine : CacheLine where
  shift := 6
  min_shift := by decide

/-- Allocations that succeed. -/
def generousAllocs : HashAllocs where
  test := true
  buckets := true
  elts := fun _ => some 4096
  elts_ne := by
    intro _ _ h
    obtain rfl := some.inj h
    decide

/-- Two names of one bucket, which are stored as `ad` and `bc`. -/
def shortKeys : List HashKey :=
  [⟨ascii "AD", false, 197, 1, by decide⟩, ⟨ascii "bc", false, 197, 2, by decide⟩]

/-- The sum of the bytes, as a hash. -/
def byteSum (s : Bytes) : Nat := (s.map UInt8.toNat).sum

theorem shortKey_right :
    ∃ built, hashInit smallLine ⟨1, 64⟩ generousAllocs (fun _ => 0) shortKeys = .ok (some built) ∧
      built.Right byteSum shortKeys := by
  have hkeys : ValidKeys byteSum shortKeys :=
    ⟨by decide, by decide, by decide⟩
  have hfits : Fits smallLine (tableSize ⟨1, 64⟩ shortKeys) shortKeys := by
    decide
  obtain ⟨built, hinit⟩ := @exists_built smallLine ⟨1, 64⟩ generousAllocs (fun _ => 0) shortKeys
    (by decide) (by decide) (by decide) rfl rfl (fun _ => by simp [generousAllocs]) (by decide)
  exact ⟨built, hinit,
    (hashInit_right_iff smallLine ⟨1, 64⟩ generousAllocs _ byteSum _ hkeys built hinit).mpr hfits⟩

/-- A name of 3846 bytes, with the letter of this number at its end. -/
def longKey (i : Nat) : HashKey where
  key := List.replicate 3845 (chr 'a') ++ [chr 'a' + UInt8.ofNat i]
  isNull := false
  keyHash := 3845 * 97 + (97 + i)
  value := 1
  value_lt := by decide

/-- Seventeen such names. -/
def longKeys : List HashKey := (List.range 17).map longKey

theorem eltSize_longKey (i : Nat) : eltSize (longKey i) = 3856 := by
  rw [eltSize, longKey, length_append, length_replicate, length_singleton]
  rfl

theorem bucketSum_one {size : Nat} {keys : List HashKey}
    (hkeys : ∀ k ∈ keys, k.isNull = false ∧ eltSize k = size) :
    bucketSum 1 0 keys = keys.length * size := by
  induction keys with
  | nil => simp [bucketSum]
  | cons k ks ih =>
    obtain ⟨hnull, hsize⟩ := hkeys k (mem_cons_self ..)
    rw [bucketSum_cons_of_in ks hnull (Nat.mod_one _), hsize,
      ih fun k' hk' => hkeys k' (mem_cons_of_mem _ hk'), length_cons, Nat.succ_mul,
      add_comm]

theorem bucketSum_longKeys : bucketSum 1 0 longKeys = 65552 := by
  have hkeys : ∀ k ∈ longKeys, k.isNull = false ∧ eltSize k = 3856 := by
    intro k hk
    obtain ⟨i, -, rfl⟩ := mem_map.mp hk
    exact ⟨rfl, eltSize_longKey i⟩
  rw [bucketSum_one hkeys, longKeys, length_map, length_range]

theorem longKeys_valid : ValidKeys byteSum longKeys where
  distinct := by
    have hall : (longKeys.filter fun k => !k.isNull) = longKeys := by
      rw [filter_eq_self]
      intro k hk
      obtain ⟨i, -, rfl⟩ := mem_map.mp hk
      rfl
    have hletter : ∀ i, i < 17 → ∀ j, j < 17 → i < j →
        tolower (chr 'a' + UInt8.ofNat i) ≠ tolower (chr 'a' + UInt8.ofNat j) := by decide
    rw [hall, longKeys, pairwise_map]
    refine List.Pairwise.imp_of_mem (fun {i j} hi hj hlt heq => ?_) pairwise_lt_range
    rw [mem_range] at hi hj
    simp only [longKey, strlow, map_append, map_cons, map_nil] at heq
    exact hletter i hi j hj hlt (singleton_inj.mp (append_cancel_left heq))
  hashed := by
    intro k hk _
    obtain ⟨i, hi, rfl⟩ := mem_map.mp hk
    have hletter : ∀ i, i < 17 → (tolower (chr 'a' + UInt8.ofNat i)).toNat = 97 + i := by decide
    rw [mem_range] at hi
    have hfirst : (tolower (chr 'a')).toNat = 97 := by decide
    simp only [longKey, byteSum, strlow, map_append, map_replicate, map_cons,
      map_nil, sum_append_nat, sum_replicate_nat, sum_cons, sum_nil,
      hletter i hi, hfirst, add_zero]
  value_ne := by
    intro k hk _
    obtain ⟨i, -, rfl⟩ := mem_map.mp hk
    exact one_ne_zero

/-- The names are valid, and their elements take 65552 bytes of a bucket for which 64 are set aside.
-/
theorem longKeys_wrong : ValidKeys byteSum longKeys ∧
    ∃ built, hashInit smallLine ⟨1, 4096⟩ generousAllocs (fun _ => 0) longKeys = .ok (some built) ∧
      ¬ built.Right byteSum longKeys := by
  have hsize : tableSize ⟨1, 4096⟩ longKeys = 1 := by
    have := tableSize_bounds longKeys (show (⟨1, 4096⟩ : HashInit).maxSize ≠ 0 by decide)
    simp only at this
    omega
  have hreserved : tableReserved smallLine 1 longKeys 0 = 64 := by
    rw [tableReserved, roundUp, test_eq, bucketSum_longKeys]
    rfl
  obtain ⟨built, hinit⟩ := @exists_built smallLine ⟨1, 4096⟩ generousAllocs (fun _ => 0) longKeys
    (by decide) (fun k hk => by
      obtain ⟨i, -, rfl⟩ := mem_map.mp hk
      rw [eltSize_longKey]
      decide)
    (by decide) rfl rfl (fun _ => by simp [generousAllocs]) (fun k _ _ => by
      rw [hsize, Nat.mod_one, hreserved]
      decide)
  refine ⟨longKeys_valid, built, hinit, fun hright => ?_⟩
  have hfits := fits_of_right hinit hright 0
  rw [hsize, bucketSum_longKeys] at hfits
  exact absurd (hfits (by decide) (by decide)) (by decide)

end Nginx.Core
