/-
  Core/RadixMatch.lean --- the walks of the IPv4 radix tree, and the tree against a map of
  prefixes.

  A walk has gone along the bits `p` of a key when `bit` is the bit behind
  them.  The reference stores values at prefixes and knows nothing of nodes.  The tree
  answers like it in every run, but for deletions that end at a leaf which is
  the root or holds no value: the root has no parent to be cut off, and a leaf
  that was only preallocated is removed as if a prefix had been stored there.
-/
import Nginx.Core.RadixHeap

set_option autoImplicit false

namespace Nginx.Core

open List Foundation Option Function

/-! ## Keys and masks -/

/-- The bits of an address, the most significant one first. -/
def keyBits (key : BitVec 32) : List Bool := (List.range 32).map key.getMsbD

/-- The mask of the first `len` bits. -/
def netmask (len : Nat) : BitVec 32 := BitVec.allOnes 32 <<< (32 - len)

/-- The prefix of `len` bits of an address. -/
def prefixBits (key : BitVec 32) (len : Nat) : List Bool := (keyBits key).take len

@[simp] theorem length_keyBits (key : BitVec 32) : (keyBits key).length = 32 := by
  simp [keyBits]

theorem length_prefixBits (key : BitVec 32) (len : Nat) :
    (prefixBits key len).length = min len 32 := by
  simp [prefixBits]

theorem bitSet_firstBit (x : BitVec 32) (i : Nat) : bitSet x (firstBit >>> i) = x.getMsbD i := by
  have hbit : firstBit = BitVec.twoPow 32 31 := by decide
  rcases lt_or_ge i 32 with hi | hi
  · have hshift : firstBit >>> i = BitVec.twoPow 32 (31 - i) := by
      rw [hbit]
      ext j hj
      simp only [BitVec.getElem_ushiftRight, BitVec.getLsbD_twoPow, BitVec.getElem_twoPow]
      rw [Bool.eq_iff_iff]
      simp only [Bool.and_eq_true, decide_eq_true_eq]
      omega
    rw [bitSet, hshift, BitVec.and_twoPow, BitVec.getMsbD]
    cases hx : x.getLsbD (31 - i) with
    | true =>
      have hne : BitVec.twoPow 32 (31 - i) ≠ 0#32 := by
        intro h
        have := congrArg (fun y : BitVec 32 => y.getLsbD (31 - i)) h
        simp [BitVec.getLsbD_twoPow] at this
        omega
      simp [hi, hne]
    | false => simp [hi]
  · have hzero : firstBit >>> i = 0#32 := BitVec.ushiftRight_eq_zero hi
    rw [bitSet, hzero, BitVec.getMsbD_of_ge x i hi]
    simp

theorem bitSet_netmask (len i : Nat) :
    bitSet (netmask len) (firstBit >>> i) = decide (i < len ∧ i < 32) := by
  rw [bitSet_firstBit, netmask, BitVec.getMsbD_shiftLeft, BitVec.getMsbD_allOnes]
  rw [Bool.eq_iff_iff]
  simp only [decide_eq_true_eq]
  omega

theorem firstBit_shift (i : Nat) : firstBit >>> i >>> 1 = firstBit >>> (i + 1) :=
  (BitVec.shiftRight_add firstBit i 1).symm

theorem bits_of_prefixBits_eq_append {key : BitVec 32} {len : Nat} {p rest : List Bool} {b : Bool}
    (h : prefixBits key len = p ++ b :: rest) :
    bitSet (netmask len) (firstBit >>> p.length) = true ∧
      bitSet key (firstBit >>> p.length) = b := by
  have hlen : p.length < len ∧ p.length < 32 := by
    have := length_prefixBits key len
    rw [h, length_append, length_cons] at this
    omega
  refine ⟨by rw [bitSet_netmask]; exact decide_eq_true hlen, ?_⟩
  rw [bitSet_firstBit]
  have hget : (prefixBits key len)[p.length]? = some b := by
    rw [h, getElem?_append_right (le_rfl), Nat.sub_self, getElem?_cons_zero]
  rw [prefixBits, getElem?_take_of_lt hlen.1, keyBits, getElem?_map,
    getElem?_range hlen.2] at hget
  exact some.inj hget

theorem mask_of_prefixBits_eq {key : BitVec 32} {len : Nat} {p : List Bool}
    (h : prefixBits key len = p) : bitSet (netmask len) (firstBit >>> p.length) = false := by
  have hlen := length_prefixBits key len
  rw [h] at hlen
  rw [bitSet_netmask]
  exact decide_eq_false (by omega)

namespace RadixTree

/-- The tree stores `σ`. -/
structure Holds (page : PageSize) (t : RadixTree) (f : List Bool → Nat) (free : List Nat)
    (σ : PrefixMap Bool Word) : Prop extends Places page t f free where
  values : ∀ p, σ p = t.valueAt (f p)

section

variable {page : PageSize} {t : RadixTree} {f : List Bool → Nat} {free : List Nat}
  {σ : PrefixMap Bool Word}

theorem holds_iff_stores : Holds page t f free σ ↔ Stores 32 page t f free σ :=
  ⟨fun h => ⟨h.within, h.values⟩, fun h => ⟨places_iff_within.mpr h.toWithin, h.values⟩⟩

theorem Holds.stores (h : Holds page t f free σ) :
    Stores 32 page t f free σ := holds_iff_stores.mp h

variable {p : List Bool}

theorem Holds.eq_none_of_absent (h : Holds page t f free σ) (hp : f p = 0) :
    σ p = none := h.stores.eq_none_of_absent hp

theorem Holds.eq_stored (h : Holds page t f free σ) (hp : f p ≠ 0) :
    σ p = stored (t.nodes (f p)).value := h.stores.eq_stored hp

theorem Holds.eq_none_iff (h : Holds page t f free σ) (hp : f p ≠ 0) :
    σ p = none ↔ (t.nodes (f p)).value = radixNoValue := h.stores.eq_none_iff hp

theorem Holds.setValue (h : Holds page t f free σ) (hp : f p ≠ 0) (v : Word) :
    Holds page (t.setValue (f p) v) f free (update σ p (stored v)) :=
  holds_iff_stores.mpr (h.stores.setValue hp v)

theorem Holds.attach (h : Holds page t f free σ) {b : Bool}
    (hp : f p ≠ 0) (hempty : f (p ++ [b]) = 0) (hdepth : p.length < 32) :
    (t.attach page (f p) b).1 ≠ 0 ∧
      ∃ free', Holds page (t.attach page (f p) b).2
        (update f (p ++ [b]) (t.attach page (f p) b).1) free' σ := by
  obtain ⟨hne, free', hstores⟩ := h.stores.attach hp hempty hdepth
  exact ⟨hne, free', holds_iff_stores.mpr hstores⟩

/-! ## The walks -/

variable {key : BitVec 32} {len : Nat}

theorem insertDescend_eq (h : Places page t f free) (fuel : Nat) (p rest : List Bool) (next : Nat)
    (hkey : prefixBits key len = p ++ rest) (hfuel : rest.length ≤ fuel) (hp : f p ≠ 0)
    (hnext : next ≠ 0) :
    (∃ next', next' ≠ 0 ∧ f (p ++ rest) ≠ 0 ∧
      insertDescend t.nodes key (netmask len) fuel (firstBit >>> p.length) (f p) next =
        (firstBit >>> (p ++ rest).length, f (p ++ rest), next')) ∨
    ∃ q b rest', p ++ rest = q ++ b :: rest' ∧ f q ≠ 0 ∧ f (q ++ [b]) = 0 ∧
      insertDescend t.nodes key (netmask len) fuel (firstBit >>> p.length) (f p) next =
        (firstBit >>> q.length, f q, 0) := by
  induction rest generalizing fuel p next with
  | nil =>
    rw [append_nil] at hkey ⊢
    refine Or.inl ⟨next, hnext, hp, ?_⟩
    cases fuel with
    | zero => rfl
    | succ fuel =>
      rw [insertDescend, mask_of_prefixBits_eq hkey]
      rfl
  | cons b rest ih =>
    obtain ⟨hmask, hbit⟩ := bits_of_prefixBits_eq_append hkey
    obtain ⟨fuel, rfl⟩ : ∃ n, fuel = n + 1 :=
      ⟨fuel - 1, by rw [length_cons] at hfuel; omega⟩
    rw [insertDescend, if_pos hmask, hbit, h.child p b hp]
    simp only
    by_cases hchild : f (p ++ [b]) = 0
    · rw [if_pos hchild, hchild]
      exact Or.inr ⟨p, b, rest, rfl, hp, hchild, rfl⟩
    rw [if_neg hchild, firstBit_shift]
    have hsplit := append_cons p b rest
    have hlen : p.length + 1 = (p ++ [b]).length := by simp
    rw [hsplit, hlen]
    exact ih fuel (p ++ [b]) (f (p ++ [b])) (hsplit ▸ hkey)
      (by rw [length_cons] at hfuel; omega) hchild hchild

/-- The second loop of the insertion adds the nodes of the prefix that are missing. -/
theorem grow_eq (fuel : Nat) (p rest : List Bool) (t : RadixTree) (f : List Bool → Nat)
    (free : List Nat) (h : Holds page t f free σ)
    (hkey : prefixBits key len = p ++ rest) (hfuel : rest.length ≤ fuel) (hp : f p ≠ 0)
    (hempty : ∀ b ∈ rest.head?, f (p ++ [b]) = 0) :
    ∃ t' f' free', Holds page t' f' free' σ ∧ f' (p ++ rest) ≠ 0 ∧
      grow page key (netmask len) fuel (firstBit >>> p.length) t (f p) = (f' (p ++ rest), t') := by
  induction rest generalizing fuel p t f free with
  | nil =>
    rw [append_nil] at hkey ⊢
    refine ⟨t, f, free, h, hp, ?_⟩
    cases fuel with
    | zero => rfl
    | succ fuel =>
      rw [grow, mask_of_prefixBits_eq hkey]
      rfl
  | cons b rest ih =>
    obtain ⟨hmask, hbit⟩ := bits_of_prefixBits_eq_append hkey
    obtain ⟨fuel, rfl⟩ : ∃ n, fuel = n + 1 :=
      ⟨fuel - 1, by rw [length_cons] at hfuel; omega⟩
    have hchild : f (p ++ [b]) = 0 := hempty b rfl
    have hdepth : p.length < 32 := by
      have := length_prefixBits key len
      rw [hkey, length_append, length_cons] at this
      omega
    obtain ⟨hne, free', hholds⟩ := h.attach hp hchild hdepth
    rw [grow, if_pos hmask, hbit, firstBit_shift]
    have hsplit := append_cons p b rest
    have hlen : p.length + 1 = (p ++ [b]).length := by simp
    have hself : update f (p ++ [b]) (t.attach page (f p) b).1 (p ++ [b]) =
        (t.attach page (f p) b).1 := update_self ..
    rw [hsplit, hlen]
    obtain ⟨t', f', free'', hholds', hne', hgrow⟩ :=
      ih fuel (p ++ [b]) (t.attach page (f p) b).2 _ free' hholds (hsplit ▸ hkey)
        (by rw [length_cons] at hfuel; omega) (by rwa [hself]) (by
          intro c hc
          rw [update_of_ne (by simp)]
          exact h.absent _ c hchild)
    rw [hself] at hgrow
    exact ⟨t', f', free'', hholds', hne', hgrow⟩

theorem deleteDescend_eq (h : Places page t f free) (fuel : Nat) (p rest : List Bool)
    (hkey : prefixBits key len = p ++ rest) (hfuel : rest.length ≤ fuel) :
    deleteDescend t.nodes key (netmask len) fuel (firstBit >>> p.length) (f p) =
      f (p ++ rest) := by
  induction rest generalizing fuel p with
  | nil =>
    rw [append_nil] at hkey ⊢
    cases fuel with
    | zero => rfl
    | succ fuel =>
      rw [deleteDescend, mask_of_prefixBits_eq hkey]
      simp
  | cons b rest ih =>
    obtain ⟨hmask, hbit⟩ := bits_of_prefixBits_eq_append hkey
    obtain ⟨fuel, rfl⟩ : ∃ n, fuel = n + 1 :=
      ⟨fuel - 1, by rw [length_cons] at hfuel; omega⟩
    have hsplit := append_cons p b rest
    have hlen : p.length + 1 = (p ++ [b]).length := by simp
    rw [deleteDescend]
    by_cases hp : f p = 0
    · rw [if_neg (by simp [hp]), hp, h.absent_append hp]
    · rw [if_pos ⟨hp, hmask⟩, hbit, h.child p b hp, firstBit_shift, hlen, hsplit]
      exact ih fuel (p ++ [b]) (hsplit ▸ hkey) (by rw [length_cons] at hfuel; omega)

theorem findLoop_visit (h : Holds page t f free σ) (hp : f p ≠ 0)
    (htake : (keyBits key).take p.length = p) (fuel : Nat) (bit : BitVec 32) :
    findLoop t.nodes key (fuel + 1) bit (f p)
        ((σ.bestBelow (keyBits key) p.length).getD radixNoValue) =
      findLoop t.nodes key fuel (bit >>> 1) (f (p ++ [bitSet key bit]))
        ((σ.bestBelow (keyBits key) (p.length + 1)).getD radixNoValue) := by
  rw [findLoop, if_neg hp, h.child p _ hp]
  simp only [h.stores.visit hp htake]

theorem findLoop_absent (h : Holds page t f free σ) {rest : List Bool} (hp : f p = 0)
    (hkey : keyBits key = p ++ rest) (fuel : Nat) (bit : BitVec 32) :
    findLoop t.nodes key fuel bit (f p)
        ((σ.bestBelow (keyBits key) p.length).getD radixNoValue) =
      .ok ((σ.longestMatch (keyBits key)).getD radixNoValue) := by
  rw [h.stores.longestMatch_of_absent hp hkey]
  cases fuel with
  | zero => rw [findLoop, if_pos hp]
  | succ fuel => rw [findLoop, if_pos hp]

/-- The search returns the value of the longest prefix that is stored. -/
theorem findLoop_eq (h : Holds page t f free σ) (fuel : Nat) (p rest : List Bool)
    (hkey : keyBits key = p ++ rest) (hfuel : rest.length < fuel) :
    findLoop t.nodes key fuel (firstBit >>> p.length) (f p)
        ((σ.bestBelow (keyBits key) p.length).getD radixNoValue) =
      .ok ((σ.longestMatch (keyBits key)).getD radixNoValue) := by
  induction rest generalizing fuel p with
  | nil =>
    obtain ⟨fuel, rfl⟩ : ∃ n, fuel = n + 1 := ⟨fuel - 1, by omega⟩
    rw [append_nil] at hkey
    by_cases hp : f p = 0
    · exact findLoop_absent h hp (by rw [hkey, append_nil]) _ _
    -- all the bits are behind: `bit` is 0, and there is nothing to the left
    have hlen : p.length = 32 := by rw [← hkey, length_keyBits]
    have hlast : f (p ++ [false]) = 0 := by
      by_contra hne
      have hdepth := h.depth _ hne
      rw [length_append, hlen, length_singleton] at hdepth
      omega
    have hbit : bitSet key (firstBit >>> p.length) = false := by
      rw [bitSet_firstBit, BitVec.getMsbD_of_ge key _ (by omega)]
    have htake : (keyBits key).take p.length = p := by rw [← hkey, take_length]
    have hbest : σ.bestBelow (keyBits key) (p.length + 1) = σ.longestMatch (keyBits key) := by
      rw [← hkey, PrefixMap.longestMatch]
    rw [findLoop_visit h hp htake, hbit, hlast, hbest]
    cases fuel <;> rfl
  | cons b rest ih =>
    obtain ⟨fuel, rfl⟩ : ∃ n, fuel = n + 1 := ⟨fuel - 1, by omega⟩
    by_cases hp : f p = 0
    · exact findLoop_absent h hp hkey _ _
    have htake : (keyBits key).take p.length = p := by simp [hkey]
    have hwhole : prefixBits key 32 = p ++ b :: rest := by
      rw [prefixBits, take_of_length_le (by simp), hkey]
    rw [findLoop_visit h hp htake, (bits_of_prefixBits_eq_append hwhole).2, firstBit_shift]
    have hlen : p.length + 1 = (p ++ [b]).length := by simp
    rw [hlen]
    refine ih fuel (p ++ [b]) (by simp [hkey]) ?_
    rw [length_cons] at hfuel
    omega

/-! ## The operations -/

theorem find32_eq (h : Holds page t f free σ) (key : BitVec 32) :
    t.find32 key = .ok ((σ.longestMatch (keyBits key)).getD radixNoValue) := by
  have hloop := findLoop_eq h 33 [] (keyBits key) rfl (by simp)
  rwa [h.root] at hloop

theorem insert32_busy (h : Holds page t f free σ) (key : BitVec 32) (len : Nat)
    (hstored : σ (prefixBits key len) ≠ none) (value : Word) :
    t.insert32 page key (netmask len) value = (.busy, t) := by
  have hne : f (prefixBits key len) ≠ 0 := fun hp => hstored (h.eq_none_of_absent hp)
  have hroot : t.root ≠ 0 := h.root ▸ h.root_ne
  have hfuel : (prefixBits key len).length ≤ 32 := by
    rw [length_prefixBits]
    omega
  rw [insert32, ← h.root]
  rcases insertDescend_eq h.toPlaces 32 [] (prefixBits key len) (f []) rfl hfuel h.root_ne
    h.root_ne with ⟨next, hnext, -, hwalk⟩ | ⟨q, b, rest, hkey, -, hempty, -⟩
  · rw [nil_append] at hwalk
    have hwalk' : insertDescend t.nodes key (netmask len) 32 firstBit (f []) (f []) =
      (firstBit >>> (prefixBits key len).length, f (prefixBits key len), next) := hwalk
    simp only [hwalk', if_pos hnext]
    rw [if_pos fun hv => hstored ((h.eq_none_iff hne).mpr hv)]
  · rw [nil_append] at hkey
    rw [hkey, show q ++ b :: rest = q ++ [b] ++ rest by simp, h.absent_append hempty] at hne
    exact absurd rfl hne

theorem insert32_ok (h : Holds page t f free σ) (key : BitVec 32) (len : Nat)
    (hnone : σ (prefixBits key len) = none) (value : Word) :
    ∃ t' f' free', t.insert32 page key (netmask len) value = (.ok, t') ∧
      Holds page t' f' free' (update σ (prefixBits key len) (stored value)) := by
  have hfuel : (prefixBits key len).length ≤ 32 := by
    rw [length_prefixBits]
    omega
  rw [insert32, ← h.root]
  rcases insertDescend_eq h.toPlaces 32 [] (prefixBits key len) (f []) rfl hfuel h.root_ne
    h.root_ne with ⟨next, hnext, hne, hwalk⟩ | ⟨q, b, rest, hkey, hq, hempty, hwalk⟩
  · rw [nil_append] at hwalk hne
    have hwalk' : insertDescend t.nodes key (netmask len) 32 firstBit (f []) (f []) =
      (firstBit >>> (prefixBits key len).length, f (prefixBits key len), next) := hwalk
    simp only [hwalk', if_pos hnext]
    rw [if_neg (not_not.mpr ((h.eq_none_iff hne).mp hnone))]
    exact ⟨_, f, free, rfl, h.setValue hne value⟩
  rw [nil_append] at hkey
  have hwalk' : insertDescend t.nodes key (netmask len) 32 firstBit (f []) (f []) =
    (firstBit >>> q.length, f q, 0) := hwalk
  have hrest : (b :: rest).length ≤ 32 := by
    rw [hkey, length_append] at hfuel
    omega
  obtain ⟨t', f', free', hholds, hne, hgrow⟩ := grow_eq 32 q (b :: rest) t f free h hkey hrest hq
    (by
      intro c hc
      obtain rfl : b = c := some.inj hc
      exact hempty)
  rw [← hkey] at hgrow hne
  simp only [hwalk', hgrow]
  exact ⟨_, f', free', rfl, hholds.setValue hne value⟩

theorem prune_eq (fuel : Nat) (p : List Bool) (t : RadixTree) (f : List Bool → Nat)
    (free : List Nat) (σ : PrefixMap Bool Word) (h : Holds page t f free σ) (hp : f p ≠ 0)
    (hroot : p ≠ []) (hleaf : ∀ c, f (p ++ [c]) = 0) (hfuel : p.length ≤ fuel) :
    ∃ t' f' free', prune fuel t (f p) = .ok t' ∧
      Holds page t' f' free' (update σ p none) := by
  obtain ⟨t', f', free', hprune, -, -, hstores⟩ :=
    h.stores.prune_eq fuel p t f free σ hp hroot hleaf hfuel
  exact ⟨t', f', free', hprune, holds_iff_stores.mpr hstores⟩

end

end RadixTree

/-! ## The reference -/

/-- An insertion or a deletion of the prefix of `len` bits of an address. -/
inductive RadixOp where
  | insert (key : BitVec 32) (len : Nat) (value : Word)
  | delete (key : BitVec 32) (len : Nat)
  deriving DecidableEq

namespace RadixOp

/-- The values that may be inserted. -/
def Valid : RadixOp → Prop
  | insert _ _ value => value ≠ radixNoValue
  | delete _ _ => True

/-- What the operation returns and leaves, of a map of prefixes. -/
def refer (σ : PrefixMap Bool Word) : RadixOp → Rc × PrefixMap Bool Word
  | insert key len value =>
      if (σ (prefixBits key len)).isSome then (.busy, σ)
      else (.ok, update σ (prefixBits key len) (some value))
  | delete key len =>
      if (σ (prefixBits key len)).isSome then
        (.ok, update σ (prefixBits key len) none)
      else (.error, σ)

/-- What the code returns and leaves. -/
def apply (page : PageSize) (t : RadixTree) : RadixOp → Except Fault (Rc × RadixTree)
  | insert key len value => .ok (t.insert32 page key (netmask len) value)
  | delete key len => t.delete32 key (netmask len)

end RadixOp

/-- The prefixes that are stored after the operations. -/
def referAll (ops : List RadixOp) : PrefixMap Bool Word :=
  ops.foldl (fun σ op => (op.refer σ).2) fun _ => none

namespace RadixTree

/-- The operations one after the other. -/
def run (page : PageSize) (t : RadixTree) (ops : List RadixOp) : Except Fault RadixTree :=
  ops.foldlM (fun t op => (op.apply page t).map Prod.snd) t

/-- Every lookup has the longest match. -/
def FindsRight (t : RadixTree) (σ : PrefixMap Bool Word) : Prop :=
  ∀ key, t.find32 key = .ok ((σ.longestMatch (keyBits key)).getD radixNoValue)

/-- An operation does what the reference does. -/
def OpRight (page : PageSize) (t : RadixTree) (σ : PrefixMap Bool Word) (op : RadixOp) : Prop :=
  ∃ t', op.apply page t = .ok ((op.refer σ).1, t') ∧ ((op.refer σ).1 ≠ .ok → t' = t) ∧
    t'.FindsRight (op.refer σ).2

/-- A leaf that is the root or holds no value. -/
def SpareLeaf (t : RadixTree) (node : Nat) : Prop :=
  node ≠ 0 ∧ ¬ ((t.nodes node).right ≠ 0 ∨ (t.nodes node).left ≠ 0) ∧
    ((t.nodes node).parent = 0 ∨ (t.nodes node).value = radixNoValue)

instance (t : RadixTree) (node : Nat) : Decidable (t.SpareLeaf node) :=
  inferInstanceAs (Decidable (_ ∧ _ ∧ _))

/-- A deletion ends at such a leaf. -/
def AtSpareLeaf (t : RadixTree) : RadixOp → Prop
  | .insert _ _ _ => False
  | .delete key len => t.SpareLeaf (deleteDescend t.nodes key (netmask len) 32 firstBit t.root)

instance (t : RadixTree) : (op : RadixOp) → Decidable (t.AtSpareLeaf op)
  | .insert _ _ _ => inferInstanceAs (Decidable False)
  | .delete key len =>
      inferInstanceAs
        (Decidable (t.SpareLeaf (deleteDescend t.nodes key (netmask len) 32 firstBit t.root)))

/-! ## Creation -/

/-- The root alone. -/
def justRoot (page : PageSize) (memory : Nat → RadixNode) : RadixTree where
  root := page.bytes
  pool := 1
  free := 0
  start := page.bytes + radixNodeSize
  size := page.bytes - radixNodeSize
  nodes := update memory page.bytes
    { right := 0, left := 0, parent := 0, value := radixNoValue }

theorem nodes_justRoot (page : PageSize) (memory : Nat → RadixNode) :
    (justRoot page memory).nodes page.bytes =
      { right := 0, left := 0, parent := 0, value := radixNoValue } := update_self ..

theorem places_justRoot (page : PageSize) (memory : Nat → RadixNode) :
    Places page (justRoot page memory) (fun p => if p = [] then page.bytes else 0) [] := by
  have hpage := page.le_bytes
  have hne : page.bytes ≠ 0 := by omega
  have hnil : ∀ {p : List Bool}, (if p = [] then page.bytes else 0) ≠ 0 → p = [] := by
    intro p hp
    by_contra hcons
    exact hp (if_neg hcons)
  have hsnoc : ∀ (p : List Bool) (b : Bool), (if p ++ [b] = [] then page.bytes else 0) = 0 :=
    fun p b => if_neg (by simp)
  exact
    { root := if_pos rfl
      root_ne := by rwa [if_pos rfl]
      absent := fun p b _ => hsnoc p b
      child := fun p b hp => by
        rw [hsnoc, hnil hp, if_pos rfl, nodes_justRoot]
        cases b <;> rfl
      parent_root := by rw [if_pos rfl, nodes_justRoot]
      parent := fun p b hp => absurd (hsnoc p b) hp
      inj := fun p q hp hpq => by
        rw [hnil hp, hnil (p := q) (by rw [← hpq]; exact hp)]
      depth := fun p hp => by rw [hnil hp]; exact Nat.zero_le _
      chain := rfl
      nodup := nodup_nil
      disjoint := fun p => not_mem_nil
      used := fun p hp => by
        rw [hnil hp, if_pos rfl]
        exact Nat.lt_add_of_pos_right (by decide)
      free_used := fun a ha => absurd ha not_mem_nil
      room := by
        simp only [justRoot, radixNodeSize]
        omega
      start_ne := fun _ => by
        simp only [justRoot, radixNodeSize]
        omega }

theorem holds_justRoot (page : PageSize) (memory : Nat → RadixNode) :
    Holds page (justRoot page memory) (fun p => if p = [] then page.bytes else 0) [] fun _ =>
      none := by
  refine ⟨places_justRoot page memory, fun p => ?_⟩
  rw [valueAt]
  by_cases hp : p = []
  · rw [if_pos hp, nodes_justRoot, if_pos (Or.inr rfl)]
  · rw [if_neg hp, if_pos (Or.inl rfl)]

theorem netmask_succ (len : Nat) : (netmask len >>> 1) ||| 0x80000000 = netmask (len + 1) := by
  apply BitVec.eq_of_getMsbD_eq
  intro i hi
  have hbit : ∀ n j, (netmask n).getMsbD j = decide (j < n ∧ j < 32) := by
    intro n j
    rw [← bitSet_firstBit, bitSet_netmask]
  have hfirst : (0x80000000 : BitVec 32).getMsbD i = decide (i = 0) := by
    have hall : ∀ j, j < 32 → (0x80000000 : BitVec 32).getMsbD j = decide (j = 0) := by decide
    exact hall i hi
  rw [BitVec.getMsbD_or, BitVec.getMsbD_ushiftRight, hbit, hbit, hfirst, Bool.eq_iff_iff]
  simp only [Bool.or_eq_true, Bool.and_eq_true, decide_eq_true_eq, Bool.not_eq_true',
    decide_eq_false_iff_not]
  omega

theorem preallocateRow_eq {page : PageSize} (len : Nat) (inc : BitVec 32) (fuel : Nat)
    (key : BitVec 32) (t : RadixTree) (f : List Bool → Nat) (free : List Nat)
    (h : Holds page t f free fun _ => none) (hfuel : fuel ≠ 0)
    (hkey : key + inc * BitVec.ofNat 32 fuel = 0) :
    ∃ t' f' free', preallocateRow page (netmask len) inc fuel key t = .ok (some t') ∧
      Holds page t' f' free' fun _ => none := by
  induction fuel generalizing key t f free with
  | zero => exact absurd rfl hfuel
  | succ fuel ih =>
    obtain ⟨t', f', free', hinsert, hholds⟩ :=
      insert32_ok h key len rfl radixNoValue
    have hnone : update (fun _ : List Bool => (none : Option Word)) (prefixBits key len)
        (stored radixNoValue) = fun _ => none := update_eq_self _ _
    rw [hnone] at hholds
    have hnext : key + inc + inc * BitVec.ofNat 32 fuel = 0 := by
      rw [← hkey, BitVec.ofNat_add, BitVec.mul_add, BitVec.add_assoc, BitVec.mul_one,
        BitVec.add_comm inc]
    rw [preallocateRow, hinsert]
    simp only [ne_eq, not_true_eq_false, if_false]
    split
    · rename_i hmore
      refine ih (key + inc) t' f' free' hholds ?_ hnext
      rintro rfl
      exact hmore (by simpa using hnext)
    · exact ⟨t', f', free', rfl, hholds⟩

theorem preallocateRows_eq {page : PageSize} (rows len : Nat) (inc : BitVec 32) (t : RadixTree)
    (f : List Bool → Nat) (free : List Nat) (h : Holds page t f free fun _ => none) :
    ∃ t' f' free', preallocateRows page rows (netmask len) inc t = .ok (some t') ∧
      Holds page t' f' free' fun _ => none := by
  induction rows generalizing len inc t f free with
  | zero => exact ⟨t, f, free, rfl, h⟩
  | succ rows ih =>
    obtain ⟨t', f', free', hrow, hholds⟩ :=
      preallocateRow_eq (len + 1) inc (2 ^ 32) 0 t f free h (by simp) (by simp)
    rw [preallocateRows]
    simp only [netmask_succ, hrow]
    exact ih (len + 1) (inc >>> 1) t' f' free' hholds

theorem create_eq (page : PageSize) (memory : Nat → RadixNode) (preallocate : Int) :
    ∃ t f free, create page memory preallocate = .ok (some t) ∧
      Holds page t f free fun _ => none := by
  have hpage : (0 + 1) * page.bytes = page.bytes := by rw [zero_add, one_mul]
  have hsize : (0 : Nat) < radixNodeSize := by decide
  unfold create
  simp only [alloc, refill, hsize, if_true, ne_eq, not_true_eq_false, if_false, hpage, modify]
  split
  · exact ⟨_, _, _, rfl, holds_justRoot page memory⟩
  · exact preallocateRows_eq _ 0 _ _ _ _ (holds_justRoot page memory)

/-! ## One operation -/

section

variable {page : PageSize} {t : RadixTree} {f : List Bool → Nat} {free : List Nat}
  {σ : PrefixMap Bool Word}

theorem deleteDescend_root (h : Places page t f free) (key : BitVec 32) (len : Nat) :
    deleteDescend t.nodes key (netmask len) 32 firstBit t.root = f (prefixBits key len) := by
  have hfuel : (prefixBits key len).length ≤ 32 := by
    rw [length_prefixBits]
    omega
  rw [← h.root]
  exact deleteDescend_eq h 32 [] (prefixBits key len) rfl hfuel

theorem delete32_eq (h : Holds page t f free σ) (key : BitVec 32) (len : Nat)
    (hspare : ¬ t.AtSpareLeaf (.delete key len)) :
    ∃ t' f' free', t.delete32 key (netmask len) = .ok (((RadixOp.delete key len).refer σ).1, t') ∧
      (((RadixOp.delete key len).refer σ).1 ≠ .ok → t' = t) ∧
      Holds page t' f' free' ((RadixOp.delete key len).refer σ).2 := by
  have hdescend := deleteDescend_root h.toPlaces key len
  rw [delete32, RadixOp.refer]
  simp only [AtSpareLeaf, SpareLeaf, hdescend] at hspare ⊢
  by_cases hnode : f (prefixBits key len) = 0
  · rw [if_pos hnode, h.eq_none_of_absent hnode]
    exact ⟨t, f, free, rfl, fun _ => rfl, h⟩
  rw [if_neg hnode]
  by_cases hinner : (t.nodes (f (prefixBits key len))).right ≠ 0 ∨
      (t.nodes (f (prefixBits key len))).left ≠ 0
  · rw [if_pos hinner]
    by_cases hvalue : (t.nodes (f (prefixBits key len))).value = radixNoValue
    · rw [if_neg (not_not.mpr hvalue), (h.eq_none_iff hnode).mpr hvalue]
      exact ⟨t, f, free, rfl, fun _ => rfl, h⟩
    · obtain ⟨v, hv⟩ := ne_none_iff_exists'.mp ((h.eq_none_iff hnode).not.mpr hvalue)
      rw [if_pos hvalue, hv]
      exact ⟨_, f, free, rfl, fun hne => absurd rfl hne, h.setValue hnode radixNoValue⟩
  · rw [if_neg hinner]
    have hparent : (t.nodes (f (prefixBits key len))).parent ≠ 0 :=
      fun hp => hspare ⟨hnode, hinner, Or.inl hp⟩
    have hvalue : (t.nodes (f (prefixBits key len))).value ≠ radixNoValue :=
      fun hv => hspare ⟨hnode, hinner, Or.inr hv⟩
    obtain ⟨v, hv⟩ := ne_none_iff_exists'.mp ((h.eq_none_iff hnode).not.mpr hvalue)
    obtain ⟨t', f', free', hprune, hholds⟩ := prune_eq 32 (prefixBits key len) t f free σ h hnode
      (fun hp => hparent ((h.parent_eq_zero_iff hnode).mpr hp)) ((h.leaf_iff hnode).mp hinner)
      (h.depth _ hnode)
    rw [hprune, hv]
    exact ⟨t', f', free', rfl, fun hne => absurd rfl hne, hholds⟩

theorem delete32_spare (h : Holds page t f free σ) (key : BitVec 32) (len : Nat)
    (hspare : t.AtSpareLeaf (.delete key len)) :
    t.delete32 key (netmask len) = .error .nullPointer ∨
      σ (prefixBits key len) = none ∧
        ∃ t' f' free', t.delete32 key (netmask len) = .ok (.ok, t') ∧ Holds page t' f' free' σ := by
  have hdescend := deleteDescend_root h.toPlaces key len
  rw [delete32]
  simp only [AtSpareLeaf, SpareLeaf, hdescend] at hspare ⊢
  obtain ⟨hnode, hleaf, hcase⟩ := hspare
  rw [if_neg hnode, if_neg hleaf]
  by_cases hparent : (t.nodes (f (prefixBits key len))).parent = 0
  · left
    rw [prune, if_pos hparent]
  right
  have hnone : σ (prefixBits key len) = none :=
    (h.eq_none_iff hnode).mpr (hcase.resolve_left hparent)
  obtain ⟨t', f', free', hprune, hholds⟩ := prune_eq 32 (prefixBits key len) t f free σ h hnode
    (fun hp => hparent ((h.parent_eq_zero_iff hnode).mpr hp)) ((h.leaf_iff hnode).mp hleaf)
    (h.depth _ hnode)
  rw [update_eq_self_iff.mpr hnone.symm] at hholds
  rw [hprune]
  exact ⟨hnone, t', f', free', rfl, hholds⟩

theorem Holds.apply (h : Holds page t f free σ) {op : RadixOp} (hop : op.Valid) {rc : Rc}
    {t' : RadixTree} (happly : op.apply page t = .ok (rc, t')) :
    ∃ f' free', Holds page t' f' free' (op.refer σ).2 := by
  cases op with
  | insert key len value =>
    rw [RadixOp.refer]
    cases hσ : σ (prefixBits key len) with
    | some v =>
      have hbusy := insert32_busy h key len (by rw [hσ]; simp) value
      rw [RadixOp.apply, hbusy] at happly
      cases happly
      exact ⟨f, free, h⟩
    | none =>
      obtain ⟨t'', f', free', hinsert, hholds⟩ := insert32_ok h key len hσ value
      rw [RadixOp.apply, hinsert] at happly
      cases happly
      rw [stored, if_neg hop] at hholds
      exact ⟨f', free', hholds⟩
  | delete key len =>
    by_cases hspare : t.AtSpareLeaf (.delete key len)
    · rcases delete32_spare h key len hspare with hcrash | ⟨hnone, t'', f', free', hdel, hholds⟩
      · rw [RadixOp.apply, hcrash] at happly
        cases happly
      · rw [RadixOp.apply, hdel] at happly
        cases happly
        rw [RadixOp.refer, hnone]
        exact ⟨f', free', hholds⟩
    · obtain ⟨t'', f', free', hdel, -, hholds⟩ := delete32_eq h key len hspare
      rw [RadixOp.apply, hdel] at happly
      cases happly
      exact ⟨f', free', hholds⟩

theorem Holds.findsRight (h : Holds page t f free σ) : t.FindsRight σ := find32_eq h

/-- An operation does what the reference does exactly if it is no deletion at a
spare leaf. -/
theorem Holds.opRight_iff (h : Holds page t f free σ) {op : RadixOp} (hop : op.Valid) :
    t.OpRight page σ op ↔ ¬ t.AtSpareLeaf op := by
  cases op with
  | insert key len value =>
    refine iff_of_true ?_ id
    rw [OpRight, RadixOp.refer]
    cases hσ : σ (prefixBits key len) with
    | some v =>
      have hbusy := insert32_busy h key len (by rw [hσ]; simp) value
      exact ⟨t, congrArg Except.ok hbusy, fun _ => rfl, h.findsRight⟩
    | none =>
      obtain ⟨t', f', free', hinsert, hholds⟩ := insert32_ok h key len hσ value
      rw [stored, if_neg hop] at hholds
      exact ⟨t', congrArg Except.ok hinsert, fun hne => absurd rfl hne, hholds.findsRight⟩
  | delete key len =>
    constructor
    · rintro ⟨t', happly, -⟩ hspare
      rw [RadixOp.apply] at happly
      rcases delete32_spare h key len hspare with hcrash | ⟨hnone, t'', f', free', hdel, -⟩
      · rw [hcrash] at happly
        cases happly
      · rw [hdel, RadixOp.refer, hnone] at happly
        cases happly
    · intro hspare
      obtain ⟨t', f', free', hdel, hsame, hholds⟩ := delete32_eq h key len hspare
      exact ⟨t', hdel, hsame, hholds.findsRight⟩

/-! ## Every run -/

theorem Holds.run (h : Holds page t f free σ) {ops : List RadixOp} (hops : ∀ op ∈ ops, op.Valid)
    {t' : RadixTree} (hrun : t.run page ops = .ok t') :
    ∃ f' free', Holds page t' f' free' (ops.foldl (fun σ op => (op.refer σ).2) σ) := by
  induction ops generalizing t f free σ with
  | nil =>
    cases hrun
    exact ⟨f, free, h⟩
  | cons op ops ih =>
    rw [RadixTree.run, foldlM_cons] at hrun
    cases happly : op.apply page t with
    | error fault =>
      rw [happly] at hrun
      cases hrun
    | ok result =>
      rw [happly] at hrun
      obtain ⟨f', free', hholds⟩ := h.apply (hops op (mem_cons_self ..)) happly
      exact ih hholds (fun op' hop' => hops op' (mem_cons_of_mem _ hop')) hrun

end

/-- **Longest-prefix match.**  In every state that a run of insertions and
deletions reaches, every lookup has the longest match, and the next operation
does what the reference does exactly if it is no deletion at a spare leaf. -/
theorem opRight_iff_of_run (page : PageSize) (memory : Nat → RadixNode) (preallocate : Int) :
    ∃ t₀, create page memory preallocate = .ok (some t₀) ∧
      ∀ ops : List RadixOp, (∀ op ∈ ops, op.Valid) → ∀ t, t₀.run page ops = .ok t →
        t.FindsRight (referAll ops) ∧
        ∀ op : RadixOp, op.Valid → (t.OpRight page (referAll ops) op ↔ ¬ t.AtSpareLeaf op) := by
  obtain ⟨t₀, f, free, hcreate, hholds⟩ := create_eq page memory preallocate
  refine ⟨t₀, hcreate, fun ops hops t hrun => ?_⟩
  obtain ⟨f', free', hholds'⟩ := hholds.run hops hrun
  exact ⟨hholds'.findsRight, fun op hop => hholds'.opRight_iff hop⟩

/-- Pages of four kilobytes. -/
def smallPages : PageSize where
  shift := 12
  min_shift := by decide
  shift_max := by decide

/-- `10.0.0.0/8` is stored in a tree with two preallocated leaves. -/
theorem opRight_ten :
    ∃ t₀ t, create smallPages (fun _ => default) 1 = .ok (some t₀) ∧
      t₀.run smallPages [.insert 0x0a000000 8 1] = .ok t ∧
      t.FindsRight (referAll [.insert 0x0a000000 8 1]) ∧
      t.OpRight smallPages (referAll [.insert 0x0a000000 8 1]) (.delete 0x0a000000 8) := by
  obtain ⟨t₀, hcreate, hright⟩ := opRight_iff_of_run smallPages (fun _ => default) 1
  have hrun : ∃ t, t₀.run smallPages [.insert 0x0a000000 8 1] = .ok t ∧
      ¬ t.AtSpareLeaf (.delete 0x0a000000 8) := by
    cases hcreate
    exact ⟨_, rfl, by decide⟩
  obtain ⟨t, hrun, hspare⟩ := hrun
  have hops : ∀ op ∈ [RadixOp.insert 0x0a000000 8 1], op.Valid := by
    intro op hop
    rw [mem_singleton.mp hop, RadixOp.Valid]
    decide
  obtain ⟨hfind, hnext⟩ := hright _ hops t hrun
  have hvalid : (RadixOp.delete 0x0a000000 8).Valid := trivial
  exact ⟨t₀, t, hcreate, hrun, hfind, (hnext _ hvalid).mpr hspare⟩

/-- The value stored at `0.0.0.0/0` alone cannot be deleted, and a preallocated
leaf is deleted as if it were stored. -/
theorem opRight_wrong :
    (∃ t₀ t, create smallPages (fun _ => default) 0 = .ok (some t₀) ∧
      t₀.run smallPages [.insert 0 0 1] = .ok t ∧
      t.delete32 0 (netmask 0) = .error .nullPointer ∧
      ¬ t.OpRight smallPages (referAll [.insert 0 0 1]) (.delete 0 0)) ∧
    ∃ t₀, create smallPages (fun _ => default) 1 = .ok (some t₀) ∧
      (t₀.delete32 0 (netmask 1)).map Prod.fst = .ok .ok ∧
      ¬ t₀.OpRight smallPages (referAll []) (.delete 0 1) := by
  constructor
  · refine ⟨_, _, rfl, rfl, rfl, ?_⟩
    rintro ⟨t', happly, -⟩
    cases happly
  · refine ⟨_, rfl, rfl, ?_⟩
    rintro ⟨t', happly, -⟩
    have hrc := congrArg (Except.map Prod.fst) happly
    cases hrc

end RadixTree

end Nginx.Core
