/-
  Core/Radix128Match.lean --- the IPv6 radix tree against a map of prefixes.

  Insertion and deletion stay inside the key and the mask, and so does a lookup
  that ends above the nodes of the full length.  The lookup of an address that
  is stored as a whole passes bit 127, and then reads one byte more.
-/
import Nginx.Core.Radix128
import Nginx.Core.RadixMatch

set_option autoImplicit false

namespace Nginx.Core

open Foundation List Option Function

/-! ## The reference -/

/-- An insertion or a deletion of the prefix of `len` bits of an address. -/
inductive RadixOp128 where
  | insert (key : Nat → Byte) (len : Nat) (value : Word)
  | delete (key : Nat → Byte) (len : Nat)

namespace RadixOp128

/-- The values that may be inserted. -/
def Valid : RadixOp128 → Prop
  | insert _ _ value => value ≠ radixNoValue
  | delete _ _ => True

/-- What the operation leaves of a map of prefixes. -/
def refer (σ : PrefixMap Bool Word) : RadixOp128 → PrefixMap Bool Word
  | insert key len value =>
      if (σ (prefixBits128 key len)).isSome then σ
        else update σ (prefixBits128 key len) (some value)
  | delete key len => update σ (prefixBits128 key len) none

/-- What the code returns and leaves. -/
def apply (page : PageSize) (t : RadixTree) : RadixOp128 → Except WalkFault (Rc × RadixTree)
  | insert key len value => t.insert128 page key (netmask128 len) value
  | delete key len => t.delete128 key (netmask128 len)

end RadixOp128

/-- The prefixes that are stored after the operations. -/
def referAll128 (ops : List RadixOp128) :
    PrefixMap Bool Word := ops.foldl RadixOp128.refer fun _ => none

namespace RadixTree

/-- The operations one after the other. -/
def run128 (page : PageSize) (t : RadixTree) (ops : List RadixOp128) : Except WalkFault RadixTree :=
  ops.foldlM (fun t op => (op.apply page t).map Prod.snd) t

/-- The lookup of the key has the longest match, and what comes next stays inside its key and its
mask. -/
def StaysInside (page : PageSize) (t : RadixTree) (σ : PrefixMap Bool Word) (key : Nat → Byte) :
    Prop :=
  t.find128 key = .ok ((σ.longestMatch (keyBits128 key)).getD radixNoValue) ∧
    ∀ op : RadixOp128, op.Valid → op.apply page t ≠ .error .pastEnd

/-- The tree stores `σ`, and has no node of the full length in reserve. -/
structure Holds128 (page : PageSize) (t : RadixTree) (f : List Bool → Nat) (free : List Nat)
    (σ : PrefixMap Bool Word) : Prop extends Stores 128 page t f free σ where
  full : ∀ p, p.length = 128 → f p ≠ 0 → σ p ≠ none

section

variable {page : PageSize} {t : RadixTree} {f : List Bool → Nat}
    {free : List Nat} {σ : PrefixMap Bool Word}

theorem Holds.holds128 (h : Holds page t f free σ) : Holds128 page t f free σ := by
  have hdepth : ∀ p, f p ≠ 0 → p.length ≤ 32 := h.depth
  refine ⟨⟨{ h.within with depth := fun p hp => ?_ }, h.values⟩, fun p hlen hp => ?_⟩
  · exact le_trans (hdepth p hp) (by decide)
  · have hle := hdepth p hp
    omega

/-! ## The operations -/

theorem Stores.holds128 (h : Stores 128 page t f free σ) {p : List Bool} (hp : f p ≠ 0)
    (hfull : ∀ q, q ≠ p → q.length = 128 → f q ≠ 0 → σ q ≠ none) {value : Word}
    (hvalue : value ≠ radixNoValue) :
    Holds128 page (t.setValue (f p) value) f free (update σ p (some value)) := by
  have hstores := h.setValue hp value
  rw [stored, if_neg hvalue] at hstores
  refine ⟨hstores, fun q hlen hq => ?_⟩
  by_cases hqp : q = p
  · rw [hqp, update_self]
    exact some_ne_none value
  · rw [update_of_ne hqp]
    exact hfull q hqp hlen hq

/-- An insertion does what it does to the map. -/
theorem insert128_eq (h : Holds128 page t f free σ) (key : Nat → Byte) (len : Nat) {value : Word}
    (hvalue : value ≠ radixNoValue) :
    ∃ rc t' f' free', t.insert128 page key (netmask128 len) value = .ok (rc, t') ∧
      Holds128 page t' f' free' ((RadixOp128.insert key len value).refer σ) := by
  have hlength := length_prefixBits128 key len
  rw [insert128, ← h.root, RadixOp128.refer]
  rcases insertDescend128_eq h.toWithin 129 [] (prefixBits128 key len)
    (f []) rfl (by decide) (by omega) h.root_ne
    h.root_ne with ⟨bit, i, next, hnext, hne, hwalk⟩ | ⟨q, b, rest, hkey, hq, hempty, hwalk⟩
  · rw [nil_append] at hwalk hne
    have hwalk' : insertDescend128 t.nodes key (netmask128 len) 129 0x80 0 (f []) (f []) =
      .ok (bit, i, f (prefixBits128 key len), next) := hwalk
    rw [hwalk']
    change ∃ rc t' f' free', (if next ≠ 0 then _ else _) = _ ∧ _
    rw [if_pos hnext]
    by_cases hnone : σ (prefixBits128 key len) = none
    · have hno := (h.eq_none_iff hne).mp hnone
      rw [if_neg (not_not.mpr hno), hnone, isSome_none, if_neg Bool.false_ne_true]
      exact ⟨_, _, f, free, rfl, h.toStores.holds128 hne (fun p _ => h.full p) hvalue⟩
    · rw [if_pos (mt (h.eq_none_iff hne).mpr hnone), if_pos (isSome_iff_ne_none.mpr hnone)]
      exact ⟨_, t, f, free, rfl, h⟩
  · rw [nil_append] at hkey
    have hwalk' : insertDescend128 t.nodes key (netmask128 len) 129 0x80 0 (f []) (f []) =
      .ok (bitAt q.length, q.length / 8, f q, 0) := hwalk
    have hrest := length_le_of_prefixBits128 hkey
    rw [length_cons] at hrest
    have habsent : f (prefixBits128 key len) = 0 := by
      rw [hkey, show q ++ b :: rest = q ++ [b] ++ rest by simp]
      exact h.absent_append hempty rest
    have hhead : ∀ c ∈ (b :: rest).head?, f (q ++ [c]) = 0 := by
      intro c hc
      obtain rfl : b = c := some.inj hc
      exact hempty
    obtain ⟨t', f', free', hstores, hne, hmade, hgrow⟩ :=
      grow128_eq 129 q (b :: rest) t f free h.toStores hkey (by omega)
        (by rw [length_cons]; omega) hq hhead
    rw [← hkey] at hgrow hne hmade
    rw [hwalk']
    change ∃ rc t' f' free',
      (grow128 page key (netmask128 len) 129 (bitAt q.length) (q.length / 8) t (f q) >>=
      fun made => Except.ok (Rc.ok, made.2.setValue made.1 value)) = _ ∧ _
    rw [hgrow, h.eq_none_of_absent habsent, isSome_none, if_neg Bool.false_ne_true]
    refine ⟨_, _, f', free', rfl, hstores.holds128 hne (fun p hp hlen hpne => ?_) hvalue⟩
    rcases hmade p hpne with hold | hlt | rfl
    · exact h.full p hlen hold
    · omega
    · exact absurd rfl hp

/-- A deletion does what it does to the map, or follows a null pointer. -/
theorem delete128_eq (h : Holds128 page t f free σ) (key : Nat → Byte) (len : Nat) :
    t.delete128 key (netmask128 len) = .error (.fault .nullPointer) ∨
      ∃ rc t' f' free', t.delete128 key (netmask128 len) = .ok (rc, t') ∧
        Holds128 page t' f' free' ((RadixOp128.delete key len).refer σ) := by
  have hlength := length_prefixBits128 key len
  have hdescend : deleteDescend128 t.nodes key (netmask128 len) 129 0x80 0 (f []) =
    .ok (f (prefixBits128 key len)) :=
    deleteDescend128_eq h.toWithin 129 [] (prefixBits128 key len) rfl (by decide) (by omega)
  rw [delete128, ← h.root, hdescend, RadixOp128.refer]
  simp only [bind, Except.bind]
  by_cases hnode : f (prefixBits128 key len) = 0
  · right
    rw [if_pos hnode, update_eq_self_iff.mpr (h.eq_none_of_absent hnode).symm]
    exact ⟨_, t, f, free, rfl, h⟩
  rw [if_neg hnode]
  by_cases hinner : (t.nodes (f (prefixBits128 key len))).right ≠ 0 ∨
      (t.nodes (f (prefixBits128 key len))).left ≠ 0
  · right
    -- a node with a child is not of the full length
    have hshort : (prefixBits128 key len).length ≠ 128 := by
      intro hfull
      refine absurd hinner ((h.leaf_iff hnode).mpr fun c => not_not.mp fun hne => ?_)
      have hdepth := h.depth _ hne
      rw [length_append, hfull, length_singleton] at hdepth
      omega
    rw [if_pos hinner]
    by_cases hvalue : (t.nodes (f (prefixBits128 key len))).value = radixNoValue
    · rw [if_neg (not_not.mpr hvalue),
        update_eq_self_iff.mpr ((h.eq_none_iff hnode).mpr hvalue).symm]
      exact ⟨_, t, f, free, rfl, h⟩
    rw [if_pos hvalue]
    refine ⟨_, _, f, free, rfl, h.toStores.setValue hnode radixNoValue, fun q hlen hq => ?_⟩
    have hne : q ≠ prefixBits128 key len := fun he => hshort (he ▸ hlen)
    rw [update_of_ne hne]
    exact h.full q hlen hq
  · rw [if_neg hinner]
    by_cases hparent : (t.nodes (f (prefixBits128 key len))).parent = 0
    · left
      rw [prune, if_pos hparent]
    right
    obtain ⟨t', f', free', hprune, hgone, hfewer, hstores⟩ :=
      h.toStores.prune_eq 128 (prefixBits128 key len) t f free σ hnode
        (fun hp => hparent ((h.parent_eq_zero_iff hnode).mpr hp)) ((h.leaf_iff hnode).mp hinner)
          (h.depth _ hnode)
    rw [hprune]
    refine ⟨_, t', f', free', rfl, hstores, fun q hlen hq => ?_⟩
    have hne : q ≠ prefixBits128 key len := fun he => hq (he ▸ hgone)
    rw [update_of_ne hne]
    exact h.full q hlen (hfewer q hq)

theorem Holds128.apply (h : Holds128 page t f free σ) {op : RadixOp128} (hop : op.Valid) :
    op.apply page t = .error (.fault .nullPointer) ∨
      ∃ rc t' f' free', op.apply page t = .ok (rc, t') ∧
        Holds128 page t' f' free' (op.refer σ) := by
  cases op with
  | insert key len value => exact Or.inr (insert128_eq h key len hop)
  | delete key len => exact delete128_eq h key len

theorem find128_eq (h : Stores 128 page t f free σ) (key : Nat → Byte) :
    t.find128 key =
      if f (keyBits128 key) =
        0 then .ok ((σ.longestMatch (keyBits128 key)).getD radixNoValue) else .error .pastEnd := by
  have hloop := findLoop128_eq h 130 [] (keyBits128 key) rfl (by rw [length_keyBits128]; decide)
  rwa [h.root] at hloop

theorem Holds128.staysInside_iff (h : Holds128 page t f free σ) (key : Nat → Byte) :
    t.StaysInside page σ key ↔ σ (keyBits128 key) = none := by
  have hops : ∀ op : RadixOp128, op.Valid → op.apply page t ≠ .error .pastEnd := by
    intro op hop hpast
    rcases h.apply hop with hnull | ⟨rc, t', f', free', hok, -⟩
    · rw [hnull] at hpast
      cases hpast
    · rw [hok] at hpast
      cases hpast
  rw [StaysInside, find128_eq h.toStores, and_iff_left hops]
  by_cases habsent : f (keyBits128 key) = 0
  · rw [if_pos habsent]
    exact iff_of_true rfl (h.eq_none_of_absent habsent)
  · rw [if_neg habsent]
    exact iff_of_false (fun he => by cases he) (h.full _ (length_keyBits128 key) habsent)

/-! ## Every run -/

/-- `2001:db8::` -/
def documentation : Nat → Byte := fun i => [0x20, 0x01, 0x0d, 0xb8].getD i 0

theorem Holds128.run (h : Holds128 page t f free σ) {ops : List RadixOp128}
    (hops : ∀ op ∈ ops, op.Valid) :
    t.run128 page ops = .error (.fault .nullPointer) ∨
      ∃ t' f' free', t.run128 page ops = .ok t' ∧
        Holds128 page t' f' free' (ops.foldl RadixOp128.refer σ) := by
  induction ops generalizing t f free σ with
  | nil => exact Or.inr ⟨t, f, free, rfl, h⟩
  | cons op ops ih =>
    rw [run128, foldlM_cons, foldl_cons]
    rcases h.apply (hops op mem_cons_self) with hnull | ⟨rc, t', f', free', hok, hholds⟩
    · rw [hnull]
      exact Or.inl rfl
    · rw [hok]
      exact ih hholds fun op' hop' => hops op' (mem_cons_of_mem _ hop')

end

/-- **Inside the key.**  No run reads behind a key or a mask, and in every state
that one reaches the lookup has the longest match, without reading behind the
key, exactly if the address is not stored as a whole. -/
theorem staysInside_iff_of_run (page : PageSize) (memory : Nat → RadixNode) (preallocate : Int) :
    ∃ t₀, create page memory preallocate = .ok (some t₀) ∧
      ∀ ops : List RadixOp128, (∀ op ∈ ops, op.Valid) → t₀.run128 page ops ≠ .error .pastEnd ∧
        ∀ t, t₀.run128 page ops = .ok t →
          ∀ key, t.StaysInside page (referAll128 ops) key ↔
            referAll128 ops (keyBits128 key) = none := by
  obtain ⟨t₀, f, free, hcreate, hholds⟩ := create_eq page memory preallocate
  refine ⟨t₀, hcreate, fun ops hops => ?_⟩
  rcases hholds.holds128.run hops with hnull | ⟨t', f', free', hok, hholds'⟩
  · rw [hnull]
    exact ⟨fun he => (by cases he), fun t ht => (by cases ht)⟩
  · rw [hok]
    refine ⟨fun he => (by cases he), fun t ht key => ?_⟩
    cases ht
    exact hholds'.staysInside_iff key

/-- `2001:db8::/32` is stored, and `2001:db8::` is looked up. -/
theorem staysInside_documentation :
    ∃ t₀ t, create smallPages (fun _ => default) 0 = .ok (some t₀) ∧
      t₀.run128 smallPages [.insert documentation 32 1] = .ok t ∧
      t.StaysInside smallPages (referAll128 [.insert documentation 32 1]) documentation := by
  obtain ⟨t₀, hcreate, hright⟩ := staysInside_iff_of_run smallPages (fun _ => default) 0
  have hrun : ∃ t, t₀.run128 smallPages [.insert documentation 32 1] = .ok t := by
    cases hcreate
    exact ⟨_, rfl⟩
  obtain ⟨t, hrun⟩ := hrun
  have hops : ∀ op ∈ [RadixOp128.insert documentation 32 1], op.Valid := by
    intro op hop
    rw [mem_singleton.mp hop, RadixOp128.Valid]
    decide
  have hnone : referAll128 [.insert documentation 32 1] (keyBits128 documentation) = none := by
    decide
  exact ⟨t₀, t, hcreate, hrun, ((hright _ hops).2 t hrun _).mpr hnone⟩

/-- The lookup of an address that is stored reads `key[16]`. -/
theorem find128_pastEnd :
    ∃ t₀ t, create smallPages (fun _ => default) 0 = .ok (some t₀) ∧
      t₀.run128 smallPages [.insert documentation 128 1] = .ok t ∧
      t.find128 documentation = .error .pastEnd ∧
      ¬ t.StaysInside smallPages (referAll128 [.insert documentation 128 1]) documentation := by
  obtain ⟨t₀, f₀, free₀, hcreate, hholds₀⟩ := create_eq smallPages (fun _ => default) 0
  have hvalue : (1 : Word) ≠ radixNoValue := by decide
  obtain ⟨rc, t, f, free, hinsert, hholds⟩ := insert128_eq hholds₀.holds128 documentation 128 hvalue
  have hrun : t₀.run128 smallPages [.insert documentation 128 1] = .ok t := by
    rw [run128, foldlM_cons, RadixOp128.apply, hinsert]
    rfl
  have hwhole : prefixBits128 documentation 128 = keyBits128 documentation :=
    take_of_length_le (le_of_eq (length_keyBits128 _))
  have hstored : (RadixOp128.insert documentation 128 1).refer (fun _ =>
    none) (keyBits128 documentation) ≠ none := by
    rw [RadixOp128.refer, hwhole, isSome_none, if_neg Bool.false_ne_true, update_self]
    exact some_ne_none 1
  have hpresent : f (keyBits128 documentation) ≠ 0 := fun habsent =>
    hstored (hholds.eq_none_of_absent habsent)
  have hfind : t.find128 documentation = .error .pastEnd := by
    rw [find128_eq hholds.toStores, if_neg hpresent]
  refine ⟨t₀, t, hcreate, hrun, hfind, ?_⟩
  rintro ⟨hfound, -⟩
  rw [hfind] at hfound
  cases hfound

end RadixTree

end Nginx.Core
