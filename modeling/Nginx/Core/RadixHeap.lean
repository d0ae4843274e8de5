/-
  Core/RadixHeap.lean --- where the nodes of a radix tree lie in memory, and the
  values they store.

  A tree is described by the map from positions (the bits on the way from the
  root) to the addresses of the nodes there, 0 for a position without a node.
  What the code does to the tree is then an update of that map at one position:
  `attach` fills one, `detach` empties one, and neither touches the others.
  An IPv4 tree is one of at most 32 levels below the root.
-/
import Mathlib.Data.List.Induction
import Nginx.Core.RadixTree
import Nginx.Foundation.Prefixes

set_option autoImplicit false

namespace Nginx.Core

open List Foundation Function

/-! ## Nodes -/

@[simp] theorem RadixNode.child_setChild (n : RadixNode) (b c : Bool) (a : Nat) :
    (n.setChild b a).child c = if c = b then a else n.child c := by
  cases b <;> cases c <;> rfl

@[simp] theorem RadixNode.parent_setChild (n : RadixNode) (b : Bool) (a : Nat) :
    (n.setChild b a).parent = n.parent := by
  cases b <;> rfl

@[simp] theorem RadixNode.value_setChild (n : RadixNode) (b : Bool) (a : Nat) :
    (n.setChild b a).value = n.value := by
  cases b <;> rfl

theorem RadixNode.leaf_iff (n : RadixNode) :
    ¬ (n.right ≠ 0 ∨ n.left ≠ 0) ↔ ∀ b, n.child b = 0 := by
  constructor
  · intro h b
    cases b
    · exact not_not.mp fun hne => h (Or.inr hne)
    · exact not_not.mp fun hne => h (Or.inl hne)
  · rintro h (hne | hne)
    · exact hne (h true)
    · exact hne (h false)

namespace RadixTree

@[simp] theorem nodes_modify (t : RadixTree) (a : Nat) (g : RadixNode → RadixNode) :
    (t.modify a g).nodes = update t.nodes a (g (t.nodes a)) := rfl

/-! ## The free nodes -/

/-- The nodes that are chained through `right` from an address on. -/
def FreeChain (nodes : Nat → RadixNode) : Nat → List Nat → Prop
  | a, [] => a = 0
  | a, b :: l => a = b ∧ a ≠ 0 ∧ FreeChain nodes (nodes a).right l

theorem FreeChain.congr {nodes nodes' : Nat → RadixNode} {l : List Nat} {a : Nat}
    (h : FreeChain nodes a l) (heq : ∀ b ∈ l, nodes' b = nodes b) : FreeChain nodes' a l := by
  induction l generalizing a with
  | nil => exact h
  | cons b l ih =>
    obtain ⟨rfl, hne, hrest⟩ := h
    refine ⟨rfl, hne, ?_⟩
    rw [heq a (mem_cons_self ..)]
    exact ih hrest fun c hc => heq c (mem_cons_of_mem _ hc)

theorem FreeChain.zero_notMem {nodes : Nat → RadixNode} {l : List Nat} {a : Nat}
    (h : FreeChain nodes a l) : 0 ∉ l := by
  induction l generalizing a with
  | nil => simp
  | cons b l ih =>
    obtain ⟨rfl, hne, hrest⟩ := h
    rw [mem_cons, not_or]
    exact ⟨hne.symm, ih hrest⟩

/-! ## Positions -/

/-- The nodes of the tree lie at the addresses `f`, none deeper than `w`, and `free` are the ones to
use again. -/
structure Within (w : Nat) (page : PageSize) (t : RadixTree) (f : List Bool → Nat)
    (free : List Nat) :
    Prop where
  root : f [] = t.root
  root_ne : f [] ≠ 0
  absent : ∀ p b, f p = 0 → f (p ++ [b]) = 0
  child : ∀ p b, f p ≠ 0 → (t.nodes (f p)).child b = f (p ++ [b])
  parent_root : (t.nodes (f [])).parent = 0
  parent : ∀ p b, f (p ++ [b]) ≠ 0 → (t.nodes (f (p ++ [b]))).parent = f p
  inj : ∀ p q, f p ≠ 0 → f p = f q → p = q
  depth : ∀ p, f p ≠ 0 → p.length ≤ w
  chain : FreeChain t.nodes t.free free
  nodup : free.Nodup
  disjoint : ∀ p, f p ∉ free
  used : ∀ p, f p ≠ 0 → f p < t.start
  free_used : ∀ a ∈ free, a < t.start
  room : t.start + t.size ≤ (t.pool + 1) * page.bytes
  start_ne : t.size ≠ 0 → t.start ≠ 0

section

variable {w : Nat} {page : PageSize} {t : RadixTree} {f : List Bool → Nat} {free : List Nat}

variable {p : List Bool}

variable {b : Bool}

theorem Within.present (h : Within w page t f free)
    (hne : f (p ++ [b]) ≠ 0) : f p ≠ 0 :=
  fun hp => hne (h.absent p b hp)

theorem Within.absent_append (h : Within w page t f free) (hp : f p = 0)
    (rest : List Bool) : f (p ++ rest) = 0 := by
  induction rest using List.reverseRecOn with
  | nil => rwa [append_nil]
  | append_singleton rest c ih =>
    rw [← append_assoc]
    exact h.absent _ c ih

theorem Within.leaf_iff (h : Within w page t f free) (hp : f p ≠ 0) :
    ¬ ((t.nodes (f p)).right ≠ 0 ∨ (t.nodes (f p)).left ≠ 0) ↔ ∀ b, f (p ++ [b]) = 0 := by
  rw [RadixNode.leaf_iff]
  exact forall_congr' fun b => by rw [h.child p b hp]

theorem Within.parent_eq_zero_iff (h : Within w page t f free) (hp : f p ≠ 0) :
    (t.nodes (f p)).parent = 0 ↔ p = [] := by
  cases p using List.reverseRecOn with
  | nil => exact iff_of_true h.parent_root rfl
  | append_singleton p b =>
    rw [h.parent p b hp]
    exact iff_of_false (h.present hp) (by simp)

theorem Within.setValue (h : Within w page t f free) (p : List Bool) (v : Word) :
    Within w page (t.setValue (f p) v) f free := by
  have hnodes : ∀ a, ((t.setValue (f p) v).nodes a).child = (t.nodes a).child ∧
      ((t.setValue (f p) v).nodes a).parent = (t.nodes a).parent := by
    intro a
    by_cases ha : a = f p
    · subst ha
      simp [RadixTree.setValue, RadixNode.child, funext_iff]
    · simp [RadixTree.setValue, ha]
  exact
    { h with
      child := fun q b hq => by rw [(hnodes (f q)).1]; exact h.child q b hq
      parent_root := by rw [(hnodes (f [])).2]; exact h.parent_root
      parent := fun q b hq => by rw [(hnodes _).2]; exact h.parent q b hq
      chain := h.chain.congr fun a ha => by
        have hne : a ≠ f p := fun he => h.disjoint p (he ▸ ha)
        simp [RadixTree.setValue, hne] }

/-! ## Allocation -/

theorem Within.refill (h : Within w page t f free) (hfree : t.free = 0) :
    Within w page (t.refill page) f free ∧ radixNodeSize ≤ (t.refill page).size ∧
      (t.refill page).free = 0 := by
  have hpage := page.le_bytes
  unfold RadixTree.refill
  split
  · have hstart : t.start ≤ (t.pool + 1) * page.bytes := by
      have := h.room
      omega
    refine ⟨{ h with
      used := fun p hp => Nat.lt_of_lt_of_le (h.used p hp) hstart
      free_used := fun a ha => Nat.lt_of_lt_of_le (h.free_used a ha) hstart
      room := by
        exact Nat.le_of_eq (Nat.succ_mul (t.pool + 1) page.bytes).symm
      start_ne := fun _ => by
        change (t.pool + 1) * page.bytes ≠ 0
        exact Nat.mul_ne_zero (Nat.succ_ne_zero _) (by omega) }, ?_, hfree⟩
    change radixNodeSize ≤ page.bytes
    simp only [radixNodeSize]
    omega
  · exact ⟨h, by omega, hfree⟩

/-- `ngx_radix_alloc` gives out an address that nothing has. -/
theorem Within.alloc (h : Within w page t f free) :
    (t.alloc page).2.nodes = t.nodes ∧ (t.alloc page).1 ≠ 0 ∧
      (∀ p, f p ≠ (t.alloc page).1) ∧
      (t.alloc page).1 < (t.alloc page).2.start ∧
      ∃ free', (t.alloc page).1 ∉ free' ∧ Within w page (t.alloc page).2 f free' := by
  unfold RadixTree.alloc
  split
  · rename_i hfree
    cases free with
    | nil => exact absurd h.chain hfree
    | cons a rest =>
      obtain ⟨rfl, hne, hchain⟩ := h.chain
      refine ⟨rfl, hne, fun p hp => h.disjoint p (hp ▸ mem_cons_self ..),
        h.free_used _ (mem_cons_self ..), rest, (nodup_cons.mp h.nodup).1, ?_⟩
      exact
        { h with
          chain := hchain
          nodup := (nodup_cons.mp h.nodup).2
          disjoint := fun p hp => h.disjoint p (mem_cons_of_mem _ hp)
          free_used := fun a ha => h.free_used a (mem_cons_of_mem _ ha) }
  · rename_i hfree
    obtain ⟨hplaces, hsize, -⟩ := h.refill (not_not.mp hfree)
    have hnodes : (t.refill page).nodes = t.nodes := by
      unfold RadixTree.refill
      split <;> rfl
    have hpos : 0 < radixNodeSize := by decide
    refine ⟨hnodes, hplaces.start_ne (by omega), fun p hp => ?_, Nat.lt_add_of_pos_right hpos,
      free, fun hmem => lt_irrefl _ (hplaces.free_used _ hmem), ?_⟩
    · have hne : f p ≠ 0 := by
        rw [hp]
        exact hplaces.start_ne (by omega)
      exact absurd (hplaces.used p hne) (by rw [hp]; exact lt_irrefl _)
    exact
      { hplaces with
        used := fun p hp => Nat.lt_of_lt_of_le (hplaces.used p hp) (Nat.le_add_right _ _)
        free_used := fun a ha =>
          Nat.lt_of_lt_of_le (hplaces.free_used a ha) (Nat.le_add_right _ _)
        room := by
          have hroom := hplaces.room
          change (t.refill page).start + radixNodeSize + ((t.refill page).size - radixNodeSize) ≤ _
          rwa [add_assoc, Nat.add_sub_cancel' hsize]
        start_ne := fun _ => by
          simp only [radixNodeSize]
          omega }

/-! ## A node more -/

theorem eq_of_append_singleton {q : List Bool} {c : Bool} (h : q ++ [c] = p ++ [b]) :
    q = p ∧ c = b := by
  obtain ⟨hq, hc⟩ := append_inj' h rfl
  exact ⟨hq, by simpa using hc⟩

/-- A new node at a position that has none, below one that is there. -/
theorem Within.link (h : Within w page t f free) {a : Nat}
    (hp : f p ≠ 0) (hempty : f (p ++ [b]) = 0) (hdepth : p.length < w) (ha : a ≠ 0)
    (hnew : ∀ q, f q ≠ a) (hstart : a < t.start) (hfree : a ∉ free) :
    Within w page
      ((t.modify a fun _ =>
          { right := 0, left := 0, parent := f p, value := radixNoValue }).modify (f p) fun n =>
        n.setChild b a)
      (update f (p ++ [b]) a) free := by
  set t' := (t.modify a fun _ =>
    { right := 0, left := 0, parent := f p, value := radixNoValue }).modify (f p) fun n =>
      n.setChild b a with ht'
  have hself : t'.nodes (f p) = (t.nodes (f p)).setChild b a := by
    simp [ht', hnew p]
  have hnode : t'.nodes a = { right := 0, left := 0, parent := f p, value := radixNoValue } := by
    simp [ht', (hnew p).symm]
  have hother : ∀ c, c ≠ a → c ≠ f p → t'.nodes c = t.nodes c := by
    intro c hc hcp
    simp [ht', hc, hcp]
  have hparent : ∀ q, (t'.nodes (f q)).parent = (t.nodes (f q)).parent := by
    intro q
    by_cases hq : f q = f p
    · rw [hq, hself, RadixNode.parent_setChild]
    · rw [hother _ (hnew q) hq]
  have hlong : p ≠ p ++ [b] := by simp
  exact
    { h with
      root := by
        rw [update_of_ne (by simp)]
        exact h.root
      root_ne := by
        rw [update_of_ne (by simp)]
        exact h.root_ne
      absent := by
        intro q c hq
        by_cases hqp : q = p ++ [b]
        · subst hqp
          exact absurd hq (by simpa using ha)
        · rw [update_of_ne hqp] at hq
          rw [update_of_ne fun he : q ++ [c] = p ++ [b] => hp ((eq_of_append_singleton he).1 ▸ hq)]
          exact h.absent q c hq
      child := by
        intro q c hq
        by_cases hqp : q = p ++ [b]
        · subst hqp
          rw [update_self, update_of_ne (by simp), hnode,
            h.absent _ c hempty]
          cases c <;> rfl
        rw [update_of_ne hqp] at hq ⊢
        by_cases hfq : f q = f p
        · obtain rfl : q = p := h.inj q p hq hfq
          rw [hself, RadixNode.child_setChild, h.child q c hq]
          by_cases hcb : c = b
          · subst hcb
            rw [if_pos rfl, update_self]
          · rw [if_neg hcb, update_of_ne (fun he => hcb (eq_of_append_singleton he).2)]
        · rw [hother _ (hnew q) hfq, h.child q c hq,
            update_of_ne fun he : q ++ [c] = p ++ [b] => hfq ((eq_of_append_singleton he).1 ▸ rfl)]
      parent_root := by
        rw [update_of_ne (by simp), hparent]
        exact h.parent_root
      parent := by
        intro q c hq
        by_cases hqc : q ++ [c] = p ++ [b]
        · obtain ⟨rfl, rfl⟩ := eq_of_append_singleton hqc
          rw [update_self, update_of_ne hlong, hnode]
        · rw [update_of_ne hqc] at hq ⊢
          rw [hparent, h.parent q c hq, update_of_ne]
          rintro rfl
          exact hq (h.absent _ c hempty)
      inj := by
        intro q r hq hqr
        by_cases hqp : q = p ++ [b]
        · by_cases hrp : r = p ++ [b]
          · rw [hqp, hrp]
          · rw [hqp, update_self, update_of_ne hrp] at hqr
            exact absurd hqr.symm (hnew r)
        · rw [update_of_ne hqp] at hq hqr
          by_cases hrp : r = p ++ [b]
          · rw [hrp, update_self] at hqr
            exact absurd hqr (hnew q)
          · rw [update_of_ne hrp] at hqr
            exact h.inj q r hq hqr
      depth := by
        intro q hq
        by_cases hqp : q = p ++ [b]
        · rw [hqp, length_append, length_singleton]
          omega
        · rw [update_of_ne hqp] at hq
          exact h.depth q hq
      chain := h.chain.congr fun c hc =>
        hother c (fun he => hfree (he ▸ hc)) (fun he => h.disjoint p (he ▸ hc))
      disjoint := by
        intro q
        by_cases hqp : q = p ++ [b]
        · rw [hqp, update_self]
          exact hfree
        · rw [update_of_ne hqp]
          exact h.disjoint q
      used := by
        intro q hq
        by_cases hqp : q = p ++ [b]
        · rw [hqp, update_self]
          exact hstart
        · rw [update_of_ne hqp] at hq ⊢
          exact h.used q hq }

theorem Within.attach (h : Within w page t f free)
    (hp : f p ≠ 0) (hempty : f (p ++ [b]) = 0) (hdepth : p.length < w) :
    (t.attach page (f p) b).1 ≠ 0 ∧ (∀ q, f q ≠ (t.attach page (f p) b).1) ∧
      (((t.attach page (f p) b).2.nodes (t.attach page (f p) b).1).value = radixNoValue) ∧
      (∀ q, ((t.attach page (f p) b).2.nodes (f q)).value = (t.nodes (f q)).value) ∧
      ∃ free', Within w page (t.attach page (f p) b).2
        (update f (p ++ [b]) (t.attach page (f p) b).1) free' := by
  obtain ⟨hnodes, hne, hnew, hstart, free', hfree, hplaces⟩ := h.alloc
  refine ⟨hne, hnew, ?_, fun q => ?_, free',
    hplaces.link hp hempty hdepth hne hnew hstart hfree⟩
  · simp [RadixTree.attach, (hnew p).symm]
  · by_cases hq : f q = f p
    · simp [RadixTree.attach, hq, hnew p, hnodes]
    · simp [RadixTree.attach, hq, hnew q, hnodes]

/-! ## A node less -/

/-- What detaching the node at `p ++ [b]` does to the nodes. -/
theorem Within.detach_nodes (h : Within w page t f free) (hq : f (p ++ [b]) ≠ 0) :
    let t' := t.detach (f (p ++ [b]))
    t'.nodes (f p) = (t.nodes (f p)).setChild b 0 ∧
      t'.nodes (f (p ++ [b])) = { t.nodes (f (p ++ [b])) with right := t.free } ∧
      ∀ c, c ≠ f (p ++ [b]) → c ≠ f p → t'.nodes c = t.nodes c := by
  intro t'
  have hp : f p ≠ 0 := h.present hq
  have hpq : f p ≠ f (p ++ [b]) := fun he => absurd (h.inj _ _ hp he) (by simp)
  have hparent : (t.nodes (f (p ++ [b]))).parent = f p := h.parent p b hq
  have hright : (t.nodes (f p)).right = f (p ++ [b]) ↔ b = true := by
    have htrue : (t.nodes (f p)).right = f (p ++ [true]) := h.child p true hp
    rw [htrue]
    constructor
    · intro he
      have := h.inj _ _ (he ▸ hq) he
      simpa using this.symm
    · rintro rfl
      rfl
  refine ⟨?_, ?_, fun c hc hcp => ?_⟩
  · cases b with
    | true => simp [t', RadixTree.detach, hparent, hpq, hright, RadixNode.setChild]
    | false => simp [t', RadixTree.detach, hparent, hpq, hright, RadixNode.setChild]
  · simp [t', RadixTree.detach, hparent, hpq.symm]
    rfl
  · simp [t', RadixTree.detach, hparent, hc, hcp]

theorem Within.detach_value (h : Within w page t f free) (hq : f (p ++ [b]) ≠ 0) (r : List Bool) :
    ((t.detach (f (p ++ [b]))).nodes (f r)).value = (t.nodes (f r)).value := by
  obtain ⟨hcut, hgone, hother⟩ := h.detach_nodes hq
  by_cases hrp : f r = f p
  · rw [hrp, hcut, RadixNode.value_setChild]
  · by_cases hrq : f r = f (p ++ [b])
    · rw [hrq, hgone]
    · rw [hother _ hrq hrp]

/-- The links of the nodes that stay. -/
theorem Within.detach_links (h : Within w page t f free) (hq : f (p ++ [b]) ≠ 0) {r : List Bool}
    (hr : r ≠ p ++ [b]) (hfr : f r ≠ 0) :
    ((t.detach (f (p ++ [b]))).nodes (f r)).parent = (t.nodes (f r)).parent ∧
      ∀ c, ((t.detach (f (p ++ [b]))).nodes (f r)).child c =
        update f (p ++ [b]) 0 (r ++ [c]) := by
  obtain ⟨hcut, -, hother⟩ := h.detach_nodes hq
  have hmoved : f r ≠ f (p ++ [b]) := fun he => hr (h.inj r _ hfr he)
  by_cases hrp : f r = f p
  · obtain rfl : r = p := h.inj r p hfr hrp
    refine ⟨by rw [hcut, RadixNode.parent_setChild], fun c => ?_⟩
    rw [hcut, RadixNode.child_setChild, h.child r c hfr]
    by_cases hcb : c = b
    · subst hcb
      rw [if_pos rfl, update_self]
    · rw [if_neg hcb, update_of_ne (fun he => hcb (eq_of_append_singleton he).2)]
  · rw [hother _ hmoved hrp]
    refine ⟨rfl, fun c => ?_⟩
    rw [h.child r c hfr]
    exact (update_of_ne (fun he => hrp (congrArg f (eq_of_append_singleton he).1)) _ _).symm

/-- The chain of free nodes begins with the detached one. -/
theorem Within.detach_chain (h : Within w page t f free) (hq : f (p ++ [b]) ≠ 0) :
    FreeChain (t.detach (f (p ++ [b]))).nodes (t.detach (f (p ++ [b]))).free
      (f (p ++ [b]) :: free) := by
  obtain ⟨-, hgone, hother⟩ := h.detach_nodes hq
  refine ⟨rfl, hq, ?_⟩
  change FreeChain (t.detach (f (p ++ [b]))).nodes
    ((t.detach (f (p ++ [b]))).nodes (f (p ++ [b]))).right free
  rw [hgone]
  exact h.chain.congr fun c hc =>
    hother c (fun he => h.disjoint _ (he ▸ hc)) (fun he => h.disjoint p (he ▸ hc))

/-- A leaf less: no address but its own changes, and its node is the first free one. -/
theorem Within.detach (h : Within w page t f free)
    (hq : f (p ++ [b]) ≠ 0) (hleaf : ∀ c, f (p ++ [b] ++ [c]) = 0) :
    (∀ r, r ≠ p ++ [b] → ((t.detach (f (p ++ [b]))).nodes (f r)).value = (t.nodes (f r)).value) ∧
      Within w page (t.detach (f (p ++ [b]))) (update f (p ++ [b]) 0)
        (f (p ++ [b]) :: free) := by
  have hstays : ∀ r, update f (p ++ [b]) 0 r ≠ 0 → r ≠ p ++ [b] ∧ f r ≠ 0 := by
    intro r hr
    have hrq : r ≠ p ++ [b] := by
      rintro rfl
      simp at hr
    exact ⟨hrq, by rwa [update_of_ne hrq] at hr⟩
  exact ⟨fun r _ => h.detach_value hq r,
    { h with
      root := by
        rw [update_of_ne (by simp)]
        exact h.root
      root_ne := by
        rw [update_of_ne (by simp)]
        exact h.root_ne
      absent := by
        intro r c hr
        by_cases hrc : r ++ [c] = p ++ [b]
        · rw [hrc, update_self]
        rw [update_of_ne hrc]
        by_cases hrq : r = p ++ [b]
        · rw [hrq]
          exact hleaf c
        · rw [update_of_ne hrq] at hr
          exact h.absent r c hr
      child := by
        intro r c hr
        obtain ⟨hrq, hr⟩ := hstays r hr
        rw [update_of_ne hrq]
        exact (h.detach_links hq hrq hr).2 c
      parent_root := by
        rw [update_of_ne (by simp), (h.detach_links hq (by simp) h.root_ne).1]
        exact h.parent_root
      parent := by
        intro r c hr
        obtain ⟨hrc, hr⟩ := hstays _ hr
        rw [update_of_ne hrc, (h.detach_links hq hrc hr).1, h.parent r c hr, update_of_ne]
        rintro rfl
        exact hr (hleaf c)
      inj := by
        intro r s hr hrs
        obtain ⟨hrq, hr⟩ := hstays r hr
        rw [update_of_ne hrq] at hrs
        obtain ⟨hsq, -⟩ := hstays s (hrs ▸ hr)
        rw [update_of_ne hsq] at hrs
        exact h.inj r s hr hrs
      depth := fun r hr => h.depth r (hstays r hr).2
      chain := h.detach_chain hq
      nodup := nodup_cons.mpr ⟨h.disjoint _, h.nodup⟩
      disjoint := by
        intro r
        by_cases hrq : r = p ++ [b]
        · rw [hrq, update_self, mem_cons, not_or]
          exact ⟨fun he => hq he.symm, h.chain.zero_notMem⟩
        · rw [update_of_ne hrq, mem_cons, not_or]
          exact ⟨fun he => hrq (h.inj _ _ hq he.symm).symm, h.disjoint r⟩
      used := by
        intro r hr
        obtain ⟨hrq, hr⟩ := hstays r hr
        rw [update_of_ne hrq]
        exact h.used r hr
      free_used := by
        intro a ha
        rcases mem_cons.mp ha with rfl | ha
        · exact h.used _ hq
        · exact h.free_used a ha }⟩

end

/-! ## Trees of 32 levels -/

/-- The nodes of the tree lie at the addresses `f`, and `free` are the ones to
use again. -/
structure Places (page : PageSize) (t : RadixTree) (f : List Bool → Nat) (free : List Nat) :
    Prop where
  root : f [] = t.root
  root_ne : f [] ≠ 0
  absent : ∀ p b, f p = 0 → f (p ++ [b]) = 0
  child : ∀ p b, f p ≠ 0 → (t.nodes (f p)).child b = f (p ++ [b])
  parent_root : (t.nodes (f [])).parent = 0
  parent : ∀ p b, f (p ++ [b]) ≠ 0 → (t.nodes (f (p ++ [b]))).parent = f p
  inj : ∀ p q, f p ≠ 0 → f p = f q → p = q
  depth : ∀ p, f p ≠ 0 → p.length ≤ 32
  chain : FreeChain t.nodes t.free free
  nodup : free.Nodup
  disjoint : ∀ p, f p ∉ free
  used : ∀ p, f p ≠ 0 → f p < t.start
  free_used : ∀ a ∈ free, a < t.start
  room : t.start + t.size ≤ (t.pool + 1) * page.bytes
  start_ne : t.size ≠ 0 → t.start ≠ 0

section

variable {page : PageSize} {t : RadixTree} {f : List Bool → Nat} {free : List Nat}

theorem places_iff_within : Places page t f free ↔ Within 32 page t f free :=
  ⟨fun h => { h with }, fun h => { h with }⟩

theorem Places.within (h : Places page t f free) : Within 32 page t f free := places_iff_within.mp h

theorem Places.absent_append (h : Places page t f free) {p : List Bool} (hp : f p = 0)
    (rest : List Bool) : f (p ++ rest) = 0 := h.within.absent_append hp rest

theorem Places.leaf_iff (h : Places page t f free) {p : List Bool} (hp : f p ≠ 0) :
    ¬ ((t.nodes (f p)).right ≠ 0 ∨ (t.nodes (f p)).left ≠ 0) ↔ ∀ b, f (p ++ [b]) = 0 :=
  h.within.leaf_iff hp

theorem Places.parent_eq_zero_iff (h : Places page t f free) {p : List Bool} (hp : f p ≠ 0) :
    (t.nodes (f p)).parent = 0 ↔ p = [] := h.within.parent_eq_zero_iff hp

end

end RadixTree

namespace RadixTree

/-! ## What is stored -/

/-- The value of the node at an address. -/
def valueAt (t : RadixTree) (a : Nat) : Option Word :=
  if a = 0 ∨ (t.nodes a).value = radixNoValue then none else some (t.nodes a).value

/-- What a value of a node says. -/
def stored (value : Word) : Option Word := if value = radixNoValue then none else some value

/-- The tree, with no node deeper than `w`, stores `σ`. -/
structure Stores (w : Nat) (page : PageSize) (t : RadixTree) (f : List Bool → Nat) (free : List Nat)
    (σ : PrefixMap Bool Word) : Prop extends Within w page t f free where
  values : ∀ p, σ p = t.valueAt (f p)

section

variable {w : Nat} {page : PageSize} {t : RadixTree} {f : List Bool → Nat} {free : List Nat}
  {σ : PrefixMap Bool Word}

variable {p : List Bool}

theorem Stores.eq_none_of_absent (h : Stores w page t f free σ) (hp : f p = 0) :
    σ p = none := by
  rw [h.values p, valueAt, if_pos (Or.inl hp)]

theorem Stores.eq_stored (h : Stores w page t f free σ) (hp : f p ≠ 0) :
    σ p = stored (t.nodes (f p)).value := by
  rw [h.values p, valueAt, stored]
  simp only [hp, false_or]

theorem Stores.eq_none_iff (h : Stores w page t f free σ) (hp : f p ≠ 0) :
    σ p = none ↔ (t.nodes (f p)).value = radixNoValue := by
  rw [h.eq_stored hp, stored]
  by_cases hv : (t.nodes (f p)).value = radixNoValue <;> simp [hv]

/-- A node on the way adds its value to the best that the lookup has seen. -/
theorem Stores.visit (h : Stores w page t f free σ) (hp : f p ≠ 0) {key : List Bool}
    (htake : key.take p.length = p) :
    (if (t.nodes (f p)).value ≠ radixNoValue then (t.nodes (f p)).value
      else (σ.bestBelow key p.length).getD radixNoValue) =
      (σ.bestBelow key (p.length + 1)).getD radixNoValue := by
  rw [PrefixMap.bestBelow_succ, htake, h.eq_stored hp, stored]
  by_cases hv : (t.nodes (f p)).value = radixNoValue
  · rw [if_neg (not_not.mpr hv), if_pos hv, Option.none_or]
  · rw [if_pos hv, if_neg hv, Option.some_or, Option.getD_some]

/-- Where the nodes end, the lookup has seen the best. -/
theorem Stores.longestMatch_of_absent (h : Stores w page t f free σ) (hp : f p = 0)
    {key rest : List Bool} (hkey : key = p ++ rest) :
    σ.longestMatch key = σ.bestBelow key p.length := by
  refine PrefixMap.bestBelow_eq_of_none ?_ fun k hk _ => ?_
  · rw [hkey, length_append]
    omega
  · rw [hkey, take_append, take_of_length_le hk]
    exact h.eq_none_of_absent (h.absent_append hp _)

theorem Stores.setValue (h : Stores w page t f free σ) (hp : f p ≠ 0) (v : Word) :
    Stores w page (t.setValue (f p) v) f free (update σ p (stored v)) := by
  refine ⟨h.toWithin.setValue p v, fun q => ?_⟩
  by_cases hq : q = p
  · subst hq
    simp [valueAt, RadixTree.setValue, stored, hp]
  · have hne : f q ≠ f p := fun he => hq (h.inj _ _ hp he.symm).symm
    rw [update_of_ne hq, h.values q, valueAt, valueAt, RadixTree.setValue,
      nodes_modify, update_of_ne hne]

theorem Stores.attach (h : Stores w page t f free σ) {b : Bool}
    (hp : f p ≠ 0) (hempty : f (p ++ [b]) = 0) (hdepth : p.length < w) :
    (t.attach page (f p) b).1 ≠ 0 ∧
      ∃ free', Stores w page (t.attach page (f p) b).2
        (update f (p ++ [b]) (t.attach page (f p) b).1) free' σ := by
  obtain ⟨hne, hnew, hvalue, hkeep, free', hwithin⟩ := h.toWithin.attach hp hempty hdepth
  refine ⟨hne, free', hwithin, fun q => ?_⟩
  by_cases hq : q = p ++ [b]
  · rw [hq, update_self, h.eq_none_of_absent hempty, valueAt, if_pos (Or.inr hvalue)]
  · rw [update_of_ne hq, h.values q, valueAt, valueAt, hkeep q]

theorem Stores.detach (h : Stores w page t f free σ) {b : Bool}
    (hq : f (p ++ [b]) ≠ 0) (hleaf : ∀ c, f (p ++ [b] ++ [c]) = 0) :
    Stores w page (t.detach (f (p ++ [b]))) (update f (p ++ [b]) 0)
      (f (p ++ [b]) :: free) (update σ (p ++ [b]) none) := by
  obtain ⟨hkeep, hwithin⟩ := h.toWithin.detach hq hleaf
  refine ⟨hwithin, fun r => ?_⟩
  by_cases hr : r = p ++ [b]
  · rw [hr, update_self, update_self, valueAt, if_pos (Or.inl rfl)]
  · rw [update_of_ne hr, update_of_ne hr, h.values r, valueAt, valueAt,
      hkeep r hr]

/-! ## Removing nodes -/

/-- The deletion takes away one value and the empty nodes above it, no other value. -/
theorem Stores.prune_eq (fuel : Nat) (p : List Bool) (t : RadixTree) (f : List Bool → Nat)
    (free : List Nat) (σ : PrefixMap Bool Word) (h : Stores w page t f free σ) (hp : f p ≠ 0)
    (hroot : p ≠ []) (hleaf : ∀ c, f (p ++ [c]) = 0) (hfuel : p.length ≤ fuel) :
    ∃ t' f' free', prune fuel t (f p) = .ok t' ∧ f' p = 0 ∧ (∀ q, f' q ≠ 0 → f q ≠ 0) ∧
      Stores w page t' f' free' (update σ p none) := by
  induction fuel generalizing p t f free σ with
  | zero => exact absurd (eq_nil_of_length_eq_zero (Nat.le_zero.mp hfuel)) hroot
  | succ fuel ih =>
    cases p using List.reverseRecOn with
    | nil => exact absurd rfl hroot
    | append_singleton p b =>
      have hparent : f p ≠ 0 := h.present hp
      have hcut := h.detach hp hleaf
      have hself : update f (p ++ [b]) 0 p = f p := update_of_ne (by simp) ..
      have hgone : update f (p ++ [b]) 0 (p ++ [b]) = 0 := update_self ..
      have hfewer : ∀ q, update f (p ++ [b]) 0 q ≠ 0 → f q ≠ 0 := by
        intro q hq
        have hne : q ≠ p ++ [b] := fun he => hq (he ▸ hgone)
        rwa [update_of_ne hne] at hq
      rw [prune, h.parent p b hp]
      simp only [if_neg hparent]
      rw [← hself] at hparent
      split
      · exact ⟨_, _, _, rfl, hgone, hfewer, hcut⟩
      rename_i hnochild
      split
      · exact ⟨_, _, _, rfl, hgone, hfewer, hcut⟩
      rename_i hnovalue
      split
      · exact ⟨_, _, _, rfl, hgone, hfewer, hcut⟩
      rename_i hinner
      rw [← hself] at hnochild hnovalue hinner ⊢
      have hnone : update σ (p ++ [b]) none p = none :=
        (hcut.eq_none_iff hparent).mpr (not_not.mp hnovalue)
      obtain ⟨t', f', free', hprune, -, hless, hholds⟩ :=
        ih p _ _ _ _ hcut hparent (fun he => hinner ((hcut.parent_eq_zero_iff hparent).mpr he))
          ((hcut.leaf_iff hparent).mp hnochild)
          (by rw [length_append, length_singleton] at hfuel; omega)
      refine ⟨t', f', free', hprune, not_not.mp fun hq => hless _ hq hgone, fun q hq =>
        hfewer q (hless q hq), ?_⟩
      rwa [update_eq_self_iff.mpr hnone.symm] at hholds

end

end RadixTree

end Nginx.Core
