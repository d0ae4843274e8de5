/-
  Http/V2/PriorityRecycle.lean --- a closed node is taken for another stream, and
  its children come to its parent (`ngx_http_v2_get_closed_node`).
-/
import Mathlib.Algebra.Order.BigOperators.Group.List
import Nginx.Http.V2.PriorityTree

set_option autoImplicit false

namespace Nginx.Http.V2

open List Function

open Foundation (Parent Depth Under)
open Nodes (childrenOf share)

variable {c c' : Nodes} {live : Nat → Prop} {kids : Parent Nat → List Nat}
  {closed l₁ l₂ : List Nat} {par : Nat → Parent Nat} {n m p : Nat} {h : Parent Nat}

/-! ## Weights -/

/-- The weights that RFC 7540 allows. -/
def WeightOk (weight : Nat) : Prop := 1 ≤ weight ∧ weight ≤ 256

theorem weightOk_share {weight total childWeight : Nat} (hw : WeightOk weight)
    (hle : childWeight ≤ total) : WeightOk (share weight total childWeight) := by
  rw [share]
  split
  next => exact ⟨le_refl 1, by decide⟩
  next hne =>
    refine ⟨Nat.one_le_iff_ne_zero.mpr hne, ?_⟩
    calc weight * childWeight / total
        ≤ weight * total / total := Nat.div_le_div_right (Nat.mul_le_mul_left weight hle)
      _ ≤ weight := Nat.div_le_of_le_mul (mul_comm weight total).le
      _ ≤ 256 := hw.2

theorem nodes_handOver (c : Nodes) (n total x : Nat) (q : Parent Nat) (m : Nat) :
    (c.handOver n total q x).nodes m = if m = x then
      { c.nodes x with parent := q
                       weight := share (c.nodes n).weight total (c.nodes x).weight }
    else c.nodes m := by
  simp only [Nodes.handOver, Nodes.setWeight, Nodes.setParent, Nodes.modify, update_apply]
  split
  next => simp
  next => rfl

/-- What the loop over the children does: each gets a new parent and its share. -/
theorem handOvers_spec (q : Parent Nat) (n total : Nat) {l : List Nat} (hnodup : l.Nodup)
    (hn : n ∉ l) (c : Nodes) :
    l.foldl (fun c child => c.handOver n total q child) c = { c with
      nodes := fun m => if m ∈ l then
        { c.nodes m with parent := q
                         weight := share (c.nodes n).weight total (c.nodes m).weight }
      else c.nodes m } := by
  induction l generalizing c with
  | nil => simp
  | cons x l ih =>
    obtain ⟨hx, hnodup⟩ := nodup_cons.mp hnodup
    obtain ⟨hnx, hn⟩ := ne_and_not_mem_of_not_mem_cons hn
    rw [foldl_cons, ih hnodup hn]
    have hrest : c.handOver n total q x = { c with nodes := (c.handOver n total q x).nodes } := rfl
    rw [hrest]
    congr 1
    funext m
    simp only [nodes_handOver, if_neg hnx, mem_cons]
    obtain rfl | hmx := eq_or_ne m x
    · simp [hx]
    · simp [hmx]

/-! ## Links and ranks -/

/-- The links after `n` has gone away. -/
def given (par : Nat → Parent Nat) (n m : Nat) : Parent Nat :=
  if m = n then .null else if par m = .node n then par n else par m

theorem given_self : given par n n = .null := if_pos rfl

theorem given_of_child (hm : par m = .node n) (hne : m ≠ n) : given par n m = par n := by
  rw [given, if_neg hne, if_pos hm]

theorem given_of_other (hm : par m ≠ .node n) (hne : m ≠ n) : given par n m = par m := by
  rw [given, if_neg hne, if_neg hm]

theorem depth_given_other {k : Nat} (hm : m ≠ n) (hu : ¬ Under par n m) (hd : Depth par m k) :
    Depth (given par n) m k := by
  refine hd.congr fun x hx => given_of_other ?_ ?_
  · intro hp
    obtain rfl | hx := hx
    · exact hu (.child hp)
    · exact hu (hx.of_child hp)
  · rintro rfl
    obtain heq | hx := hx
    · exact hm heq.symm
    · exact hu hx

theorem depth_given_child {j : Nat} (hn : Depth par n j) (hp : par m = .node n) (hm : m ≠ n) :
    Depth (given par n) m j := by
  have hgiven := given_of_child hp hm
  cases hn with
  | root hroot => exact .root (hgiven.trans hroot)
  | @node n q k hq hd =>
    have hn := Depth.node hq hd
    have hqn : q ≠ n := by
      rintro rfl
      exact hn.not_under_self (.child hq)
    have hu : ¬ Under par n q := fun hu => hd.not_under_self (.trans (.child hq) hu)
    exact .node (hgiven.trans hq) (depth_given_other hqn hu hd)

/-- The ranks that are right below a node that goes away and has `rank` meanwhile. -/
def RightWithout (par : Nat → Parent Nat) (n rank : Nat) (m r : Nat) : Prop :=
  if m = n then r = rank else Depth (given par n) m r

theorem rankRule_without {bound j : Nat} (hn : Depth par n (j + 1)) (hj : j ≤ bound)
    (hbound : ∀ m r, Depth (given par n) m r → r ≤ bound) :
    RankRule (update par n .null) (RightWithout par n j) bound where
  down := fun p m r hp hr => by
    have hm : m ≠ n := by
      rintro rfl
      rw [update_self] at hp
      cases hp
    rw [update_of_ne hm] at hp
    rw [RightWithout] at hr
    rw [RightWithout, if_neg hm]
    split at hr
    next heq =>
      rw [hr]
      exact depth_given_child hn (heq ▸ hp) hm
    next hne =>
      have hother : par m ≠ .node n := fun hmn => hne (Parent.node.inj (hp.symm.trans hmn))
      exact .node ((given_of_other hother hm).trans hp) hr
  unique := fun m r r' hr hr' => by
    rw [RightWithout] at hr hr'
    split at hr
    next heq =>
      rw [if_pos heq] at hr'
      rw [hr, hr']
    next hne =>
      rw [if_neg hne] at hr'
      exact hr.unique hr'
  le := fun m r hr => by
    rw [RightWithout] at hr
    split at hr
    next => rwa [hr]
    next => exact hbound m r hr

theorem under_update (hn : ¬ Under par n n) (hu : Under par n m) :
    Under (update par n .null) n m := by
  induction hu with
  | @child m hp =>
    have hm : m ≠ n := by
      rintro rfl
      exact hn (.child hp)
    exact .child ((update_of_ne hm ..).trans hp)
  | @deeper m p hp hu ih =>
    have hm : m ≠ n := by
      rintro rfl
      exact hn (.deeper hp hu)
    exact .deeper ((update_of_ne hm ..).trans hp) ih

theorem Hangs.giveUp (hk : Hangs live kids (update par n .null)) (hn : live n)
    (hg : HasChildren live (par n)) (hself : par n ≠ .node n) :
    Hangs (fun m => live m ∧ m ≠ n)
      (update (update kids (.node n) []) (par n) (kids (par n) ++ kids (.node n)))
      (given par n) := by
  have hmem : ∀ h m, HasChildren live h → (m ∈ kids h ↔ m ≠ n ∧ par m = h) := fun h m hh => by
    rw [hk.mem h m hh, update_apply]
    split
    next heq => exact ⟨fun hnull => absurd hnull.symm hh.ne_null, fun hand => absurd heq hand.1⟩
    next hne => exact (and_iff_right hne).symm
  have halive : ∀ m, m ≠ n → par m ≠ .null → live m := fun m hm hnull =>
    hk.alive m (by rwa [update_of_ne hm])
  refine ⟨fun h m hh => ?_, fun m p hp => ?_, fun m hm => ?_⟩
  · have hold : HasChildren live h ∧ h ≠ .node n := by
      cases h with
      | null => exact hh.elim
      | root => exact ⟨trivial, nofun⟩
      | node q => exact ⟨hh.1, fun heq => hh.2 (Parent.node.inj heq)⟩
    rw [update_apply, update_of_ne hold.2]
    split
    next heq =>
      rw [mem_append, hmem _ m hg, hmem (.node n) m hn, heq, given]
      split
      next hmn =>
        refine iff_of_false ?_ fun hnull => absurd hnull.symm hg.ne_null
        rintro (hand | hand)
        · exact hand.1 hmn
        · exact hand.1 hmn
      next hmn =>
        split
        next hchild => exact iff_of_true (.inr ⟨hmn, hchild⟩) rfl
        next hchild =>
          constructor
          · rintro (hand | hand)
            · exact hand.2
            · exact absurd hand.2 hchild
          · exact fun hp => .inl ⟨hmn, hp⟩
    next hne =>
      rw [hmem h m hold.1, given]
      split
      next hmn => exact iff_of_false (fun hand => hand.1 hmn) fun hnull => hh.ne_null hnull.symm
      next hmn =>
        split
        next hchild =>
          refine iff_of_false (fun hand => hold.2 (hand.2.symm.trans hchild)) ?_
          exact fun hp => hne hp.symm
        next => exact and_iff_right hmn
  · rw [given] at hp
    split at hp
    next => cases hp
    next hmn =>
      split at hp
      next hchild =>
        rw [hp] at hg hself
        exact ⟨hg, fun heq => hself (heq ▸ rfl)⟩
      next hchild =>
        refine ⟨hk.up m p (by rwa [update_of_ne hmn]), ?_⟩
        rintro rfl
        exact hchild hp
  · rw [given] at hm
    split at hm
    next => exact absurd rfl hm
    next hmn =>
      split at hm
      next hchild =>
        exact ⟨halive m hmn (by rw [hchild]; exact Parent.node_ne_null n), hmn⟩
      next => exact ⟨halive m hmn hm, hmn⟩

/-! ## The function -/

/-- A chain of `streams_index` without a node. -/
def unindexed (c : Nodes) (n : Nat) : Nat → List Nat :=
  update c.streamsIndex (c.index (c.nodes n).id)
    ((c.streamsIndex (c.index (c.nodes n).id)).erase n)

/-- A node that has gone away is all zero; the others keep everything but their places and
weights, which are allowed ones. -/
structure Released (live : Nat → Prop) (n : Nat) (c c' : Nodes) : Prop where
  rest : c' = { c with nodes := c'.nodes, links := c'.links, streamsIndex := unindexed c n }
  zeroed : c'.nodes n = .zeroed
  same : ∀ m, m ≠ n → (c'.nodes m).id = (c.nodes m).id ∧ (c'.nodes m).stream = (c.nodes m).stream
  weight : (∀ m, live m → WeightOk (c.nodes m).weight) →
    ∀ m, live m → m ≠ n → WeightOk (c'.nodes m).weight

theorem release_links (hc : Grown live kids closed c) (hn : live n) (hp : c.parents n ≠ .null) :
    ∃ kids₁ c₁, Rings c₁.links live kids₁ closed ∧
      Hangs live kids₁ (update c.parents n .null) ∧
      c₁ = { c with
        nodes := fun m => if m ∈ kids₁ (.node n) then
          { c.nodes m with
            parent := c.parents n
            weight := share (c.nodes n).weight
              ((kids₁ (.node n)).map fun x => (c.nodes x).weight).sum (c.nodes m).weight }
          else c.nodes m
        links := c.links.remove (.queue n)
        streamsIndex := unindexed c n } ∧
      c.release n =
        let c₂ := Nodes.childrenUpdate (c₁.free + 1)
          (c₁.setRank n (c₁.rankOf (c.parents n))) n
        { c₂ with links := c₂.links.add (childrenOf (c.parents n)) (.children n) }.modify n
          fun _ => .zeroed := by
  obtain ⟨kids₁, hr, hk⟩ := detach_spec hc.toHung hp
  set c₀ := ({ c with streamsIndex := unindexed c n } : Nodes).remove (.queue n) with hc₀
  have hqueued : c₀.queued (.children n) = kids₁ (.node n) :=
    queued_childrenOf (h := .node n) hr hk hc.free hn
  have hnot : n ∉ kids₁ (.node n) := fun hmem => by
    have hself := (hk.mem (.node n) n hn).mp hmem
    rw [update_self] at hself
    cases hself
  have hloop := handOvers_spec (c.parents n) n
    ((kids₁ (.node n)).map fun x => (c.nodes x).weight).sum (hr.kids_nodup (.node n)) hnot c₀
  refine ⟨kids₁, _, hr, hk, rfl, ?_⟩
  unfold Nodes.release
  lift_lets
  intro i c₁ c₂ children weight parent c₃ c₄ c₅
  have hchildren : children = kids₁ (.node n) := hqueued
  have hweight : weight = ((kids₁ (.node n)).map fun x => (c.nodes x).weight).sum := by
    rw [← hchildren]
    rfl
  have hthird : c₃ = children.foldl (fun c child => c.handOver n weight parent child) c₂ := rfl
  rw [hchildren, hweight] at hthird
  have hfourth : c₄ = Nodes.childrenUpdate (c₃.free + 1)
      (c₃.setRank n (c₃.rankOf (c.parents n))) n := rfl
  have hfifth : c₅ = { c₄ with
      links := c₄.links.add (childrenOf (c.parents n)) (.children n) } := rfl
  rw [hfifth, hfourth, hthird.trans hloop]
  rfl

theorem Hangs.depth_le {bound k : Nat} (hk : Hangs live kids par) (hfree : ∀ n, live n → n < bound)
    (hd : Depth par m k) : k ≤ bound := by
  refine hd.le_bound fun x hx => hfree x ?_
  obtain rfl | hx := hx
  · exact hk.alive x hd.ne_null
  · exact hk.live_of_under hx

theorem rankOf_parent {j : Nat} (hc : Grown live kids closed c)
    (hranks : ∀ m, c'.ranks m = c.ranks m) (hd : Depth c.parents n (j + 1)) :
    c'.rankOf (c.parents n) = j := by
  cases hp : c.parents n with
  | null => exact absurd hp hd.ne_null
  | root => exact (Nat.succ.inj (hd.of_root hp)).symm
  | node q =>
    obtain ⟨i, hi, hq⟩ := hd.of_node hp
    obtain rfl := Nat.succ.inj hi
    exact (hranks q).trans ((hc.depth q hq.ne_null).unique hq)

/-- A node leaves the tree and its children go to its parent. -/
theorem release_spec (hc : Grown live kids closed c) (hn : live n) (hp : c.parents n ≠ .null) :
    ∃ kids', Grown (fun m => live m ∧ m ≠ n) kids' closed (c.release n) ∧
      (c.release n).parents = given c.parents n ∧ Released live n c (c.release n) := by
  obtain ⟨kids₁, c₁, hr, hk, hc₁, heq⟩ := release_links hc hn hp
  have hdn := hc.depth n hp
  obtain ⟨j, hj⟩ := Nat.exists_eq_succ_of_ne_zero hdn.pos.ne'
  rw [hj] at hdn
  have hmem : ∀ m, m ∈ kids₁ (.node n) ↔ m ≠ n ∧ c.parents m = .node n := fun m => by
    rw [hk.mem (.node n) m hn, update_apply]
    split
    next hmn => exact iff_of_false (Parent.node_ne_null n).symm fun hand => hand.1 hmn
    next hmn => exact (and_iff_right hmn).symm
  have hranks₁ : ∀ m, c₁.ranks m = c.ranks m := fun m => by
    rw [hc₁, Nodes.ranks]
    simp only
    split <;> rfl
  have hparents₁ : ∀ m, m ≠ n → c₁.parents m = given c.parents n m := fun m hm => by
    rw [hc₁, Nodes.parents, given, if_neg hm]
    simp only [hmem]
    split
    next hand => rw [if_pos hand.2]
    next hnot => rw [if_neg fun hchild => hnot ⟨hm, hchild⟩]; rfl
  have hfree₁ : c₁.free = c.free := by rw [hc₁]
  have hg := hc.hangs.hasChildren hp
  have hself : c.parents n ≠ .node n := fun hloop => hdn.not_under_self (.child hloop)
  have hgiven := hk.giveUp hn hg hself
  rw [rankOf_parent hc hranks₁ hdn] at heq
  have hrule := rankRule_without hdn
    (Nat.le_of_succ_le (hc.hangs.depth_le hc.free hdn))
    fun m r hr => hgiven.depth_le (fun x hx => hc.free x hx.1) hr
  have hrank : ((c₁.setRank n j).nodes n).rank = j := by rw [rank_setRank, if_pos rfl]
  have hset : RanksSet (RightWithout c.parents n j) (Under (update c.parents n .null) n)
      (c₁.setRank n j) (Nodes.childrenUpdate (c₁.free + 1) (c₁.setRank n j) n) :=
    childrenUpdate_spec hk hrule hr
      (by rw [show (c₁.setRank n j).free = c₁.free from rfl, hfree₁]; exact hc.free) hn
      (by rw [hrank, RightWithout, if_pos rfl]) (by omega)
  have hsame := (sameButRanks_setRank c₁ n j).trans hset.same
  set c₂ := Nodes.childrenUpdate (c₁.free + 1) (c₁.setRank n j) n
  have hnodes : ∀ m, m ≠ n → (c.release n).nodes m = c₂.nodes m := fun m hm => by
    rw [heq]
    exact update_of_ne hm ..
  have hzeroed : (c.release n).nodes n = .zeroed := by
    rw [heq]
    exact update_self ..
  have hparents : (c.release n).parents = given c.parents n := by
    funext m
    obtain rfl | hm := eq_or_ne m n
    · rw [Nodes.parents, hzeroed, given_self]
      rfl
    · rw [Nodes.parents, hnodes m hm, hsame.2 m]
      exact hparents₁ m hm
  have hlinks : (c.release n).links = c₁.links.add (childrenOf (c.parents n)) (.children n) := by
    rw [heq, ← hsame.links]
    rfl
  have hfree : (c.release n).free = c.free := by
    rw [heq, ← hfree₁, ← hsame.free]
    rfl
  have hrings := hr.giveUp hg hn hself
  rw [← hlinks] at hrings
  rw [← hparents] at hgiven
  refine ⟨_, ⟨⟨hrings, hgiven, by rw [hfree]; exact fun m hm => hc.free m hm.1⟩, fun m hm => ?_⟩,
    hparents, ?_⟩
  · rw [hparents] at hm ⊢
    have hmn : m ≠ n := by
      rintro rfl
      exact hm given_self
    rw [Nodes.ranks, hnodes m hmn]
    by_cases hu : Under (update c.parents n .null) n m
    · have hright := hset.right m hu
      rwa [RightWithout, if_neg hmn] at hright
    have hnull : c.parents m ≠ .null := by
      rw [given, if_neg hmn] at hm
      split at hm
      next hchild => rw [hchild]; exact Parent.node_ne_null n
      next => exact hm
    have hother : (c₂.nodes m).rank = c.ranks m := by
      rw [hset.other m hu, rank_setRank, if_neg hmn]
      exact hranks₁ m
    rw [hother]
    exact depth_given_other hmn (fun hbelow => hu (under_update hdn.not_under_self hbelow))
      (hc.depth m hnull)
  · refine ⟨?_, hzeroed, fun m hm => ?_, fun hw m hm hmn => ?_⟩
    · obtain ⟨nodes, hN⟩ : ∃ nodes, c₂ = { c₁ with nodes := nodes } := ⟨_, hsame.1⟩
      rw [heq, hN, hc₁]
      rfl
    · rw [hnodes m hm, hsame.2 m, hc₁]
      simp only
      split <;> exact ⟨rfl, rfl⟩
    rw [hnodes m hmn, hsame.2 m, hc₁]
    simp only
    split
    next hchild =>
      exact weightOk_share (hw n hn) (le_sum_of_mem (mem_map.mpr ⟨m, hchild, rfl⟩))
    next => exact hw m hm

end Nginx.Http.V2
