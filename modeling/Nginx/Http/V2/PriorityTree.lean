/-
  Http/V2/PriorityTree.lean --- the nodes form a tree, and a new dependency keeps
  it one (`ngx_http_v2_set_dependency`).

  First come the links to the parents alone, then the ranks, then the function.
-/
import Nginx.Http.V2.PriorityQueues

set_option autoImplicit false

namespace Nginx.Http.V2

open List Function

open Foundation (Parent Depth Under)
open Nodes (childrenOf)

variable {c c' : Nodes} {live : Nat → Prop} {kids : Parent Nat → List Nat}
  {closed l₁ l₂ : List Nat} {par : Nat → Parent Nat} {e d n m p : Nat} {g h : Parent Nat}
  {exclusive : Bool}

/-! ## Lists of children -/

/-- All the children of `h` become children of `e`. -/
def adopted (par : Nat → Parent Nat) (e : Nat) (h : Parent Nat) (m : Nat) : Parent Nat :=
  if par m = h then .node e else par m

theorem Hangs.adopt (hk : Hangs live kids par) (he : live e) (hh : HasChildren live h)
    (hne : .node e ≠ h) :
    Hangs live (update (update kids h []) (.node e) (kids (.node e) ++ kids h))
      (adopted par e h) := by
  refine ⟨fun x n hx => ?_, fun n p hp => ?_, fun n hn => ?_⟩
  · rw [update_apply, update_apply, adopted]
    split
    next hxe =>
      rw [hxe, mem_append, hk.mem (.node e) n he, hk.mem h n hh]
      split <;> simp_all
    next hxe =>
      split
      next hxh =>
        rw [hxh]
        split <;> simp_all
      next hxh =>
        rw [hk.mem x n hx]
        split
        next heq =>
          rw [heq]
          exact ⟨fun hhx => absurd hhx.symm hxh, fun hex => absurd hex.symm hxe⟩
        next => rfl
  · rw [adopted] at hp
    split at hp
    next =>
      cases hp
      exact he
    next => exact hk.up n p hp
  · rw [adopted] at hn
    split at hn
    next heq =>
      refine hk.alive n ?_
      rw [heq]
      exact hh.ne_null
    next => exact hk.alive n hn

theorem Hangs.detach (hk : Hangs live kids par) (hg : HasChildren live g)
    (hl : kids g = l₁ ++ e :: l₂) (hnodup : (kids g).Nodup) :
    Hangs live (update kids g (l₁ ++ l₂)) (update par e .null) := by
  have he : par e = g := (hk.mem g e hg).mp (by rw [hl]; simp)
  have hrest : ∀ n, n ∈ l₁ ++ l₂ ↔ n ∈ kids g ∧ n ≠ e := fun n => by
    rw [hl] at hnodup ⊢
    have hmid := nodup_cons.mp (perm_middle.nodup_iff.mp hnodup)
    simp only [mem_append, mem_cons] at hmid ⊢
    constructor
    · intro hn
      exact ⟨by tauto, fun heq => hmid.1 (heq ▸ hn)⟩
    · rintro ⟨hn, hne⟩
      tauto
  refine ⟨fun x n hx => ?_, fun n p hp => ?_, fun n hn => ?_⟩
  · rw [update_apply, update_apply]
    split
    next hxg =>
      rw [hrest n, hk.mem g n hg, hxg]
      split
      next heq => exact ⟨fun hn => absurd heq hn.2, fun hnull => absurd hnull.symm hg.ne_null⟩
      next hne => exact and_iff_left hne
    next hxg =>
      rw [hk.mem x n hx]
      split
      next heq =>
        rw [heq, he]
        exact ⟨fun hgx => absurd hgx.symm hxg, fun hnull => absurd hnull.symm hx.ne_null⟩
      next => rfl
  · rw [update_apply] at hp
    split at hp
    next => cases hp
    next => exact hk.up n p hp
  · rw [update_apply] at hn
    split at hn
    next => exact absurd rfl hn
    next => exact hk.alive n hn

theorem Hangs.hang (hk : Hangs live kids par) (hh : HasChildren live h) (he : live e)
    (hnull : par e = .null) (hl : kids h = l₁ ++ l₂) :
    Hangs live (update kids h (l₁ ++ e :: l₂)) (update par e h) := by
  refine ⟨fun x n hx => ?_, fun n p hp => ?_, fun n hn => ?_⟩
  · rw [update_apply, update_apply]
    split
    next hxh =>
      have hmem := hk.mem h n hh
      rw [hl] at hmem
      rw [mem_append, mem_cons, hxh]
      rw [mem_append] at hmem
      split
      next heq => exact ⟨fun _ => rfl, fun _ => .inr (.inl heq)⟩
      next hne => tauto
    next hxh =>
      rw [hk.mem x n hx]
      split
      next heq =>
        rw [heq, hnull]
        exact ⟨fun hnx => absurd hnx.symm hx.ne_null, fun hhx => absurd hhx.symm hxh⟩
      next => rfl
  · rw [update_apply] at hp
    split at hp
    next =>
      rw [hp] at hh
      exact hh
    next => exact hk.up n p hp
  · rw [update_apply] at hn
    split at hn
    next heq => exact heq ▸ he
    next => exact hk.alive n hn

theorem Hangs.not_mem (hk : Hangs live kids par) (hr : Rings c.links live kids closed)
    (hnull : par e = .null) (x : Parent Nat) : e ∉ kids x := by
  intro hmem
  by_cases hx : HasChildren live x
  · exact hx.ne_null (((hk.mem x e hx).mp hmem).symm.trans hnull)
  · rw [hr.idle x hx] at hmem
    cases hmem

/-! ## Links to the parents -/

/-- The links after `e` has come under `h`, with the children of `h` if it is
exclusive. -/
def moved (par : Nat → Parent Nat) (e : Nat) (h : Parent Nat) (exclusive : Bool) :
    Nat → Parent Nat :=
  update (if exclusive then adopted par e h else par) e h

/-- The number of links above a child of `h`. -/
def BelowDepth (par : Nat → Parent Nat) (h : Parent Nat) (k : Nat) : Prop :=
  match h with
  | .null => False
  | .root => k = 1
  | .node d => ∃ j, Depth par d j ∧ k = j + 1

theorem moved_self (par : Nat → Parent Nat) (e : Nat) (h : Parent Nat) (exclusive : Bool) :
    moved par e h exclusive e = h := update_self ..

theorem moved_of_ne (hm : m ≠ e) :
    moved par e h exclusive m = if exclusive = true ∧ par m = h then .node e else par m := by
  rw [moved, update_of_ne hm]
  cases exclusive <;> simp [adopted]

variable {k : Nat}

theorem moved_above {x : Nat} (hd : d ≠ e) (hu : ¬ Under par e d) (hdepth : Depth par d k)
    (hx : x = d ∨ Under par x d) : moved par e (.node d) exclusive x = par x := by
  have hne : x ≠ e := by
    rintro rfl
    obtain heq | hx := hx
    · exact hd heq.symm
    · exact hu hx
  have hnot : ¬ (exclusive = true ∧ par x = .node d) := by
    rintro ⟨-, hp⟩
    obtain rfl | hx := hx
    · exact hdepth.not_under_self (.child hp)
    · exact hdepth.not_under_self (hx.of_child hp)
  rw [moved_of_ne hne, if_neg hnot]

theorem depth_moved_self (hne : h ≠ .node e) (hu : ∀ d, h = .node d → ¬ Under par e d)
    (hk : BelowDepth par h k) : Depth (moved par e h exclusive) e k := by
  cases h with
  | null => exact hk.elim
  | root =>
    rw [show k = 1 from hk]
    exact .root (moved_self ..)
  | node d =>
    obtain ⟨j, hj, rfl⟩ := hk
    have hd : d ≠ e := fun heq => hne (heq ▸ rfl)
    exact .node (moved_self ..) (hj.congr fun x hx => moved_above hd (hu d rfl) hj hx)

theorem exists_depth_moved {j : Nat} (hne : h ≠ .node e)
    (hu : ∀ d, h = .node d → ¬ Under par e d) (hk : BelowDepth par h k) (hm : Depth par m j) :
    ∃ i, Depth (moved par e h exclusive) m i := by
  have he : Depth (moved par e h exclusive) e k := depth_moved_self hne hu hk
  refine hm.exists_of_changed fun x => ?_
  obtain rfl | hx := eq_or_ne x e
  · exact .inr ⟨k, he⟩
  rw [moved_of_ne hx]
  split
  next hchild => exact .inr ⟨k + 1, .node (by rw [moved_of_ne hx, if_pos hchild]) he⟩
  next => exact .inl rfl

theorem under_moved (hm : m ≠ e) (hu : Under par d m) : Under (moved par e (.node d) true) e m := by
  induction hu with
  | @child m hp => exact .child (by rw [moved_of_ne hm, if_pos ⟨rfl, hp⟩])
  | @deeper m p hp _ ih =>
    have hmoved : moved par e (.node d) true m = if par m = .node d then .node e else par m := by
      rw [moved_of_ne hm]
      simp
    rw [hp] at hmoved
    split at hmoved
    next => exact .child hmoved
    next =>
      obtain rfl | hpe := eq_or_ne p e
      · exact .child hmoved
      · exact .deeper hmoved (ih hpe)

/-- The ranks of these nodes are their depths, but for what an exclusive dependency
takes along below `e` later. -/
def RanksReady (par : Nat → Parent Nat) (e : Nat) (h : Parent Nat) (exclusive : Bool)
    (rank : Nat → Nat) : Prop :=
  ∀ m, m ≠ e → par m ≠ .null →
    Depth par m (rank m) ∨ exclusive = true ∧ ∃ d, h = .node d ∧ Under par d m

theorem RanksReady.depth {rank : Nat → Nat} (hrank : RanksReady par e h exclusive rank) (hm : m ≠ e)
    (hnull : par m ≠ .null) (hu : ¬ Under (moved par e h exclusive) e m) :
    Depth par m (rank m) := by
  obtain hdepth | ⟨rfl, d, rfl, hstale⟩ := hrank m hm hnull
  · exact hdepth
  · exact absurd (under_moved hm hstale) hu

theorem moved_eq_of_not_under (hm : m ≠ e) (hu : ¬ Under (moved par e h exclusive) e m) :
    moved par e h exclusive m = par m := by
  have heq := @moved_of_ne par e m h exclusive hm
  split at heq
  next => exact absurd (.child heq) hu
  next => exact heq

theorem RanksReady.other {rank : Nat → Nat} {i : Nat} (hrank : RanksReady par e h exclusive rank)
    (hm : m ≠ e) (hu : ¬ Under (moved par e h exclusive) e m)
    (hdepth : Depth (moved par e h exclusive) m i) : rank m = i := by
  induction hdepth with
  | root hroot =>
    rw [moved_eq_of_not_under hm hu] at hroot
    have hm := hrank.depth hm (by rw [hroot]; exact Parent.root_ne_null) hu
    exact hm.of_root hroot
  | @node m p k hnode hp ih =>
    have hpe : p ≠ e := by
      rintro rfl
      exact hu (.child hnode)
    have hup : ¬ Under (moved par e h exclusive) e p := fun hup => hu (.deeper hnode hup)
    have hnull := hp.ne_null
    rw [moved_eq_of_not_under hpe hup] at hnull
    rw [moved_eq_of_not_under hm hu] at hnode
    obtain ⟨j, hj, hpj⟩ :=
      (hrank.depth hm (by rw [hnode]; exact Parent.node_ne_null _) hu).of_node hnode
    rw [hj, hpj.unique (hrank.depth hpe hnull hup), ih hpe hup]

/-! ## The nodes -/

/-- The links to the parents. -/
def Nodes.parents (c : Nodes) (n : Nat) : Parent Nat := (c.nodes n).parent

/-- Nothing but queues, parents and ranks is different. -/
structure SameButTree (c c' : Nodes) : Prop where
  rest : c' = { c with nodes := c'.nodes, links := c'.links }
  node : ∀ m, c'.nodes m =
    { c.nodes m with parent := (c'.nodes m).parent, rank := (c'.nodes m).rank }

theorem SameButTree.refl (c : Nodes) : SameButTree c c := ⟨rfl, fun _ => rfl⟩

theorem SameButTree.trans {c'' : Nodes} (hs : SameButTree c c') (hs' : SameButTree c' c'') :
    SameButTree c c'' where
  rest := by rw [hs'.rest, hs.rest]
  node := fun m => by rw [hs'.node m, hs.node m]

theorem SameButTree.free (hs : SameButTree c c') : c'.free = c.free := by
  rw [hs.rest]

theorem SameButRanks.sameButTree (hs : SameButRanks c c') : SameButTree c c' where
  rest := by rw [hs.1]
  node := fun m => by rw [hs.2 m]

theorem SameButRanks.parents (hs : SameButRanks c c') : c'.parents = c.parents := by
  funext m
  rw [Nodes.parents, hs.2 m]
  rfl

theorem sameButTree_setParent (c : Nodes) (n : Nat) (q : Parent Nat) :
    SameButTree c (c.setParent n q) := by
  refine ⟨rfl, fun m => ?_⟩
  simp only [Nodes.setParent, Nodes.modify, update_apply]
  split
  next heq => rw [heq]
  next => rfl

theorem parents_setParent (c : Nodes) (n : Nat) (q : Parent Nat) :
    (c.setParent n q).parents = update c.parents n q := by
  funext m
  simp only [Nodes.parents, Nodes.setParent, Nodes.modify, update_apply]
  split <;> rfl

theorem rank_setParent (c : Nodes) (n m : Nat) (q : Parent Nat) :
    ((c.setParent n q).nodes m).rank = (c.nodes m).rank := by
  simp only [Nodes.setParent, Nodes.modify, update_apply]
  split
  next heq => rw [heq]
  next => rfl

theorem setParents_spec (l : List Nat) (q : Parent Nat) (c : Nodes) :
    SameButTree c (l.foldl (fun c child => c.setParent child q) c) ∧
      (l.foldl (fun c child => c.setParent child q) c).links = c.links ∧
      (∀ m, (l.foldl (fun c child => c.setParent child q) c).parents m =
        if m ∈ l then q else c.parents m) ∧
      ∀ m, ((l.foldl (fun c child => c.setParent child q) c).nodes m).rank = (c.nodes m).rank := by
  induction l generalizing c with
  | nil => exact ⟨SameButTree.refl c, rfl, fun m => by simp, fun _ => rfl⟩
  | cons x l ih =>
    obtain ⟨hsame, hlinks, hparents, hranks⟩ := ih (c.setParent x q)
    refine ⟨(sameButTree_setParent c x q).trans hsame, hlinks, fun m => ?_, fun m => ?_⟩
    · rw [foldl_cons, hparents m, parents_setParent, update_apply]
      simp only [mem_cons]
      split <;> split <;> simp_all
    · rw [foldl_cons, hranks m, rank_setParent]

/-- The nodes of a connection are hung up: the state that a dependency starts from and
ends in, but for the ranks. -/
structure Hung (live : Nat → Prop) (kids : Parent Nat → List Nat) (closed : List Nat) (c : Nodes) :
    Prop where
  rings : Rings c.links live kids closed
  hangs : Hangs live kids c.parents
  free : ∀ n, live n → n < c.free

theorem Hung.queued (hc : Hung live kids closed c) (hh : HasChildren live h) :
    c.queued (childrenOf h) = kids h :=
  queued_childrenOf hc.rings hc.hangs hc.free hh

theorem takeChildren_spec (hc : Hung live kids closed c) (he : live e) (hh : HasChildren live h)
    (hne : .node e ≠ h) :
    Hung live (update (update kids h []) (.node e) (kids (.node e) ++ kids h))
        closed (c.takeChildren e h) ∧
      (c.takeChildren e h).parents = adopted c.parents e h ∧
      SameButTree c (c.takeChildren e h) ∧
      ∀ m, ((c.takeChildren e h).nodes m).rank = (c.nodes m).rank := by
  obtain ⟨hsame, hlinks, hparents, hranks⟩ := setParents_spec (kids h) (.node e) c
  have hadopted : (c.takeChildren e h).parents = adopted c.parents e h := by
    funext m
    rw [Nodes.takeChildren, hc.queued hh, adopted]
    simp only [← hc.hangs.mem h m hh]
    exact hparents m
  have hsame' : SameButTree c (c.takeChildren e h) := by
    rw [Nodes.takeChildren, hc.queued hh]
    exact ⟨by rw [hsame.rest], hsame.node⟩
  refine ⟨⟨?_, ?_, ?_⟩, hadopted, hsame', ?_⟩
  · rw [Nodes.takeChildren, hc.queued hh]
    have hadopt := hc.rings.adopt hh he hne
    rw [← hlinks] at hadopt
    exact hadopt
  · rw [hadopted]
    exact hc.hangs.adopt he hh hne
  · rw [hsame'.free]
    exact hc.free
  · rw [Nodes.takeChildren, hc.queued hh]
    exact hranks

theorem Hangs.hasChildren (hk : Hangs live kids par) (hn : par n ≠ .null) :
    HasChildren live (par n) := by
  cases hp : par n with
  | null => exact absurd hp hn
  | root => trivial
  | node p => exact hk.up n p hp

theorem detach_spec (hc : Hung live kids closed c) (hn : c.parents n ≠ .null) :
    ∃ kids', Rings (c.links.remove (.queue n)) live kids' closed ∧
      Hangs live kids' (update c.parents n .null) := by
  have hg := hc.hangs.hasChildren hn
  have hmem := (hc.hangs.mem (c.parents n) n hg).mpr rfl
  obtain ⟨l₁, l₂, hl⟩ := append_of_mem hmem
  exact ⟨_, hc.rings.removeChild hg hl, hc.hangs.detach hg hl (hc.rings.kids_nodup _)⟩

theorem hang_spec (hc : Hung live kids closed c) (he : live e) (hh : HasChildren live h) :
    let c' := ((if (c.nodes e).parent ≠ .null then c.remove (.queue e) else c).insertTail
      (childrenOf h) (.queue e)).setParent e h
    ∃ kids', Hung live kids' closed c' ∧ c'.parents = update c.parents e h := by
  intro c'
  have hparents : c'.parents = update c.parents e h := by
    rw [show c'.parents = _ from parents_setParent _ e h]
    split <;> rfl
  have hstart : ∃ kids', Rings
      (if (c.nodes e).parent ≠ .null then c.remove (.queue e) else c).links live kids' closed ∧
      Hangs live kids' (update c.parents e .null) := by
    split
    next hn => exact detach_spec hc hn
    next hn =>
      have hself : update c.parents e .null = c.parents :=
        update_eq_self_iff.mpr (not_not.mp hn).symm
      rw [hself]
      exact ⟨kids, hc.rings, hc.hangs⟩
  obtain ⟨kids', hr, hk⟩ := hstart
  have hnull : update c.parents e .null e = .null := update_self ..
  have hhang := hk.hang hh he hnull (append_nil (kids' h)).symm
  have hfree : c'.free = c.free := by
    show (if (c.nodes e).parent ≠ .null then c.remove (.queue e) else c).free = c.free
    split <;> rfl
  rw [update_idem] at hhang
  exact ⟨_, ⟨hr.insertChild hh (hk.not_mem hr hnull), by rw [hparents]; exact hhang,
    by rw [hfree]; exact hc.free⟩, hparents⟩

theorem childrenUpdate_depth (hc : Hung live kids closed c) (hn : live n)
    (hdepth : Depth c.parents n (c.nodes n).rank) :
    RanksSet (Depth c.parents) (Under c.parents n) c (Nodes.childrenUpdate (c.free + 1) c n) := by
  have hlive : ∀ {m k}, Depth c.parents m k → ∀ x, x = m ∨ Under c.parents x m → x < c.free :=
    fun hm x hx => by
      refine hc.free x ?_
      obtain rfl | hx := hx
      · exact hc.hangs.alive x hm.ne_null
      · exact hc.hangs.live_of_under hx
  have hrule : RankRule c.parents (Depth c.parents) c.free :=
    ⟨fun p m r hp hr => .node hp hr, fun m r r' => Depth.unique, fun m r hr =>
      hr.le_bound (hlive hr)⟩
  exact childrenUpdate_spec hc.hangs hrule hc.rings hc.free hn hdepth
    (Nat.lt_of_lt_of_le (Nat.lt_succ_self _) (Nat.le_add_right _ _))

/-- The ranks of the nodes. -/
def Nodes.ranks (c : Nodes) (n : Nat) : Nat := (c.nodes n).rank

/-- The nodes of a connection form a tree and have their depths for ranks. -/
structure Grown (live : Nat → Prop) (kids : Parent Nat → List Nat) (closed : List Nat)
    (c : Nodes) : Prop extends Hung live kids closed c where
  depth : ∀ n, c.parents n ≠ .null → Depth c.parents n (c.ranks n)

theorem Hung.sameRanks (hc : Hung live kids closed c) (hs : SameButRanks c c') :
    Hung live kids closed c' :=
  ⟨by rw [hs.links]; exact hc.rings, by rw [hs.parents]; exact hc.hangs,
    by rw [hs.free]; exact hc.free⟩

theorem attach_links (hc : Hung live kids closed c) (he : live e) (hh : HasChildren live h)
    (hne : h ≠ .node e) :
    ∃ kids' c', Hung live kids' closed c' ∧ c'.parents = moved c.parents e h exclusive ∧
      SameButTree c c' ∧ (∀ m, c'.ranks m = c.ranks m) ∧
      c.attach e h exclusive = Nodes.childrenUpdate (c'.free + 1) c' e := by
  have hadopt : ∃ kids₁ c₁, Hung live kids₁ closed c₁ ∧
      c₁.parents = (if exclusive then adopted c.parents e h else c.parents) ∧
      SameButTree c c₁ ∧ (∀ m, c₁.ranks m = c.ranks m) ∧
      c₁ = if exclusive then c.takeChildren e h else c := by
    cases exclusive with
    | false => exact ⟨kids, c, hc, rfl, SameButTree.refl c, fun _ => rfl, rfl⟩
    | true =>
      obtain ⟨hung, hparents, hsame, hranks⟩ := takeChildren_spec hc he hh hne.symm
      exact ⟨_, _, hung, hparents, hsame, hranks, rfl⟩
  obtain ⟨kids₁, c₁, hc₁, hparents₁, hsame₁, hranks₁, heq⟩ := hadopt
  obtain ⟨kids₂, hc₂, hparents₂⟩ := hang_spec hc₁ he hh
  refine ⟨kids₂, _, hc₂, ?_, hsame₁.trans ?_, fun m => ?_, ?_⟩
  · rw [hparents₂, hparents₁, moved]
  · refine SameButTree.trans ?_ (sameButTree_setParent _ e h)
    split <;> exact ⟨rfl, fun _ => rfl⟩
  · rw [Nodes.ranks, rank_setParent, ← hranks₁ m]
    split <;> rfl
  · rw [Nodes.attach, heq]

/-- A node comes under its new parent, and the nodes are a tree again. -/
theorem attach_spec (hc : Hung live kids closed c) (he : live e) (hh : HasChildren live h)
    (hne : h ≠ .node e) (hu : ∀ d, h = .node d → ¬ Under c.parents e d)
    (hrooted : ∀ m, m ≠ e → c.parents m ≠ .null → ∃ j, Depth c.parents m j)
    (hready : RanksReady c.parents e h exclusive c.ranks)
    (hrank : BelowDepth c.parents h (c.ranks e)) :
    ∃ kids', Grown live kids' closed (c.attach e h exclusive) ∧
      (c.attach e h exclusive).parents = moved c.parents e h exclusive ∧
      SameButTree c (c.attach e h exclusive) := by
  obtain ⟨kids', c', hc', hparents, hsame, hranks, heq⟩ :=
    @attach_links c live kids closed e h exclusive hc he hh hne
  have hself : Depth c'.parents e (c'.ranks e) := by
    rw [hparents, hranks]
    exact depth_moved_self hne hu hrank
  have hset := childrenUpdate_depth hc' he hself
  rw [heq]
  have hfinal := hset.same.parents
  refine ⟨kids', ⟨hc'.sameRanks hset.same, fun n hn => ?_⟩, hfinal.trans hparents,
    hsame.trans hset.same.sameButTree⟩
  rw [hfinal] at hn ⊢
  obtain rfl | hne' := eq_or_ne n e
  · exact hset.keep n hself
  by_cases hbelow : Under c'.parents e n
  · exact hset.right n hbelow
  rw [Nodes.ranks, hset.other n hbelow]
  rw [hparents] at hn hbelow ⊢
  have hn' := hn
  rw [moved_eq_of_not_under hne' hbelow] at hn'
  obtain ⟨j, hj⟩ := hrooted n hne' hn'
  obtain ⟨i, hi⟩ : ∃ i, Depth (moved c.parents e h exclusive) n i :=
    exists_depth_moved hne hu hrank hj
  have hrank' := hready.other hne' hbelow hi
  rw [← hranks] at hrank'
  rw [← hrank'] at hi
  exact hi

/-! ## A dependency on a descendant -/

/-- The loop upwards finds out whether the new parent is below the node. -/
theorem comesTo_iff (hdepth : ∀ x, c.parents x ≠ .null → Depth c.parents x (c.ranks x))
    (he : c.parents e ≠ .null) {bound : Nat} (hd : c.parents d ≠ .null)
    (hbound : c.ranks d ≤ bound) :
    c.comesTo e bound (c.parents d) = true ↔ Under c.parents e d := by
  induction bound generalizing d with
  | zero =>
    have hpos := (hdepth d hd).pos
    omega
  | succ bound ih =>
    have hdd := hdepth d hd
    cases hp : c.parents d with
    | null => exact absurd hp hd
    | root => exact iff_of_false Bool.false_ne_true (Under.not_of_root hp)
    | node x =>
      obtain ⟨k, hk, hx⟩ := hdd.of_node hp
      have hxr : c.ranks x = k := (hdepth x hx.ne_null).unique hx
      rw [Under.iff_of_node hp, Nodes.comesTo]
      split
      next hge =>
        split
        next hne =>
          rw [show (c.nodes x).parent = c.parents x from rfl, ih hx.ne_null (by omega)]
          exact (or_iff_right hne).symm
        next heq => exact iff_of_true rfl (.inl (not_not.mp heq))
      next hlt =>
        refine iff_of_false Bool.false_ne_true ?_
        rintro (rfl | hu)
        · exact hlt (le_rfl)
        · exact hlt (le_of_lt (Depth.lt_of_under hu (hdepth e he) (hdepth x hx.ne_null)))

/-- The links after `d`, which is below `e`, has come to the parent of `e`. -/
def lifted (par : Nat → Parent Nat) (e d : Nat) : Nat → Parent Nat :=
  update par d (par e)

theorem lifted_of_ne (hm : m ≠ d) : lifted par e d m = par m := update_of_ne hm ..

theorem lifted_self : lifted par e d d = par e := update_self ..

theorem ne_of_above {j : Nat} (he : Depth par e j) (hd : Depth par d k)
    (hu : Under par e d) {x : Nat}
    (hx : x = e ∨ Under par x e) : x ≠ d := by
  rintro rfl
  obtain rfl | hx := hx
  · exact hd.not_under_self hu
  · exact hd.not_under_self (hx.trans hu)

theorem depth_lifted {j : Nat} (he : Depth par e j) (hd : Depth par d k) (hu : Under par e d) :
    Depth (lifted par e d) e j ∧ Depth (lifted par e d) d j ∧ ¬ Under (lifted par e d) e d := by
  have hself : Depth (lifted par e d) e j :=
    he.congr fun x hx => lifted_of_ne (ne_of_above he hd hu hx)
  have hother : Depth (lifted par e d) d j := by
    have hed : e ≠ d := ne_of_above he hd hu (.inl rfl)
    cases hself with
    | root hp => exact .root (lifted_self.trans ((lifted_of_ne hed).symm.trans hp))
    | node hp hdepth => exact .node (lifted_self.trans ((lifted_of_ne hed).symm.trans hp)) hdepth
  exact ⟨hself, hother, fun hbelow => lt_irrefl j (Depth.lt_of_under hbelow hself hother)⟩

theorem exists_depth_lifted {i j : Nat} (he : Depth par e j) (hd : Depth par d k)
    (hu : Under par e d) (hm : Depth par m i) : ∃ i', Depth (lifted par e d) m i' := by
  refine hm.exists_of_changed fun x => ?_
  obtain rfl | hx := eq_or_ne x d
  · exact .inr ⟨j, (depth_lifted he hd hu).2.1⟩
  · exact .inl (lifted_of_ne hx)

theorem under_lifted (hd : Depth par d k) (hu : Under par d m) :
    Under (lifted par e d) d m := by
  induction hu with
  | @child m hp =>
    have hm : m ≠ d := by
      rintro rfl
      exact hd.not_under_self (.child hp)
    exact .child ((lifted_of_ne hm).trans hp)
  | @deeper m p hp hu ih =>
    have hm : m ≠ d := by
      rintro rfl
      exact hd.not_under_self (.deeper hp hu)
    exact .deeper ((lifted_of_ne hm).trans hp) ih

theorem depth_lifted_other {i : Nat} (hd : Depth par d k) (hm : m ≠ d)
    (hu : ¬ Under (lifted par e d) d m) (hdepth : Depth par m i) : Depth (lifted par e d) m i := by
  refine hdepth.congr fun x hx => lifted_of_ne ?_
  rintro rfl
  obtain heq | hx := hx
  · exact hm heq.symm
  · exact hu (under_lifted hd hx)

theorem setRank_hung (hc : Hung live kids closed c) (n rank : Nat) :
    Hung live kids closed (c.setRank n rank) :=
  hc.sameRanks (sameButRanks_setRank c n rank)

/-- The node to hang below moves up to the place of the one that it was under. -/
theorem lift_links (hc : Grown live kids closed c) (he : c.parents e ≠ .null)
    (hd : c.parents d ≠ .null) (hu : Under c.parents e d) :
    ∃ kids' c', Hung live kids' closed c' ∧ c'.parents = lifted c.parents e d ∧ SameButTree c c' ∧
      (∀ m, c'.ranks m = if m = d then c.ranks e else c.ranks m) ∧
      c.lift e d exclusive =
        if exclusive then c' else Nodes.childrenUpdate (c'.free + 1) c' d := by
  have hde := hc.depth e he
  have hed : e ≠ d := ne_of_above hde (hc.depth d hd) hu (.inl rfl)
  have hh := hc.hangs.hasChildren he
  have hlive := hc.hangs.alive d hd
  obtain ⟨kids₁, hr₁, hk₁⟩ := detach_spec hc.toHung hd
  have hmem : e ∈ kids₁ (c.parents e) :=
    (hk₁.mem _ e hh).mpr (by rw [update_of_ne hed])
  obtain ⟨l₁, l₂, hl⟩ := append_of_mem hmem
  have hnull : update c.parents d .null d = .null := update_self ..
  have hnone := hk₁.not_mem (c := { c with links := c.links.remove (.queue d) }) hr₁ hnull
  have hr₂ := hr₁.insertBehind hh hl hnone
  have hsplit : kids₁ (c.parents e) = (l₁ ++ [e]) ++ l₂ := by rw [hl]; simp
  have hk₂ := hk₁.hang hh hlive hnull hsplit
  set c₂ : Nodes := { c with
    links := (c.links.remove (.queue d)).insertAfter (.queue e) (.queue d) }
  have hparents : (c₂.setParent d (c.parents e)).parents = lifted c.parents e d :=
    parents_setParent c₂ d (c.parents e)
  rw [update_idem, append_assoc, singleton_append] at hk₂
  have hung : Hung live (update kids₁ (c.parents e) (l₁ ++ e :: d :: l₂)) closed
      (c₂.setParent d (c.parents e)) :=
    ⟨hr₂, by rw [hparents]; exact hk₂, hc.free⟩
  -- the rank that `d` gets is that of `e`
  have hrank : (c₂.setParent d (c.parents e)).rankOf (c.parents e) + 1 = c.ranks e := by
    cases hp : c.parents e with
    | null => exact absurd hp he
    | root => exact (hde.of_root hp).symm
    | node p =>
      obtain ⟨j, hj, hpj⟩ := hde.of_node hp
      have hrp : (c₂.nodes p).rank = j := (hc.depth p hpj.ne_null).unique hpj
      rw [hj, Nodes.rankOf, rank_setParent, hrp]
  refine ⟨_, (c₂.setParent d (c.parents e)).setRank d (c.ranks e), setRank_hung hung d _, ?_, ?_,
    fun m => ?_, ?_⟩
  · rw [(sameButRanks_setRank _ d _).parents, hparents]
  · have hlinks : SameButTree c c₂ := ⟨rfl, fun _ => rfl⟩
    exact (hlinks.trans (sameButTree_setParent c₂ d _)).trans
      (sameButRanks_setRank _ d _).sameButTree
  · rw [Nodes.ranks, rank_setRank, rank_setParent]
    rfl
  · rw [← hrank]
    rfl

/-- A descendant of `e` has come beside it; the ranks are right, but for those below
the descendant if the dependency is exclusive. -/
theorem lift_spec (hc : Grown live kids closed c) (he : c.parents e ≠ .null)
    (hd : c.parents d ≠ .null) (hu : Under c.parents e d) :
    ∃ kids', Hung live kids' closed (c.lift e d exclusive) ∧
      (c.lift e d exclusive).parents = lifted c.parents e d ∧
      SameButTree c (c.lift e d exclusive) ∧
      ∀ m, c.parents m ≠ .null →
        Depth (lifted c.parents e d) m ((c.lift e d exclusive).ranks m) ∨
          exclusive = true ∧ Under (lifted c.parents e d) d m := by
  obtain ⟨kids', c', hc', hparents, hsame, hranks, heq⟩ :=
    @lift_links c live kids closed e d exclusive hc he hd hu
  have hde := hc.depth e he
  have hdd := hc.depth d hd
  obtain ⟨-, hself, -⟩ := depth_lifted hde hdd hu
  -- before the loop below `d` the ranks are right but for what is below `d`
  have hother : ∀ m, c.parents m ≠ .null → ¬ Under (lifted c.parents e d) d m →
      Depth (lifted c.parents e d) m (c'.ranks m) := fun m hm hbelow => by
    rw [hranks]
    split
    next hmd => rwa [hmd]
    next hmd => exact depth_lifted_other hdd hmd hbelow (hc.depth m hm)
  rw [heq]
  cases exclusive with
  | true =>
    refine ⟨kids', hc', hparents, hsame, fun m hm => ?_⟩
    by_cases hbelow : Under (lifted c.parents e d) d m
    · exact .inr ⟨rfl, hbelow⟩
    · exact .inl (hother m hm hbelow)
  | false =>
    have hd' : Depth c'.parents d (c'.ranks d) := by
      rw [hparents, hranks, if_pos rfl]
      exact hself
    have hset := childrenUpdate_depth hc' (hc.hangs.alive d hd) hd'
    refine ⟨kids', hc'.sameRanks hset.same, hset.same.parents.trans hparents,
      hsame.trans hset.same.sameButTree, fun m hm => .inl ?_⟩
    rw [hparents] at hset
    by_cases hbelow : Under (lifted c.parents e d) d m
    · exact hset.right m hbelow
    · exact hset.keep m (hother m hm hbelow)

/-! ## The function -/

/-- Everything is ready for `e` to come under `d`. -/
structure Ready (live : Nat → Prop) (kids : Parent Nat → List Nat) (closed : List Nat) (e d : Nat)
    (exclusive : Bool) (c : Nodes) : Prop extends Hung live kids closed c where
  ne : d ≠ e
  ranks : RanksReady c.parents e (.node d) exclusive c.ranks
  rooted : ∀ m, m ≠ e → c.parents m ≠ .null → ∃ j, Depth c.parents m j
  depth : Depth c.parents d (c.ranks d)
  apart : ¬ Under c.parents e d

theorem ready_of_lift (hc : Grown live kids closed c) (he : c.parents e ≠ .null)
    (hd : c.parents d ≠ .null) (hu : Under c.parents e d) :
    ∃ kids', Ready live kids' closed e d exclusive (c.lift e d exclusive) := by
  obtain ⟨kids', hc', hparents, -, hranks⟩ :=
    @lift_spec c live kids closed e d exclusive hc he hd hu
  obtain ⟨-, hself, hapart⟩ := depth_lifted (hc.depth e he) (hc.depth d hd) hu
  have hed : e ≠ d := ne_of_above (hc.depth e he) (hc.depth d hd) hu (.inl rfl)
  have hnull : ∀ m, lifted c.parents e d m ≠ .null → c.parents m ≠ .null := fun m hm => by
    obtain rfl | hmd := eq_or_ne m d
    · exact hd
    · rwa [lifted_of_ne hmd] at hm
  refine ⟨kids', hc', hed.symm, fun m _ hm => ?_, fun m _ hm => ?_, ?_, ?_⟩
  · rw [hparents] at hm ⊢
    exact (hranks m (hnull m hm)).imp_right fun hstale => ⟨hstale.1, d, rfl, hstale.2⟩
  · rw [hparents] at hm ⊢
    exact exists_depth_lifted (hc.depth e he) (hc.depth d hd) hu (hc.depth m (hnull m hm))
  · rw [hparents]
    exact (hranks d hd).resolve_right fun hstale => hself.not_under_self hstale.2
  · rw [hparents]
    exact hapart

theorem ready_of_apart (hc : Grown live kids closed c) (hne : d ≠ e) (hd : c.parents d ≠ .null)
    (hu : ¬ Under c.parents e d) : Ready live kids closed e d exclusive c :=
  ⟨hc.toHung, hne, fun m _ hm => .inl (hc.depth m hm), fun m _ hm => ⟨_, hc.depth m hm⟩,
    hc.depth d hd, hu⟩

/-- What comes behind the loop, in `ngx_http_v2_set_dependency`. -/
def Nodes.dependOn (c : Nodes) (e d : Nat) (exclusive : Bool) : Nodes :=
  let c := c.setRank e ((c.nodes d).rank + 1)
  let c :=
    if (c.nodes d).stream = false then
      (c.remove (.reuse d)).insertTail .closed (.reuse d)
    else c
  c.attach e (.node d) exclusive

theorem reused_spec (hc : Hung live kids closed c) (hd : (c.nodes d).stream = false → d ∈ closed) :
    ∃ closed' c', closed'.Perm closed ∧ Hung live kids closed' c' ∧
      c' = { c with links := c'.links } ∧
      c' = if (c.nodes d).stream = false then
        (c.remove (.reuse d)).insertTail .closed (.reuse d) else c := by
  split
  next hclosed =>
    obtain ⟨l₁, l₂, rfl⟩ := append_of_mem (hd hclosed)
    have hfresh := (nodup_cons.mp (perm_middle.nodup_iff.mp hc.rings.closed_nodup)).1
    refine ⟨l₁ ++ l₂ ++ [d], _, ?_, ?_, rfl, rfl⟩
    · exact (perm_append_singleton d (l₁ ++ l₂)).trans perm_middle.symm
    · exact ⟨hc.rings.removeClosed.insertClosed hfresh, hc.hangs, hc.free⟩
  next => exact ⟨closed, c, List.Perm.refl _, hc, rfl, rfl⟩

/-- The node moves below another one, which is not below it. -/
theorem dependOn_spec (hc : Ready live kids closed e d exclusive c) (he : live e)
    (hd : (c.nodes d).stream = false → d ∈ closed) :
    ∃ kids' closed', closed'.Perm closed ∧ Grown live kids' closed' (c.dependOn e d exclusive) ∧
      (c.dependOn e d exclusive).parents = moved c.parents e (.node d) exclusive ∧
      SameButTree c (c.dependOn e d exclusive) := by
  have hsame₁ := sameButRanks_setRank c e ((c.nodes d).rank + 1)
  have hstream : ((c.setRank e ((c.nodes d).rank + 1)).nodes d).stream = (c.nodes d).stream := by
    rw [hsame₁.2 d]
  obtain ⟨closed', c₂, hperm, hung, hlinks, heq⟩ :=
    reused_spec (setRank_hung hc.toHung e ((c.nodes d).rank + 1)) fun hclosed =>
      hd (hstream ▸ hclosed)
  have hnodes : c₂.nodes = (c.setRank e ((c.nodes d).rank + 1)).nodes := by rw [hlinks]
  have hparents : c₂.parents = c.parents := by
    rw [← hsame₁.parents]
    funext m
    rw [Nodes.parents, hnodes]
    rfl
  have hranks : ∀ m, c₂.ranks m = if m = e then c.ranks d + 1 else c.ranks m := fun m => by
    rw [Nodes.ranks, hnodes, rank_setRank]
    rfl
  have hsame₂ : SameButTree c c₂ :=
    hsame₁.sameButTree.trans ⟨by rw [hlinks], fun m => by rw [hnodes]⟩
  have hlive : live d := hc.hangs.alive d hc.depth.ne_null
  obtain ⟨kids', hgrown, hmoved, hsame⟩ := attach_spec (h := .node d) hung he hlive
    (fun heq => hc.ne (Parent.node.inj heq))
    (fun d' hd' => by
      cases hd'
      rw [hparents]
      exact hc.apart)
    (by rw [hparents]; exact hc.rooted)
    (fun m hm hnull => by
      rw [hparents] at hnull ⊢
      rw [hranks, if_neg hm]
      exact hc.ranks m hm hnull)
    (by
      rw [hparents, hranks, if_pos rfl]
      exact ⟨_, hc.depth, rfl⟩)
  rw [heq] at hgrown hmoved hsame
  rw [heq] at hparents hsame₂
  rw [hparents] at hmoved
  exact ⟨kids', closed', hperm, hgrown, hmoved, hsame₂.trans hsame⟩

theorem moved_ne_null (hh : h ≠ .null) (hm : m ≠ e → par m ≠ .null) :
    moved par e h exclusive m ≠ .null := by
  obtain rfl | hne := eq_or_ne m e
  · rwa [moved_self]
  · rw [moved_of_ne hne]
    split
    next => exact nofun
    next => exact hm hne

theorem attachRoot_spec (hc : Grown live kids closed c) (he : live e) :
    ∃ kids', Grown live kids' closed ((c.setRank e 1).attach e .root exclusive) ∧
      ((c.setRank e 1).attach e .root exclusive).parents = moved c.parents e .root exclusive ∧
      SameButTree c ((c.setRank e 1).attach e .root exclusive) := by
  have hsame := sameButRanks_setRank c e 1
  have hparents : (c.setRank e 1).parents = c.parents := hsame.parents
  have hranks : ∀ m, (c.setRank e 1).ranks m = if m = e then 1 else c.ranks m :=
    fun m => rank_setRank c e 1 m
  obtain ⟨kids', hgrown, hmoved, hsame'⟩ := attach_spec (h := .root) (setRank_hung hc.toHung e 1) he
    trivial nofun nofun
    (by
      rw [hparents]
      exact fun m _ hm => ⟨_, hc.depth m hm⟩)
    (fun m hm hnull => by
      rw [hparents] at hnull ⊢
      rw [hranks, if_neg hm]
      exact .inl (hc.depth m hnull))
    (by
      rw [hranks, if_pos rfl]
      exact rfl)
  rw [hparents] at hmoved
  exact ⟨kids', hgrown, hmoved, hsame.sameButTree.trans hsame'⟩

theorem dependOnNode_spec (hc : Grown live kids closed c) (he : live e) (hne : d ≠ e)
    (hd : c.parents d ≠ .null) (hclosed : (c.nodes d).stream = false → d ∈ closed) :
    let c₁ :=
      if (c.nodes e).parent ≠ .null ∧ c.comesTo e (c.free + 1) (c.nodes d).parent = true then
      c.lift e d exclusive else c
    ∃ kids' closed' par, closed'.Perm closed ∧
      Grown live kids' closed' (c₁.dependOn e d exclusive) ∧
      (c₁.dependOn e d exclusive).parents = moved par e (.node d) exclusive ∧
      SameButTree c (c₁.dependOn e d exclusive) ∧
      (Under c.parents e d ∧ par = lifted c.parents e d ∨
        ¬ Under c.parents e d ∧ par = c.parents) := by
  intro c₁
  have hbound : c.ranks d ≤ c.free + 1 := by
    refine Nat.le_succ_of_le ((hc.depth d hd).le_bound fun x hx => hc.free x ?_)
    obtain rfl | hx := hx
    · exact hc.hangs.alive x hd
    · exact hc.hangs.live_of_under hx
  by_cases hu : Under c.parents e d
  · obtain ⟨j, hj⟩ := Depth.exists_of_under hu (hc.depth d hd)
    have heq : c₁ = c.lift e d exclusive :=
      if_pos ⟨hj.ne_null, (comesTo_iff hc.depth hj.ne_null hd hbound).mpr hu⟩
    obtain ⟨-, -, hparents, hsame, -⟩ :=
      @lift_spec c live kids closed e d exclusive hc hj.ne_null hd hu
    obtain ⟨kids₁, hready⟩ := @ready_of_lift c live kids closed e d exclusive hc hj.ne_null hd hu
    rw [← heq] at hready hparents hsame
    have hstream : (c₁.nodes d).stream = (c.nodes d).stream := by rw [hsame.node d]
    obtain ⟨kids', closed', hperm, hgrown, hmoved, hsame'⟩ :=
      dependOn_spec hready he fun hno => hclosed (hstream ▸ hno)
    rw [hparents] at hmoved
    exact ⟨kids', closed', _, hperm, hgrown, hmoved, hsame.trans hsame', .inl ⟨hu, rfl⟩⟩
  · have heq : c₁ = c := by
      refine if_neg ?_
      rintro ⟨hnull, hcomes⟩
      exact hu ((comesTo_iff hc.depth hnull hd hbound).mp hcomes)
    rw [heq]
    obtain ⟨kids', closed', hperm, hgrown, hmoved, hsame⟩ :=
      dependOn_spec (ready_of_apart hc hne hd hu) he hclosed
    exact ⟨kids', closed', _, hperm, hgrown, hmoved, hsame, .inr ⟨hu, rfl⟩⟩

/-- `ngx_http_v2_set_dependency` keeps the tree, whatever it is told to depend on. -/
theorem setDependency_spec {depend : Nat} (hc : Grown live kids closed c) (he : live e)
    (hfind : ∀ s p, c.findNode s = some p → live p)
    (hhung : ∀ m, live m → m ≠ e → c.parents m ≠ .null)
    (hself : depend ≠ 0 → c.findNode depend ≠ some e)
    (hclosed : ∀ p, live p → p ≠ e → (c.nodes p).stream = false → p ∈ closed) :
    ∃ kids' closed', closed'.Perm closed ∧
      Grown live kids' closed' (c.setDependency e depend exclusive) ∧
      (∀ m, live m → (c.setDependency e depend exclusive).parents m ≠ .null) ∧
      SameButTree c (c.setDependency e depend exclusive) ∧
      ∀ d, depend ≠ 0 → c.findNode depend = some d → Under c.parents e d →
        (c.setDependency e depend exclusive).parents d = c.parents e ∧
          (c.setDependency e depend exclusive).parents e = .node d := by
  rw [Nodes.setDependency]
  split
  next hnone =>
    obtain ⟨kids', hgrown, hmoved, hsame⟩ := attachRoot_spec hc he
    refine ⟨kids', closed, List.Perm.refl _, hgrown, fun m hm => ?_, hsame, fun d hne hd _ => ?_⟩
    · rw [hmoved]
      exact moved_ne_null nofun (hhung m hm)
    · rw [if_pos hne, hd] at hnone
      cases hnone
  next d hsome =>
    have hne : depend ≠ 0 := by
      rintro rfl
      cases hsome
    rw [if_pos hne] at hsome
    have hde : d ≠ e := fun heq => hself hne (heq ▸ hsome)
    have hlive := hfind depend d hsome
    have hd := hhung d hlive hde
    obtain ⟨kids', closed', par, hperm, hgrown, hmoved, hsame, hpar⟩ :=
      dependOnNode_spec hc he hde hd (hclosed d hlive hde)
    refine ⟨kids', closed', hperm, hgrown, fun m hm => ?_, hsame, fun d' _ hd' hu => ?_⟩
    · have hnull : m ≠ e → par m ≠ .null := fun hme => by
        obtain ⟨hu, rfl⟩ | ⟨-, rfl⟩ := hpar
        · obtain rfl | hmd := eq_or_ne m d
          · obtain ⟨j, hj⟩ := Depth.exists_of_under hu (hc.depth m hd)
            rw [lifted_self]
            exact hj.ne_null
          · rw [lifted_of_ne hmd]
            exact hhung m hm hme
        · exact hhung m hm hme
      exact fun heq => moved_ne_null (h := .node d) nofun hnull ((congrFun hmoved m).symm.trans heq)
    · rw [hsome] at hd'
      cases hd'
      obtain ⟨-, rfl⟩ | ⟨hno, -⟩ := hpar
      · have hdown : moved (lifted c.parents e d) e (.node d) exclusive d = c.parents e := by
          have hnot : c.parents e ≠ .node d := fun hp =>
            (hc.depth d hd).not_under_self (hu.of_child hp)
          rw [moved_of_ne hde, lifted_self, if_neg fun hand => hnot hand.2]
        exact ⟨(congrFun hmoved d).trans hdown, (congrFun hmoved e).trans (moved_self ..)⟩
      · exact absurd hu hno

end Nginx.Http.V2
