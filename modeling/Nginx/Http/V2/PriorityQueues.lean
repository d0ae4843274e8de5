/-
  Http/V2/PriorityQueues.lean --- the queues that the nodes of streams are in: one
  of children for each parent, and the one of closed nodes; and the ranks of nodes.

  `Rings` says which nodes are in which queue; there is a lemma for each
  operation on the links that `Http/V2/Priority.lean` makes.
-/
import Nginx.Http.V2.Priority

set_option autoImplicit false

namespace Nginx.Http.V2

open List Function

open Foundation (Links Parent Under)
open Nodes (childrenOf)

/-- The root or a node that is there: what has a queue of children. -/
def HasChildren (live : Nat → Prop) : Parent Nat → Prop
  | .null => False
  | .root => True
  | .node n => live n

/-- The cells of a queue of children, its head first. -/
def childCells (kids : Parent Nat → List Nat) (h : Parent Nat) : List QueueCell :=
  childrenOf h :: (kids h).map .queue

/-- The queues hold these children and these closed nodes. -/
structure Rings (L : Links QueueCell) (live : Nat → Prop) (kids : Parent Nat → List Nat)
    (closed : List Nat) : Prop where
  children : ∀ h, HasChildren live h → L.Ring (childrenOf h) ((kids h).map .queue)
  closed : L.Ring .closed (closed.map .reuse)
  once : ∀ h h' n, n ∈ kids h → n ∈ kids h' → h = h'
  idle : ∀ h, ¬ HasChildren live h → kids h = []

variable {L L' : Links QueueCell} {live : Nat → Prop} {kids : Parent Nat → List Nat}
  {closed l₁ l₂ : List Nat} {h h' : Parent Nat} {n m : Nat} {x : QueueCell}

theorem childrenOf_inj (hh : h ≠ .null) (hh' : h' ≠ .null) (heq : childrenOf h = childrenOf h') :
    h = h' := by
  cases h <;> cases h' <;> simp_all [childrenOf]

theorem HasChildren.ne_null (hh : HasChildren live h) : h ≠ .null := by
  rintro rfl
  exact hh

theorem queue_ne_childrenOf (n : Nat) (h : Parent Nat) : QueueCell.queue n ≠ childrenOf h := by
  cases h <;> exact nofun

theorem reuse_ne_childrenOf (n : Nat) (h : Parent Nat) : QueueCell.reuse n ≠ childrenOf h := by
  cases h <;> exact nofun

theorem closed_ne_childrenOf (h : Parent Nat) : QueueCell.closed ≠ childrenOf h := by
  cases h <;> exact nofun

theorem queue_mem_childCells : .queue n ∈ childCells kids h ↔ n ∈ kids h := by
  simp [childCells, queue_ne_childrenOf]

theorem childrenOf_mem_childCells (hh : h ≠ .null) (hh' : h' ≠ .null) :
    childrenOf h ∈ childCells kids h' ↔ h = h' := by
  constructor
  · intro hmem
    obtain heq | hmem := mem_cons.mp hmem
    · exact childrenOf_inj hh hh' heq
    · obtain ⟨n, -, heq⟩ := mem_map.mp hmem
      exact absurd heq (queue_ne_childrenOf n h)
  · rintro rfl
    exact mem_cons_self

theorem Rings.not_mem_of_ne (hr : Rings L live kids closed) (hh : h ≠ .null) (hh' : h' ≠ .null)
    (hne : h ≠ h') (hx : x ∈ childCells kids h) : x ∉ childCells kids h' := by
  obtain rfl | hx := mem_cons.mp hx
  · rw [childrenOf_mem_childCells hh hh']
    exact hne
  · obtain ⟨n, hn, rfl⟩ := mem_map.mp hx
    rw [queue_mem_childCells]
    exact fun hn' => hne (hr.once h h' n hn hn')

theorem not_mem_closed (hx : x ∈ childCells kids h) :
    x ∉ QueueCell.closed :: closed.map .reuse := by
  intro hmem
  obtain rfl | hmem := mem_cons.mp hmem
  · obtain heq | hx := mem_cons.mp hx
    · exact closed_ne_childrenOf h heq
    · obtain ⟨n, -, heq⟩ := mem_map.mp hx
      cases heq
  · obtain ⟨n, -, rfl⟩ := mem_map.mp hmem
    obtain heq | hx := mem_cons.mp hx
    · exact reuse_ne_childrenOf n h heq
    · obtain ⟨m, -, heq⟩ := mem_map.mp hx
      cases heq

/-- The links of a cell are what they were. -/
def SameLinks (L L' : Links QueueCell) (x : QueueCell) : Prop :=
  L'.next x = L.next x ∧ L'.prev x = L.prev x

theorem ring_of_same {hd : QueueCell} {cells : List QueueCell} (hr : L.Ring hd cells)
    (hsame : ∀ x ∈ hd :: cells, SameLinks L L' x) : L'.Ring hd cells :=
  hr.congr (fun x hx => (hsame x hx).1) fun x hx => (hsame x hx).2

theorem Rings.change (hr : Rings L live kids closed) (hh : HasChildren live h) {l : List Nat}
    (hring : L'.Ring (childrenOf h) (l.map .queue))
    (hsame : ∀ x, x ∉ childCells kids h → (∀ n ∈ l, x ≠ .queue n) → SameLinks L L' x)
    (hnew : ∀ n ∈ l, ∀ h', h' ≠ h → n ∉ kids h') :
    Rings L' live (update kids h l) closed := by
  refine ⟨fun h' hh' => ?_, ?_, fun h₁ h₂ n h₁n h₂n => ?_, fun h' hh' => ?_⟩
  · obtain rfl | hne := eq_or_ne h' h
    · rw [update_self]
      exact hring
    rw [update_of_ne hne]
    refine ring_of_same (hr.children h' hh') fun x hx => hsame x ?_ fun n hn heq => ?_
    · exact hr.not_mem_of_ne hh'.ne_null hh.ne_null hne hx
    · rw [heq] at hx
      exact hnew n hn h' hne (queue_mem_childCells.mp hx)
  · refine ring_of_same hr.closed fun x hx => hsame x (fun hmem => not_mem_closed hmem hx) ?_
    rintro n - rfl
    simp at hx
  · rw [update_apply] at h₁n h₂n
    split at h₁n <;> split at h₂n
    next heq heq' => rw [heq, heq']
    next hne => exact absurd h₂n (hnew n h₁n h₂ hne)
    next hne _ => exact absurd h₁n (hnew n h₂n h₁ hne)
    next => exact hr.once h₁ h₂ n h₁n h₂n
  · have hne : h' ≠ h := fun heq => hh' (heq ▸ hh)
    rw [update_of_ne hne]
    exact hr.idle h' hh'

/-! ## Queues of children -/

theorem Rings.removeChild (hr : Rings L live kids closed) (hh : HasChildren live h)
    (hl : kids h = l₁ ++ n :: l₂) :
    Rings (L.remove (.queue n)) live (update kids h (l₁ ++ l₂)) closed := by
  have hring := hr.children h hh
  rw [hl, map_append, map_cons] at hring
  refine hr.change hh ?_ (fun x hx _ => ?_) fun m hm h' hne hmem => hne ?_
  · rw [map_append]
    exact hring.remove
  · rw [childCells, hl, map_append, map_cons] at hx
    exact hring.remove_other hx
  · refine hr.once h' h m hmem ?_
    rw [hl]
    exact mem_append.mpr ((mem_append.mp hm).imp_right (mem_cons_of_mem n))

theorem Rings.insertChild (hr : Rings L live kids closed) (hh : HasChildren live h)
    (hn : ∀ h', n ∉ kids h') :
    Rings (L.insertTail (childrenOf h) (.queue n)) live (update kids h (kids h ++ [n]))
      closed := by
  have hring := hr.children h hh
  have hfree : QueueCell.queue n ∉ childCells kids h := by
    rw [queue_mem_childCells]
    exact hn h
  refine hr.change hh ?_ (fun x hx hxn => ?_) fun m hm h' hne hmem => ?_
  · rw [map_append]
    exact hring.insertTail hfree
  · exact hring.insertTail_other hx (hxn n (mem_append_right _ mem_cons_self))
  · obtain hm | hm := mem_append.mp hm
    · exact hne (hr.once h' h m hmem hm)
    · rw [mem_singleton.mp hm] at hmem
      exact hn h' hmem

theorem Rings.insertBehind (hr : Rings L live kids closed) (hh : HasChildren live h)
    (hl : kids h = l₁ ++ m :: l₂) (hn : ∀ h', n ∉ kids h') :
    Rings (L.insertAfter (.queue m) (.queue n)) live (update kids h (l₁ ++ m :: n :: l₂))
      closed := by
  have hring := hr.children h hh
  have hfree : QueueCell.queue n ∉ childCells kids h := by
    rw [queue_mem_childCells]
    exact hn h
  have hm : QueueCell.queue m ∈ (kids h).map QueueCell.queue := by
    rw [hl]
    simp
  refine hr.change hh ?_ (fun x hx hxn => ?_) fun b hb h' hne hmem => ?_
  · rw [childCells, hl] at hfree
    rw [hl] at hring
    simp only [map_append, map_cons] at hfree hring ⊢
    exact hring.insertAfter hfree
  · exact hring.insertAfter_other hm hx (hxn n (by simp))
  · have hcases : b ∈ kids h ∨ b = n := by
      rw [hl]
      simp only [mem_append, mem_cons] at hb ⊢
      tauto
    obtain hb | rfl := hcases
    · exact hne (hr.once h' h b hmem hb)
    · exact hn h' hmem

theorem Rings.merge {live' : Nat → Prop} {g : Parent Nat} (hr : Rings L live kids closed)
    (hh : HasChildren live h) (hg : HasChildren live g) (hne : h ≠ g)
    (hring : L'.Ring (childrenOf h) ((kids h ++ kids g).map .queue))
    (hempty : HasChildren live' g → L'.Ring (childrenOf g) [])
    (hsame : ∀ x, x ∉ childCells kids h → x ∉ childCells kids g → SameLinks L L' x)
    (hlive : ∀ h', HasChildren live' h' → HasChildren live h')
    (hlost : ∀ h', HasChildren live h' → ¬ HasChildren live' h' → h' = g) :
    Rings L' live' (update (update kids g []) h (kids h ++ kids g)) closed := by
  have hkids : ∀ h' m, m ∈ update (update kids g []) h (kids h ++ kids g) h' →
      h' = h ∧ (m ∈ kids h ∨ m ∈ kids g) ∨ h' ≠ h ∧ h' ≠ g ∧ m ∈ kids h' := fun h' m hm => by
    rw [update_apply, update_apply] at hm
    split at hm
    next heq => exact .inl ⟨heq, mem_append.mp hm⟩
    next hneh =>
      split at hm
      next => cases hm
      next hneg => exact .inr ⟨hneh, hneg, hm⟩
  refine ⟨fun h' hh' => ?_, ?_, fun h₁ h₂ m hm₁ hm₂ => ?_, fun h' hh' => ?_⟩
  · obtain rfl | hneh := eq_or_ne h' h
    · rw [update_self]
      exact hring
    rw [update_of_ne hneh]
    obtain rfl | hneg := eq_or_ne h' g
    · rw [update_self]
      exact hempty hh'
    rw [update_of_ne hneg]
    have hh'' := hlive h' hh'
    refine ring_of_same (hr.children h' hh'') fun x hx => hsame x ?_ ?_
    · exact hr.not_mem_of_ne hh''.ne_null hh.ne_null hneh hx
    · exact hr.not_mem_of_ne hh''.ne_null hg.ne_null hneg hx
  · exact ring_of_same hr.closed fun x hx =>
      hsame x (fun hmem => not_mem_closed hmem hx) fun hmem => not_mem_closed hmem hx
  · obtain ⟨heq₁, hin₁⟩ | ⟨hneh₁, hneg₁, hin₁⟩ := hkids h₁ m hm₁ <;>
      obtain ⟨heq₂, hin₂⟩ | ⟨hneh₂, hneg₂, hin₂⟩ := hkids h₂ m hm₂
    · rw [heq₁, heq₂]
    · obtain hin₁ | hin₁ := hin₁
      · exact absurd (hr.once _ _ m hin₂ hin₁) hneh₂
      · exact absurd (hr.once _ _ m hin₂ hin₁) hneg₂
    · obtain hin₂ | hin₂ := hin₂
      · exact absurd (hr.once _ _ m hin₁ hin₂) hneh₁
      · exact absurd (hr.once _ _ m hin₁ hin₂) hneg₁
    · exact hr.once h₁ h₂ m hin₁ hin₂
  · have hneh : h' ≠ h := by
      rintro rfl
      exact hne (hlost h' hh hh')
    rw [update_of_ne hneh]
    obtain rfl | hneg := eq_or_ne h' g
    · rw [update_self]
    · rw [update_of_ne hneg]
      exact hr.idle h' fun hold => hneg (hlost h' hold hh')

theorem Rings.childCells_disjoint {g : Parent Nat} (hr : Rings L live kids closed)
    (hh : HasChildren live h) (hg : HasChildren live g) (hne : h ≠ g) :
    ∀ x ∈ childCells kids h, x ∉ childCells kids g :=
  fun _ hx => hr.not_mem_of_ne hh.ne_null hg.ne_null hne hx

theorem Rings.adopt (hr : Rings L live kids closed) (hh : HasChildren live h) (hn : live n)
    (hne : .node n ≠ h) :
    Rings ((L.add (.children n) (childrenOf h)).init (childrenOf h)) live
      (update (update kids h []) (.node n) (kids (.node n) ++ kids h)) closed := by
  have hg : HasChildren live (.node n) := hn
  have hring := hr.children (.node n) hg
  have hring' := hr.children h hh
  have hdisjoint := hr.childCells_disjoint hg hh hne
  have hinit : ∀ x, x ≠ childrenOf h →
      SameLinks (L.add (.children n) (childrenOf h))
        ((L.add (.children n) (childrenOf h)).init (childrenOf h)) x := fun x hx =>
    Links.init_other hx
  refine hr.merge hg hh hne ?_ (fun _ => Links.ring_init _ _) (fun x hx hx' => ?_)
    (fun _ => id) fun _ hold hno => absurd hold hno
  · have hmerged := hring.add hring' hdisjoint
    rw [← map_append] at hmerged
    refine ring_of_same hmerged fun x hx => hinit x ?_
    rintro rfl
    obtain heq | hx := mem_cons.mp hx
    · exact hne (childrenOf_inj nofun hh.ne_null heq.symm)
    · obtain ⟨m, -, heq⟩ := mem_map.mp hx
      exact queue_ne_childrenOf m h heq
  · have hxh : x ≠ childrenOf h := fun heq => hx' (heq ▸ mem_cons_self)
    have hadd : SameLinks L (L.add (.children n) (childrenOf h)) x :=
      hring.add_other hring' hdisjoint hx hx'
    exact ⟨(hinit x hxh).1.trans hadd.1, (hinit x hxh).2.trans hadd.2⟩

theorem Rings.giveUp (hr : Rings L live kids closed) (hh : HasChildren live h) (hn : live n)
    (hne : h ≠ .node n) :
    Rings (L.add (childrenOf h) (.children n)) (fun m => live m ∧ m ≠ n)
      (update (update kids (.node n) []) h (kids h ++ kids (.node n))) closed := by
  have hg : HasChildren live (.node n) := hn
  have hring := hr.children h hh
  have hring' := hr.children (.node n) hg
  have hdisjoint := hr.childCells_disjoint hh hg hne
  refine hr.merge hh hg hne ?_ (fun hlost => absurd rfl hlost.2)
    (fun x hx hx' => hring.add_other hring' hdisjoint hx hx') (fun h' hh' => ?_) fun h' hold hno =>
      ?_
  · rw [map_append]
    exact hring.add hring' hdisjoint
  · cases h' with
    | null => exact hh'
    | root => exact hh'
    | node m => exact hh'.1
  cases h' with
  | null => exact hold.elim
  | root => exact absurd trivial hno
  | node m =>
    have hmn : m = n := by
      by_contra hmn
      exact hno ⟨hold, hmn⟩
    rw [hmn]

theorem Rings.newNode (hr : Rings L live kids closed) (hn : ¬ live n) :
    Rings (L.init (.children n)) (fun m => live m ∨ m = n) kids closed := by
  have hother : ∀ x, x ≠ .children n → SameLinks L (L.init (.children n)) x := fun x hx =>
    Links.init_other hx
  refine ⟨fun h hh => ?_, ?_, hr.once, fun h hh => hr.idle h fun hold => hh ?_⟩
  · by_cases heq : h = .node n
    · rw [heq, hr.idle (.node n) hn]
      exact Links.ring_init L _
    have hold : HasChildren live h := by
      cases h with
      | null => exact hh
      | root => exact hh
      | node m => exact hh.resolve_right fun hm => heq (hm ▸ rfl)
    refine ring_of_same (hr.children h hold) fun x hx => hother x ?_
    rintro rfl
    have hmem : childrenOf (.node n) ∈ childCells kids h := hx
    exact heq ((childrenOf_mem_childCells (Parent.node_ne_null n) hold.ne_null).mp hmem).symm
  · refine ring_of_same hr.closed fun x hx => hother x ?_
    rintro rfl
    simp at hx
  · cases h with
    | null => exact hold
    | root => exact hold
    | node m => exact .inl hold

/-! ## The queue of closed nodes -/

theorem Rings.changeClosed (hr : Rings L live kids closed) {l : List Nat}
    (hring : L'.Ring .closed (l.map .reuse))
    (hsame : ∀ x, x ∉ QueueCell.closed :: closed.map .reuse → (∀ n ∈ l, x ≠ .reuse n) →
      SameLinks L L' x) :
    Rings L' live kids l := by
  refine ⟨fun h hh => ?_, hring, hr.once, hr.idle⟩
  refine ring_of_same (hr.children h hh) fun x hx => hsame x (not_mem_closed hx) ?_
  rintro n - rfl
  obtain heq | hx := mem_cons.mp hx
  · exact reuse_ne_childrenOf n h heq
  · simp at hx

theorem Rings.removeClosed (hr : Rings L live kids (l₁ ++ n :: l₂)) :
    Rings (L.remove (.reuse n)) live kids (l₁ ++ l₂) := by
  have hring := hr.closed
  rw [map_append, map_cons] at hring
  refine hr.changeClosed ?_ fun x hx _ => ?_
  · rw [map_append]
    exact hring.remove
  · rw [map_append, map_cons] at hx
    exact hring.remove_other hx

theorem Rings.insertClosed (hr : Rings L live kids closed) (hn : n ∉ closed) :
    Rings (L.insertTail .closed (.reuse n)) live kids (closed ++ [n]) := by
  have hfree : QueueCell.reuse n ∉ QueueCell.closed :: closed.map .reuse := by simpa using hn
  refine hr.changeClosed ?_ fun x hx hxn => ?_
  · rw [map_append]
    exact hr.closed.insertTail hfree
  · exact hr.closed.insertTail_other hx (hxn n (mem_append_right _ mem_cons_self))

theorem Rings.closed_nodup (hr : Rings L live kids closed) : closed.Nodup :=
  List.Pairwise.of_map QueueCell.reuse (fun _ _ hne heq => hne (congrArg _ heq))
    (nodup_cons.mp hr.closed.nodup).2

theorem Rings.kids_nodup (hr : Rings L live kids closed) (h : Parent Nat) : (kids h).Nodup := by
  by_cases hh : HasChildren live h
  · exact List.Pairwise.of_map QueueCell.queue (fun _ _ hne heq => hne (congrArg _ heq))
      (nodup_cons.mp (hr.children h hh).nodup).2
  · rw [hr.idle h hh]
    exact nodup_nil

variable {c c' : Nodes} {live : Nat → Prop} {kids : Parent Nat → List Nat} {closed : List Nat}
  {par : Nat → Parent Nat} {n m p : Nat} {h : Parent Nat}

/-- The lists of children are those of the links to the parents. -/
structure Hangs (live : Nat → Prop) (kids : Parent Nat → List Nat) (par : Nat → Parent Nat) :
    Prop where
  mem : ∀ h n, HasChildren live h → (n ∈ kids h ↔ par n = h)
  up : ∀ n p, par n = .node p → live p
  alive : ∀ n, par n ≠ .null → live n

theorem Hangs.live_of_mem (hk : Hangs live kids par) (hh : HasChildren live h) (hm : m ∈ kids h) :
    live m := by
  refine hk.alive m ?_
  rw [(hk.mem h m hh).mp hm]
  exact hh.ne_null

theorem Hangs.live_of_under (hk : Hangs live kids par) (hu : Under par n m) : live n := by
  induction hu with
  | child hp => exact hk.up _ _ hp
  | deeper _ _ ih => exact ih

theorem queued_childrenOf (hr : Rings c.links live kids closed) (hk : Hangs live kids par)
    (hfree : ∀ n, live n → n < c.free) (hh : HasChildren live h) :
    c.queued (childrenOf h) = kids h := by
  have hlen : (kids h).length ≤ c.free := by
    have hsub : kids h ⊆ List.range c.free := fun m hm =>
      mem_range.mpr (hfree m (hk.live_of_mem hh hm))
    simpa using (subperm_of_subset (hr.kids_nodup h) hsub).length_le
  rw [Nodes.queued, (hr.children h hh).elements (by rw [length_map]; omega), map_map]
  exact map_id _

/-! ## Going down -/

/-- Nothing but ranks is different. -/
def SameButRanks (c c' : Nodes) : Prop :=
  c' = { c with nodes := c'.nodes } ∧
    ∀ m, c'.nodes m = { c.nodes m with rank := (c'.nodes m).rank }

theorem SameButRanks.refl (c : Nodes) : SameButRanks c c := ⟨rfl, fun _ => rfl⟩

theorem SameButRanks.trans {c'' : Nodes} (hs : SameButRanks c c') (hs' : SameButRanks c' c'') :
    SameButRanks c c'' := by
  obtain ⟨heq, hnodes⟩ := hs
  obtain ⟨heq', hnodes'⟩ := hs'
  refine ⟨?_, fun m => ?_⟩
  · rw [heq', heq]
  · rw [hnodes' m, hnodes m]

theorem sameButRanks_setRank (c : Nodes) (n rank : Nat) : SameButRanks c (c.setRank n rank) := by
  refine ⟨rfl, fun m => ?_⟩
  simp only [Nodes.setRank, Nodes.modify, update_apply]
  split
  next heq => rw [heq]
  next => rfl

theorem rank_setRank (c : Nodes) (n rank m : Nat) :
    ((c.setRank n rank).nodes m).rank = if m = n then rank else (c.nodes m).rank := by
  simp only [Nodes.setRank, Nodes.modify, update_apply]
  split <;> rfl

/-- What a rank may be: the rank of the parent is one less, and there is one for each
node. -/
structure RankRule (par : Nat → Parent Nat) (Right : Nat → Nat → Prop) (bound : Nat) : Prop where
  down : ∀ p m r, par m = .node p → Right p r → Right m (r + 1)
  unique : ∀ m r r', Right m r → Right m r' → r = r'
  le : ∀ m r, Right m r → r ≤ bound

/-- The ranks of the nodes in `S` have been set right, and no others have changed. -/
structure RanksSet (Right : Nat → Nat → Prop) (S : Nat → Prop) (c c' : Nodes) : Prop where
  same : SameButRanks c c'
  right : ∀ m, S m → Right m (c'.nodes m).rank
  keep : ∀ m, Right m (c.nodes m).rank → Right m (c'.nodes m).rank
  other : ∀ m, ¬ S m → (c'.nodes m).rank = (c.nodes m).rank

variable {Right : Nat → Nat → Prop} {S S' : Nat → Prop} {bound top rank : Nat}

theorem SameButRanks.links (hs : SameButRanks c c') : c'.links = c.links := by
  rw [hs.1]

theorem SameButRanks.free (hs : SameButRanks c c') : c'.free = c.free := by
  rw [hs.1]

namespace RanksSet

theorem refl (c : Nodes) : RanksSet Right (fun _ => False) c c :=
  ⟨SameButRanks.refl c, fun _ => False.elim, fun _ => id, fun _ _ => rfl⟩

theorem trans {c'' : Nodes} (hs : RanksSet Right S c c') (hs' : RanksSet Right S' c' c'') :
    RanksSet Right (fun m => S m ∨ S' m) c c'' where
  same := hs.same.trans hs'.same
  right := fun m hm => hm.elim (fun h => hs'.keep m (hs.right m h)) (hs'.right m)
  keep := fun m h => hs'.keep m (hs.keep m h)
  other := fun m hm => (hs'.other m fun h => hm (.inr h)).trans (hs.other m fun h => hm (.inl h))

theorem mono (hs : RanksSet Right S c c') (hiff : ∀ m, S m ↔ S' m) : RanksSet Right S' c c' where
  same := hs.same
  right := fun m hm => hs.right m ((hiff m).mpr hm)
  keep := hs.keep
  other := fun m hm => hs.other m fun h => hm ((hiff m).mp h)

theorem setRank (hright : Right n rank) : RanksSet Right (fun m => m = n) c (c.setRank n rank) where
  same := sameButRanks_setRank c n rank
  right := fun m hm => by
    rw [rank_setRank, if_pos hm, hm]
    exact hright
  keep := fun m hm => by
    rw [rank_setRank]
    split
    next heq => rwa [heq]
    next => exact hm
  other := fun m hm => by rw [rank_setRank, if_neg hm]

end RanksSet

/-- `ngx_http_v2_node_children_update` sets the ranks of all the nodes below. -/
theorem childrenUpdate_spec (hk : Hangs live kids par) (hrule : RankRule par Right top)
    (hr : Rings c.links live kids closed) (hfree : ∀ n, live n → n < c.free) (hn : live n)
    (hright : Right n (c.nodes n).rank) (hbound : top < bound + (c.nodes n).rank) :
    RanksSet Right (Under par n) c (Nodes.childrenUpdate bound c n) := by
  induction bound generalizing c n with
  | zero => exact absurd (hrule.le n _ hright) (by omega)
  | succ bound ih =>
    have hqueued : c.queued (.children n) = kids (.node n) :=
      queued_childrenOf (h := .node n) hr hk hfree hn
    have hmem : ∀ x, x ∈ kids (.node n) ↔ par x = .node n := fun x => hk.mem (.node n) x hn
    -- a part of the loop, from any state that differs in ranks
    have hloop : ∀ (l : List Nat) (c' : Nodes), (∀ x ∈ l, x ∈ kids (.node n)) →
        SameButRanks c c' → Right n (c'.nodes n).rank →
        RanksSet Right (fun m => ∃ x ∈ l, m = x ∨ Under par x m) c'
          (l.foldl (fun c child =>
            Nodes.childrenUpdate bound (c.setRank child ((c.nodes n).rank + 1)) child) c') := by
      intro l
      induction l with
      | nil => exact fun c' _ _ _ => (RanksSet.refl c').mono fun m => by simp
      | cons x l ihl =>
        intro c' hl hsame hright'
        have hx := hl x mem_cons_self
        have hset := @RanksSet.setRank c' x Right _ (hrule.down n x _ ((hmem x).mp hx) hright')
        have hsame' := hsame.trans hset.same
        have hrank : ((c'.setRank x ((c'.nodes n).rank + 1)).nodes x).rank =
            (c.nodes n).rank + 1 := by
          rw [rank_setRank, if_pos rfl, hrule.unique n _ _ hright' hright]
        have hcall := @ih (c'.setRank x ((c'.nodes n).rank + 1)) x
          (by rw [hsame'.links]; exact hr) (by rw [hsame'.free]; exact hfree)
          (hk.live_of_mem (h := .node n) hn hx) (hset.right x rfl) (by rw [hrank]; omega)
        have hrest := ihl _ (fun y hy => hl y (mem_cons_of_mem x hy))
          (hsame'.trans hcall.same) (hcall.keep n (hset.keep n hright'))
        refine ((hset.trans hcall).trans hrest).mono fun m => ?_
        simp only [mem_cons, exists_eq_or_imp]
    rw [Nodes.childrenUpdate, hqueued]
    refine (hloop (kids (.node n)) c (fun x hx => hx) (SameButRanks.refl c) hright).mono fun m => ?_
    constructor
    · rintro ⟨x, hx, rfl | hu⟩
      · exact .child ((hmem m).mp hx)
      · exact hu.of_child ((hmem x).mp hx)
    · intro hu
      obtain ⟨x, hp, hcases⟩ := hu.cases_child
      exact ⟨x, (hmem x).mpr hp, hcases⟩

end Nginx.Http.V2
