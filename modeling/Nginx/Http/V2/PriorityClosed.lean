/-
  Http/V2/PriorityClosed.lean --- the nodes of closed streams: how many there are, what
  `h2c->closed_nodes` says of it, and what a push that fails leaves in their queue.

  Every node that was ever allocated is in `streams_index`: it has a stream or is in the
  queue of closed nodes.  So the length of the queue is known from the number of nodes
  and the number of streams, and what an event does to these two is easy to see.
-/
import Mathlib.Data.List.Induction
import Mathlib.Data.List.Nodup
import Nginx.Http.V2.PriorityRuns

set_option autoImplicit false

namespace Nginx.Http.V2

open List Function

open Foundation (Links Parent)
open Nodes (childrenOf childrenUpdate)

variable {c c' : Nodes} {kids kids' : Parent Nat → List Nat} {closed closed' : List Nat}
  {d e n p sid depend : Nat} {exclusive : Bool} {event : NodeEvent}

/-! ## A dependency changes nothing but the tree -/

theorem sameButRanks_childrenUpdate (bound : Nat) (c : Nodes) (n : Nat) :
    SameButRanks c (childrenUpdate bound c n) := by
  induction bound generalizing c n with
  | zero => exact .refl c
  | succ bound ih =>
    have hloop : ∀ (l : List Nat) (c : Nodes), SameButRanks c
        (l.foldl (fun c child =>
          childrenUpdate bound (c.setRank child ((c.nodes n).rank + 1)) child) c) := by
      intro l
      induction l with
      | nil => exact fun c => .refl c
      | cons child l ihl =>
        intro c
        exact ((sameButRanks_setRank c child _).trans (ih _ child)).trans (ihl _)
    rw [childrenUpdate]
    exact hloop _ c

theorem sameButTree_links (c : Nodes) (L : Links QueueCell) :
    SameButTree c { c with links := L } := ⟨rfl, fun _ => rfl⟩

theorem sameButTree_lift (c : Nodes) (e d : Nat) (exclusive : Bool) :
    SameButTree c (c.lift e d exclusive) := by
  unfold Nodes.lift
  lift_lets
  intro c₁ c₂ above c₃ c₄
  have hlinks : SameButTree c c₂ := (sameButTree_links c _).trans (sameButTree_links c₁ _)
  have hrank : SameButTree c c₄ :=
    (hlinks.trans (sameButTree_setParent c₂ d above)).trans
      (sameButRanks_setRank c₃ d _).sameButTree
  split
  · exact hrank
  · exact hrank.trans (sameButRanks_childrenUpdate _ c₄ d).sameButTree

theorem sameButTree_attach (c : Nodes) (e : Nat) (parent : Parent Nat) (exclusive : Bool) :
    SameButTree c (c.attach e parent exclusive) := by
  rw [Nodes.attach]
  have htake : SameButTree c (if exclusive then c.takeChildren e parent else c) := by
    split
    · exact (setParents_spec _ _ c).1.trans (sameButTree_links _ _)
    · exact .refl c
  generalize (if exclusive then c.takeChildren e parent else c) = c₁ at htake ⊢
  have hremove : SameButTree c
    (if (c₁.nodes e).parent ≠ .null then c₁.remove (.queue e) else c₁) := by
    split
    · exact htake.trans (sameButTree_links _ _)
    · exact htake
  generalize (if (c₁.nodes e).parent ≠ .null then c₁.remove (.queue e) else c₁) = c₂ at hremove ⊢
  exact ((hremove.trans (sameButTree_links c₂ _)).trans (sameButTree_setParent _ e parent)).trans
    (sameButRanks_childrenUpdate _ _ e).sameButTree

theorem sameButTree_setDependency (c : Nodes) (e depend : Nat) (exclusive : Bool) :
    SameButTree c (c.setDependency e depend exclusive) := by
  rw [Nodes.setDependency]
  split
  · exact (sameButRanks_setRank c e 1).sameButTree.trans (sameButTree_attach _ e .root _)
  next parent _ =>
  dsimp only
  have hlift : SameButTree c
    (if (c.nodes e).parent ≠ .null ∧ c.comesTo e (c.free + 1) (c.nodes parent).parent = true then
      c.lift e parent exclusive else c) := by
    split
    · exact sameButTree_lift c e parent exclusive
    · exact .refl c
  generalize
    (if (c.nodes e).parent ≠ .null ∧ c.comesTo e (c.free + 1) (c.nodes parent).parent = true then
      c.lift e parent exclusive else c) = c₁ at hlift ⊢
  have hrank := hlift.trans (sameButRanks_setRank c₁ e ((c₁.nodes parent).rank + 1)).sameButTree
  generalize c₁.setRank e ((c₁.nodes parent).rank + 1) = c₂ at hrank ⊢
  split
  · exact (hrank.trans (sameButTree_links c₂ _)).trans
      ((sameButTree_links _ _).trans (sameButTree_attach _ e _ exclusive))
  · exact hrank.trans (sameButTree_attach _ e _ exclusive)

/-! ## One node more, or none -/

/-- Every allocated node is in its chain. -/
structure Full (c : Nodes) : Prop where
  positive : 0 < c.free
  live_iff : ∀ n, c.Live n ↔ 0 < n ∧ n < c.free

/-- At most one node more is allocated, when few are closed, and that one is in its chain. -/
structure Grew (c c' : Nodes) : Prop where
  free : c'.free = c.free ∨ c'.free = c.free + 1 ∧ c.closedNodes < 32
  live_iff : ∀ n, c'.Live n ↔ c.Live n ∨ c.free ≤ n ∧ n < c'.free

theorem Grew.full (hg : Grew c c') (hf : Full c) : Full c' where
  positive := by
    have hpositive := hf.positive
    have hfree := hg.free
    omega
  live_iff := fun n => by
    have hpositive := hf.positive
    have hfree := hg.free
    rw [hg.live_iff, hf.live_iff]
    omega

theorem Grew.ofSame (hs : SameIndex c c') (hfree : c'.free = c.free) : Grew c c' where
  free := .inl hfree
  live_iff := fun n => by
    rw [hs.live]
    exact (or_iff_left (by omega)).symm

/-- Nothing is done to the chains, and no stream is closed. -/
structure Keeps (c c' : Nodes) : Prop where
  index : SameIndex c c'
  free : c'.free = c.free
  streams : ∀ n, (c.nodes n).stream = true → (c'.nodes n).stream = true

theorem Keeps.trans {c'' : Nodes} (hk : Keeps c c') (hk' : Keeps c' c'') : Keeps c c'' where
  index := ⟨hk'.index.chains.trans hk.index.chains, hk'.index.mask.trans hk.index.mask,
    fun n => (hk'.index.ids n).trans (hk.index.ids n)⟩
  free := hk'.free.trans hk.free
  streams := fun n hn => hk'.streams n (hk.streams n hn)

theorem SameButTree.keeps (hs : SameButTree c c') : Keeps c c' where
  index := hs.sameIndex
  free := hs.free
  streams := fun n hn => by
    rw [hs.node n]
    exact hn

theorem SameButNode.keeps (hs : SameButNode e c c')
    (hstream : (c.nodes e).stream = true → (c'.nodes e).stream = true) :
    Keeps c c' where
  index := hs.sameIndex
  free := by rw [hs.rest]
  streams := fun n hn => by
    obtain rfl | hne := eq_or_ne n e
    · exact hstream hn
    · rw [hs.other n hne]
      exact hn

theorem keeps_setWeight (c : Nodes) (e weight : Nat) : Keeps c (c.setWeight e weight) :=
  (sameButNode_setWeight c e weight).keeps fun hn => (weight_setWeight c e weight).2.trans hn

theorem keeps_links (c : Nodes) (L : Links QueueCell) (count : Nat) :
    Keeps c { c with links := L, closedNodes := count } :=
  (sameButNode_links c 0 L count).keeps id

theorem keeps_openNode (c : Nodes) (e : Nat) : Keeps c (c.openNode e) := by
  have hstream : ∀ c : Nodes, Keeps c (c.setStream e true) := fun c =>
    (sameButNode_setStream c e true).keeps fun _ => by simp [Nodes.setStream, Nodes.modify]
  rw [Nodes.openNode]
  split
  · exact (keeps_links c _ _).trans (hstream _)
  · exact hstream c

/-- What an event does that closes no stream. -/
structure Opened (c c' : Nodes) : Prop where
  grew : Grew c c'
  streams : ∀ n, (c.nodes n).stream = true → (c'.nodes n).stream = true

theorem Keeps.opened (hk : Keeps c c') : Opened c c' := ⟨.ofSame hk.index hk.free, hk.streams⟩

theorem Opened.keeps {c'' : Nodes} (ho : Opened c c') (hk : Keeps c' c'') : Opened c c'' where
  grew := by
    refine ⟨?_, fun n => ?_⟩
    · rw [hk.free]
      exact ho.grew.free
    · rw [hk.index.live, hk.free]
      exact ho.grew.live_iff n
  streams := fun n hn => hk.streams n (ho.streams n hn)

theorem Opened.ofAdvanced {lastSid lastPush : Nat}
    (ho : Opened { c with lastSid := lastSid, lastPush := lastPush } c') :
    Opened c c' := ⟨⟨ho.grew.free, ho.grew.live_iff⟩, ho.streams⟩

/-! ## The events -/

theorem getClosedNode_live (h : WellFormed c kids (e :: closed)) :
    c.getClosedNode.2.free = c.free ∧ ∀ n, c.getClosedNode.2.Live n ↔ c.Live n ∧ n ≠ e := by
  have hlive : c.Live e := ((h.closed_iff e id).mp mem_cons_self).1
  have hloose : Tidy c kids ([] ++ e :: closed) (· = e) := h.mono fun _ => False.elim
  have htidy := hloose.dequeue
  obtain ⟨kids', -, -, hreleased⟩ := release_spec htidy.grown hlive (h.hung e hlive id)
  rw [getClosedNode_eq h]
  refine ⟨?_, hreleased.live_iff htidy.indexed⟩
  rw [hreleased.rest]
  rfl

theorem newNode_grew (h : WellFormed c kids closed) (sid : Nat) : Grew c (c.newNode sid).2 := by
  rw [newNode_eq]
  split
  next hfew =>
    have hlive := live_enter (allocate_spare h).1 sid
    refine ⟨.inr ⟨rfl, hfew⟩, fun n => ?_⟩
    rw [hlive, live_allocate h]
    refine or_congr_right ?_
    change n = c.free ↔ c.free ≤ n ∧ n < c.free + 1
    omega
  next hmany =>
    cases closed with
    | nil =>
      rw [h.count] at hmany
      exact absurd (by decide) hmany
    | cons e rest =>
      obtain ⟨heq, ⟨kids', hspare⟩, -⟩ := getClosedNode_spare h
      obtain ⟨hfree, hgone⟩ := getClosedNode_live h
      have hmem : c.Live e := ((h.closed_iff e id).mp mem_cons_self).1
      have hlive := live_enter hspare sid
      rw [← heq] at hlive
      have hback : ∀ n, (c.Live n ∧ n ≠ e) ∨ n = e ↔ c.Live n := fun n => by
        obtain rfl | hne := eq_or_ne n e
        · exact iff_of_true (.inr rfl) hmem
        · rw [or_iff_left hne, and_iff_left hne]
      refine ⟨.inl hfree, fun n => ?_⟩
      have hnone : ¬ (c.free ≤ n ∧ n < c.getClosedNode.2.free) := by omega
      calc (c.getClosedNode.2.enter c.getClosedNode.1 sid).Live n
          ↔ c.getClosedNode.2.Live n ∨ n = c.getClosedNode.1 := by rw [hlive]
        _ ↔ (c.Live n ∧ n ≠ e) ∨ n = e := by rw [hgone, heq]
        _ ↔ c.Live n := hback n
        _ ↔ c.Live n ∨ c.free ≤ n ∧ n < c.getClosedNode.2.free := (or_iff_left hnone).symm

theorem getNodeById_opened (h : WellFormed c kids closed) (sid : Nat) :
    Opened c (c.getNodeById sid).2 := by
  obtain ⟨kids', closed', hobtained⟩ := getNodeById_spec h sid
  refine ⟨?_, fun n hn => (hobtained.kept n hn).2⟩
  rw [Nodes.getNodeById]
  split
  next => exact .ofSame ⟨rfl, rfl, fun _ => rfl⟩ rfl
  next => exact newNode_grew h sid

theorem headers_opened {priority : Option PriorityFields} {refused : Bool}
    (h : WellFormed c kids closed)
    (hstep : c.stateHeaders sid priority refused = some c') : Opened c c' := by
  rw [Nodes.stateHeaders] at hstep
  simp only at hstep
  split at hstep
  next => cases hstep
  next hsid =>
    have hadvance : Keeps c { c with lastSid := sid } :=
      ⟨⟨rfl, rfl, fun _ => rfl⟩, rfl, fun _ => id⟩
    have h₀ : WellFormed { c with lastSid := sid } kids closed := h.advance (by omega) le_rfl h.even
    split at hstep
    next =>
      cases hstep
      exact hadvance.opened
    split at hstep
    next =>
      cases hstep
      exact hadvance.opened
    have hget : Opened c (({ c with lastSid := sid } : Nodes).getNodeById sid).2 :=
      Opened.ofAdvanced (getNodeById_opened h₀ sid)
    have hopen :=
      hget.keeps (keeps_openNode _ (({ c with lastSid := sid } : Nodes).getNodeById sid).1)
    split at hstep
    next =>
      cases hstep
      exact (hopen.keeps (keeps_setWeight _ _ _)).keeps (sameButTree_setDependency _ _ _ _).keeps
    next =>
      cases hstep
      exact hopen

theorem priority_opened {fields : PriorityFields} (h : WellFormed c kids closed)
    (hstep : c.statePriority sid fields = some c') : Opened c c' := by
  rw [Nodes.statePriority] at hstep
  split at hstep
  next => cases hstep
  split at hstep
  next =>
    cases hstep
    exact ⟨.ofSame ⟨rfl, rfl, fun _ => rfl⟩ rfl, fun _ => id⟩
  have hweight :=
    (getNodeById_opened h sid).keeps (keeps_setWeight _ (c.getNodeById sid).1 fields.weight)
  simp only at hstep
  cases hstep
  refine Opened.keeps ?_ (sameButTree_setDependency _ _ _ _).keeps
  split
  next =>
    split
    next => exact hweight.keeps (keeps_links _ _ _)
    next => exact hweight.keeps (keeps_links _ _ _)
  next => exact hweight

theorem push_opened (h : WellFormed c kids closed) : Opened c (c.pushStream p) := by
  have heven := h.even
  have h₀ := h.advancePush
  set c₀ : Nodes := { c with lastPush := c.lastPush + 2 }
  have hget : Opened c (c₀.getNodeById (c.lastPush + 2)).2 :=
    Opened.ofAdvanced (getNodeById_opened h₀ (c.lastPush + 2))
  set e := (c₀.getNodeById (c.lastPush + 2)).1
  have hopen := (hget.keeps (keeps_openNode _ e)).keeps (keeps_setWeight _ e defaultWeight)
  exact hopen.keeps (sameButTree_setDependency _ e _ false).keeps

theorem close_grew (c : Nodes) (e : Nat) : Grew c (c.closeStream e) := by
  have hsame : SameButNode e c (c.closeStream e) :=
    (sameButNode_setStream c e false).trans (sameButNode_links _ e _ _)
  refine .ofSame hsame.sameIndex ?_
  rw [hsame.rest]

theorem step_grew (h : WellFormed c kids closed) (hstep : c.step event = some c') :
    Grew c c' ∧ ((∀ n, event ≠ .close n) → Opened c c') := by
  cases event with
  | headers sid priority refused =>
    have hopened := headers_opened h hstep
    exact ⟨hopened.grew, fun _ => hopened⟩
  | priority sid fields =>
    have hopened := priority_opened h hstep
    exact ⟨hopened.grew, fun _ => hopened⟩
  | push parent =>
    rw [Nodes.step] at hstep
    split at hstep
    next =>
      cases hstep
      have hopened := @push_opened c kids closed parent h
      exact ⟨hopened.grew, fun _ => hopened⟩
    next => cases hstep
  | close node =>
    rw [Nodes.step] at hstep
    split at hstep
    next =>
      cases hstep
      exact ⟨close_grew c node, fun hclose => absurd rfl (hclose node)⟩
    next => cases hstep

/-! ## The count -/

namespace Nodes

/-- How many nodes have been allocated. -/
def allocated (c : Nodes) : Nat := c.free - 1

/-- How many streams are open. -/
def opened (c : Nodes) : Nat := (List.range c.free).countP fun n => (c.nodes n).stream

/-- `closed_nodes` is the number of nodes in the queue `closed`. -/
def CountsClosed (c : Nodes) : Prop := c.closedNodes = (c.queued .closed).length

end Nodes

theorem length_le_of_rings (hr : Rings c.links c.Live kids closed)
    (hfree : ∀ n ∈ closed, n < c.free) :
    closed.length ≤ c.free := by
  have hsub : closed ⊆ List.range c.free := fun n hn => mem_range.mpr (hfree n hn)
  simpa using (subperm_of_subset hr.closed_nodup hsub).length_le

theorem queued_closed_of_rings (hr : Rings c.links c.Live kids closed)
    (hfree : ∀ n ∈ closed, n < c.free) :
    c.queued .closed = closed := by
  have hlength := length_le_of_rings hr hfree
  rw [Nodes.queued, hr.closed.elements (by rw [length_map]; omega), map_map]
  exact map_id _

theorem WellFormed.queued_closed (h : WellFormed c kids closed) : c.queued .closed = closed :=
  queued_closed_of_rings h.grown.rings fun n hn => h.grown.free n ((h.closed_iff n id).mp hn).1

theorem WellFormed.countsClosed_iff (h : WellFormed c kids closed) :
    c.CountsClosed ↔ closed.length < 256 := by
  rw [Nodes.CountsClosed, h.queued_closed, h.count]
  omega

theorem WellFormed.census (h : WellFormed c kids closed) (hf : Full c) :
    closed.length + c.opened + 1 = c.free := by
  have hzero : (c.nodes 0).stream = false := by
    by_contra hopen
    rw [Bool.not_eq_false] at hopen
    exact absurd ((hf.live_iff 0).mp (h.streams 0 hopen).1).1 (lt_irrefl 0)
  have hnotmem : 0 ∉ closed := fun hmem =>
    absurd ((hf.live_iff 0).mp ((h.closed_iff 0 id).mp hmem).1).1 (lt_irrefl 0)
  have hperm : (0 :: closed).Perm ((List.range c.free).filter fun n =>
    decide (¬ (c.nodes n).stream = true)) := by
    refine (perm_ext_iff_of_nodup (nodup_cons.mpr ⟨hnotmem, h.grown.rings.closed_nodup⟩)
      (nodup_range.filter _)).mpr fun n => ?_
    rw [mem_cons, mem_filter, mem_range, h.closed_iff n id, hf.live_iff]
    have hpositive := hf.positive
    obtain rfl | hn := eq_zero_or_pos n
    · simp [hzero, hpositive]
    · simp [hn, hn.ne']
  have hsplit := length_eq_countP_add_countP (fun n => (c.nodes n).stream) (l := List.range c.free)
  rw [length_range, countP_eq_length_filter (p := fun n => decide ¬ (c.nodes n).stream = true),
    ← hperm.length_eq, length_cons] at hsplit
  rw [Nodes.opened]
  omega

theorem Opened.opened_le (ho : Opened c c') : c.opened ≤ c'.opened := by
  have hfree : c.free ≤ c'.free := by
    have hfree := ho.grew.free
    omega
  calc c.opened ≤ (List.range c.free).countP fun n => (c'.nodes n).stream :=
        countP_mono_left fun n _ hn => ho.streams n hn
    _ ≤ c'.opened := (range_sublist.mpr hfree).countP_le

/-- What is known of a state: the number of closed nodes follows from the other two. -/
structure Census (c : Nodes) (closed : List Nat) : Prop where
  formed : ∃ kids, WellFormed c kids closed
  full : Full c

theorem Census.sum (hc : Census c closed) : closed.length + c.opened + 1 = c.free := by
  obtain ⟨kids, h⟩ := hc.formed
  exact h.census hc.full

theorem Census.countsClosed_iff (hc : Census c closed) : c.CountsClosed ↔ closed.length < 256 := by
  obtain ⟨kids, h⟩ := hc.formed
  exact h.countsClosed_iff

theorem Census.queued (hc : Census c closed) : c.queued .closed = closed := by
  obtain ⟨kids, h⟩ := hc.formed
  exact h.queued_closed

theorem start_census (mask : Nat) : Census (Nodes.start mask) [] where
  formed := ⟨_, start_wellFormed mask⟩
  full := ⟨one_pos, fun n => iff_of_false not_mem_nil (by change ¬ (0 < n ∧ n < 1); omega)⟩

theorem close_census (hc : Census c closed) (hstep : c.step (.close n) = some c') :
    ∃ closed', Census c' closed' ∧ closed'.length = closed.length + 1 := by
  obtain ⟨kids, h⟩ := hc.formed
  have hfull := (step_grew h hstep).1.full hc.full
  rw [Nodes.step] at hstep
  split at hstep
  next hn =>
    obtain rfl := Option.some.inj hstep
    exact ⟨closed ++ [n], ⟨⟨kids, closeStream_wellFormed h hn⟩, hfull⟩, length_append⟩
  next => cases hstep

theorem other_census (hc : Census c closed) (hstep : c.step event = some c')
    (hclose : ∀ n, event ≠ .close n) :
    ∃ closed', Census c' closed' ∧ (c.CountsClosed → closed'.length ≤ max closed.length 32) := by
  obtain ⟨kids, h⟩ := hc.formed
  obtain ⟨hgrew, hopened⟩ := step_grew h hstep
  obtain ⟨kids', closed', h'⟩ := (step_advanced h hstep).formed
  have hc' : Census c' closed' := ⟨⟨kids', h'⟩, hgrew.full hc.full⟩
  refine ⟨closed', hc', fun hexact => ?_⟩
  have hle := (hopened hclose).opened_le
  have hlt := hc.countsClosed_iff.mp hexact
  have hcount := h.count
  have hfree := hgrew.free
  have hsum := hc.sum
  have hsum' := hc'.sum
  omega

theorem step_census (hc : Census c closed) (hstep : c.step event = some c') :
    ∃ closed', Census c' closed' := by
  by_cases hclose : ∀ n, event ≠ .close n
  · obtain ⟨closed', hc', -⟩ := other_census hc hstep hclose
    exact ⟨closed', hc'⟩
  · obtain ⟨n, hn⟩ := not_forall.mp hclose
    obtain rfl := not_not.mp hn
    obtain ⟨closed', hc', -⟩ := close_census hc hstep
    exact ⟨closed', hc'⟩

theorem step_allocated (hc : Census c closed) (hstep : c.step event = some c')
    (hexact : c.CountsClosed) :
    c'.allocated ≤ c.allocated ∨ closed.length < 32 ∧ c'.allocated = c.allocated + 1 := by
  obtain ⟨kids, h⟩ := hc.formed
  have hlt := hc.countsClosed_iff.mp hexact
  have hcount := h.count
  have hfree := (step_grew h hstep).1.free
  have hpositive := hc.full.positive
  rw [Nodes.allocated, Nodes.allocated]
  omega

/-! ## Runs -/

theorem run_append (mask : Nat) (events : List NodeEvent) (event : NodeEvent) :
    Nodes.run mask (events ++ [event]) = (Nodes.run mask events).bind fun c => c.step event := by
  rw [Nodes.run, foldlM_append]
  simp [Nodes.run]

theorem run_census {mask : Nat} {events : List NodeEvent} (hrun : Nodes.run mask events = some c) :
    ∃ closed, Census c closed := by
  induction events using List.reverseRecOn generalizing c with
  | nil =>
    obtain rfl := Option.some.inj hrun
    exact ⟨[], start_census mask⟩
  | append_singleton events event ih =>
    rw [run_append] at hrun
    obtain ⟨c₀, hfirst, hstep⟩ := Option.bind_eq_some_iff.mp hrun
    obtain ⟨closed, hc⟩ := ih hfirst
    exact step_census hc hstep

/-- The states of a connection during the events. -/
def Nodes.During (mask : Nat) (events : List NodeEvent) (c : Nodes) : Prop :=
  ∃ past, past <+: events ∧ Nodes.run mask past = some c

/-- A stream is closed while there are 255 closed nodes. -/
def Nodes.FillsUp (mask : Nat) (events : List NodeEvent) : Prop :=
  ∃ past n c, past ++ [.close n] <+: events ∧ Nodes.run mask past = some c ∧
    (c.queued .closed).length = 255

variable {mask bound : Nat} {events past : List NodeEvent}

theorem run_countsClosed (hfew : ¬ Nodes.FillsUp mask events) (hpast : past <+: events)
    (hrun : Nodes.run mask past = some c) : c.CountsClosed := by
  induction past using List.reverseRecOn generalizing c with
  | nil =>
    obtain rfl := Option.some.inj hrun
    exact (start_census mask).countsClosed_iff.mpr (by decide)
  | append_singleton past event ih =>
    rw [run_append] at hrun
    obtain ⟨c₀, hfirst, hstep⟩ := Option.bind_eq_some_iff.mp hrun
    obtain ⟨closed, hc⟩ := run_census hfirst
    have hexact : c₀.CountsClosed := ih ((prefix_append _ _).trans hpast) hfirst
    have hlt := hc.countsClosed_iff.mp hexact
    by_cases hclose : ∀ n, event ≠ .close n
    · obtain ⟨closed', hc', hlength⟩ := other_census hc hstep hclose
      exact hc'.countsClosed_iff.mpr ((hlength hexact).trans_lt (max_lt hlt (by decide)))
    obtain ⟨n, hn⟩ := not_forall.mp hclose
    obtain rfl := not_not.mp hn
    obtain ⟨closed', hc', hlength⟩ := close_census hc hstep
    have hlast : closed.length ≠ 255 := fun hlast =>
      hfew ⟨past, n, c₀, hpast, hfirst, hc.queued ▸ hlast⟩
    exact hc'.countsClosed_iff.mpr (by omega)

theorem run_allocated (hright : ∀ c, Nodes.During mask events c → c.CountsClosed)
    (hopen : ∀ c, Nodes.During mask events c → c.opened ≤ bound) (hpast : past <+: events)
    (hrun : Nodes.run mask past = some c) : c.allocated ≤ bound + 32 := by
  induction past using List.reverseRecOn generalizing c with
  | nil =>
    obtain rfl := Option.some.inj hrun
    exact Nat.zero_le _
  | append_singleton past event ih =>
    rw [run_append] at hrun
    obtain ⟨c₀, hfirst, hstep⟩ := Option.bind_eq_some_iff.mp hrun
    have hpast₀ : past <+: events := (prefix_append _ _).trans hpast
    obtain ⟨closed, hc⟩ := run_census hfirst
    have hle := ih hpast₀ hfirst
    have hsum := hc.sum
    have hbound := hopen c₀ ⟨past, hpast₀, hfirst⟩
    obtain hsame | ⟨hshort, hmore⟩ := step_allocated hc hstep (hright c₀ ⟨past, hpast₀, hfirst⟩)
    · omega
    · rw [hmore, Nodes.allocated]
      omega

/-- `closed_nodes` counts the closed nodes, and so bounds the allocated ones, as long as no
stream is closed while there are 255 of them. -/
theorem closedNodes_count_iff (hrun : Nodes.run mask events = some c) :
    ((∀ c', Nodes.During mask events c' → c'.CountsClosed) ∧
      ∀ bound, (∀ c', Nodes.During mask events c' → c'.opened ≤ bound) →
        ∀ c', Nodes.During mask events c' → c'.allocated ≤ bound + 32) ↔
      ¬ Nodes.FillsUp mask events := by
  constructor
  · rintro ⟨hright, -⟩ ⟨past, n, c₀, ⟨rest, rfl⟩, hpast, hlast⟩
    have hfirst : ∃ c₁, Nodes.run mask (past ++ [.close n]) = some c₁ := by
      rw [Nodes.run, foldlM_append] at hrun
      obtain ⟨c₁, hc₁, -⟩ := Option.bind_eq_some_iff.mp hrun
      exact ⟨c₁, hc₁⟩
    obtain ⟨c₁, hc₁⟩ := hfirst
    have hexact := hright c₁ ⟨_, prefix_append _ _, hc₁⟩
    have hstep : c₀.step (.close n) = some c₁ := by
      rw [run_append, hpast] at hc₁
      exact hc₁
    obtain ⟨closed, hc⟩ := run_census hpast
    obtain ⟨closed', hc', hlength⟩ := close_census hc hstep
    have hlt := hc'.countsClosed_iff.mp hexact
    rw [hc.queued] at hlast
    omega
  · intro hfew
    have hright : ∀ c', Nodes.During mask events c' → c'.CountsClosed := by
      rintro c' ⟨past, hpast, hc'⟩
      exact run_countsClosed hfew hpast hc'
    refine ⟨hright, fun bound hopen => ?_⟩
    rintro c' ⟨past, hpast, hc'⟩
    exact run_allocated hright hopen hpast hc'

/-- Three streams are opened, and two of them closed. -/
def twoClosings : List NodeEvent :=
  [.headers 1 none false, .headers 3 none false, .close 1, .headers 5 none false, .close 2]

theorem closedNodes_count_iff_one : ∃ c, Nodes.run 31 twoClosings = some c ∧
    (∀ c', Nodes.During 31 twoClosings c' → c'.CountsClosed) ∧
    c.closedNodes = 2 ∧ c.allocated = 3 := by
  have hcounts : (Nodes.run 31 twoClosings).map (fun c => (c.closedNodes, c.allocated)) =
      some (2, 3) := by decide
  obtain ⟨c, hrun, hcount⟩ := Option.map_eq_some_iff.mp hcounts
  have hfew : ∀ k, k ≤ 5 → (Nodes.run 31 (twoClosings.take k)).map
      (fun c => (c.queued .closed).length) ≠ some 255 := by decide
  refine ⟨c, hrun, ((closedNodes_count_iff hrun).mpr ?_).1, (Prod.mk.inj hcount).1,
    (Prod.mk.inj hcount).2⟩
  rintro ⟨past, n, c₀, hprefix, hpast, hlast⟩
  have hpast' := (prefix_append past [.close n]).trans hprefix
  refine hfew past.length hpast'.length_le ?_
  rw [← prefix_iff_eq_take.mp hpast', hpast, Option.map_some, hlast]

/-! ## How many streams it takes -/

theorem headers_opens (hc : Census c []) (hodd : sid % 2 = 1) (hnew : c.lastSid < sid) :
    ∃ c', c.step (.headers sid none false) = some c' ∧ Census c' [] ∧
      c'.free = c.free + 1 ∧ c'.lastSid = sid := by
  obtain ⟨kids, h⟩ := hc.formed
  have hopen : ∀ n, c.Live n → (c.nodes n).stream = true := fun n hn => by
    by_contra hclosed
    rw [Bool.not_eq_true] at hclosed
    cases (h.closed_iff n id).mpr ⟨hn, hclosed⟩
  set c₀ : Nodes := { c with lastSid := sid } with hc₀
  have hnone : c₀.findNode sid = none := by
    by_contra hfound
    obtain ⟨m, hm⟩ := Option.ne_none_iff_exists'.mp hfound
    have h₀ : WellFormed c₀ kids [] := h.advance hnew.le le_rfl h.even
    obtain ⟨hlive, hid⟩ := findNode_some h₀.indexed hm
    have hid : (c.nodes m).id = sid := hid
    have hold := (h.streams m (hopen m hlive)).2.1 (by rw [hid]; exact hodd)
    omega
  set c₁ : Nodes :=
    ({ c₀ with free := c.free + 1, nodes := update c.nodes c.free .zeroed } : Nodes).enter
    c.free sid with hc₁
  have hget : c₀.getNodeById sid = (c.free, c₁) := by
    have hfew : c₀.closedNodes < 32 := by
      change c.closedNodes < 32
      rw [h.count]
      decide
    rw [Nodes.getNodeById, hnone]
    simp only [newNode_eq, if_pos hfew]
    rfl
  have hself : c₁.nodes c.free = { PriorityNode.zeroed with id := sid } := by
    simp [hc₁, Nodes.enter, Nodes.modify]
  set c₂ := (c₁.openNode c.free).setWeight c.free defaultWeight with hc₂
  have hopened : (c₁.openNode c.free) = c₁.setStream c.free true := by
    rw [Nodes.openNode, if_neg (by rw [hself]; exact not_not.mpr rfl)]
  have hstep : c.step (.headers sid none false) = some (c₂.setDependency c.free 0 false) := by
    have hparent : ((c₁.openNode c.free).nodes c.free).parent = .null := by
      rw [hopened]
      simp [Nodes.setStream, Nodes.modify, hself, PriorityNode.zeroed]
    rw [Nodes.step, Nodes.stateHeaders]
    simp only [Option.map_none, Option.getD_none, ← hc₀, hget]
    rw [if_neg (by omega), if_neg (by omega), if_neg Bool.false_ne_true, if_pos (.inr hparent)]
  have htree := sameButTree_setDependency c₂ c.free 0 false
  have hkept := (keeps_setWeight (c₁.openNode c.free) c.free defaultWeight).trans htree.keeps
  have hfree : (c₂.setDependency c.free 0 false).free = c.free + 1 :=
    hkept.free.trans (keeps_openNode c₁ c.free).free
  refine ⟨_, hstep, ?_, hfree, ?_⟩
  · obtain ⟨closed', hc'⟩ := step_census hc hstep
    obtain ⟨kids', h'⟩ := hc'.formed
    obtain rfl : closed' = [] := eq_nil_iff_forall_not_mem.mpr fun n hn => by
      obtain ⟨hlive, hclosed⟩ := (h'.closed_iff n id).mp hn
      obtain ⟨hgrew, hstreams⟩ := step_grew h hstep
      have hstream : ((c₂.setDependency c.free 0 false).nodes n).stream = true := by
        obtain hold | hnew := (hgrew.live_iff n).mp hlive
        · exact (hstreams fun _ heq => NodeEvent.noConfusion heq).streams n (hopen n hold)
        rw [hfree] at hnew
        obtain rfl : n = c.free := by omega
        refine hkept.streams c.free ?_
        rw [hopened]
        simp [Nodes.setStream, Nodes.modify]
      exact Bool.false_ne_true (hclosed.symm.trans hstream)
    exact hc'
  · rw [htree.rest]
    change (c₁.openNode c.free).lastSid = sid
    rw [hopened]
    rfl

/-- HEADERS frames for this many streams. -/
def openings (k : Nat) : List NodeEvent := (List.range k).map fun i =>
    .headers (2 * i + 1) none false

/-- Each of these streams is closed. -/
def closings (k : Nat) : List NodeEvent := ((List.range k).map (· + 1)).map .close

theorem openings_run (mask k : Nat) :
    ∃ c, Nodes.run mask (openings k) = some c ∧ Census c [] ∧ c.free = k + 1 ∧
    c.lastSid ≤ 2 * k := by
  induction k with
  | zero => exact ⟨Nodes.start mask, rfl, start_census mask, rfl, le_rfl⟩
  | succ k ih =>
    obtain ⟨c, hrun, hc, hfree, hsid⟩ := ih
    obtain ⟨c', hstep, hc', hfree', hsid'⟩ := @headers_opens c (2 * k + 1) hc (by omega) (by omega)
    refine ⟨c', ?_, hc', by omega, by omega⟩
    rw [openings, range_succ, map_append, map_singleton, run_append, ← openings, hrun]
    exact hstep

theorem closings_run (h : WellFormed c kids closed) {l : List Nat} (hnodup : l.Nodup)
    (hopen : ∀ n ∈ l, (c.nodes n).stream = true) :
    ∃ c', (l.map .close).foldlM Nodes.step c = some c' ∧ WellFormed c' kids (closed ++ l) := by
  induction l generalizing c closed with
  | nil => exact ⟨c, rfl, by rwa [append_nil]⟩
  | cons n l ih =>
    obtain ⟨hn, hnodup⟩ := nodup_cons.mp hnodup
    have hfirst := hopen n mem_cons_self
    have hrest : ∀ m ∈ l, ((c.closeStream n).nodes m).stream = true := fun m hm => by
      have hne : m ≠ n := fun heq => hn (heq ▸ hm)
      have hsame : (c.closeStream n).nodes m = c.nodes m := update_of_ne hne ..
      rw [hsame]
      exact hopen m (mem_cons_of_mem n hm)
    obtain ⟨c', hrun, h'⟩ := ih (closeStream_wellFormed h hfirst) hnodup hrest
    refine ⟨c', ?_, by rwa [← append_cons] at h'⟩
    rw [map_cons, foldlM_cons, Nodes.step, if_pos hfirst]
    exact hrun

/-- 256 streams are open at once, and then all are closed. -/
theorem not_countsClosed_256 : ∃ c, Nodes.run 31 (openings 256 ++ closings 256) = some c ∧
    c.closedNodes = 0 ∧ (c.queued .closed).length = 256 ∧ ¬ c.CountsClosed := by
  obtain ⟨c, hrun, hc, hfree, -⟩ := openings_run 31 256
  obtain ⟨kids, h⟩ := hc.formed
  have hopen : ∀ n ∈ (List.range 256).map (· + 1), (c.nodes n).stream = true := fun n hn => by
    obtain ⟨i, hi, rfl⟩ := mem_map.mp hn
    have hlt := mem_range.mp hi
    by_contra hclosed
    rw [Bool.not_eq_true] at hclosed
    cases (h.closed_iff (i + 1) id).mpr ⟨(hc.full.live_iff _).mpr (by omega), hclosed⟩
  obtain ⟨c', hrun', h'⟩ :=
    closings_run h (List.Nodup.map (fun i j heq => Nat.succ.inj heq) nodup_range) hopen
  have hqueued := h'.queued_closed
  have hcount := h'.count
  rw [nil_append] at hqueued hcount
  rw [length_map, length_range] at hcount
  have hlength : (c'.queued .closed).length = 256 := by rw [hqueued, length_map, length_range]
  refine ⟨c', ?_, hcount, hlength, ?_⟩
  · rw [Nodes.run] at hrun ⊢
    rw [foldlM_append, hrun]
    exact hrun'
  · rw [Nodes.CountsClosed, hcount, hlength]
    decide

/-! ## A push that fails -/

namespace Nodes

/-- What follows a node in its chain: `node->index`. -/
def follows (chain : List Nat) (node : Nat) : List Nat := (chain.dropWhile (· ≠ node)).tail

/-- `ngx_http_v2_push_stream` when `ngx_http_v2_create_stream` fails. -/
def pushStreamFailed (c : Nodes) : Nodes :=
  let c := { c with lastPush := c.lastPush + 2 }
  let (node, c) := c.getNodeById c.lastPush
  if (c.nodes node).parent = .null then
    let i := c.index c.lastPush
    let c := { c with streamsIndex := update c.streamsIndex i (follows (c.streamsIndex i) node) }
    (c.insertTail .closed (.reuse node)).closedMore
  else c

/-- What happens on a connection where a stream that is to be pushed may not be created. -/
inductive PushEvent where
  | event (event : NodeEvent)
  /-- a push for the stream of the node `parent` that fails -/
  | failed (parent : Nat)
  deriving DecidableEq

def stepPush (c : Nodes) : PushEvent → Option Nodes
  | .event event => c.step event
  | .failed parent => if (c.nodes parent).stream then some c.pushStreamFailed else none

def runPushes (mask : Nat) (events : List PushEvent) : Option Nodes :=
  events.foldlM stepPush (start mask)

/-- Each closed node is in its chain and in a queue of children. -/
def Usable (c : Nodes) : Prop := ∀ n ∈ c.queued .closed,
  c.Live n ∧ ∃ h, HasChildren c.Live h ∧ n ∈ c.queued (childrenOf h)

/-- The pushed stream has a node before the push, from a PRIORITY frame. -/
def PushKnown (c : Nodes) : Prop := (c.findNode (c.lastPush + 2)).isSome

end Nodes

theorem not_mem_follows {chain : List Nat} (hnodup : chain.Nodup) (e : Nat) :
    e ∉ Nodes.follows chain e := by
  induction chain with
  | nil => exact not_mem_nil
  | cons n chain ih =>
    obtain ⟨hn, hnodup⟩ := nodup_cons.mp hnodup
    rw [Nodes.follows, dropWhile_cons]
    split
    next => exact ih hnodup
    next heq =>
      obtain rfl : n = e := by simpa using heq
      exact hn

theorem WellFormed.usable (h : WellFormed c kids closed) : c.Usable := fun n hn => by
  rw [h.queued_closed] at hn
  have hlive := ((h.closed_iff n id).mp hn).1
  have hparent : HasChildren c.Live (c.parents n) := h.grown.hangs.hasChildren (h.hung n hlive id)
  refine ⟨hlive, c.parents n, hparent, ?_⟩
  rw [h.grown.queued hparent, h.grown.hangs.mem _ n hparent]

theorem pushStreamFailed_eq {p : Nat × Nodes}
    (hget : ({ c with lastPush := c.lastPush + 2 } : Nodes).getNodeById (c.lastPush + 2) = p) :
    c.pushStreamFailed = if (p.2.nodes p.1).parent = .null then
      (({ p.2 with
        streamsIndex := update p.2.streamsIndex (p.2.index p.2.lastPush)
          (Nodes.follows (p.2.streamsIndex (p.2.index p.2.lastPush)) p.1) } : Nodes).insertTail
        .closed (.reuse p.1)).closedMore
    else p.2 := by
  rw [← hget]
  rfl

theorem pushStreamFailed_known (h : WellFormed c kids closed) (hknown : c.PushKnown) :
    WellFormed c.pushStreamFailed kids closed := by
  have heven := h.even
  have h₀ := h.advancePush
  set c₀ : Nodes := { c with lastPush := c.lastPush + 2 } with hc₀
  obtain ⟨e, he⟩ := Option.isSome_iff_exists.mp hknown
  have hfind : c₀.findNode (c.lastPush + 2) = some e := he
  have hhung : (c₀.nodes e).parent ≠ .null := h₀.hung e (findNode_some h₀.indexed hfind).1 id
  have hget : c₀.getNodeById (c.lastPush + 2) = (e, c₀) := by rw [Nodes.getNodeById, hfind]
  rw [pushStreamFailed_eq hget, if_neg hhung]
  exact h₀

/-- A failed push of a new stream leaves a freed node in the queue. -/
theorem pushStreamFailed_new (h : WellFormed c kids closed) (hnew : ¬ c.PushKnown) :
    ∃ e, e ∈ c.pushStreamFailed.queued .closed ∧ ¬ c.pushStreamFailed.Live e := by
  have heven := h.even
  have h₀ := h.advancePush
  set c₀ : Nodes := { c with lastPush := c.lastPush + 2 } with hc₀
  set sid := c.lastPush + 2 with hsid
  have hnone : c₀.findNode sid = none := Option.not_isSome_iff_eq_none.mp hnew
  obtain ⟨kids', closed', hobtained⟩ := newNode_spec h₀ hnone
  have hself := newNode_self h₀ sid
  have hget : c₀.getNodeById sid = c₀.newNode sid := by rw [Nodes.getNodeById, hnone]
  set e := (c₀.newNode sid).1
  set c₁ := (c₀.newNode sid).2
  have hnull : (c₁.nodes e).parent = .null := by rw [hself]; rfl
  have hpush : c₁.lastPush = sid := hobtained.lastPush
  set i := c₁.index sid with hi
  set c₂ : Nodes :=
    { c₁ with streamsIndex := update c₁.streamsIndex i (Nodes.follows (c₁.streamsIndex i) e) }
    with hc₂
  have hfailed : c.pushStreamFailed = (c₂.insertTail .closed (.reuse e)).closedMore := by
    rw [pushStreamFailed_eq hget, if_pos hnull, hpush]
  have hnot : e ∉ closed' := fun hmem => (hobtained.closed_iff.mp hmem).1 hnull
  have htidy := hobtained.tidy.enqueue hnot
  refine ⟨e, ?_, ?_⟩
  · have hfree : ∀ n ∈ closed' ++ [e], n < c₁.free := fun n hn => by
      obtain hn | hn := mem_append.mp hn
      · have hne : n ≠ e := fun heq => hnot (heq ▸ hn)
        exact hobtained.tidy.grown.free n ((hobtained.tidy.closed_iff n hne).mp hn).1
      · rw [mem_singleton.mp hn]
        exact hobtained.tidy.grown.free e hobtained.live
    have hqueued := queued_closed_of_rings htidy.grown.rings hfree
    have hlinks : c.pushStreamFailed.queued .closed =
      (c₁.insertTail .closed (.reuse e)).closedMore.queued .closed := by
      rw [hfailed]
      rfl
    rw [hlinks, hqueued]
    exact mem_append_right _ mem_cons_self
  · rw [hfailed]
    have hplace : (c₁.nodes e).id = sid := hobtained.id
    change e ∉ update c₁.streamsIndex i (Nodes.follows (c₁.streamsIndex i) e)
      (c₁.index (c₁.nodes e).id)
    rw [hplace, ← hi, update_self]
    exact not_mem_follows (hobtained.tidy.indexed.nodup i) e

theorem pushStreamFailed_usable_iff (h : WellFormed c kids closed) :
    c.pushStreamFailed.Usable ↔ c.PushKnown := by
  constructor
  · intro husable
    by_contra hnew
    obtain ⟨e, hmem, hnot⟩ := pushStreamFailed_new h hnew
    exact hnot (husable e hmem).1
  · exact fun hknown => (pushStreamFailed_known h hknown).usable

theorem runPushes_append (mask : Nat) (events : List Nodes.PushEvent) (event : Nodes.PushEvent) :
    Nodes.runPushes mask (events ++ [event]) = (Nodes.runPushes mask events).bind fun c =>
      c.stepPush event := by
  rw [Nodes.runPushes, foldlM_append]
  simp [Nodes.runPushes]

variable {pushes earlier : List Nodes.PushEvent}

/-- Every push that fails in the run is for a stream that had a node. -/
def Nodes.PushesKnown (mask : Nat) (events : List Nodes.PushEvent) : Prop :=
  ∀ past parent c, past ++ [.failed parent] <+: events →
    Nodes.runPushes mask past = some c → c.PushKnown

/-- The states after a push that failed. -/
def Nodes.AfterFailed (mask : Nat) (events : List Nodes.PushEvent) (c : Nodes) : Prop :=
  ∃ past parent, past ++ [.failed parent] <+: events ∧
    Nodes.runPushes mask (past ++ [.failed parent]) = some c

theorem runPushes_wellFormed (hknown : Nodes.PushesKnown mask pushes) (hpast : earlier <+: pushes)
    (hrun : Nodes.runPushes mask earlier = some c) : ∃ kids closed, WellFormed c kids closed := by
  induction earlier using List.reverseRecOn generalizing c with
  | nil =>
    obtain rfl := Option.some.inj hrun
    exact ⟨_, _, start_wellFormed mask⟩
  | append_singleton earlier event ih =>
    rw [runPushes_append] at hrun
    obtain ⟨c₀, hfirst, hstep⟩ := Option.bind_eq_some_iff.mp hrun
    obtain ⟨kids, closed, h⟩ := ih ((prefix_append _ _).trans hpast) hfirst
    cases event with
    | event event => exact (step_advanced h hstep).formed
    | failed parent =>
      rw [Nodes.stepPush] at hstep
      split at hstep
      next =>
        obtain rfl := Option.some.inj hstep
        exact ⟨kids, closed, pushStreamFailed_known h (hknown earlier parent c₀ hpast hfirst)⟩
      next => cases hstep

/-- The tables are usable after the pushes that fail exactly when these were for streams
that had nodes. -/
theorem failed_pushes_usable_iff (hrun : Nodes.runPushes mask pushes = some c) :
    (∀ c', Nodes.AfterFailed mask pushes c' → c'.Usable) ↔ Nodes.PushesKnown mask pushes := by
  have hstate : ∀ past parent c₀, past ++ [.failed parent] <+: pushes →
    Nodes.runPushes mask past = some c₀ →
      Nodes.AfterFailed mask pushes c₀.pushStreamFailed := by
    rintro past parent c₀ hpast hfirst
    obtain ⟨rest, rfl⟩ := id hpast
    refine ⟨past, parent, hpast, ?_⟩
    rw [Nodes.runPushes, foldlM_append] at hrun
    obtain ⟨c₁, hc₁, -⟩ := Option.bind_eq_some_iff.mp hrun
    have hc₁ : Nodes.runPushes mask (past ++ [.failed parent]) = some c₁ := hc₁
    rw [hc₁]
    rw [runPushes_append, hfirst, Option.bind_some, Nodes.stepPush] at hc₁
    split at hc₁
    next => exact hc₁.symm
    next => cases hc₁
  constructor
  · intro husable past
    -- the pushes before this one left the nodes as they should be
    induction hlength : past.length using Nat.strong_induction_on generalizing past with
    | _ k ih =>
      intro parent c₀ hpast hfirst
      have hearlier : Nodes.PushesKnown mask past := fun past' parent' c' hpast' =>
        ih past'.length (by
          have hle := hpast'.length_le
          simp at hle
          omega) past' rfl parent' c' (hpast'.trans ((prefix_append _ _).trans hpast))
      obtain ⟨kids, closed, h⟩ := runPushes_wellFormed hearlier (prefix_refl past) hfirst
      exact (pushStreamFailed_usable_iff h).mp (husable _ (hstate past parent c₀ hpast hfirst))
  · rintro hknown c' ⟨past, parent, hpast, hc'⟩
    obtain ⟨kids, closed, h⟩ := runPushes_wellFormed hknown hpast hc'
    exact h.usable

/-- A PRIORITY frame for the stream 2, a request, and a push as stream 2 that fails. -/
def knownPush : List Nodes.PushEvent :=
  [.event (.priority 2 ⟨0, 0, 0, 0, 15⟩), .event (.headers 1 none false), .failed 2]

theorem failed_pushes_usable_iff_known : ∃ c, Nodes.runPushes 31 knownPush = some c ∧
    Nodes.AfterFailed 31 knownPush c ∧ ∀ c', Nodes.AfterFailed 31 knownPush c' → c'.Usable := by
  have hsome : (Nodes.runPushes 31 knownPush).isSome = true := by decide
  obtain ⟨c, hrun⟩ := Option.isSome_iff_exists.mp hsome
  have hbefore : (Nodes.runPushes 31 (knownPush.take 2)).map (fun c =>
    (c.findNode (c.lastPush + 2)).isSome) =
      some true := by decide
  refine ⟨c, hrun, ⟨knownPush.take 2, 2, prefix_refl knownPush, hrun⟩,
    (failed_pushes_usable_iff hrun).mpr ?_⟩
  rintro past parent c₀ ⟨rest, heq⟩ hpast
  obtain _ | ⟨first, _ | ⟨second, _ | ⟨third, past⟩⟩⟩ := past
  · cases heq
  · cases heq
  · cases heq
    have hpast : Nodes.runPushes 31 (knownPush.take 2) = some c₀ := hpast
    rw [hpast] at hbefore
    exact Option.some.inj hbefore
  · have hlength := congrArg List.length heq
    simp [knownPush] at hlength

/-- After one request and a push that fails, the node of the push is among the closed ones, but
its chain is empty. -/
theorem not_usable_failedPush : ∃ c,
    Nodes.AfterFailed 31 [.event (.headers 1 none false), .failed 1] c ∧ ¬ c.Usable := by
  have hstate : (Nodes.runPushes 31 [.event (.headers 1 none false), .failed 1]).map (fun c =>
      (c.queued .closed, c.streamsIndex (c.index (c.nodes 2).id))) = some ([2], []) := by decide
  obtain ⟨c, hrun, heq⟩ := Option.map_eq_some_iff.mp hstate
  obtain ⟨hclosed, hchain⟩ : c.queued .closed = [2] ∧
    c.streamsIndex (c.index (c.nodes 2).id) = [] := by
    simpa using heq
  refine ⟨c, ⟨[.event (.headers 1 none false)], 1, prefix_refl _, hrun⟩, fun husable => ?_⟩
  have hlive := (husable 2 (by rw [hclosed]; exact mem_cons_self)).1
  rw [Nodes.Live, hchain] at hlive
  cases hlive

end Nginx.Http.V2
