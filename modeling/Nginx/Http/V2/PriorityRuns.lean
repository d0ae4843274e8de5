/-
  Http/V2/PriorityRuns.lean --- the nodes of a connection are a tree after any
  events: frames, pushed streams, and streams that are closed.
-/
import Nginx.Http.V2.PriorityNodes

set_option autoImplicit false

namespace Nginx.Http.V2

open List Option

open Foundation (Links Parent Depth Under)
open Nodes (childrenOf)

variable {c c' c₀ c₁ : Nodes} {kids kids' : Parent Nat → List Nat} {closed closed' : List Nat}
  {d e n p sid depend : Nat} {exclusive : Bool} {event : NodeEvent}

/-! ## What an event asks for -/

/-- The stream that comes to depend on another one, and that one. -/
def NodeEvent.dependency (c : Nodes) : NodeEvent → Option (Nat × Nat)
  | .headers sid (some fields) false => some (sid, fields.depend)
  | .priority sid fields => some (sid, fields.depend)
  | .push parent => some (c.lastPush + 2, (c.nodes parent).id)
  | _ => none

/-- An event makes the known node `e` depend on the known node `d`. -/
def Nodes.Depends (c : Nodes) (event : NodeEvent) (e d : Nat) : Prop :=
  ∃ sid depend, event.dependency c = some (sid, depend) ∧ depend ≠ 0 ∧
    c.findNode sid = some e ∧ c.findNode depend = some d

/-- What is to be shown of one event. -/
structure Advanced (c c' : Nodes) (event : NodeEvent) : Prop where
  formed : ∃ kids closed, WellFormed c' kids closed
  descendant : ∀ e d, c.Depends event e d → Under c.parents e d →
    c'.parents d = c.parents e ∧ c'.parents e = .node d

theorem WellFormed.not_under_self (h : WellFormed c kids closed) : ¬ Under c.parents n n := by
  intro hu
  exact (h.grown.depth n (h.hung n (h.grown.hangs.live_of_under hu) id)).not_under_self hu

theorem Advanced.ofSelf (h : WellFormed c kids closed)
    (hformed : ∃ kids closed, WellFormed c' kids closed)
    (hself : event.dependency c = some (sid, sid)) : Advanced c c' event := by
  refine ⟨hformed, fun e d hd hu => ?_⟩
  obtain ⟨s, t, heq, -, he, hd⟩ := hd
  rw [hself] at heq
  cases heq
  rw [he] at hd
  cases hd
  exact absurd hu h.not_under_self

theorem Advanced.ofNone (hformed : ∃ kids closed, WellFormed c' kids closed)
    (hnone : event.dependency c = none) : Advanced c c' event := by
  refine ⟨hformed, fun e d hd _ => ?_⟩
  obtain ⟨s, t, heq, -⟩ := hd
  rw [hnone] at heq
  cases heq

theorem Obtained.advanced (ho : Obtained c₀ c₁ kids closed sid e) (hs : SameButNode e c₁ c)
    (ht : Tidy c kids' closed' (· = e)) (hc : e ∈ closed' ↔ (c.nodes e).stream = false)
    (hw : WeightOk (c.nodes e).weight) (hself : depend ≠ sid) (hindex : c₀.findNode = c'.findNode)
    (hparents : c₀.parents = c'.parents)
    (hdep : event.dependency c' = some (sid, depend) ∨ event.dependency c' = none) :
    Advanced c' (c.setDependency e depend exclusive) event := by
  have hlive : c.Live e := by
    rw [hs.sameIndex.live]
    exact ho.live
  have hid : (c.nodes e).id = sid := by
    rw [hs.sameIndex.ids]
    exact ho.id
  obtain ⟨hformed, hdown⟩ :=
    @setDependency_wellFormed c kids' closed' e exclusive depend ht hlive hc hw
    (by rw [hid]; exact hself)
  obtain hdep | hdep := hdep
  swap
  · exact .ofNone hformed hdep
  refine ⟨hformed, fun e' d hd hu => ?_⟩
  obtain ⟨s, t, heq, hne, he, hd⟩ := hd
  rw [hdep] at heq
  cases heq
  rw [← hindex] at he hd
  rw [← hparents] at hu ⊢
  obtain ⟨rfl, rfl⟩ := ho.found e' he
  have hfind : c.findNode depend = some d := by
    rw [hs.sameIndex.findNode]
    exact hd
  have hbelow : Under c.parents e d := by
    rw [hs.parents]
    exact hu
  have hmoved := hdown d hne hfind hbelow
  rwa [hs.parents] at hmoved

/-! ## A stream is opened -/

theorem Obtained.not_open (ho : Obtained c₀ c₁ kids closed sid e) (h : WellFormed c kids' closed')
    (hnodes : c₀.nodes = c.nodes) (hodd : sid % 2 = 1 → c.lastSid < sid)
    (heven : sid % 2 = 0 → c.lastPush < sid) : (c₁.nodes e).stream = false := by
  cases hfind : c₀.findNode sid with
  | none => exact ho.fresh hfind
  | some m =>
    obtain ⟨rfl, rfl⟩ := ho.found m hfind
    by_contra hopen
    rw [Bool.not_eq_false] at hopen
    have hid := ho.id
    rw [hnodes] at hopen hid
    obtain ⟨-, hold⟩ := h.streams e hopen
    rw [hid] at hold
    obtain hpar | hpar := Nat.mod_two_eq_zero_or_one sid
    · exact absurd (hold.2 hpar) (not_le.mpr (heven hpar))
    · exact absurd (hold.1 hpar) (not_le.mpr (hodd hpar))

theorem Obtained.openNode (ho : Obtained c₀ c₁ kids closed sid e) (hs : (c₁.nodes e).stream = false)
    (hodd : sid % 2 = 1 → sid ≤ c₁.lastSid) (heven : sid % 2 = 0 → sid ≤ c₁.lastPush) :
    ∃ closed', Tidy (c₁.openNode e) kids closed' (· = e) ∧ e ∉ closed' ∧
      SameButNode e c₁ (c₁.openNode e) ∧ ((c₁.openNode e).nodes e).stream = true ∧
      ((c₁.openNode e).nodes e).weight = (c₁.nodes e).weight := by
  have hstream : ∀ c : Nodes, ((c.setStream e true).nodes e).stream = true ∧
      ((c.setStream e true).nodes e).weight = (c.nodes e).weight := fun c => by
    simp [Nodes.setStream, Nodes.modify]
  have hlimits : true = true → c₁.Live e ∧
    ((c₁.nodes e).id % 2 = 1 → (c₁.nodes e).id ≤ c₁.lastSid) ∧
      ((c₁.nodes e).id % 2 = 0 → (c₁.nodes e).id ≤ c₁.lastPush) := fun _ => by
    rw [ho.id]
    exact ⟨ho.live, hodd, heven⟩
  rw [Nodes.openNode]
  by_cases hp : (c₁.nodes e).parent ≠ .null
  · rw [if_pos hp]
    obtain ⟨l₁, l₂, rfl⟩ := append_of_mem (ho.closed_iff.mpr ⟨hp, hs⟩)
    have hnodup := ho.tidy.grown.rings.closed_nodup
    refine ⟨l₁ ++ l₂, ho.tidy.dequeue.setStream hlimits,
      (nodup_cons.mp (perm_middle.nodup_iff.mp hnodup)).1, ?_, (hstream _).1, (hstream _).2⟩
    exact (sameButNode_links c₁ e _ _).trans (sameButNode_setStream _ e true)
  · rw [if_neg hp]
    exact ⟨closed, ho.tidy.setStream hlimits, fun hmem => hp (ho.closed_iff.mp hmem).1,
      sameButNode_setStream c₁ e true, (hstream _).1, (hstream _).2⟩

theorem weightOk_default : WeightOk defaultWeight := ⟨by decide, by decide⟩

theorem weightOk_fields (f : PriorityFields) : WeightOk f.weight :=
  ⟨Nat.le_add_left 1 _, Nat.succ_le_of_lt f.last.toNat_lt⟩

theorem weight_setWeight (c : Nodes) (n weight : Nat) :
    ((c.setWeight n weight).nodes n).weight = weight ∧
      ((c.setWeight n weight).nodes n).stream = (c.nodes n).stream := by
  simp [Nodes.setWeight, Nodes.modify]

theorem Obtained.opened {weight : Nat} (ho : Obtained c₀ c₁ kids closed sid e)
    (hs : (c₁.nodes e).stream = false) (hodd : sid % 2 = 1 → sid ≤ c₁.lastSid)
    (heven : sid % 2 = 0 → sid ≤ c₁.lastPush) (hw : WeightOk weight) (hself : depend ≠ sid)
    (hindex : c₀.findNode = c.findNode) (hparents : c₀.parents = c.parents)
    (hdep : event.dependency c = some (sid, depend) ∨ event.dependency c = none) :
    Advanced c (((c₁.openNode e).setWeight e weight).setDependency e depend exclusive) event := by
  obtain ⟨closed', htidy, hnot, hsame, hstream, -⟩ := ho.openNode hs hodd heven
  have hsame' := hsame.trans (sameButNode_setWeight (c₁.openNode e) e weight)
  refine ho.advanced hsame' (htidy.setWeight weight) ?_ ?_ hself hindex hparents hdep
  · rw [(weight_setWeight _ _ _).2, hstream]
    exact iff_of_false hnot nofun
  · rw [(weight_setWeight _ _ _).1]
    exact hw

/-- A HEADERS frame keeps the tree. -/
theorem headers_advanced {priority : Option PriorityFields} {refused : Bool}
    (h : WellFormed c kids closed) (hstep : c.stateHeaders sid priority refused = some c') :
    Advanced c c' (.headers sid priority refused) := by
  rw [Nodes.stateHeaders] at hstep
  simp only at hstep
  split at hstep
  next => cases hstep
  next hsid =>
    obtain ⟨hodd, hnew⟩ : sid % 2 = 1 ∧ c.lastSid < sid := by omega
    set c₀ : Nodes := { c with lastSid := sid }
    have h₀ : WellFormed c₀ kids closed := h.advance hnew.le le_rfl h.even
    split at hstep
    next hself =>
      obtain rfl : c₀ = c' := some.inj hstep
      cases priority with
      | none => exact .ofNone ⟨kids, closed, h₀⟩ rfl
      | some fields =>
        cases refused with
        | true => exact .ofNone ⟨kids, closed, h₀⟩ rfl
        | false => exact .ofSelf h ⟨kids, closed, h₀⟩ (congrArg (fun d => some (sid, d)) hself)
    next hself =>
      split at hstep
      next hrefused =>
        obtain rfl : c₀ = c' := some.inj hstep
        refine .ofNone ⟨kids, closed, h₀⟩ ?_
        rw [hrefused]
        cases priority <;> rfl
      next hrefused =>
        obtain ⟨kids', closed', ho⟩ := getNodeById_spec h₀ sid
        set e := (c₀.getNodeById sid).1
        set c₁ := (c₀.getNodeById sid).2
        have hnone := ho.not_open h rfl (fun _ => hnew) (by omega)
        have hlimit : sid % 2 = 1 → sid ≤ c₁.lastSid := fun _ => ho.lastSid.ge
        have heven : sid % 2 = 0 → sid ≤ c₁.lastPush := by omega
        split at hstep
        next =>
          cases hstep
          refine ho.opened hnone hlimit heven ?_ hself rfl rfl ?_
          · cases priority with
            | none => exact weightOk_default
            | some fields => exact weightOk_fields fields
          rw [Bool.not_eq_true] at hrefused
          rw [hrefused]
          cases priority with
          | none => exact .inr rfl
          | some fields => exact .inl rfl
        next hkeep =>
          rw [not_or] at hkeep
          cases hstep
          obtain ⟨closed'', htidy, hnot, hsame, hstream, hweight⟩ := ho.openNode hnone hlimit heven
          have hp : c₁.parents e ≠ .null := by
            rw [← hsame.parents]
            exact hkeep.2
          refine .ofNone ⟨kids', closed'', htidy.settle (fun _ => hkeep.2) ?_ fun _ => ?_⟩ ?_
          · exact iff_of_false hnot fun hand => absurd (hstream.symm.trans hand.2) nofun
          · rw [hweight]
            exact ho.weight hp
          · cases priority with
            | none => rfl
            | some fields => exact absurd rfl hkeep.1

theorem push_advanced (h : WellFormed c kids closed) (hp : (c.nodes p).stream = true) :
    Advanced c (c.pushStream p) (.push p) := by
  have heven := h.even
  have h₀ := h.advancePush
  set c₀ : Nodes := { c with lastPush := c.lastPush + 2 }
  obtain ⟨kids', closed', ho⟩ := getNodeById_spec h₀ (c.lastPush + 2)
  have hnone := ho.not_open h rfl (by omega) (by omega)
  have hid := (ho.kept p hp).1
  obtain ⟨-, hodd, hold⟩ := h.streams p hp
  have hself : (c.nodes p).id ≠ c.lastPush + 2 := by
    intro heq
    have hle := hold (by omega)
    omega
  have hadvanced := @Obtained.opened c c₀ _ _ _ _ _ _ false (.push p) _ ho hnone (by omega)
    (fun _ => ho.lastPush.ge) weightOk_default hself rfl rfl (.inl rfl)
  obtain ⟨-, -, -, hsame, -⟩ := ho.openNode hnone (by omega) fun _ => ho.lastPush.ge
  have hsame' := hsame.trans (sameButNode_setWeight _ _ defaultWeight)
  rw [← hid, ← hsame'.sameIndex.ids] at hadvanced
  exact hadvanced

/-- A PRIORITY frame keeps the tree. -/
theorem priority_advanced {fields : PriorityFields} (h : WellFormed c kids closed)
    (hstep : c.statePriority sid fields = some c') : Advanced c c' (.priority sid fields) := by
  rw [Nodes.statePriority] at hstep
  split at hstep
  next => cases hstep
  split at hstep
  next hself =>
    cases hstep
    exact .ofSelf h ⟨kids, closed, h⟩ (congrArg (fun d => some (sid, d)) hself)
  next hself =>
    obtain ⟨kids', closed', ho⟩ := getNodeById_spec h sid
    set e := (c.getNodeById sid).1
    set c₁ := (c.getNodeById sid).2
    have hclosed := ho.closed_iff
    have htidy := ho.tidy.setWeight fields.weight
    have hsame := sameButNode_setWeight c₁ e fields.weight
    have hweight := weight_setWeight c₁ e fields.weight
    rw [← hsame.parents, ← hweight.2] at hclosed
    simp only at hstep
    set c₂ := c₁.setWeight e fields.weight
    have hok : WeightOk (c₂.nodes e).weight := by
      rw [hweight.1]
      exact weightOk_fields fields
    have hdep : (NodeEvent.priority sid fields).dependency c = some (sid, fields.depend) := rfl
    split at hstep
    next hstream =>
      split at hstep
      next hnull =>
        obtain rfl := some.inj hstep
        have hnot : e ∉ closed' := fun hmem => (hclosed.mp hmem).1 hnull
        refine ho.advanced (hsame.trans (sameButNode_links c₂ e _ _)) (htidy.enqueue hnot) ?_ hok
          hself rfl rfl (.inl hdep)
        exact iff_of_true (by simp) hstream
      next hnull =>
        obtain rfl := some.inj hstep
        obtain ⟨l₁, l₂, rfl⟩ := append_of_mem (hclosed.mpr ⟨hnull, hstream⟩)
        refine ho.advanced (hsame.trans (sameButNode_links c₂ e _ _)) htidy.requeue ?_ hok
          hself rfl rfl (.inl hdep)
        exact iff_of_true (by simp) hstream
    next hstream =>
      obtain rfl := some.inj hstep
      refine ho.advanced hsame htidy ?_ hok hself rfl rfl (.inl hdep)
      exact iff_of_false (fun hmem => hstream (hclosed.mp hmem).2) hstream

theorem closeStream_wellFormed (h : WellFormed c kids closed) (he : (c.nodes e).stream = true) :
    WellFormed (c.closeStream e) kids (closed ++ [e]) := by
  have hlive := (h.streams e he).1
  have hnot : e ∉ closed := fun hmem =>
    Bool.false_ne_true (((h.closed_iff e id).mp hmem).2.symm.trans he)
  have hloose : Tidy c kids closed (· = e) := h.mono fun _ => False.elim
  have htidy :=
    (@Tidy.setStream c kids closed e hloose false fun heq => absurd heq Bool.false_ne_true).enqueue
      hnot
  have hsame : SameButNode e c (c.closeStream e) :=
    (sameButNode_setStream c e false).trans (sameButNode_links _ e _ _)
  have hstream : ((c.closeStream e).nodes e).stream = false ∧
      ((c.closeStream e).nodes e).weight = (c.nodes e).weight := by
    simp [Nodes.closeStream, Nodes.closedMore, Nodes.insertTail, Nodes.setStream, Nodes.modify]
  refine htidy.settle (fun _ => ?_) ?_ fun _ => ?_
  · change (c.closeStream e).parents e ≠ .null
    rw [hsame.parents]
    exact h.hung e hlive id
  · refine iff_of_true (by simp) ⟨?_, hstream.1⟩
    change (c.closeStream e).Live e
    rw [hsame.sameIndex.live]
    exact hlive
  · change WeightOk ((c.closeStream e).nodes e).weight
    rw [hstream.2]
    exact h.weight e hlive id

theorem close_advanced (h : WellFormed c kids closed) (he : (c.nodes e).stream = true) :
    Advanced c (c.closeStream e) (.close e) :=
  .ofNone ⟨kids, closed ++ [e], closeStream_wellFormed h he⟩ rfl

/-! ## Runs -/

theorem start_wellFormed (mask : Nat) : WellFormed (Nodes.start mask) (fun _ => []) [] := by
  have hdead : ∀ n, ¬ (Nodes.start mask).Live n := fun n => not_mem_nil
  have hring : (Nodes.start mask).links.Ring .dependencies [] :=
    (Links.ring_init _ _).congr (fun x hx => (Links.init_other (by rintro rfl; simp at hx)).1)
      fun x hx => (Links.init_other (by rintro rfl; simp at hx)).2
  refine ⟨⟨⟨⟨fun h hh => ?_, Links.ring_init _ _, fun _ _ _ => nofun, fun _ _ => rfl⟩,
    ?_, fun n hn => ?_⟩,
    fun n hn => absurd rfl hn⟩, ⟨fun _ _ => nofun, fun _ => nodup_nil, fun m n hm => ?_⟩,
    fun n hn => ?_, fun n _ => ?_, rfl, fun n hn => ?_, fun n => nofun, rfl⟩
  · cases h with
    | null => exact hh.elim
    | root => exact hring
    | node n => exact absurd hh (hdead n)
  · refine ⟨fun h n hh => iff_of_false nofun fun hn => hh.ne_null hn.symm, fun n p =>
      nofun, fun n hn => ?_⟩
    exact absurd rfl hn
  · exact absurd hn (hdead n)
  · exact absurd hm (hdead m)
  · exact absurd hn (hdead n)
  · exact iff_of_false not_mem_nil fun hand => hdead n hand.1
  · exact absurd hn (hdead n)

/-- Every event keeps the tree. -/
theorem step_advanced (h : WellFormed c kids closed) (hstep : c.step event = some c') :
    Advanced c c' event := by
  cases event with
  | headers sid priority refused => exact headers_advanced h hstep
  | priority sid fields => exact priority_advanced h hstep
  | push parent =>
    rw [Nodes.step] at hstep
    split at hstep
    next hp =>
      obtain rfl := some.inj hstep
      exact push_advanced h hp
    next => cases hstep
  | close node =>
    rw [Nodes.step] at hstep
    split at hstep
    next he =>
      obtain rfl := some.inj hstep
      exact close_advanced h he
    next => cases hstep

theorem run_wellFormed {mask : Nat} {events : List NodeEvent}
    (hrun : Nodes.run mask events = some c) :
    ∃ kids closed, WellFormed c kids closed := by
  have hgen : ∀ (events : List NodeEvent) (c₀ : Nodes) {kids : Parent Nat → List Nat}
      {closed : List Nat}, WellFormed c₀ kids closed → events.foldlM Nodes.step c₀ = some c →
      ∃ kids closed, WellFormed c kids closed := by
    intro events
    induction events with
    | nil =>
      intro c₀ kids closed h heq
      obtain rfl := some.inj heq
      exact ⟨kids, closed, h⟩
    | cons event events ih =>
      intro c₀ kids closed h heq
      rw [foldlM_cons] at heq
      obtain ⟨c₁, hstep, hrest⟩ := bind_eq_some_iff.mp heq
      obtain ⟨kids', closed', h'⟩ := (step_advanced h hstep).formed
      exact ih c₁ h' hrest
  exact hgen events _ (start_wellFormed mask) hrun

/-- The nodes are a tree: what a reader of the queues and of the nodes finds. -/
structure PriorityTree (c : Nodes) : Prop where
  rooted : ∀ n, c.Live n → ∃ k, Depth c.parents n k
  acyclic : ∀ n, ¬ Under c.parents n n
  rank_root : ∀ n, (c.nodes n).parent = .root → (c.nodes n).rank = 1
  rank_node : ∀ n p, (c.nodes n).parent = .node p →
    c.Live p ∧ (c.nodes n).rank = (c.nodes p).rank + 1
  queue : ∀ h, HasChildren c.Live h →
    c.links.Ring (childrenOf h) ((c.queued (childrenOf h)).map .queue)
  queued_iff : ∀ h n, HasChildren c.Live h →
    (n ∈ c.queued (childrenOf h) ↔ (c.nodes n).parent = h)
  weight : ∀ n, c.Live n → 1 ≤ (c.nodes n).weight ∧ (c.nodes n).weight ≤ 256

theorem WellFormed.priorityTree (h : WellFormed c kids closed) : PriorityTree c where
  rooted := fun n hn => ⟨_, h.grown.depth n (h.hung n hn id)⟩
  acyclic := fun _ => h.not_under_self
  rank_root := fun n hp => by
    have hd := h.grown.depth n fun hnull => absurd (hp.symm.trans hnull) nofun
    exact hd.of_root hp
  rank_node := fun n p hp => by
    have hd := h.grown.depth n fun hnull => absurd (hp.symm.trans hnull) nofun
    obtain ⟨j, hj, hdp⟩ := hd.of_node hp
    refine ⟨h.grown.hangs.up n p hp, hj.trans ?_⟩
    rw [hdp.unique (h.grown.depth p hdp.ne_null)]
    rfl
  queue := fun g hg => by
    rw [h.grown.queued hg]
    exact h.grown.rings.children g hg
  queued_iff := fun g n hg => by
    rw [h.grown.queued hg]
    exact h.grown.hangs.mem g n hg
  weight := fun n hn => h.weight n hn id

/-- After any events the nodes are a tree, and the next dependency on a node below first
brings that one to the old parent. -/
theorem priority_tree {mask : Nat} {events : List NodeEvent}
    (hrun : Nodes.run mask events = some c) :
    PriorityTree c ∧ ∀ event c' e d, c.step event = some c' → c.Depends event e d →
      Under c.parents e d → c'.parents d = c.parents e ∧ c'.parents e = .node d := by
  obtain ⟨kids, closed, h⟩ := run_wellFormed hrun
  exact ⟨h.priorityTree, fun event c' e d hstep => (step_advanced h hstep).descendant e d⟩

/-- Two PRIORITY frames, for the streams 3 and 5: the second one depends on the first. -/
def twoPriorities : List NodeEvent :=
  [.priority 3 ⟨0, 0, 0, 0, 15⟩, .priority 5 ⟨0, 0, 0, 3, 15⟩]

theorem priority_tree_twoPriorities : ∃ c c', Nodes.run 31 twoPriorities = some c ∧
    c.step (.priority 3 ⟨0, 0, 0, 5, 15⟩) = some c' ∧ PriorityTree c ∧
      c'.parents 2 = .root ∧ c'.parents 1 = .node 2 := by
  have hsome : (Nodes.run 31 twoPriorities).isSome = true := by decide
  obtain ⟨c, hc⟩ := isSome_iff_exists.mp hsome
  have hnext : ((Nodes.run 31 twoPriorities).bind fun c =>
      c.step (.priority 3 ⟨0, 0, 0, 5, 15⟩)).isSome = true := by decide
  have hfacts : (Nodes.run 31 twoPriorities).map (fun c =>
      (c.findNode 3, c.findNode 5, (c.nodes 1).parent, (c.nodes 2).parent)) =
      some (some 1, some 2, .root, .node 1) := by decide
  rw [hc] at hnext hfacts
  obtain ⟨c', hc'⟩ := isSome_iff_exists.mp hnext
  obtain ⟨h₃, h₅, h₁, h₂⟩ : c.findNode 3 = some 1 ∧ c.findNode 5 = some 2 ∧
      (c.nodes 1).parent = .root ∧ (c.nodes 2).parent = .node 1 := by
    simpa using hfacts
  obtain ⟨htree, hdown⟩ := priority_tree hc
  obtain ⟨hd, he⟩ := hdown (.priority 3 ⟨0, 0, 0, 5, 15⟩) c' 1 2 hc'
    ⟨3, 5, rfl, by decide, h₃, h₅⟩ (.child h₂)
  exact ⟨c, c', hc, hc', htree, hd.trans h₁, he⟩

end Nginx.Http.V2
