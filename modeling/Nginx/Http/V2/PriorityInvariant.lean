/-
  Http/V2/PriorityInvariant.lean --- what holds of the nodes of a connection between
  two events, and while one node is being changed.
-/
import Nginx.Http.V2.PriorityRecycle

set_option autoImplicit false

namespace Nginx.Http.V2

open List

open Foundation (Links Parent Under)

variable {c c' : Nodes} {kids : Parent Nat → List Nat} {closed : List Nat}
  {loose : Nat → Prop} {d e n m p sid : Nat} {exclusive : Bool}

/-- A node that `ngx_http_v2_get_node_by_id` can find. -/
def Nodes.Live (c : Nodes) (n : Nat) : Prop := n ∈ c.streamsIndex (c.index (c.nodes n).id)

/-- The chains of `streams_index` hold each node once, by its number. -/
structure Indexed (c : Nodes) : Prop where
  place : ∀ i n, n ∈ c.streamsIndex i → c.index (c.nodes n).id = i
  nodup : ∀ i, (c.streamsIndex i).Nodup
  ids : ∀ m n, c.Live m → c.Live n → (c.nodes m).id = (c.nodes n).id → m = n

/-- What holds between two events; while there is one, the nodes that are `loose` may be
an exception. -/
structure Tidy (c : Nodes) (kids : Parent Nat → List Nat) (closed : List Nat)
    (loose : Nat → Prop) : Prop where
  grown : Grown c.Live kids closed c
  indexed : Indexed c
  hung : ∀ n, c.Live n → ¬ loose n → c.parents n ≠ .null
  closed_iff : ∀ n, ¬ loose n → (n ∈ closed ↔ c.Live n ∧ (c.nodes n).stream = false)
  count : c.closedNodes = closed.length % 256
  weight : ∀ n, c.Live n → ¬ loose n → WeightOk (c.nodes n).weight
  streams : ∀ n, (c.nodes n).stream = true → c.Live n ∧
    ((c.nodes n).id % 2 = 1 → (c.nodes n).id ≤ c.lastSid) ∧
    ((c.nodes n).id % 2 = 0 → (c.nodes n).id ≤ c.lastPush)
  even : c.lastPush % 2 = 0

/-- Nothing is loose. -/
def WellFormed (c : Nodes) (kids : Parent Nat → List Nat) (closed : List Nat) : Prop :=
  Tidy c kids closed fun _ => False

theorem Indexed.live (hi : Indexed c) {i : Nat} (hn : n ∈ c.streamsIndex i) : c.Live n := by
  rw [Nodes.Live, hi.place i n hn]
  exact hn

theorem findNode_some (hi : Indexed c) (h : c.findNode sid = some n) :
    c.Live n ∧ (c.nodes n).id = sid := by
  rw [Nodes.findNode] at h
  exact ⟨hi.live (mem_of_find?_eq_some h), by simpa using find?_some h⟩

theorem findNode_none (h : c.findNode sid = none) (hn : c.Live n) : (c.nodes n).id ≠ sid := by
  rintro rfl
  rw [Nodes.findNode, find?_eq_none] at h
  exact h n hn (by simp)

/-- Changes that leave the numbers and the chains alone. -/
structure SameIndex (c c' : Nodes) : Prop where
  chains : c'.streamsIndex = c.streamsIndex
  mask : c'.streamsIndexMask = c.streamsIndexMask
  ids : ∀ n, (c'.nodes n).id = (c.nodes n).id

theorem SameIndex.live (hs : SameIndex c c') : c'.Live = c.Live := by
  funext n
  rw [Nodes.Live, Nodes.Live, hs.chains, Nodes.index, Nodes.index, hs.mask, hs.ids]

theorem SameIndex.indexed (hs : SameIndex c c') (hi : Indexed c) : Indexed c' where
  place := fun i n hn => by
    rw [hs.chains] at hn
    rw [Nodes.index, hs.mask, hs.ids]
    exact hi.place i n hn
  nodup := fun i => by
    rw [hs.chains]
    exact hi.nodup i
  ids := fun m n hm hn heq => by
    rw [hs.live] at hm hn
    rw [hs.ids, hs.ids] at heq
    exact hi.ids m n hm hn heq

theorem SameIndex.findNode (hs : SameIndex c c') (sid : Nat) :
    c'.findNode sid = c.findNode sid := by
  simp only [Nodes.findNode, Nodes.index, hs.chains, hs.mask, hs.ids]

theorem SameButTree.sameIndex (hs : SameButTree c c') : SameIndex c c' where
  chains := by rw [hs.rest]
  mask := by rw [hs.rest]
  ids := fun n => by rw [hs.node n]

theorem Tidy.mono {loose' : Nat → Prop} (h : Tidy c kids closed loose)
    (hl : ∀ n, loose n → loose' n) : Tidy c kids closed loose' where
  grown := h.grown
  indexed := h.indexed
  hung := fun n hn hno => h.hung n hn fun hln => hno (hl n hln)
  closed_iff := fun n hno => h.closed_iff n fun hln => hno (hl n hln)
  count := h.count
  weight := fun n hn hno => h.weight n hn fun hln => hno (hl n hln)
  streams := h.streams
  even := h.even

theorem Tidy.settle (h : Tidy c kids closed (· = e)) (hp : c.Live e → c.parents e ≠ .null)
    (hc : e ∈ closed ↔ c.Live e ∧ (c.nodes e).stream = false)
    (hw : c.Live e → WeightOk (c.nodes e).weight) : WellFormed c kids closed where
  grown := h.grown
  indexed := h.indexed
  hung := fun n hn _ => by
    obtain rfl | hne := eq_or_ne n e
    · exact hp hn
    · exact h.hung n hn hne
  closed_iff := fun n _ => by
    obtain rfl | hne := eq_or_ne n e
    · exact hc
    · exact h.closed_iff n hne
  count := h.count
  weight := fun n hn _ => by
    obtain rfl | hne := eq_or_ne n e
    · exact hw hn
    · exact h.weight n hn hne
  streams := h.streams
  even := h.even

theorem Tidy.ofSameButTree {kids' : Parent Nat → List Nat} {closed' : List Nat}
    (h : Tidy c kids closed loose) (hs : SameButTree c c') (hperm : closed'.Perm closed)
    (hg : Grown c.Live kids' closed' c')
    (hhung : ∀ n, c.Live n → ¬ loose n → c'.parents n ≠ .null) : Tidy c' kids' closed' loose where
  grown := by
    rw [hs.sameIndex.live]
    exact hg
  indexed := hs.sameIndex.indexed h.indexed
  hung := fun n hn => by
    rw [hs.sameIndex.live] at hn
    exact hhung n hn
  closed_iff := fun n hno => by
    rw [hperm.mem_iff, hs.sameIndex.live, hs.node n]
    exact h.closed_iff n hno
  count := by
    rw [hs.rest, hperm.length_eq]
    exact h.count
  weight := fun n hn hno => by
    rw [hs.sameIndex.live] at hn
    rw [hs.node n]
    exact h.weight n hn hno
  streams := fun n hn => by
    rw [hs.node n] at hn ⊢
    rw [hs.sameIndex.live, hs.rest]
    exact h.streams n hn
  even := by
    rw [hs.rest]
    exact h.even

theorem setDependency_wellFormed {depend : Nat} (h : Tidy c kids closed (· = e)) (he : c.Live e)
    (hc : e ∈ closed ↔ (c.nodes e).stream = false) (hw : WeightOk (c.nodes e).weight)
    (hself : depend ≠ (c.nodes e).id) :
    (∃ kids' closed', WellFormed (c.setDependency e depend exclusive) kids' closed') ∧
      ∀ d, depend ≠ 0 → c.findNode depend = some d → Under c.parents e d →
        (c.setDependency e depend exclusive).parents d = c.parents e ∧
          (c.setDependency e depend exclusive).parents e = .node d := by
  obtain ⟨kids', closed', hperm, hgrown, hhung, hsame, hdown⟩ :=
    @setDependency_spec c c.Live kids closed e exclusive depend h.grown he
      (fun s p hp => (findNode_some h.indexed hp).1) h.hung
      (fun _ hfound => hself (findNode_some h.indexed hfound).2.symm)
      (fun p hp hne hs => (h.closed_iff p hne).mpr ⟨hp, hs⟩)
  have htidy := h.ofSameButTree hsame hperm hgrown fun n hn _ => hhung n hn
  refine ⟨⟨kids', closed', htidy.settle (fun _ => hhung e he) ?_ fun _ => ?_⟩, hdown⟩
  · rw [hperm.mem_iff, hsame.sameIndex.live, hsame.node e, hc]
    exact (and_iff_right he).symm
  · rw [hsame.node e]
    exact hw

/-! ## The loose node -/

/-- Nothing but the weight and the stream of `e`, and the queue of closed nodes, is
different. -/
structure SameButNode (e : Nat) (c c' : Nodes) : Prop where
  node : c'.nodes e =
    { c.nodes e with weight := (c'.nodes e).weight, stream := (c'.nodes e).stream }
  other : ∀ n, n ≠ e → c'.nodes n = c.nodes n
  rest : c' = { c with
    nodes := c'.nodes, links := c'.links, closedNodes := c'.closedNodes, lastSid := c'.lastSid
    lastPush := c'.lastPush }

theorem SameButNode.all (hs : SameButNode e c c') (n : Nat) : c'.nodes n =
    { c.nodes n with weight := (c'.nodes n).weight, stream := (c'.nodes n).stream } := by
  obtain rfl | hne := eq_or_ne n e
  · exact hs.node
  · rw [hs.other n hne]

theorem SameButNode.sameIndex (hs : SameButNode e c c') : SameIndex c c' where
  chains := by rw [hs.rest]
  mask := by rw [hs.rest]
  ids := fun n => by rw [hs.all n]

theorem SameButNode.parents (hs : SameButNode e c c') : c'.parents = c.parents := by
  funext n
  rw [Nodes.parents, hs.all n]
  rfl

theorem SameButNode.trans {c'' : Nodes} (hs : SameButNode e c c') (hs' : SameButNode e c' c'') :
    SameButNode e c c'' where
  node := by rw [hs'.node, hs.node]
  other := fun n hn => (hs'.other n hn).trans (hs.other n hn)
  rest := by rw [hs'.rest, hs.rest]

theorem Tidy.change {closed' : List Nat} (h : Tidy c kids closed (· = e)) (hs : SameButNode e c c')
    (hr : Rings c'.links c.Live kids closed') (hclosed : ∀ n, n ≠ e → (n ∈ closed' ↔ n ∈ closed))
    (hcount : c'.closedNodes = closed'.length % 256)
    (hstream : (c'.nodes e).stream = true → c.Live e ∧
      ((c.nodes e).id % 2 = 1 → (c.nodes e).id ≤ c'.lastSid) ∧
      ((c.nodes e).id % 2 = 0 → (c.nodes e).id ≤ c'.lastPush))
    (hsid : c.lastSid ≤ c'.lastSid) (hpush : c.lastPush ≤ c'.lastPush)
    (heven : c'.lastPush % 2 = 0) :
    Tidy c' kids closed' (· = e) := by
  have hparents := hs.parents
  have hlive := hs.sameIndex.live
  refine ⟨⟨⟨?_, ?_, ?_⟩, fun n hn => ?_⟩, hs.sameIndex.indexed h.indexed, fun n hn hne => ?_,
    fun n hne => ?_, hcount, fun n hn hne => ?_, fun n hn => ?_, heven⟩
  · rw [hlive]
    exact hr
  · rw [hlive, hparents]
    exact h.grown.hangs
  · rw [hlive, hs.rest]
    exact h.grown.free
  · rw [hparents] at hn ⊢
    rw [Nodes.ranks, hs.all n]
    exact h.grown.depth n hn
  · rw [hlive] at hn
    rw [hparents]
    exact h.hung n hn hne
  · rw [hlive, hclosed n hne, hs.other n hne]
    exact h.closed_iff n hne
  · rw [hlive] at hn
    rw [hs.other n hne]
    exact h.weight n hn hne
  rw [hlive, hs.sameIndex.ids n]
  obtain rfl | hne := eq_or_ne n e
  · exact hstream hn
  · rw [hs.other n hne] at hn
    obtain ⟨hn, hodd, heven⟩ := h.streams n hn
    exact ⟨hn, fun hid => (hodd hid).trans hsid, fun hid => (heven hid).trans hpush⟩

theorem sameButNode_setWeight (c : Nodes) (e weight : Nat) :
    SameButNode e c (c.setWeight e weight) where
  node := by simp [Nodes.setWeight, Nodes.modify]
  other := fun n hn => Function.update_of_ne hn ..
  rest := rfl

theorem sameButNode_setStream (c : Nodes) (e : Nat) (stream : Bool) :
    SameButNode e c (c.setStream e stream) where
  node := by simp [Nodes.setStream, Nodes.modify]
  other := fun n hn => Function.update_of_ne hn ..
  rest := rfl

theorem sameButNode_links (c : Nodes) (e : Nat) (L : Links QueueCell) (count : Nat) :
    SameButNode e c { c with links := L, closedNodes := count } :=
  ⟨rfl, fun _ _ => rfl, rfl⟩

theorem Tidy.setWeight (h : Tidy c kids closed (· = e)) (weight : Nat) :
    Tidy (c.setWeight e weight) kids closed (· = e) := by
  have hs := sameButNode_setWeight c e weight
  refine h.change hs h.grown.rings (fun _ _ => Iff.rfl) h.count (fun hstream => ?_) le_rfl le_rfl
    h.even
  refine h.streams e ?_
  simpa [Nodes.setWeight, Nodes.modify] using hstream

theorem Tidy.setStream (h : Tidy c kids closed (· = e)) {stream : Bool}
    (hstream : stream = true → c.Live e ∧ ((c.nodes e).id % 2 = 1 → (c.nodes e).id ≤ c.lastSid) ∧
      ((c.nodes e).id % 2 = 0 → (c.nodes e).id ≤ c.lastPush)) :
    Tidy (c.setStream e stream) kids closed (· = e) := by
  refine h.change (sameButNode_setStream c e stream) h.grown.rings (fun _ _ => Iff.rfl) h.count
    (fun heq => hstream ?_) le_rfl le_rfl h.even
  simpa [Nodes.setStream, Nodes.modify] using heq

theorem Tidy.enqueue (h : Tidy c kids closed (· = e)) (he : e ∉ closed) :
    Tidy (c.insertTail .closed (.reuse e)).closedMore kids (closed ++ [e]) (· = e) := by
  refine h.change (sameButNode_links c e _ _) (h.grown.rings.insertClosed he) (fun n hn => ?_) ?_
    (h.streams e) le_rfl le_rfl h.even
  · simp [hn]
  · have hcount := h.count
    simp only [Nodes.closedMore, Nodes.insertTail, length_append, length_singleton]
    omega

theorem Tidy.dequeue {l₁ l₂ : List Nat} (h : Tidy c kids (l₁ ++ e :: l₂) (· = e)) :
    Tidy (c.remove (.reuse e)).closedLess kids (l₁ ++ l₂) (· = e) := by
  refine h.change (sameButNode_links c e _ _) h.grown.rings.removeClosed (fun n hn => ?_) ?_
    (h.streams e) le_rfl le_rfl h.even
  · simp [hn]
  · have hcount := h.count
    simp only [Nodes.closedLess, Nodes.remove, length_append, length_cons] at hcount ⊢
    omega

theorem Tidy.requeue {l₁ l₂ : List Nat} (h : Tidy c kids (l₁ ++ e :: l₂) (· = e)) :
    Tidy ((c.remove (.reuse e)).insertTail .closed (.reuse e)) kids (l₁ ++ l₂ ++ [e]) (· = e) := by
  have hnodup := h.grown.rings.closed_nodup
  have he : e ∉ l₁ ++ l₂ := (nodup_cons.mp (perm_middle.nodup_iff.mp hnodup)).1
  refine h.change (sameButNode_links c e _ _) (h.grown.rings.removeClosed.insertClosed he)
    (fun n hn => ?_) ?_ (h.streams e) le_rfl le_rfl h.even
  · simp [hn]
  · have hcount := h.count
    simp only [Nodes.insertTail, Nodes.remove, length_append, length_cons] at hcount ⊢
    omega

theorem WellFormed.advance (h : WellFormed c kids closed) {lastSid lastPush : Nat}
    (hsid : c.lastSid ≤ lastSid) (hpush : c.lastPush ≤ lastPush) (heven : lastPush % 2 = 0) :
    WellFormed { c with lastSid := lastSid, lastPush := lastPush } kids closed := by
  have hs : SameButNode 0 c { c with lastSid := lastSid, lastPush := lastPush } :=
    ⟨rfl, fun _ _ => rfl, rfl⟩
  have hloose : Tidy c kids closed (· = 0) := h.mono fun _ => False.elim
  refine (hloose.change hs h.grown.rings (fun _ _ => Iff.rfl) h.count (fun hstream => ?_) hsid hpush
    heven).settle (fun hlive => h.hung 0 hlive id) (h.closed_iff 0 id) fun hlive =>
      h.weight 0 hlive id
  obtain ⟨hlive, hodd, heven⟩ := h.streams 0 hstream
  exact ⟨hlive, fun hid => (hodd hid).trans hsid, fun hid => (heven hid).trans hpush⟩

theorem WellFormed.advancePush (h : WellFormed c kids closed) :
    WellFormed { c with lastPush := c.lastPush + 2 } kids closed := by
  have heven := h.even
  have hnew : WellFormed { c with lastSid := c.lastSid, lastPush := c.lastPush + 2 } kids closed :=
    h.advance le_rfl (Nat.le_add_right _ 2) (by omega)
  exact hnew

end Nginx.Http.V2
