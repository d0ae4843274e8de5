/-
  Http/V2/PriorityNodes.lean --- a stream gets a node: the one it has, a new one, or
  one whose stream was closed (`ngx_http_v2_get_node_by_id`).
-/
import Nginx.Http.V2.PriorityInvariant

set_option autoImplicit false

namespace Nginx.Http.V2

open List Function

open Foundation (Parent)

variable {c c' : Nodes} {live : Nat → Prop} {kids : Parent Nat → List Nat}
  {closed : List Nat} {par : Nat → Parent Nat} {e n m p sid : Nat}

theorem WellFormed.parents_null (h : WellFormed c kids closed) (hn : ¬ c.Live n) :
    c.parents n = .null := by
  by_contra hp
  exact hn (h.grown.hangs.alive n hp)

/-! ## A node that is for no stream -/

/-- A node that is allocated but in no chain. -/
structure Spare (c : Nodes) (kids : Parent Nat → List Nat) (closed : List Nat) (e : Nat) :
    Prop where
  formed : WellFormed c kids closed
  dead : ¬ c.Live e
  zeroed : c.nodes e = .zeroed
  below : e < c.free

/-- What a new node leaves as it was. -/
structure Kept (c c' : Nodes) : Prop where
  ids : ∀ n, (c.nodes n).stream = true →
    (c'.nodes n).id = (c.nodes n).id ∧ (c'.nodes n).stream = true
  known : ∀ n, c'.Live n → c.Live n ∧ (c'.nodes n).id = (c.nodes n).id
  index : c'.index = c.index
  lastSid : c'.lastSid = c.lastSid
  lastPush : c'.lastPush = c.lastPush

theorem live_allocate (h : WellFormed c kids closed) :
    Nodes.Live { c with free := c.free + 1, nodes := update c.nodes c.free .zeroed } = c.Live := by
  have hdead : ¬ c.Live c.free := fun hlive => lt_irrefl _ (h.grown.free _ hlive)
  funext n
  obtain rfl | hn := eq_or_ne n c.free
  · exact propext (iff_of_false (fun hmem => hdead (h.indexed.live hmem)) hdead)
  · simp only [Nodes.Live, update_of_ne hn]
    rfl

theorem allocate_spare (h : WellFormed c kids closed) :
    Spare { c with free := c.free + 1, nodes := update c.nodes c.free .zeroed } kids closed
      c.free ∧
    Kept c { c with free := c.free + 1, nodes := update c.nodes c.free .zeroed } := by
  set c' : Nodes := { c with
    free := c.free + 1, nodes := update c.nodes c.free .zeroed } with hc'
  have hdead : ¬ c.Live c.free := fun hlive => lt_irrefl _ (h.grown.free _ hlive)
  have hnodes : ∀ n, n ≠ c.free → c'.nodes n = c.nodes n := fun n hn => update_of_ne hn ..
  have hself : c'.nodes c.free = .zeroed := update_self ..
  have hlive : c'.Live = c.Live := live_allocate h
  have hparents : c'.parents = c.parents := by
    funext n
    obtain rfl | hn := eq_or_ne n c.free
    · rw [h.parents_null hdead, Nodes.parents, hself]
      rfl
    · rw [Nodes.parents, hnodes n hn]
      rfl
  have hne : ∀ n, c.Live n → n ≠ c.free := fun n hn heq => hdead (heq ▸ hn)
  have hstream : ∀ n, (c'.nodes n).stream = true → n ≠ c.free := by
    rintro n hn rfl
    rw [hself] at hn
    cases hn
  refine ⟨⟨⟨⟨⟨?_, ?_, fun n hn => ?_⟩, fun n hn => ?_⟩, ⟨fun i n hn => ?_, h.indexed.nodup,
    fun m n hm hn heq => ?_⟩, fun n hn _ => ?_, fun n _ => ?_, h.count, fun n hn _ => ?_,
    fun n hn => ?_, h.even⟩, ?_, hself, Nat.lt_succ_self _⟩, fun n hn =>
      ?_, fun n hn => ?_, rfl, rfl,
    rfl⟩
  · rw [hlive]
    exact h.grown.rings
  · rw [hlive, hparents]
    exact h.grown.hangs
  · rw [hlive] at hn
    exact Nat.lt_succ_of_lt (h.grown.free n hn)
  · rw [hparents] at hn ⊢
    rw [Nodes.ranks, hnodes n (hne n (h.grown.hangs.alive n hn))]
    exact h.grown.depth n hn
  · have hn' : n ∈ c.streamsIndex i := hn
    rw [hnodes n (hne n (h.indexed.live hn'))]
    exact h.indexed.place i n hn'
  · rw [hlive] at hm hn
    rw [hnodes m (hne m hm), hnodes n (hne n hn)] at heq
    exact h.indexed.ids m n hm hn heq
  · rw [hlive] at hn
    rw [hparents]
    exact h.hung n hn id
  · rw [hlive, h.closed_iff n id]
    exact and_congr_right fun hn => by rw [hnodes n (hne n hn)]
  · rw [hlive] at hn
    rw [hnodes n (hne n hn)]
    exact h.weight n hn id
  · rw [hlive]
    have heq := hnodes n (hstream n hn)
    rw [heq] at hn ⊢
    exact h.streams n hn
  · rw [hlive]
    exact hdead
  · rw [hnodes n (hne n (h.streams n hn).1)]
    exact ⟨rfl, hn⟩
  · rw [hlive] at hn
    rw [hnodes n (hne n hn)]
    exact ⟨hn, rfl⟩

theorem getClosedNode_eq (h : WellFormed c kids (e :: closed)) :
    c.getClosedNode = (e, (c.remove (.reuse e)).closedLess.release e) := by
  have hhead : c.links.next .closed = .reuse e := h.grown.rings.closed.seg.1.1
  rw [Nodes.getClosedNode]
  simp only [Nodes.closedLess, hhead]
  rfl

theorem Released.mem_chain (hr : Released live e c c') (hi : Indexed c) (i n : Nat) :
    n ∈ c'.streamsIndex i ↔ n ∈ c.streamsIndex i ∧ n ≠ e := by
  have hchain : c'.streamsIndex = unindexed c e := by rw [hr.rest]
  rw [hchain, unindexed, update_apply]
  split
  next heq =>
    rw [(hi.nodup _).mem_erase_iff, heq]
    exact and_comm
  next hne =>
    refine (and_iff_left_of_imp ?_).symm
    rintro hn rfl
    exact hne (hi.place i n hn).symm

theorem Released.live_iff (hr : Released live e c c') (hi : Indexed c) (n : Nat) :
    c'.Live n ↔ c.Live n ∧ n ≠ e := by
  have hindex : c'.index = c.index := by
    funext sid
    rw [Nodes.index, hr.rest]
    rfl
  rw [Nodes.Live, hr.mem_chain hi]
  refine and_congr_left fun hn => ?_
  rw [(hr.same n hn).1, hindex]
  rfl

/-- The oldest closed node is taken out of the tree and handed out. -/
theorem getClosedNode_spare (h : WellFormed c kids (e :: closed)) :
    c.getClosedNode.1 = e ∧ (∃ kids', Spare c.getClosedNode.2 kids' closed e) ∧
      Kept c c.getClosedNode.2 := by
  have hmem : c.Live e ∧ (c.nodes e).stream = false :=
    (h.closed_iff e id).mp mem_cons_self
  rw [getClosedNode_eq h]
  set c₁ := (c.remove (.reuse e)).closedLess with hc₁
  have hloose : Tidy c kids ([] ++ e :: closed) (· = e) := h.mono fun _ => False.elim
  have htidy : Tidy c₁ kids closed (· = e) := hloose.dequeue
  have hp : c.parents e ≠ .null := h.hung e hmem.1 id
  obtain ⟨kids', hgrown, hparents, hreleased⟩ := release_spec htidy.grown hmem.1 hp
  set c' := c₁.release e with hc'
  have hchain : c'.streamsIndex = unindexed c₁ e := by rw [hreleased.rest]
  have hindex : c'.index = c.index := by
    funext i
    rw [Nodes.index, hreleased.rest]
    rfl
  have hchains : ∀ i n, n ∈ c'.streamsIndex i ↔ n ∈ c.streamsIndex i ∧ n ≠ e :=
    hreleased.mem_chain htidy.indexed
  have hdead : ∀ i, e ∉ c'.streamsIndex i := fun i he => ((hchains i e).mp he).2 rfl
  have hlive : ∀ n, c'.Live n ↔ c.Live n ∧ n ≠ e := hreleased.live_iff htidy.indexed
  have hnotlive : ¬ c'.Live e := hdead _
  have hlimits : c'.closedNodes = c₁.closedNodes ∧ c'.lastSid = c.lastSid ∧
      c'.lastPush = c.lastPush := by
    rw [hreleased.rest]
    exact ⟨rfl, rfl, rfl⟩
  have hnotclosed : e ∉ closed := (nodup_cons.mp h.grown.rings.closed_nodup).1
  have hstream : ∀ n, (c'.nodes n).stream = true → n ≠ e := by
    rintro n hn rfl
    rw [hreleased.zeroed] at hn
    cases hn
  refine ⟨rfl, ⟨kids', ⟨?_, ⟨fun i n hn => ?_, fun i => ?_, fun m n hm hn heq => ?_⟩,
    fun n hn _ => ?_, fun n _ => ?_, ?_, fun n hn _ => ?_, fun n hn => ?_, ?_⟩, hnotlive,
    hreleased.zeroed, ?_⟩, fun n hn => ?_, fun n hn => ?_, hindex, hlimits.2.1, hlimits.2.2⟩
  · rw [show c'.Live = fun m => c₁.Live m ∧ m ≠ e from funext fun m => propext (hlive m)]
    exact hgrown
  · obtain ⟨hn, hne⟩ := (hchains i n).mp hn
    rw [hindex, (hreleased.same n hne).1]
    exact h.indexed.place i n hn
  · rw [hchain, unindexed, update_apply]
    split
    next => exact (h.indexed.nodup _).erase e
    next => exact h.indexed.nodup i
  · obtain ⟨hm, hme⟩ := (hlive m).mp hm
    obtain ⟨hn, hne⟩ := (hlive n).mp hn
    rw [(hreleased.same m hme).1, (hreleased.same n hne).1] at heq
    exact h.indexed.ids m n hm hn heq
  · obtain ⟨hn, hne⟩ := (hlive n).mp hn
    rw [hparents]
    by_cases hchild : c₁.parents n = .node e
    · rw [given_of_child hchild hne]
      exact hp
    · rw [given_of_other hchild hne]
      exact h.hung n hn id
  · obtain rfl | hne := eq_or_ne n e
    · exact iff_of_false hnotclosed fun hand => hnotlive hand.1
    · rw [hlive, (hreleased.same n hne).2, htidy.closed_iff n hne]
      exact and_congr_left fun _ => (and_iff_left hne).symm
  · rw [hlimits.1]
    exact htidy.count
  · obtain ⟨hn, hne⟩ := (hlive n).mp hn
    exact hreleased.weight (fun m hm => h.weight m hm id) n hn hne
  · have hne := hstream n hn
    obtain ⟨hid, hsame⟩ := hreleased.same n hne
    rw [hsame] at hn
    obtain ⟨hn, hold⟩ := h.streams n hn
    rw [hlive, hid, hlimits.2.1, hlimits.2.2]
    exact ⟨⟨hn, hne⟩, hold⟩
  · rw [hlimits.2.2]
    exact h.even
  · rw [hreleased.rest]
    exact h.grown.free e hmem.1
  · have hne : n ≠ e := by
      rintro rfl
      rw [hmem.2] at hn
      cases hn
    obtain ⟨hid, hsame⟩ := hreleased.same n hne
    exact ⟨hid, hsame.trans hn⟩
  · obtain ⟨hn, hne⟩ := (hlive n).mp hn
    exact ⟨hn, (hreleased.same n hne).1⟩

/-! ## A node for a stream -/

/-- The end of `ngx_http_v2_get_node_by_id`: the node gets a number and comes into its chain. -/
def Nodes.enter (c : Nodes) (node sid : Nat) : Nodes :=
  let c := c.modify node fun n => { n with id := sid }
  let i := c.index sid
  { c with
    links := c.links.init (.children node)
    streamsIndex := update c.streamsIndex i (node :: c.streamsIndex i) }

theorem newNode_eq (c : Nodes) (sid : Nat) : c.newNode sid =
    let p := if c.closedNodes < 32 then
      (c.free, { c with
        free := c.free + 1, nodes := update c.nodes c.free .zeroed })
    else c.getClosedNode
    (p.1, p.2.enter p.1 sid) := by
  rfl

theorem Hangs.newNode (hk : Hangs live kids par) (hn : ¬ live n) (hkids : kids (.node n) = []) :
    Hangs (fun m => live m ∨ m = n) kids par where
  mem := fun h m hh => by
    obtain rfl | hne := eq_or_ne h (.node n)
    · rw [hkids]
      exact iff_of_false nofun fun hp => hn (hk.up m n hp)
    refine hk.mem h m ?_
    cases h with
    | null => exact hh
    | root => exact hh
    | node p => exact hh.resolve_right fun hp => hne (hp ▸ rfl)
  up := fun m p hp => .inl (hk.up m p hp)
  alive := fun m hm => .inl (hk.alive m hm)

/-- A node that has been found or made for a stream. -/
structure Obtained (c c' : Nodes) (kids : Parent Nat → List Nat) (closed : List Nat) (sid e : Nat) :
    Prop where
  tidy : Tidy c' kids closed (· = e)
  live : c'.Live e
  id : (c'.nodes e).id = sid
  closed_iff : e ∈ closed ↔ c'.parents e ≠ .null ∧ (c'.nodes e).stream = false
  weight : c'.parents e ≠ .null → WeightOk (c'.nodes e).weight
  kept : ∀ n, (c.nodes n).stream = true →
    (c'.nodes n).id = (c.nodes n).id ∧ (c'.nodes n).stream = true
  lastSid : c'.lastSid = c.lastSid
  lastPush : c'.lastPush = c.lastPush
  found : ∀ m, c.findNode sid = some m → e = m ∧ c' = c
  fresh : c.findNode sid = none → (c'.nodes e).stream = false

theorem live_enter (hs : Spare c kids closed e) (sid : Nat) :
    (c.enter e sid).Live = fun n => c.Live n ∨ n = e := by
  have hchain : (c.enter e sid).streamsIndex =
      update c.streamsIndex (c.index sid) (e :: c.streamsIndex (c.index sid)) := rfl
  have hindex : (c.enter e sid).index = c.index := rfl
  funext n
  refine propext ?_
  rw [Nodes.Live, hchain, hindex, update_apply]
  obtain rfl | hn := eq_or_ne n e
  · have hid : ((c.enter n sid).nodes n).id = sid := by simp [Nodes.enter, Nodes.modify]
    rw [hid, if_pos rfl]
    exact iff_of_true mem_cons_self (.inr rfl)
  have hother : (c.enter e sid).nodes n = c.nodes n := update_of_ne hn ..
  rw [hother, or_iff_left hn, Nodes.Live]
  split
  next heq => rw [mem_cons, or_iff_right hn, heq]
  next => rfl

/-- The node enters the index under its stream. -/
theorem enter_spec (hs : Spare c kids closed e) (hnone : ∀ n, c.Live n → (c.nodes n).id ≠ sid) :
    Tidy (c.enter e sid) kids closed (· = e) ∧ (c.enter e sid).Live e ∧
      (c.enter e sid).nodes e = { PriorityNode.zeroed with id := sid } ∧ e ∉ closed := by
  have h := hs.formed
  set c' := c.enter e sid with hc'
  have hother : ∀ n, n ≠ e → c'.nodes n = c.nodes n := fun n hn => update_of_ne hn ..
  have hself : c'.nodes e = { PriorityNode.zeroed with id := sid } := by
    rw [← hs.zeroed]
    exact update_self ..
  have hchain : c'.streamsIndex =
      update c.streamsIndex (c.index sid) (e :: c.streamsIndex (c.index sid)) := rfl
  have hdead : ∀ i, e ∉ c.streamsIndex i := fun i hmem => hs.dead (h.indexed.live hmem)
  have hchains : ∀ i n, n ≠ e → (n ∈ c'.streamsIndex i ↔ n ∈ c.streamsIndex i) := fun i n hn => by
    rw [hchain, update_apply]
    split
    next heq => rw [mem_cons, or_iff_right hn, heq]
    next => rfl
  have hfirst : ∀ i, e ∈ c'.streamsIndex i ↔ i = c.index sid := fun i => by
    rw [hchain, update_apply]
    split
    next heq => exact iff_of_true mem_cons_self heq
    next hne => exact iff_of_false (hdead i) hne
  have hlive : c'.Live = fun n => c.Live n ∨ n = e := live_enter hs sid
  have hparents : c'.parents = c.parents := by
    funext n
    obtain rfl | hn := eq_or_ne n e
    · rw [Nodes.parents, Nodes.parents, hself, hs.zeroed]
    · rw [Nodes.parents, hother n hn]
      rfl
  have hle : c'.Live e := by
    rw [hlive]
    exact .inr rfl
  have hidle := h.grown.rings.idle (.node e) hs.dead
  have hold : ∀ n, c'.Live n → n ≠ e → c.Live n := fun n hn hne => by
    rw [hlive] at hn
    exact hn.resolve_right hne
  have hids : ∀ n, c'.Live n → n ≠ e → (c'.nodes n).id ≠ (c'.nodes e).id := fun n hn hne => by
    rw [hother n hne, hself]
    exact hnone n (hold n hn hne)
  refine ⟨⟨⟨⟨?_, ?_, fun n hn => ?_⟩, fun n hn => ?_⟩, ⟨fun i n hn => ?_, fun i => ?_,
    fun m n hm hn heq => ?_⟩, fun n hn hne => ?_, fun n hne => ?_, h.count, fun n hn hne => ?_,
    fun n hn => ?_, h.even⟩, hle, hself, fun hmem => hs.dead ((h.closed_iff e id).mp hmem).1⟩
  · rw [hlive]
    exact h.grown.rings.newNode hs.dead
  · rw [hlive, hparents]
    exact h.grown.hangs.newNode hs.dead hidle
  · obtain rfl | hne := eq_or_ne n e
    · exact hs.below
    · exact h.grown.free n (hold n hn hne)
  · rw [hparents] at hn ⊢
    have hne : n ≠ e := by
      rintro rfl
      exact hs.dead (h.grown.hangs.alive n hn)
    rw [Nodes.ranks, hother n hne]
    exact h.grown.depth n hn
  · obtain rfl | hne := eq_or_ne n e
    · rw [(hfirst i).mp hn, hself]
      rfl
    · rw [hother n hne]
      exact h.indexed.place i n ((hchains i n hne).mp hn)
  · rw [hchain, update_apply]
    split
    next => exact nodup_cons.mpr ⟨hdead _, h.indexed.nodup _⟩
    next => exact h.indexed.nodup i
  · obtain rfl | hme := eq_or_ne m e <;> obtain rfl | hne := eq_or_ne n m
    · rfl
    · exact absurd heq.symm (hids n hn hne)
    · rfl
    · obtain rfl | hne' := eq_or_ne n e
      · exact absurd heq (hids m hm hme)
      · rw [hother m hme, hother n hne'] at heq
        exact h.indexed.ids m n (hold m hm hme) (hold n hn hne') heq
  · rw [hparents]
    exact h.hung n (hold n hn hne) id
  · rw [hlive, hother n hne, h.closed_iff n id]
    exact and_congr_left fun _ => (or_iff_left hne).symm
  · rw [hother n hne]
    exact h.weight n (hold n hn hne) id
  · have hne : n ≠ e := by
      rintro rfl
      rw [hself] at hn
      cases hn
    rw [hother n hne] at hn ⊢
    rw [hlive]
    exact ⟨.inl (h.streams n hn).1, (h.streams n hn).2⟩

theorem newNode_spare (h : WellFormed c kids closed) (sid : Nat) :
    ∃ kids' closed' c₀, (c.newNode sid).2 = c₀.enter (c.newNode sid).1 sid ∧
      Spare c₀ kids' closed' (c.newNode sid).1 ∧ Kept c c₀ := by
  rw [newNode_eq]
  split
  next =>
    obtain ⟨hspare, hkept⟩ := allocate_spare h
    exact ⟨kids, closed, _, rfl, hspare, hkept⟩
  next hmany =>
    cases closed with
    | nil =>
      rw [h.count] at hmany
      exact absurd (by decide) hmany
    | cons e rest =>
      obtain ⟨heq, ⟨kids', hspare⟩, hkept⟩ := getClosedNode_spare h
      refine ⟨kids', rest, _, rfl, ?_, hkept⟩
      rw [heq]
      exact hspare

theorem newNode_self (h : WellFormed c kids closed) (sid : Nat) :
    (c.newNode sid).2.nodes (c.newNode sid).1 = { PriorityNode.zeroed with id := sid } := by
  obtain ⟨kids', closed', c₀, heq, hspare, -⟩ := newNode_spare h sid
  rw [heq, ← hspare.zeroed]
  exact update_self ..

theorem newNode_spec (h : WellFormed c kids closed) (hnone : c.findNode sid = none) :
    ∃ kids' closed', Obtained c (c.newNode sid).2 kids' closed' sid (c.newNode sid).1 := by
  obtain ⟨kids', closed', c₀, heq, hspare, hkept⟩ := newNode_spare h sid
  set e := (c.newNode sid).1
  rw [heq]
  obtain ⟨htidy, hlive, hself, hnot⟩ := enter_spec hspare fun n hn => by
    obtain ⟨hn, hid⟩ := hkept.known n hn
    rw [hid]
    exact findNode_none hnone hn
  have hnull : (c₀.enter e sid).parents e = .null := by
    rw [Nodes.parents, hself]
    rfl
  refine ⟨kids', closed', htidy, hlive, by rw [hself], ?_, fun hp =>
    absurd hnull hp, fun n hn => ?_,
    hkept.lastSid, hkept.lastPush, fun m hm => ?_, fun _ => by rw [hself]; rfl⟩
  · exact iff_of_false hnot fun hand => hand.1 hnull
  · obtain ⟨hid, hstream⟩ := hkept.ids n hn
    have hne : n ≠ e := fun hn => hspare.dead (hn ▸ (hspare.formed.streams n hstream).1)
    have hother : (c₀.enter e sid).nodes n = c₀.nodes n := update_of_ne hne ..
    rw [hother]
    exact ⟨hid, hstream⟩
  · rw [hnone] at hm
    cases hm

theorem getNodeById_spec (h : WellFormed c kids closed) (sid : Nat) :
    ∃ kids' closed', Obtained c (c.getNodeById sid).2 kids' closed' sid (c.getNodeById sid).1 := by
  rw [Nodes.getNodeById]
  cases hfind : c.findNode sid with
  | none => exact newNode_spec h hfind
  | some e =>
    obtain ⟨hlive, hid⟩ := findNode_some h.indexed hfind
    refine ⟨kids, closed, h.mono fun _ => False.elim, hlive, hid, ?_, fun _ => h.weight e hlive id,
      fun n hn => ⟨rfl, hn⟩, rfl, rfl, fun m hm => ?_, fun hnone => ?_⟩
    · rw [h.closed_iff e id]
      exact and_congr_left fun _ => iff_of_true hlive (h.hung e hlive id)
    · rw [hfind] at hm
      cases hm
      exact ⟨rfl, rfl⟩
    · rw [hfind] at hnone
      cases hnone

end Nginx.Http.V2
