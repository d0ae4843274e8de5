/-
  Http/Upstream/RoundRobinFair.lean --- the weights of the peers of a group: their
  current weights sum to zero, and while all peers are available each is chosen in
  proportion to its weight.

  The loop of `ngx_http_upstream_get_peer` has one lemma, on what it does to each
  peer, to `total` and to `best`.
-/
import Nginx.Foundation.Smooth
import Nginx.Http.Upstream.RoundRobin

set_option autoImplicit false

namespace Nginx.Http.Upstream

open List Foundation Option

variable {now total : Int} {tried : Tried} {i : Nat} {peers : List RrPeer}
    {best : Option (Nat × Int)}

/-! ## The loop -/

/-- A peer after the loop. -/
def RrPeer.looked (p : RrPeer) (now : Int) (tried : Bool) : RrPeer :=
  if p.eligible now tried then p.grow else p

/-- What the sum of the current weights is. -/
def currentSum (peers : List RrPeer) : Int := (peers.map RrPeer.currentWeight).sum

theorem currentSum_cons (p : RrPeer) (peers : List RrPeer) :
    currentSum (p :: peers) = p.currentWeight + currentSum peers := by
  simp [currentSum]

variable {f : RrPeer → RrPeer} {p : RrPeer}

theorem currentSum_modify {k : Nat} (h : peers[k]? = some p) :
    currentSum (peers.modify k f) + p.currentWeight = currentSum peers + (f p).currentWeight := by
  induction peers generalizing k with
  | nil => exact absurd h (by simp)
  | cons q peers ih =>
    cases k with
    | zero =>
      obtain rfl := some.inj h
      rw [modify_zero_cons, currentSum_cons, currentSum_cons]
      omega
    | succ k =>
      have hrest := ih (getElem?_cons_succ ▸ h)
      rw [modify_succ_cons, currentSum_cons, currentSum_cons]
      omega

theorem getPeerLoop_peers (now : Int) (tried : Tried) (i : Nat) (peers : List RrPeer)
    (best : Option (Nat × Int)) (total : Int) (k : Nat) :
    (getPeerLoop now tried i peers best total).peers[k]? =
      peers[k]?.map fun p => p.looked now (tried (i + k)) := by
  induction peers generalizing i best total k with
  | nil => rfl
  | cons p peers ih =>
    rw [getPeerLoop]
    cases k with
    | zero =>
      split
      next h => exact congrArg some (if_pos h).symm
      next h => exact congrArg some (if_neg h).symm
    | succ k =>
      have hplace : i + (k + 1) = i + 1 + k := by omega
      rw [hplace]
      split
      · exact ih (i + 1) _ _ k
      · exact ih (i + 1) _ _ k

theorem getPeerLoop_total (now : Int) (tried : Tried) (i : Nat) (peers : List RrPeer)
    (best : Option (Nat × Int)) (total : Int) :
    currentSum (getPeerLoop now tried i peers best total).peers + total =
      currentSum peers + (getPeerLoop now tried i peers best total).total := by
  induction peers generalizing i best total with
  | nil => rfl
  | cons p peers ih =>
    rw [getPeerLoop]
    split
    · have hrest := ih (i + 1) (better i p.grow.currentWeight best) (total + p.effectiveWeight)
      simp only [currentSum_cons]
      have hgrow : p.grow.currentWeight = p.currentWeight + p.effectiveWeight := rfl
      omega
    · have hrest := ih (i + 1) best total
      simp only [currentSum_cons]
      omega

/-- `best` has at least the weight `w`. -/
def Reaches (w : Int) (best : Option (Nat × Int)) : Prop := ∃ p v, best = some (p, v) ∧ w ≤ v

theorem reaches_better (i : Nat) (w : Int) (best : Option (Nat × Int)) :
    Reaches w (better i w best) := by
  cases best with
  | none => exact ⟨i, w, rfl, le_rfl⟩
  | some b =>
    rw [better]
    split
    next => exact ⟨i, w, rfl, le_rfl⟩
    next hle => exact ⟨b.1, b.2, rfl, not_lt.mp hle⟩

theorem Reaches.better {v w : Int} (h : Reaches v best) (i : Nat) :
    Reaches v (better i w best) := by
  obtain ⟨p, b, rfl, hle⟩ := h
  rw [Upstream.better]
  split
  next hlt => exact ⟨i, w, rfl, hle.trans hlt.le⟩
  next => exact ⟨p, b, rfl, hle⟩

theorem better_eq (i : Nat) (w : Int) (best : Option (Nat × Int)) :
    better i w best = best ∨ better i w best = some (i, w) := by
  cases best with
  | none => exact .inr rfl
  | some b =>
    rw [better]
    split
    · exact .inr rfl
    · exact .inl rfl

/-- The best peer of the loop is one that it has seen. -/
theorem getPeerLoop_best (now : Int) (tried : Tried) (i : Nat) (peers : List RrPeer)
    (best : Option (Nat × Int)) (total : Int) :
    ((getPeerLoop now tried i peers best total).best = best ∨
      ∃ k, ∃ p : RrPeer, peers[k]? = some p ∧
        p.eligible now (tried (i + k)) = true ∧
        (getPeerLoop now tried i peers best total).best = some (i + k, p.grow.currentWeight)) ∧
      (∀ w, Reaches w best → Reaches w (getPeerLoop now tried i peers best total).best) ∧
      ∀ k, ∀ p : RrPeer, peers[k]? = some p → p.eligible now (tried (i + k)) = true →
        Reaches p.grow.currentWeight (getPeerLoop now tried i peers best total).best := by
  induction peers generalizing i best total with
  | nil => exact ⟨.inl rfl, fun _ h => h, fun k p hp => absurd hp (by simp)⟩
  | cons p peers ih =>
    have hplace : ∀ k, i + (k + 1) = i + 1 + k := fun k => by omega
    rw [getPeerLoop]
    split
    next helig =>
      obtain ⟨hfrom, hkeep, hall⟩ :=
        ih (i + 1) (better i p.grow.currentWeight best) (total + p.effectiveWeight)
      refine ⟨?_, fun w hw => hkeep w (hw.better i), fun k q hq hqe => ?_⟩
      · rcases hfrom with hold | ⟨k, q, hq, hqe, hbest⟩
        · rcases better_eq i p.grow.currentWeight best with hbetter | hbetter
          · exact .inl (hold.trans hbetter)
          · exact .inr ⟨0, p, rfl, helig, hold.trans hbetter⟩
        · exact .inr ⟨k + 1, q, hq, hplace k ▸ hqe, hplace k ▸ hbest⟩
      · cases k with
        | zero =>
          obtain rfl := some.inj hq
          exact hkeep _ (reaches_better i _ best)
        | succ k => exact hall k q hq (hplace k ▸ hqe)
    next hskip =>
      obtain ⟨hfrom, hkeep, hall⟩ := ih (i + 1) best total
      refine ⟨?_, hkeep, fun k q hq hqe => ?_⟩
      · rcases hfrom with hold | ⟨k, q, hq, hqe, hbest⟩
        · exact .inl hold
        · exact .inr ⟨k + 1, q, hq, hplace k ▸ hqe, hplace k ▸ hbest⟩
      cases k with
      | zero =>
        obtain rfl := some.inj hq
        exact absurd hqe hskip
      | succ k => exact hall k q hq (hplace k ▸ hqe)

/-- What `ngx_http_upstream_get_peer` does: nothing is chosen and the peers are as they were, or
an eligible one that no other is above. -/
theorem getPeer_spec (now : Int) (tried : Tried) (peers : List RrPeer) :
    (getPeer now tried peers = (peers, tried, none) ∧
        ∀ k, ∀ p : RrPeer, peers[k]? = some p → p.eligible now (tried k) = false) ∨
      ∃ k, ∃ p : RrPeer, ∃ total, peers[k]? = some p ∧ p.eligible now (tried k) = true ∧
        (∀ j, ∀ q : RrPeer, peers[j]? = some q → q.eligible now (tried j) = true →
          q.grow.currentWeight ≤ p.grow.currentWeight) ∧
        (∃ list, getPeer now tried peers = (list, Function.update tried k true, some k) ∧
          (∀ j, list[j]? = peers[j]?.map fun q =>
            if j = k then p.grow.choose now total else q.looked now (tried j)) ∧
          currentSum list = currentSum peers) := by
  obtain ⟨hfrom, -, hall⟩ := getPeerLoop_best now tried 0 peers none 0
  have hpeers := getPeerLoop_peers now tried 0 peers none 0
  have htotal := getPeerLoop_total now tried 0 peers none 0
  simp only [zero_add] at hfrom hall hpeers
  unfold getPeer
  set choice := getPeerLoop now tried 0 peers none 0
  rcases hfrom with hnone | ⟨k, p, hp, hpe, hbest⟩
  · left
    have hskip : ∀ k, ∀ p : RrPeer, peers[k]? = some p → p.eligible now (tried k) = false :=
      fun k p hp => by
      by_contra hpe
      obtain ⟨q, v, hq, -⟩ := hall k p hp (Bool.eq_true_of_not_eq_false hpe)
      rw [hnone] at hq
      exact absurd hq nofun
    have hsame : choice.peers = peers := by
      refine ext_getElem? fun k => ?_
      rw [hpeers k]
      cases hk : peers[k]? with
      | none => rfl
      | some p =>
        rw [Option.map_some, RrPeer.looked, hskip k p hk]
        rfl
    simp only [hnone]
    exact ⟨by rw [hsame], hskip⟩
  · right
    refine ⟨k, p, choice.total, hp, hpe, fun j q hq hqe => ?_, ?_⟩
    · obtain ⟨b, v, hb, hle⟩ := hall j q hq hqe
      rw [hbest] at hb
      obtain ⟨-, rfl⟩ := Prod.mk.inj (some.inj hb)
      exact hle
    simp only [hbest]
    refine ⟨_, rfl, fun j => ?_, ?_⟩
    · rw [getElem?_modify, hpeers j]
      by_cases hj : k = j
      · rw [← hj, hp]
        simp [RrPeer.looked, hpe]
      · cases peers[j]? with
        | none => rfl
        | some q => simp [hj, Ne.symm hj]
    · have hk : choice.peers[k]? = some p.grow := by
        rw [hpeers k, hp, Option.map_some, RrPeer.looked, if_pos hpe]
      have hsum := currentSum_modify (f := fun best => best.choose now choice.total) hk
      have hchoose : (p.grow.choose now choice.total).currentWeight =
          p.grow.currentWeight - choice.total := rfl
      omega

/-! ## Runs -/

/-- A call for some request; the requests may be in any state. -/
inductive RrEvent where
  | get (now : Int) (d : RrPeerData)
  | free (now : Int) (failed : Bool) (d : RrPeerData)

/-- The groups after a call, and the peer that it chose. -/
def rrStep (u : PeerGroups) : RrEvent → PeerGroups × List Nat
  | .get now d =>
    match getRoundRobinPeer now u d with
    | (u, d, .ok) => (u, d.current.toList)
    | (u, _, _) => (u, [])
  | .free now failed d => ((freeRoundRobinPeer now failed u d).1, [])

/-- Calls one after another. -/
def rrRun : PeerGroups → List RrEvent → PeerGroups × List Nat
  | u, [] => (u, [])
  | u, event :: events =>
    let (u, picked) := rrStep u event
    let (u, picks) := rrRun u events
    (u, picked ++ picks)

/-- The weights of a peer are in their bounds. -/
def RrPeer.WeightOk (p : RrPeer) : Prop := 0 ≤ p.effectiveWeight ∧ p.effectiveWeight ≤ p.weight

/-- The weights of a group. -/
structure Balanced (g : RrPeers) : Prop where
  sum : currentSum g.peer = 0
  weights : ∀ p ∈ g.peer, p.WeightOk

/-- The peers as they are configured. -/
def RrPeer.Fresh (p : RrPeer) : Prop :=
  p.currentWeight = 0 ∧ p.effectiveWeight = p.weight ∧ 0 < p.weight

theorem Balanced.of_fresh {g : RrPeers} (h : ∀ p ∈ g.peer, p.Fresh) : Balanced g := by
  refine ⟨sum_eq_zero fun w hw => ?_, fun p hp => ?_⟩
  · obtain ⟨p, hp, rfl⟩ := mem_map.mp hw
    exact (h p hp).1
  · obtain ⟨-, heq, hpos⟩ := h p hp
    exact ⟨by omega, by omega⟩

theorem RrPeer.WeightOk.grow (h : p.WeightOk) : p.grow.WeightOk := by
  obtain ⟨hpos, hle⟩ := h
  unfold RrPeer.WeightOk RrPeer.grow
  simp only
  split <;> omega

theorem RrPeer.WeightOk.free (h : p.WeightOk) (now : Int) (failed : Bool) :
    (p.free now failed).WeightOk := by
  obtain ⟨hpos, hle⟩ := h
  have hdiv : 0 ≤ p.weight / p.maxFails := Int.ediv_nonneg (hpos.trans hle) (Int.natCast_nonneg _)
  cases failed with
  | false =>
    unfold RrPeer.WeightOk RrPeer.free
    simp only [Bool.false_eq_true, if_false]
    split <;> exact ⟨hpos, hle⟩
  | true =>
    unfold RrPeer.WeightOk RrPeer.free
    simp only [if_true]
    by_cases hmax : p.maxFails = 0
    · simp only [hmax, ne_eq, not_true_eq_false, if_false, if_neg (not_lt.mpr hpos)]
      exact ⟨hpos, hle⟩
    simp only [ne_eq, hmax, not_false_eq_true, if_true]
    split
    · exact ⟨le_rfl, hpos.trans hle⟩
    · simp only
      omega

theorem currentWeight_free (p : RrPeer) (now : Int) (failed : Bool) :
    (p.free now failed).currentWeight = p.currentWeight := by
  unfold RrPeer.free
  simp only
  split_ifs <;> rfl

theorem Balanced.modify {g : RrPeers} (h : Balanced g) (k : Nat)
    (hcurrent : ∀ p, (f p).currentWeight = p.currentWeight)
    (hweight : ∀ p, p.WeightOk → (f p).WeightOk) :
    Balanced { g with peer := g.peer.modify k f } := by
  refine ⟨?_, fun p hp => ?_⟩
  · cases hk : g.peer[k]? with
    | none =>
      have hlength : g.peer.length ≤ k := getElem?_eq_none_iff.mp hk
      exact (congrArg currentSum (modify_eq_self hlength)).trans h.sum
    | some p =>
      have hsum := currentSum_modify (f := f) hk
      have hsame := hcurrent p
      have hzero := h.sum
      simp only
      omega
  · obtain ⟨j, hj⟩ := mem_iff_getElem?.mp hp
    simp only [getElem?_modify] at hj
    obtain ⟨q, hq, rfl⟩ := map_eq_some_iff.mp hj
    have hmem := h.weights q (mem_of_getElem? hq)
    split
    · exact hweight q hmem
    · exact hmem

theorem Balanced.getPeer {g : RrPeers} (h : Balanced g) (now : Int) (tried : Tried) :
    Balanced { g with peer := (getPeer now tried g.peer).1 } := by
  rcases getPeer_spec now tried g.peer
    with ⟨heq, -⟩ | ⟨k, p, total, hp, -, -, list, heq, hlist, hsum⟩
  · rw [heq]
    exact h
  rw [heq]
  refine ⟨hsum.trans h.sum, fun q hq => ?_⟩
  obtain ⟨j, hj⟩ := mem_iff_getElem?.mp hq
  rw [hlist j] at hj
  obtain ⟨q₀, hq₀, rfl⟩ := map_eq_some_iff.mp hj
  have hok := h.weights q₀ (mem_of_getElem? hq₀)
  split
  next => exact (h.weights p (mem_of_getElem? hp)).grow
  rw [RrPeer.looked]
  split
  · exact hok.grow
  · exact hok

/-- Both groups are balanced. -/
def PeerGroups.Balanced (u : PeerGroups) : Prop := ∀ g, Upstream.Balanced (u.group g)

theorem PeerGroups.Balanced.setGroup {u : PeerGroups} (h : u.Balanced) {peers : RrPeers}
    (hpeers : Upstream.Balanced peers) (g : Group) : (u.setGroup peers g).Balanced := by
  intro g'
  cases g with
  | primary =>
    cases g' with
    | primary => exact hpeers
    | backup => exact h .backup
  | backup =>
    cases g' with
    | primary => exact h .primary
    | backup =>
      have hold := h .backup
      rcases u with ⟨primary, _ | next⟩
      · exact hold
      · exact hpeers

theorem Balanced.seek {g : RrPeers} (h : Balanced g) (now : Int) (tried : Tried) :
    Balanced { g with peer := (g.seek now tried).1 } := by
  unfold RrPeers.seek
  split
  next =>
    split
    next hnil => exact hnil ▸ h
    next peer rest hcons => exact hcons ▸ h
  next => exact h.getPeer now tried

theorem PeerGroups.Balanced.getRoundRobinPeer {u : PeerGroups} (h : u.Balanced)
    (now : Int) (d : RrPeerData) :
    (getRoundRobinPeer now u d).1.Balanced := by
  have hseek := (h d.peers).seek now d.tried
  unfold Upstream.getRoundRobinPeer
  simp only
  split
  next list tried p heq =>
    rw [heq] at hseek
    have hconns :=
      hseek.modify (f := fun peer => { peer with conns := peer.conns + 1 }) p (fun _ => rfl)
      fun _ hok => hok
    exact h.setGroup hconns d.peers
  next list tried heq =>
    rw [heq] at hseek
    split
    · exact h.setGroup hseek d.peers
    · exact h.setGroup hseek d.peers

theorem PeerGroups.Balanced.freeRoundRobinPeer {u : PeerGroups} (h : u.Balanced)
    (now : Int) (failed : Bool)
    (d : RrPeerData) : (freeRoundRobinPeer now failed u d).1.Balanced := by
  unfold Upstream.freeRoundRobinPeer
  simp only
  split
  next => exact h
  next p _ =>
    split
    · have hconns := (h d.peers).modify (f := fun peer => { peer with conns := peer.conns - 1 }) p
        (fun _ => rfl) fun _ hok => hok
      exact h.setGroup hconns d.peers
    · exact h.setGroup ((h d.peers).modify p (fun q => currentWeight_free q now failed)
        fun q hok => hok.free now failed) d.peers

theorem PeerGroups.Balanced.run {u : PeerGroups} (h : u.Balanced) (events : List RrEvent) :
    (rrRun u events).1.Balanced := by
  induction events generalizing u with
  | nil => exact h
  | cons event events ih =>
    have hstep : (rrStep u event).1.Balanced := by
      cases event with
      | get now d =>
        have hget := h.getRoundRobinPeer now d
        rw [rrStep]
        split
        next heq =>
          rw [heq] at hget
          exact hget
        next heq =>
          rw [heq] at hget
          exact hget
      | free now failed d => exact h.freeRoundRobinPeer now failed d
    exact ih hstep

/-! ## Peers that stay available -/

/-- Nothing keeps a peer from being chosen. -/
structure RrPeer.Available (p : RrPeer) : Prop where
  effective : p.effectiveWeight = p.weight
  pos : 0 < p.weight
  down : p.down = false
  fails : p.fails = 0
  maxConns : p.maxConns = 0

/-- The weight of a place. -/
def weightAt (peers : List RrPeer) (k : Nat) : Int := (peers[k]?.map RrPeer.weight).getD 0

/-- The current weight of a place. -/
def currentAt (peers : List RrPeer) (k : Nat) : Int := (peers[k]?.map RrPeer.currentWeight).getD 0

/-- All peers are available and have the weights `w`. -/
structure Steady (n : Nat) (w : Nat → Int) (peers : List RrPeer) : Prop where
  length : peers.length = n
  peer : ∀ k, ∀ p : RrPeer, peers[k]? = some p → p.weight = w k ∧ p.Available

theorem RrPeer.Available.eligible (h : p.Available) (now : Int) : p.eligible now false = true := by
  have hfails := h.fails
  have hfull : p.full = false := by simp [RrPeer.full, h.maxConns]
  have hfailing : p.failing now = false := by
    rw [RrPeer.failing, decide_eq_false_iff_not]
    omega
  rw [RrPeer.eligible, h.down, hfull, hfailing]
  rfl

theorem sum_range_getD (f : RrPeer → Int) (peers : List RrPeer) :
    ∑ k ∈ Finset.range peers.length, (peers[k]?.map f).getD 0 = (peers.map f).sum := by
  induction peers with
  | nil => rfl
  | cons p peers ih =>
    rw [length_cons, Finset.sum_range_succ']
    simp only [getElem?_cons_succ, ih, map_cons, sum_cons, getElem?_cons_zero,
      Option.map_some, Option.getD_some]
    ring

theorem Steady.modify {n : Nat} {w : Nat → Int} (h : Steady n w peers) (k : Nat)
    (hf : ∀ p : RrPeer, p.Available → (f p).weight = p.weight ∧ (f p).Available) :
    Steady n w (peers.modify k f) := by
  refine ⟨(length_modify ..).trans h.length, fun j p hp => ?_⟩
  rw [getElem?_modify] at hp
  obtain ⟨q, hq, rfl⟩ := map_eq_some_iff.mp hp
  obtain ⟨hw, havail⟩ := h.peer j q hq
  split
  · exact ⟨(hf q havail).1.trans hw, (hf q havail).2⟩
  · exact ⟨hw, havail⟩

theorem currentAt_modify (hf : ∀ p : RrPeer, (f p).currentWeight = p.currentWeight)
    (k : Nat) (peers : List RrPeer) : currentAt (peers.modify k f) = currentAt peers := by
  funext j
  rw [currentAt, getElem?_modify, currentAt]
  cases peers[j]? with
  | none => rfl
  | some p =>
    simp only [Option.map_eq_map, Option.map_some, Option.getD_some]
    split
    · exact hf p
    · rfl

/-- A choice is a round of the smooth weighted order. -/
theorem Steady.getPeer {n : Nat} {w : Nat → Int} (h : Steady n w peers) (hn : 0 < n) (now : Int) :
    ∃ list tried k, getPeer now (fun _ => false) peers = (list, tried, some k) ∧ Steady n w list ∧
      SmoothRound (Finset.range n) w (currentAt peers) k (currentAt list) := by
  have hsome : ∀ k, k < n → ∃ p, peers[k]? = some p := fun k hk =>
    ⟨_, getElem?_eq_getElem (h.length ▸ hk)⟩
  have hgrow : ∀ k, ∀ p : RrPeer, peers[k]? = some p →
    p.grow.currentWeight = currentAt peers k + w k ∧
      p.grow.weight = w k ∧ p.grow.Available := fun k p hp => by
    obtain ⟨hw, havail⟩ := h.peer k p hp
    have heff := havail.effective
    refine ⟨?_, hw, ?_, havail.pos, havail.down, havail.fails, havail.maxConns⟩
    · rw [currentAt, hp, RrPeer.grow, ← hw, ← heff]
      rfl
    · rw [RrPeer.grow, if_neg (by omega)]
      exact heff
  rcases getPeer_spec now (fun _ => false) peers
    with ⟨-, hnone⟩ | ⟨k, p, total, hp, -, hbest, list, heq, hlist, hsum⟩
  · obtain ⟨p, hp⟩ := hsome 0 hn
    have helig := (h.peer 0 p hp).2.eligible now
    rw [hnone 0 p hp] at helig
    exact absurd helig Bool.false_ne_true
  have hkn : k < n := h.length ▸ (List.getElem?_eq_some_iff.mp hp).1
  have hlooked : ∀ j, ∀ q : RrPeer, peers[j]? = some q → q.looked now false = q.grow :=
    fun j q hq =>
    if_pos ((h.peer j q hq).2.eligible now)
  have hlength : list.length = n := by
    have hiff : ∀ j, list.length ≤ j ↔ peers.length ≤ j := fun j => by
      rw [← List.getElem?_eq_none_iff, hlist j, map_eq_none_iff, List.getElem?_eq_none_iff]
    rw [← h.length]
    exact le_antisymm ((hiff _).mpr le_rfl) ((hiff _).mp le_rfl)
  have hnext : ∀ j, j < n →
    currentAt list j = currentAt peers j + w j - if j = k then total else 0 := by
    intro j hj
    obtain ⟨q, hq⟩ := hsome j hj
    rw [currentAt, hlist j, hq, Option.map_some, Option.map_some, Option.getD_some,
      ← (hgrow j q hq).1]
    by_cases heq : j = k
    · obtain rfl : q = p := some.inj (hq.symm.trans (heq ▸ hp))
      rw [if_pos heq, if_pos heq]
      rfl
    · rw [if_neg heq, if_neg heq, hlooked j q hq, Int.sub_zero]
  have htotal : total = ∑ j ∈ Finset.range n, w j := by
    have hold : ∑ j ∈ Finset.range n, currentAt peers j = currentSum peers := by
      rw [← h.length]
      exact sum_range_getD RrPeer.currentWeight peers
    have hnew : ∑ j ∈ Finset.range n, currentAt list j = currentSum list := by
      rw [← hlength]
      exact sum_range_getD RrPeer.currentWeight list
    rw [Finset.sum_congr rfl fun j hj => hnext j (Finset.mem_range.mp hj), Finset.sum_sub_distrib,
      Finset.sum_add_distrib, Finset.sum_ite_eq', if_pos (Finset.mem_range.mpr hkn), hold, hsum]
        at hnew
    omega
  refine ⟨list, _, k, heq, ⟨hlength, fun j q hq => ?_⟩, Finset.mem_range.mpr hkn, fun j hj => ?_,
    fun j hj => ?_⟩
  · rw [hlist j] at hq
    obtain ⟨q₀, hq₀, rfl⟩ := map_eq_some_iff.mp hq
    obtain ⟨-, hweight, havail⟩ := hgrow j q₀ hq₀
    split
    next hjk =>
      obtain rfl : q₀ = p := some.inj (hq₀.symm.trans (hjk ▸ hp))
      exact ⟨hweight, havail.effective, havail.pos, havail.down, havail.fails, havail.maxConns⟩
    next =>
      rw [hlooked j q₀ hq₀]
      exact ⟨hweight, havail⟩
  · obtain ⟨q, hq⟩ := hsome j (Finset.mem_range.mp hj)
    rw [← (hgrow j q hq).1, ← (hgrow k p hp).1]
    exact hbest j q hq ((h.peer j q hq).2.eligible now)
  · rw [hnext j (Finset.mem_range.mp hj), htotal]

/-- A first try in a group, or a call that frees a peer which has not failed. -/
def FirstTry (g : Group) : RrEvent → Prop
  | .get _ d => d.peers = g ∧ d.tried = fun _ => false
  | .free _ failed _ => failed = false

variable {u : PeerGroups} {g : Group}

theorem group_setGroup {peers : RrPeers} (hne : (u.group g).peer ≠ []) :
    (u.setGroup peers g).group g = peers := by
  cases g with
  | primary => rfl
  | backup =>
    rcases u with ⟨primary, _ | next⟩
    · exact absurd rfl hne
    · rfl

theorem group_setGroup_ne {peers : RrPeers} {g' : Group} (hne : g' ≠ g) :
    (u.setGroup peers g').group g = u.group g := by
  cases g <;> cases g' <;> first | rfl | exact absurd rfl hne

theorem Available.free (h : p.Available) (now : Int) :
    (p.free now false).weight = p.weight ∧ (p.free now false).Available := by
  unfold RrPeer.free
  simp only [Bool.false_eq_true, if_false]
  split
  · exact ⟨rfl, h.effective, h.pos, h.down, rfl, h.maxConns⟩
  · exact ⟨rfl, h.effective, h.pos, h.down, h.fails, h.maxConns⟩

theorem freeRoundRobinPeer_cases (now : Int) (failed : Bool) (u : PeerGroups) (d : RrPeerData) :
    (freeRoundRobinPeer now failed u d).1 = u ∨ ∃ p f, (freeRoundRobinPeer now failed u d).1 =
        u.setGroup { u.group d.peers with peer := (u.group d.peers).peer.modify p f } d.peers ∧
      ((u.group d.peers).single = true ∧ (f = fun q => { q with conns := q.conns - 1 }) ∨
        (u.group d.peers).single = false ∧ f = fun q => q.free now failed) := by
  unfold freeRoundRobinPeer
  simp only
  split
  next => exact .inl rfl
  next p _ =>
    split
    next hsingle => exact .inr ⟨p, _, rfl, .inl ⟨hsingle, rfl⟩⟩
    next hsingle => exact .inr ⟨p, _, rfl, .inr ⟨eq_false_of_ne_true hsingle, rfl⟩⟩

/-- What one call does in a group of several peers that stay available. -/
theorem Steady.step {n : Nat} {w : Nat → Int} (h : Steady n w (u.group g).peer) (hn : 0 < n)
    (hsingle : (u.group g).single = false) {event : RrEvent} (hfirst : FirstTry g event) :
    Steady n w ((rrStep u event).1.group g).peer ∧ ((rrStep u event).1.group g).single = false ∧
      ((rrStep u event).2 = [] ∧
          currentAt ((rrStep u event).1.group g).peer = currentAt (u.group g).peer ∨
        ∃ k, (rrStep u event).2 = [k] ∧
          SmoothRound (Finset.range n) w (currentAt (u.group g).peer) k
          (currentAt ((rrStep u event).1.group g).peer)) := by
  have hne : (u.group g).peer ≠ [] := ne_nil_of_length_pos (h.length ▸ hn)
  cases event with
  | get now d =>
    obtain ⟨rfl, htried⟩ := hfirst
    obtain ⟨list, tried, k, hget, hsteady, hround⟩ := h.getPeer hn now
    have hseek : (u.group d.peers).seek now d.tried = (list, tried, some k) := by
      rw [RrPeers.seek, hsingle, htried]
      exact hget
    have hstep : rrStep u (.get now d) = (u.setGroup { u.group d.peers with
        peer := list.modify k fun peer => { peer with conns := peer.conns + 1 } } d.peers,
          [k]) := by
      simp only [rrStep, getRoundRobinPeer, hseek, Option.toList]
    have hconns : ∀ p : RrPeer, p.Available →
      ({ p with conns := p.conns + 1 } : RrPeer).weight = p.weight ∧
        ({ p with conns := p.conns + 1 } : RrPeer).Available := fun p hp =>
      ⟨rfl, hp.effective, hp.pos, hp.down, hp.fails, hp.maxConns⟩
    rw [hstep, group_setGroup hne]
    refine ⟨hsteady.modify k hconns, hsingle, .inr ⟨k, rfl, ?_⟩⟩
    rw [currentAt_modify (f := fun peer => { peer with conns := peer.conns + 1 }) fun _ => rfl]
    exact hround
  | free now failed d =>
    obtain rfl : failed = false := hfirst
    have hstep : rrStep u (.free now false d) = ((freeRoundRobinPeer now false u d).1, []) := rfl
    rw [hstep]
    rcases freeRoundRobinPeer_cases now false u d with heq | ⟨p, f, heq, hf⟩
    · rw [heq]
      exact ⟨h, hsingle, .inl ⟨rfl, rfl⟩⟩
    rw [heq]
    by_cases hgroup : d.peers = g
    · subst hgroup
      have hfree : f = fun q => q.free now false := by
        rcases hf with ⟨hone, -⟩ | ⟨-, hf⟩
        · rw [hsingle] at hone
          exact absurd hone Bool.false_ne_true
        · exact hf
      rw [group_setGroup hne, hfree]
      refine ⟨h.modify p fun q hq => Available.free hq now, hsingle, .inl ⟨rfl, ?_⟩⟩
      exact currentAt_modify (fun q => currentWeight_free q now false) p _
    · rw [group_setGroup_ne hgroup]
      exact ⟨h, hsingle, .inl ⟨rfl, rfl⟩⟩

theorem Steady.run {n : Nat} {w : Nat → Int} (h : Steady n w (u.group g).peer) (hn : 0 < n)
    (hsingle : (u.group g).single = false) {events : List RrEvent}
    (hfirst : ∀ e ∈ events, FirstTry g e) :
    Steady n w ((rrRun u events).1.group g).peer ∧
      SmoothRun (Finset.range n) w (currentAt (u.group g).peer) (rrRun u events).2
        (currentAt ((rrRun u events).1.group g).peer) := by
  induction events generalizing u with
  | nil => exact ⟨h, .nil _⟩
  | cons event events ih =>
    obtain ⟨hsteady, hsingle', hpicked⟩ := h.step hn hsingle (hfirst event mem_cons_self)
    obtain ⟨hfinal, hrun⟩ := ih hsteady hsingle' fun e he => hfirst e (mem_cons_of_mem _ he)
    refine ⟨hfinal, ?_⟩
    rw [rrRun]
    simp only
    rcases hpicked with ⟨hnone, hcurrent⟩ | ⟨k, hone, hround⟩
    · rw [hnone, nil_append, ← hcurrent]
      exact hrun
    · rw [hone]
      exact .cons hround hrun

/-- After any calls for any requests the current weights of a group sum to zero and the effective
weights are in their bounds.  First tries among available peers choose each of them as often as
its weight says in as many calls as the total weight, and the current weights are zero again. -/
theorem roundRobin_exact (u : PeerGroups) (hfresh : ∀ g, ∀ p ∈ (u.group g).peer, p.Fresh)
    (events : List RrEvent) :
    (∀ g, Balanced ((rrRun u events).1.group g)) ∧
      ∀ g, (u.group g).single = false → (∀ p ∈ (u.group g).peer, p.Available) →
        (∀ event ∈ events, FirstTry g event) →
        ((rrRun u events).2.length : Int) = ((u.group g).peer.map RrPeer.weight).sum →
        ∀ k, ∀ p : RrPeer, (u.group g).peer[k]? = some p →
          ((rrRun u events).2.count k : Int) = p.weight ∧
          ((rrRun u events).1.group g).peer[k]?.map RrPeer.currentWeight = some 0 := by
  refine ⟨PeerGroups.Balanced.run (fun g => .of_fresh (hfresh g)) events, ?_⟩
  intro g hsingle havail hfirst hlength k p hp
  have hweight : ∀ k, ∀ p : RrPeer, (u.group g).peer[k]? = some p →
      p.weight = weightAt (u.group g).peer k ∧ p.Available := fun k p hp =>
    ⟨by rw [weightAt, hp]; rfl, havail p (mem_of_getElem? hp)⟩
  have hsteady : Steady (u.group g).peer.length (weightAt (u.group g).peer) (u.group g).peer :=
    ⟨rfl, hweight⟩
  have hk : k < (u.group g).peer.length := (List.getElem?_eq_some_iff.mp hp).1
  obtain ⟨hfinal, hrun⟩ := hsteady.run (Nat.zero_lt_of_lt hk) hsingle hfirst
  have hzero : currentAt (u.group g).peer = fun _ => 0 := by
    funext k
    rw [currentAt]
    cases hk : (u.group g).peer[k]? with
    | none => rfl
    | some p => exact (hfresh g p (mem_of_getElem? hk)).1
  rw [hzero] at hrun
  have hpos : ∀ j ∈ Finset.range (u.group g).peer.length, 0 < weightAt (u.group g).peer j :=
    fun j hj => by
    obtain ⟨hw, hq⟩ := hweight j _ (getElem?_eq_getElem (Finset.mem_range.mp hj))
    exact hw ▸ hq.pos
  obtain ⟨hcount, hcurrent⟩ :=
    hrun.exact hpos (hlength.trans (sum_range_getD RrPeer.weight _).symm) k
    (Finset.mem_range.mpr hk)
  refine ⟨hcount.trans (hweight k p hp).1.symm, ?_⟩
  rw [currentAt, getElem?_eq_getElem (hfinal.length ▸ hk)] at hcurrent
  rw [getElem?_eq_getElem (hfinal.length ▸ hk)]
  exact congrArg some hcurrent

theorem threePeers_ready :
    let peer : Int → RrPeer := fun weight => ⟨0, weight, weight, 0, 0, 0, 0, 0, 1, 10, false⟩
    let u : PeerGroups := ⟨⟨[peer 5, peer 1, peer 1], false⟩, none⟩
    (∀ g, ∀ p ∈ (u.group g).peer, p.Fresh) ∧ ∀ p ∈ (u.group .primary).peer, p.Available := by
  intro peer u
  refine ⟨fun g => by cases g <;> simp [u, peer, PeerGroups.group, RrPeer.Fresh], ?_⟩
  simp only [u, PeerGroups.group, forall_mem_cons, not_mem_nil, false_implies, implies_true,
    and_true]
  exact ⟨⟨rfl, by decide, rfl, rfl, rfl⟩, ⟨rfl, by decide, rfl, rfl, rfl⟩,
    ⟨rfl, by decide, rfl, rfl, rfl⟩⟩

/-- Peers of weights 5, 1 and 1, of which the first one is chosen five times in seven. -/
theorem roundRobin_exact_three :
    let peer : Int → RrPeer := fun weight => ⟨0, weight, weight, 0, 0, 0, 0, 0, 1, 10, false⟩
    let u : PeerGroups := ⟨⟨[peer 5, peer 1, peer 1], false⟩, none⟩
    let events : List RrEvent := List.replicate 7 (.get 100 u.initPeer)
    (rrRun u events).2 = [0, 0, 1, 0, 2, 0, 0] ∧
      (rrRun u events).2.count 0 = (5 : Int) ∧ Balanced ((rrRun u events).1.group .primary) := by
  intro peer u events
  obtain ⟨hfresh, havail⟩ := threePeers_ready
  have hfirst : ∀ event ∈ events, FirstTry .primary event := fun event hevent => by
    rw [(mem_replicate.mp hevent).2]
    exact ⟨rfl, rfl⟩
  obtain ⟨hbalanced, hexact⟩ := roundRobin_exact u hfresh events
  have hpicks : (rrRun u events).2 = [0, 0, 1, 0, 2, 0, 0] := by decide
  exact ⟨hpicks, (hexact .primary rfl havail hfirst (by rw [hpicks]; rfl) 0 (peer 5) rfl).1,
    hbalanced .primary⟩

/-- At every moment of such a run no peer is a whole turn ahead of its share of the calls, and no
peer waits longer than the others can be ahead of theirs. -/
theorem roundRobin_fair (u : PeerGroups) (hfresh : ∀ g, ∀ p ∈ (u.group g).peer, p.Fresh)
    (events : List RrEvent) (g : Group)
    (hsingle : (u.group g).single = false) (havail : ∀ p ∈ (u.group g).peer, p.Available)
    (hfirst : ∀ event ∈ events, FirstTry g event) (k : Nat) (p : RrPeer)
    (hp : (u.group g).peer[k]? = some p) :
    ((rrRun u events).2.count k : Int) * ((u.group g).peer.map RrPeer.weight).sum <
        (rrRun u events).2.length * p.weight + ((u.group g).peer.map RrPeer.weight).sum ∧
      (rrRun u events).2.length * p.weight ≤
        (((rrRun u events).2.count k : Int) + ((u.group g).peer.length - 1)) *
          ((u.group g).peer.map RrPeer.weight).sum := by
  have hweight : ∀ k, ∀ p : RrPeer, (u.group g).peer[k]? = some p →
    p.weight = weightAt (u.group g).peer k ∧ p.Available := by
    intro k p hp
    rw [weightAt, hp]
    exact ⟨rfl, havail p (mem_of_getElem? hp)⟩
  have hk : k < (u.group g).peer.length := (List.getElem?_eq_some_iff.mp hp).1
  have hsteady : Steady (u.group g).peer.length (weightAt (u.group g).peer) (u.group g).peer :=
    ⟨rfl, hweight⟩
  obtain ⟨-, hrun⟩ := hsteady.run (Nat.zero_lt_of_lt hk) hsingle hfirst
  have hzero : currentAt (u.group g).peer = fun _ => 0 := by
    funext j
    rw [currentAt]
    cases hj : (u.group g).peer[j]? with
    | none => rfl
    | some q => exact (hfresh g q (mem_of_getElem? hj)).1
  rw [hzero] at hrun
  have hfair := hrun.fair (fun j hj => by
    obtain ⟨hw, hq⟩ := hweight j _ (getElem?_eq_getElem (Finset.mem_range.mp hj))
    exact hw ▸ hq.pos) (Finset.mem_range.mpr hk)
  have htotal : ∑ j ∈ Finset.range (u.group g).peer.length,
    weightAt (u.group g).peer j = ((u.group g).peer.map RrPeer.weight).sum :=
    sum_range_getD RrPeer.weight _
  rwa [htotal, Finset.card_range, ← (hweight k p hp).1] at hfair

/-- Of peers of weights 5, 1 and 1 the first one is chosen twice in three calls. -/
theorem roundRobin_fair_three :
    let peer : Int → RrPeer := fun weight => ⟨0, weight, weight, 0, 0, 0, 0, 0, 1, 10, false⟩
    let u : PeerGroups := ⟨⟨[peer 5, peer 1, peer 1], false⟩, none⟩
    let picks := (rrRun u (List.replicate 3 (.get 100 u.initPeer))).2
    picks = [0, 0, 1] ∧ (picks.count 0 : Int) * 7 < picks.length * 5 + 7 := by
  intro peer u picks
  obtain ⟨hfresh, havail⟩ := threePeers_ready
  have hfirst : ∀ event ∈ List.replicate 3 (RrEvent.get 100 u.initPeer), FirstTry .primary event :=
    fun event hevent => by
    rw [(mem_replicate.mp hevent).2]
    exact ⟨rfl, rfl⟩
  exact ⟨by decide, (roundRobin_fair u hfresh _ .primary rfl havail hfirst 0 (peer 5) rfl).1⟩

end Nginx.Http.Upstream
