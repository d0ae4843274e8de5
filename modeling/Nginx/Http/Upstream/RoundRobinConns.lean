/-
  Http/Upstream/RoundRobinConns.lean --- requests that share the peers of an
  upstream: the connections of a peer are counted, and the tries of a request end.

  A step is what one request does while it holds the lock of a group.  The requests
  are told apart by their places in a list; what a request got so far is kept for
  the statements only.
-/
import Nginx.Http.Upstream.RoundRobinFair

set_option autoImplicit false

namespace Nginx.Http.Upstream

open List Option Function

/-! ## Requests -/

/-- Where a request is between its calls. -/
inductive Phase where
  /-- no peer is held; `get` is called next, or the loop is over -/
  | idle
  /-- within `get`, between the locks of the groups -/
  | again
  /-- `get` returned `NGX_OK`, and `free` is called next -/
  | holding
  /-- `get` returned `NGX_BUSY` -/
  | busy
  deriving DecidableEq

namespace Phase

theorem idle_ne_again : idle ≠ again := by simp

theorem idle_ne_holding : idle ≠ holding := by simp

theorem again_ne_idle : again ≠ idle := by simp

theorem again_ne_holding : again ≠ holding := by simp

theorem busy_ne_idle : busy ≠ idle := by simp

theorem busy_ne_holding : busy ≠ holding := by simp

end Phase

theorem Group.primary_ne_backup : Group.primary ≠ .backup := by simp

/-- A request that is passed to the upstream. -/
structure UpRequest where
  data : RrPeerData
  phase : Phase
  /-- the calls of `get` so far -/
  attempts : Nat
  /-- the peers that these calls got -/
  got : List (Group × Nat)

/-- The upstream and the requests. -/
structure UpState where
  groups : PeerGroups
  requests : List UpRequest

namespace UpRequest

/-- `ngx_http_upstream_init_request`, with `next_upstream_tries`, 0 being none. -/
def init (u : PeerGroups) (nextUpstreamTries : Nat) : UpRequest :=
  let d := u.initPeer
  ⟨{ d with tries := if nextUpstreamTries ≠ 0 ∧
    d.tries > nextUpstreamTries then nextUpstreamTries else d.tries },
    .idle, 0, []⟩

/-- `get` is called for the first time, or again as there are tries left; or it is going on. -/
def MayGet (q : UpRequest) : Prop :=
  q.phase = .again ∨ q.phase = .idle ∧ (q.attempts = 0 ∨ q.data.tries ≠ 0)

instance (q : UpRequest) : Decidable q.MayGet := inferInstanceAs (Decidable (_ ∨ _))

/-- The request holds a connection to a peer. -/
def Holds (q : UpRequest) (g : Group) (k : Nat) : Bool :=
  q.phase = .holding ∧ q.data.peers = g ∧ q.data.current = some k

/-- After a lock was held in `get`. -/
def afterGet (q : UpRequest) (d : RrPeerData) (turn : GetTurn) : UpRequest :=
  { data := d
    phase := match turn with
      | .ok => .holding
      | .again => .again
      | .busy => .busy
    attempts := if q.phase = .again then q.attempts else q.attempts + 1
    got := match turn with
      | .ok => q.got ++ d.current.toList.map fun k => (d.peers, k)
      | _ => q.got }

end UpRequest

/-- What happens. -/
inductive UpEvent where
  | init (nextUpstreamTries : Nat)
  | get (r : Nat) (now : Int)
  | free (r : Nat) (now : Int) (failed : Bool)

/-- One step; a step that the request cannot make changes nothing. -/
def upStep (s : UpState) : UpEvent → UpState
  | .init nextUpstreamTries =>
    { s with requests := s.requests ++ [.init s.groups nextUpstreamTries] }
  | .get r now =>
    match s.requests[r]? with
    | none => s
    | some q =>
      if q.MayGet then
        let (u, d, turn) := getRoundRobinPeer now s.groups q.data
        ⟨u, s.requests.set r (q.afterGet d turn)⟩
      else s
  | .free r now failed =>
    match s.requests[r]? with
    | none => s
    | some q =>
      if q.phase = .holding then
        let (u, d) := freeRoundRobinPeer now failed s.groups q.data
        ⟨u, s.requests.set r { q with data := d, phase := .idle }⟩
      else s

/-- Steps one after another. -/
def upRun (s : UpState) (events : List UpEvent) : UpState := events.foldl upStep s

/-! ## What a step does to the peers -/

/-- What the count of connections is about. -/
def RrPeer.limits (p : RrPeer) : Int × Nat := (p.conns, p.maxConns)

/-- Two lists of peers with the same connections. -/
def SameLimits (list peers : List RrPeer) : Prop :=
  ∀ j : Nat, list[j]?.map RrPeer.limits = peers[j]?.map RrPeer.limits

variable {list : List RrPeer}

theorem SameLimits.length {peers : List RrPeer} (h : SameLimits list peers) :
    list.length = peers.length := by
  have hiff : ∀ j, list.length ≤ j ↔ peers.length ≤ j := fun j => by
    rw [← getElem?_eq_none_iff, ← getElem?_eq_none_iff,
      ← map_eq_none_iff (f := RrPeer.limits),
      h j, map_eq_none_iff]
  exact le_antisymm ((hiff _).mpr le_rfl) ((hiff _).mp le_rfl)

/-- A peer is sought: the connections stay, and one that is found has room. -/
theorem RrPeers.seek_spec (now : Int) (tried : Tried) (peers : RrPeers) :
    SameLimits (peers.seek now tried).1 peers.peer ∧
      ((peers.seek now tried).2.2 = none ∧ (peers.seek now tried).2.1 = tried ∨
        ∃ k, ∃ p : RrPeer, (peers.seek now tried).2.2 = some k ∧
          peers.peer[k]? = some p ∧ p.full = false ∧
          (peers.single = false →
            tried k = false ∧ (peers.seek now tried).2.1 = update tried k true)) := by
  unfold RrPeers.seek
  split
  next hsingle =>
    have hnot : peers.single ≠ false := by simp [hsingle]
    split
    next hnil => exact ⟨fun j => by rw [hnil], .inl ⟨rfl, rfl⟩⟩
    next peer rest hcons =>
      refine ⟨fun j => by rw [hcons], ?_⟩
      by_cases hok : (peer.down || peer.full) = true
      · exact .inl ⟨if_pos hok, rfl⟩
      · rw [Bool.or_eq_true, not_or] at hok
        refine .inr ⟨0, peer, if_neg (by simp [hok]), by rw [hcons]; rfl,
          eq_false_of_ne_true hok.2, fun h => absurd h hnot⟩
  next =>
    rcases getPeer_spec now tried peers.peer
      with ⟨heq, -⟩ | ⟨k, p, total, hp, hpe, -, list, heq, hlist, -⟩
    · rw [heq]
      exact ⟨fun _ => rfl, .inl ⟨rfl, rfl⟩⟩
    rw [heq]
    have hparts : tried k = false ∧ p.full = false := by
      simp only [RrPeer.eligible, Bool.and_eq_true, Bool.not_eq_true'] at hpe
      exact ⟨hpe.1.1.1, hpe.2⟩
    refine ⟨fun j => ?_, .inr ⟨k, p, rfl, hp, hparts.2, fun _ => ⟨hparts.1, rfl⟩⟩⟩
    rw [hlist j]
    cases hj : peers.peer[j]? with
    | none => rfl
    | some q =>
      simp only [Option.map_some]
      split
      next hjk =>
        obtain rfl : q = p := some.inj (hj.symm.trans (hjk ▸ hp))
        rfl
      next =>
        rw [RrPeer.looked]
        split <;> rfl

variable {u : PeerGroups} {g : Group} {peers : RrPeers}

theorem group_setGroup_of_length (hlength : peers.peer.length = (u.group g).peer.length)
    (hsingle : peers.single = (u.group g).single) : (u.setGroup peers g).group g = peers := by
  cases g with
  | primary => rfl
  | backup =>
    rcases u with ⟨primary, _ | next⟩
    · obtain ⟨peer, single⟩ := peers
      obtain rfl : peer = [] := eq_nil_of_length_eq_zero hlength
      obtain rfl : single = false := hsingle
      rfl
    · rfl

/-- The connections of one peer of a group are changed. -/
structure Changed (u u' : PeerGroups) (g : Group) (k : Nat) (f : Int → Int) : Prop where
  other : ∀ g', g' ≠ g → u'.group g' = u.group g'
  single : (u'.group g).single = (u.group g).single
  limits : ∀ j : Nat, (u'.group g).peer[j]?.map RrPeer.limits =
    (u.group g).peer[j]?.map fun p => if j = k then (f p.conns, p.maxConns) else p.limits

/-- Nothing is changed that the count is about. -/
structure Unchanged (u u' : PeerGroups) : Prop where
  single : ∀ g, (u'.group g).single = (u.group g).single
  limits : ∀ g, SameLimits (u'.group g).peer (u.group g).peer

theorem Unchanged.setGroup (h : SameLimits list (u.group g).peer) :
    Unchanged u (u.setGroup { u.group g with peer := list } g) := by
  have hgroup : (u.setGroup { u.group g with peer := list } g).group g =
    { u.group g with peer := list } :=
    group_setGroup_of_length h.length rfl
  refine ⟨fun g' => ?_, fun g' => ?_⟩
  all_goals
    by_cases hg : g = g'
  · rw [← hg, hgroup]
  · rw [group_setGroup_ne hg]
  · rw [← hg, hgroup]
    exact h
  · rw [group_setGroup_ne hg]
    exact fun _ => rfl

variable {f : Int → Int}

theorem Changed.setGroup (h : SameLimits list (u.group g).peer) (k : Nat)
    {change : RrPeer → RrPeer} (hchange : ∀ p, (change p).limits = (f p.conns, p.maxConns)) :
    Changed u (u.setGroup { u.group g with peer := list.modify k change } g) g k f := by
  have hgroup : (u.setGroup { u.group g with peer := list.modify k change } g).group g =
      { u.group g with peer := list.modify k change } :=
    group_setGroup_of_length ((length_modify ..).trans h.length) rfl
  refine ⟨fun g' hg => group_setGroup_ne (Ne.symm hg), by rw [hgroup], fun j => ?_⟩
  have hj := h j
  rw [hgroup]
  simp only [getElem?_modify]
  cases hl : list[j]? with
  | none =>
    rw [hl] at hj
    rw [map_eq_none_iff.mp hj.symm]
    rfl
  | some q =>
    rw [hl, Option.map_some] at hj
    obtain ⟨p, hp, hq⟩ := map_eq_some_iff.mp hj.symm
    rw [hp]
    simp only [Option.map_eq_map, Option.map_some, Option.some.injEq]
    obtain ⟨hconns, hmax⟩ := Prod.mk.inj hq
    by_cases hjk : k = j
    · rw [if_pos hjk, if_pos hjk.symm, hchange, ← hconns, ← hmax]
    · rw [if_neg hjk, if_neg (Ne.symm hjk), hq]

theorem getRoundRobinPeer_spec (now : Int) (u : PeerGroups) (d : RrPeerData) :
    (∃ k, ∃ p : RrPeer, (u.group d.peers).peer[k]? = some p ∧ p.full = false ∧
        Changed u (getRoundRobinPeer now u d).1 d.peers k (· + 1) ∧
        (∃ tried,
          (getRoundRobinPeer now u d).2 = ({ d with current := some k, tried := tried }, .ok) ∧
          ((u.group d.peers).single = false →
            d.tried k = false ∧ tried = update d.tried k true))) ∨
      Unchanged u (getRoundRobinPeer now u d).1 ∧
        ((∃ tried,
          (getRoundRobinPeer now u d).2 = ({ d with peers := .backup, tried := tried }, .again) ∧
            d.peers = .primary) ∨
          (getRoundRobinPeer now u d).2 = (d, .busy)) := by
  obtain ⟨hlimits, hfound⟩ := RrPeers.seek_spec now d.tried (u.group d.peers)
  rcases hseek : (u.group d.peers).seek now d.tried with ⟨list, tried, found⟩
  simp only [hseek] at hlimits hfound
  unfold getRoundRobinPeer
  simp only [hseek]
  rcases hfound with ⟨rfl, rfl⟩ | ⟨k, p, rfl, hp, hfull, hbit⟩
  · right
    simp only
    split
    next next hgroup hnext => exact ⟨.setGroup hlimits, .inl ⟨_, rfl, hgroup⟩⟩
    next => exact ⟨.setGroup hlimits, .inr rfl⟩
  · exact .inl ⟨k, p, hp, hfull, .setGroup hlimits k fun _ => rfl, tried, rfl, hbit⟩

theorem conns_free (p : RrPeer) (now : Int) (failed : Bool) :
    (p.free now failed).limits = (p.conns - 1, p.maxConns) := by
  unfold RrPeer.free RrPeer.limits
  simp only
  split_ifs <;> rfl

theorem freeRoundRobinPeer_spec (now : Int) (failed : Bool) (u : PeerGroups)
    (d : RrPeerData) {k : Nat}
    (hcurrent : d.current = some k) :
    Changed u (freeRoundRobinPeer now failed u d).1 d.peers k (· - 1) ∧
      ∃ tries, (freeRoundRobinPeer now failed u d).2 = { d with tries := tries } ∧
        tries ≤ d.tries - 1 := by
  unfold freeRoundRobinPeer
  simp only [hcurrent]
  split
  · exact ⟨.setGroup (fun _ => rfl) k fun _ => rfl, 0, rfl, Nat.zero_le _⟩
  · exact ⟨.setGroup (fun _ => rfl) k fun p => conns_free p now failed, _, rfl, le_rfl⟩

/-! ## The account -/

/-- How many requests hold a connection to a peer. -/
def holders (requests : List UpRequest) (g : Group) (k : Nat) : Nat := requests.countP (·.Holds g k)

/-- What is true of a request; `single` are the flags of the groups, and `total` is the number of
peers. -/
structure UpRequest.Right (single : Group → Bool) (total : Nat) (q : UpRequest) : Prop where
  /-- the peers of the group that the request is at are in its bitmap -/
  tried : ∀ k, (q.data.peers, k) ∈ q.got → single q.data.peers = false → q.data.tried k = true
  /-- the request does not come back from the second group -/
  backup : ∀ k, (Group.backup, k) ∈ q.got → q.data.peers = .backup
  once : (q.got.filter fun x => !single x.1).Nodup
  idle : q.phase = .idle → q.attempts + q.data.tries ≤ total ∧ (q.attempts = 0 → q.data.tries ≠ 0)
  busy : q.phase ≠ .idle → 0 < q.attempts ∧ q.attempts + q.data.tries ≤ total + 1 ∧ q.data.tries ≠ 0
  holding : q.phase = .holding → ∃ k, q.data.current = some k

/-- What is true of the upstream and its requests. -/
structure Accounted (single : Group → Bool) (total : Nat) (s : UpState) : Prop where
  flag : ∀ g, (s.groups.group g).single = single g
  tries : s.groups.tries = total
  conns : ∀ g (k : Nat) (p : RrPeer), (s.groups.group g).peer[k]? = some p →
    p.conns = holders s.requests g k
  max : ∀ g, ∀ p ∈ (s.groups.group g).peer, p.maxConns ≠ 0 → p.conns ≤ p.maxConns
  request : ∀ q ∈ s.requests, q.Right single total

variable {single : Group → Bool} {total : Nat} {s : UpState} {q : UpRequest}

theorem tries_eq (u : PeerGroups) :
    u.tries = (u.group .primary).peer.length + (u.group .backup).peer.length := by
  rcases u with ⟨primary, _ | next⟩ <;> rfl

variable {r : Nat}

theorem holders_set {requests : List UpRequest} (h : requests[r]? = some q) (q' : UpRequest)
    (g : Group) (k : Nat) :
    (holders (requests.set r q') g k : Int) =
      holders requests g k - (if q.Holds g k then 1 else 0) + if q'.Holds g k then 1 else 0 := by
  obtain ⟨hlt, hq⟩ := List.getElem?_eq_some_iff.mp h
  have hle := boole_getElem_le_countP (p := fun q => q.Holds g k) hlt
  rw [holders, holders, countP_set hlt]
  rw [hq] at hle ⊢
  split_ifs at hle ⊢ <;> omega

variable {q' : UpRequest}

theorem forall_mem_set {P : UpRequest → Prop} {requests : List UpRequest}
    (h : ∀ q ∈ requests, P q) (h' : P q') : ∀ q ∈ requests.set r q', P q := fun q hq =>
  (mem_or_eq_of_mem_set hq).elim (h q) fun heq => heq ▸ h'

variable {u' : PeerGroups}

theorem Changed.length {k : Nat} (h : Changed u u' g k f) (g' : Group) :
    (u'.group g').peer.length = (u.group g').peer.length := by
  by_cases hg : g' = g
  · subst hg
    have hiff : ∀ j, (u'.group g').peer.length ≤ j ↔ (u.group g').peer.length ≤ j := fun j => by
      rw [← getElem?_eq_none_iff, ← getElem?_eq_none_iff,
        ← map_eq_none_iff (f := RrPeer.limits), h.limits j, map_eq_none_iff]
    exact le_antisymm ((hiff _).mpr le_rfl) ((hiff _).mp le_rfl)
  · rw [h.other g' hg]

theorem Accounted.unchanged (h : Accounted single total s)
    (hq : s.requests[r]? = some q) (hu : Unchanged s.groups u') (hold : ∀ g k, q.Holds g k = false)
    (hnew : ∀ g k, q'.Holds g k = false) (hright : q'.Right single total) :
    Accounted single total ⟨u', s.requests.set r q'⟩ := by
  have hpeer : ∀ g (k : Nat) (p : RrPeer), (u'.group g).peer[k]? = some p →
      ∃ p₀ : RrPeer, (s.groups.group g).peer[k]? = some p₀ ∧ p.limits = p₀.limits :=
        fun g k p hp => by
    have hk := hu.limits g k
    rw [hp, Option.map_some] at hk
    obtain ⟨p₀, hp₀, heq⟩ := map_eq_some_iff.mp hk.symm
    exact ⟨p₀, hp₀, heq.symm⟩
  refine ⟨fun g => (hu.single g).trans (h.flag g), ?_, fun g k p hp => ?_, fun g p hp hmax => ?_,
    forall_mem_set h.request hright⟩
  · rw [tries_eq, (hu.limits .primary).length, (hu.limits .backup).length, ← tries_eq]
    exact h.tries
  · obtain ⟨p₀, hp₀, heq⟩ := hpeer g k p hp
    rw [(Prod.mk.inj heq).1, h.conns g k p₀ hp₀, holders_set hq, hold, hnew]
    simp
  obtain ⟨k, hk⟩ := mem_iff_getElem?.mp hp
  obtain ⟨p₀, hp₀, heq⟩ := hpeer g k p hk
  rw [(Prod.mk.inj heq).2] at hmax ⊢
  rw [(Prod.mk.inj heq).1]
  exact h.max g p₀ (mem_of_getElem? hp₀) hmax

theorem Accounted.changed (h : Accounted single total s) (hq : s.requests[r]? = some q)
    {k : Nat} (hu : Changed s.groups u' g k f)
    (hold : ∀ g' k', (g', k') ≠ (g, k) → q.Holds g' k' = q'.Holds g' k')
    (hconns : ∀ n, f n = n - (if q.Holds g k then 1 else 0) + if q'.Holds g k then 1 else 0)
    (hmax : ∀ p : RrPeer, (s.groups.group g).peer[k]? = some p →
      p.maxConns ≠ 0 → f p.conns ≤ p.maxConns)
    (hright : q'.Right single total) : Accounted single total ⟨u', s.requests.set r q'⟩ := by
  have hpeer : ∀ g' (j : Nat) (p : RrPeer), (u'.group g').peer[j]? = some p →
      ∃ p₀ : RrPeer, (s.groups.group g').peer[j]? = some p₀ ∧
        p.limits = if (g', j) = (g, k) then (f p₀.conns, p₀.maxConns) else p₀.limits :=
          fun g' j p hp => by
    by_cases hg : g' = g
    · subst hg
      have hj := hu.limits j
      rw [hp, Option.map_some] at hj
      obtain ⟨p₀, hp₀, heq⟩ := map_eq_some_iff.mp hj.symm
      exact ⟨p₀, hp₀, by simpa using heq.symm⟩
    · rw [hu.other g' hg] at hp
      exact ⟨p, hp, by rw [if_neg fun heq => hg (Prod.mk.inj heq).1]⟩
  refine ⟨fun g' => ?_, ?_, fun g' j p hp => ?_, fun g' p hp hne =>
    ?_, forall_mem_set h.request hright⟩
  · by_cases hg : g' = g
    · exact hg ▸ hu.single.trans (h.flag g)
    · exact (congrArg RrPeers.single (hu.other g' hg)).trans (h.flag g')
  · rw [tries_eq, hu.length, hu.length, ← tries_eq]
    exact h.tries
  · obtain ⟨p₀, hp₀, heq⟩ := hpeer g' j p hp
    rw [holders_set hq, ← h.conns g' j p₀ hp₀]
    split at heq
    next hsame =>
      obtain ⟨rfl, rfl⟩ := Prod.mk.inj hsame
      rw [(Prod.mk.inj heq).1]
      exact hconns p₀.conns
    next hother =>
      rw [(Prod.mk.inj heq).1, hold g' j hother]
      omega
  · obtain ⟨j, hj⟩ := mem_iff_getElem?.mp hp
    obtain ⟨p₀, hp₀, heq⟩ := hpeer g' j p hj
    split at heq
    next hsame =>
      obtain ⟨rfl, rfl⟩ := Prod.mk.inj hsame
      rw [(Prod.mk.inj heq).2] at hne ⊢
      rw [(Prod.mk.inj heq).1]
      exact hmax p₀ hp₀ hne
    next hother =>
      rw [(Prod.mk.inj heq).2] at hne ⊢
      rw [(Prod.mk.inj heq).1]
      exact h.max g' p₀ (mem_of_getElem? hp₀) hne

/-! ## Runs -/

theorem UpRequest.holds_eq_false (hphase : q.phase ≠ .holding) (g : Group) (k : Nat) :
    q.Holds g k = false :=
  decide_eq_false fun h => hphase h.1

theorem UpRequest.init_tries {n : Nat} (hpos : 0 < u.tries) :
    (UpRequest.init u n).data.tries ≤ u.tries ∧ (UpRequest.init u n).data.tries ≠ 0 := by
  have hinit : (UpRequest.init u n).data.tries = if n ≠ 0 ∧ u.tries > n then n else u.tries := rfl
  rw [hinit]
  by_cases hmore : n ≠ 0 ∧ u.tries > n
  · rw [if_pos hmore]
    exact ⟨hmore.2.le, hmore.1⟩
  · rw [if_neg hmore]
    exact ⟨le_rfl, hpos.ne'⟩

theorem UpRequest.right_init {n : Nat} (hpos : 0 < u.tries) :
    (UpRequest.init u n).Right single u.tries := by
  obtain ⟨hle, hne⟩ := @init_tries u n hpos
  refine ⟨nofun, nofun, nodup_nil, fun _ => ⟨?_, fun _ => hne⟩, fun hphase =>
    absurd rfl hphase, nofun⟩
  exact (zero_add _).trans_le hle

theorem Accounted.init (h : Accounted single total s) (htotal : 0 < total) (n : Nat) :
    Accounted single total (upStep s (.init n)) := by
  have htries := h.tries
  refine ⟨h.flag, h.tries, fun g k p hp => ?_, h.max, fun q hq => ?_⟩
  · have hnone : (UpRequest.init s.groups n).Holds g k = false :=
      UpRequest.holds_eq_false (show Phase.idle ≠ .holding from nofun) g k
    rw [h.conns g k p hp]
    simp only [upStep, holders, countP_append, countP_singleton, hnone, Bool.false_eq_true,
      if_false, add_zero]
  · rcases mem_append.mp hq with hold | hnew
    · exact h.request q hold
    · rw [mem_singleton.mp hnew, ← htries]
      exact UpRequest.right_init (htries ▸ htotal)

/-- A choice counts one connection more, of the peer that is held. -/
theorem Accounted.get (h : Accounted single total s) (r : Nat) (now : Int) :
    Accounted single total (upStep s (.get r now)) := by
  rw [upStep]
  split
  next => exact h
  next q hq =>
    split
    swap
    next => exact h
    next hmay =>
      have hright := h.request q (mem_of_getElem? hq)
      have hphase : q.phase ≠ .holding := by
        rcases hmay with hagain | ⟨hidle, -⟩
        · exact hagain ▸ Phase.again_ne_holding
        · exact hidle ▸ Phase.idle_ne_holding
      have hbudget : 0 < (q.afterGet q.data .busy).attempts ∧
          (q.afterGet q.data .busy).attempts + q.data.tries ≤ total + 1 ∧ q.data.tries ≠ 0 := by
        simp only [UpRequest.afterGet]
        rcases hmay with hagain | ⟨hidle, hmore⟩
        · rw [if_pos hagain]
          exact hright.busy (hagain ▸ Phase.again_ne_idle)
        obtain ⟨hle, hfirst⟩ := hright.idle hidle
        rw [if_neg (hidle ▸ Phase.idle_ne_again)]
        refine ⟨Nat.succ_pos _, by omega, fun hzero => ?_⟩
        rcases hmore with hnone | htries
        · exact hfirst hnone hzero
        · exact htries hzero
      rcases hget : getRoundRobinPeer now s.groups q.data with ⟨u', d', turn⟩
      have hspec := getRoundRobinPeer_spec now s.groups q.data
      rw [hget] at hspec
      simp only
      rcases hspec with ⟨k, p, hp, hfull, hu, tried, hd, hbit⟩ | ⟨hu, ⟨tried, hd, hprimary⟩ | hd⟩
      · obtain ⟨rfl, rfl⟩ := Prod.mk.inj hd
        set q' := q.afterGet { q.data with current := some k, tried := tried } .ok
        have hold : ∀ g k, q.Holds g k = false := UpRequest.holds_eq_false hphase
        have hnew : ∀ g' k', q'.Holds g' k' = decide ((g', k') = (q.data.peers, k)) :=
          fun g' k' => by
          simp only [UpRequest.Holds, q', UpRequest.afterGet, Option.some.injEq,
            true_and, Prod.mk.injEq,
            eq_comm]
        refine h.changed hq hu (fun g' k' hother => ?_) (fun n => ?_) (fun p' hp' hmax => ?_) ?_
        · rw [hold, hnew, decide_eq_false hother]
        · rw [hold, hnew, decide_eq_true rfl]
          simp
        · obtain rfl : p' = p := some.inj (hp'.symm.trans hp)
          rw [RrPeer.full, decide_eq_false_iff_not] at hfull
          omega
        have hgot : q'.got = q.got ++ [(q.data.peers, k)] := rfl
        have hflag := h.flag q.data.peers
        refine ⟨fun j hj hmany => ?_, fun j hj => ?_, ?_, fun hidle =>
          absurd hidle.symm Phase.idle_ne_holding,
          fun _ => hbudget, fun _ => ⟨k, rfl⟩⟩
        · obtain ⟨-, rfl⟩ := hbit (hflag.trans hmany)
          rw [hgot] at hj
          rcases mem_append.mp hj with hbefore | hnow
          · show update q.data.tried k true j = true
            rw [update_apply]
            split
            · rfl
            · exact hright.tried j hbefore hmany
          · obtain rfl : j = k := (Prod.mk.inj (mem_singleton.mp hnow)).2
            exact update_self ..
        · rw [hgot] at hj
          rcases mem_append.mp hj with hbefore | hnow
          · exact hright.backup j hbefore
          · exact (Prod.mk.inj (mem_singleton.mp hnow)).1.symm
        · rw [hgot, filter_append]
          by_cases hmany : single q.data.peers = false
          · obtain ⟨hfree, -⟩ := hbit (hflag.trans hmany)
            refine List.Nodup.append hright.once (List.Nodup.filter _ (nodup_singleton _)) ?_
            intro x hx hx'
            obtain rfl := mem_singleton.mp (mem_of_mem_filter hx')
            have hset := hright.tried k (mem_of_mem_filter hx) hmany
            rw [hfree] at hset
            exact Bool.false_ne_true hset
          · have hone : single q.data.peers = true := Bool.eq_true_of_not_eq_false hmany
            rw [filter_singleton, hone]
            exact (append_nil _).symm ▸ hright.once
      · obtain ⟨rfl, rfl⟩ := Prod.mk.inj hd
        refine h.unchanged hq hu (UpRequest.holds_eq_false hphase)
          (UpRequest.holds_eq_false Phase.again_ne_holding) ?_
        -- nothing was got from the second group before
        have hnone : ∀ k, (Group.backup, k) ∉ q.got := fun k hk => by
          have hbackup := hright.backup k hk
          rw [hprimary] at hbackup
          exact absurd hbackup Group.primary_ne_backup
        exact ⟨fun k hk => absurd hk (hnone k), fun k hk => absurd hk (hnone k), hright.once,
          fun hidle => absurd hidle Phase.again_ne_idle, fun _ => hbudget,
          fun hholding => absurd hholding Phase.again_ne_holding⟩
      · obtain ⟨rfl, rfl⟩ := Prod.mk.inj hd
        refine h.unchanged hq hu (UpRequest.holds_eq_false hphase)
          (UpRequest.holds_eq_false Phase.busy_ne_holding) ?_
        exact ⟨hright.tried, hright.backup, hright.once, fun hidle =>
          absurd hidle Phase.busy_ne_idle,
          fun _ => hbudget, fun hholding => absurd hholding Phase.busy_ne_holding⟩

/-- Giving a peer back counts one connection less. -/
theorem Accounted.free (h : Accounted single total s) (r : Nat) (now : Int) (failed : Bool) :
    Accounted single total (upStep s (.free r now failed)) := by
  rw [upStep]
  split
  next => exact h
  next q hq =>
    split
    swap
    next => exact h
    next hphase =>
      have hright := h.request q (mem_of_getElem? hq)
      obtain ⟨k, hcurrent⟩ := hright.holding hphase
      obtain ⟨hu, tries, hd, htries⟩ := freeRoundRobinPeer_spec now failed s.groups q.data hcurrent
      rcases hfree : freeRoundRobinPeer now failed s.groups q.data with ⟨u', d'⟩
      rw [hfree] at hu hd
      simp only at hu hd ⊢
      subst hd
      obtain ⟨hfirst, hle, hne⟩ := hright.busy (by rw [hphase]; exact nofun)
      have hnew : ∀ g k,
        UpRequest.Holds { q with data := { q.data with tries := tries }, phase := .idle } g k =
          false := UpRequest.holds_eq_false nofun
      have hold : ∀ g' k', q.Holds g' k' = decide ((g', k') = (q.data.peers, k)) := fun g' k' => by
        simp only [UpRequest.Holds, hphase, hcurrent, Option.some.injEq,
          true_and, Prod.mk.injEq, eq_comm]
      refine h.changed hq hu (fun g' k' hother => ?_) (fun n => ?_) (fun p hp hmax => ?_) ?_
      · rw [hold, hnew, decide_eq_false hother]
      · rw [hold, hnew, decide_eq_true rfl]
        simp
      · have hbefore := h.max q.data.peers p (mem_of_getElem? hp) hmax
        omega
      refine ⟨hright.tried, hright.backup, hright.once, fun _ => ⟨?_, fun hzero => ?_⟩,
        fun hidle => absurd rfl hidle, nofun⟩
      · show q.attempts + tries ≤ total
        omega
      · have hnone : q.attempts = 0 := hzero
        omega

theorem Accounted.run (h : Accounted single total s) (htotal : 0 < total) (events : List UpEvent) :
    Accounted single total (upRun s events) := by
  induction events generalizing s with
  | nil => exact h
  | cons event events ih =>
    refine ih ?_
    cases event with
    | init n => exact h.init htotal n
    | get r now => exact h.get r now
    | free r now failed => exact h.free r now failed

end Nginx.Http.Upstream
