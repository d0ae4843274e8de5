/-
  Http/Upstream/Keepalive.lean --- the connections that are kept open to upstream servers
  (`src/http/modules/ngx_http_upstream_keepalive_module.c`).

  A cache item, a connection and a request have numbers.  The timers are left out: a
  connection may time out at any time.
-/
import Nginx.Core.Base
import Nginx.Foundation.Handles

set_option autoImplicit false

namespace Nginx.Http.Upstream.Keepalive

open List Foundation Option Function

/-- What `ngx_http_upstream_keepalive_module.c` reads of `ngx_connection_t`. -/
structure Connection where
  requests : Nat := 0
  close : Bool := false
  ready : Bool := false
  eof : Bool := false
  readError : Bool := false
  readTimedout : Bool := false
  writeError : Bool := false
  writeTimedout : Bool := false
  deriving DecidableEq

/-- `ngx_http_upstream_keepalive_cache_t` -/
structure Item where
  connection : Nat
  sockaddr : Bytes
  deriving DecidableEq

/-- `ngx_peer_connection_t` of a request, with the address that its balancer chose last. -/
structure Peer where
  connection : Option Nat
  sockaddr : Bytes
  deriving DecidableEq

/-- `ngx_http_upstream_keepalive_srv_conf_t`; `keepalive 0` is refused. -/
structure Conf where
  maxCached : Nat
  requests : Nat
  positive : 0 < maxCached

/-- The queues of items, the requests, and the connections with their `data` (an item), the
address they were connected to, which of them were opened and closed, and those whose SSL shutdown
goes on. -/
structure State where
  cache : List Nat
  free : List Nat
  items : Nat → Item
  peers : List Peer
  conns : Nat → Connection
  data : Nat → Nat
  connected : Nat → Bytes
  handles : Handles
  shutting : List Nat

/-- `ngx_http_upstream_init_keepalive` -/
def start (conf : Conf) : State :=
  ⟨[], (List.range conf.maxCached).reverse, fun _ => ⟨0, []⟩, [], fun _ =>
    {}, fun _ => 0, fun _ => [], ⟨0, []⟩, []⟩

/-- `ngx_http_upstream_keepalive_close`, where `ngx_ssl_shutdown` may be `NGX_AGAIN` -/
def keepaliveClose (s : State) (c : Nat) (again : Bool) : State :=
  if again then { s with shutting := c :: s.shutting } else { s with handles := s.handles.close c }

/-- What the close handler meets: `recv` has nothing yet, `ngx_handle_read_event` is `NGX_OK`, and
the SSL shutdown. -/
structure Recv where
  nothing : Bool
  handled : Bool
  again : Bool

/-- `ngx_http_upstream_keepalive_close_handler` from `close` on -/
def closeItem (s : State) (c : Nat) (again : Bool) : State :=
  let item := s.data c
  let s := keepaliveClose s c again
  { s with cache := s.cache.erase item, free := item :: s.free.erase item }

/-- `ngx_http_upstream_keepalive_close_handler` -/
def closeHandler (s : State) (c : Nat) (recv : Recv) : State :=
  if (s.conns c).close || (s.conns c).readTimedout then closeItem s c recv.again
  else if recv.nothing then
    let s := { s with conns := update s.conns c { s.conns c with ready := false } }
    if recv.handled then s else closeItem s c recv.again
  else closeItem s c recv.again

/-- `ngx_http_upstream_get_keepalive_peer` for an address that the balancer chose, and what
`ngx_event_connect_peer` and `ngx_http_upstream_connect` do with the connection. -/
def getPeer (s : State) (r : Nat) (sockaddr : Bytes) (connected : Bool) : State :=
  match s.cache.find? fun q => (s.items q).sockaddr == sockaddr with
  | some q =>
    let c := (s.items q).connection
    { s with
      cache := s.cache.erase q
      free := q :: s.free
      peers := s.peers.set r ⟨some c, sockaddr⟩
      conns := update s.conns c { s.conns c with requests := (s.conns c).requests + 1 } }
  | none =>
    if connected then
      let c := s.handles.opened
      { s with
        peers := s.peers.set r ⟨some c, sockaddr⟩
        conns := update s.conns c { requests := 1 }
        connected := update s.connected c sockaddr
        handles := s.handles.openNew }
    else { s with peers := s.peers.set r ⟨none, sockaddr⟩ }

/-- What `ngx_http_upstream_free_keepalive_peer` is told: whether `state` has `NGX_PEER_FAILED`,
what it reads of `u` and of the process, and what the functions it calls return. -/
structure FreeCall where
  failed : Bool
  keepalive : Bool
  requestBodySent : Bool
  exiting : Bool
  handled : Bool
  again : Bool
  recv : Recv

/-- The item that is taken; none is the sentinel of an empty queue. -/
def takeItem (s : State) (again : Bool) : Option (Nat × State) :=
  match s.free with
  | [] => s.cache.getLast?.map fun q =>
    (q, keepaliveClose { s with cache := s.cache.dropLast } (s.items q).connection again)
  | q :: free => some (q, { s with free })

/-- The connection `c` of a request is put into the item `q`. -/
def saveItem (s : State) (r q c : Nat) (sockaddr : Bytes) : State :=
  { s with
    cache := q :: s.cache
    items := update s.items q ⟨c, sockaddr⟩
    peers := s.peers.set r ⟨none, sockaddr⟩
    data := update s.data c q }

/-- Whether a connection is `invalid`. -/
def invalid (conf : Conf) (c : Connection) (call : FreeCall) : Bool :=
  call.failed || c.eof || c.readError || c.readTimedout || c.writeError || c.writeTimedout ||
    decide (conf.requests ≤
      c.requests) || !call.keepalive || !call.requestBodySent || call.exiting || !call.handled

/-- `ngx_http_upstream_free_keepalive_peer` -/
def freePeer (conf : Conf) (s : State) (r : Nat) (pc : Peer) (call : FreeCall) : Option State :=
  match pc.connection with
  | none => some s
  | some c =>
    if invalid conf (s.conns c) call then some s
    else
      (takeItem s call.again).map fun (q, s) =>
        let s := saveItem s r q c pc.sockaddr
        if (s.conns c).ready then closeHandler s c call.recv else s

/-- What may happen. -/
inductive Event where
  /-- a request begins -/
  | request
  /-- a request without a connection asks for one; `none` is a balancer that is not `NGX_OK` -/
  | get (r : Nat) (sockaddr : Option Bytes) (connected : Bool)
  | free (r : Nat) (call : FreeCall)
  /-- a request closes its connection -/
  | closePeer (r : Nat)
  /-- something is seen on a connection -/
  | io (c : Nat) (seen : Connection)
  /-- an event of a cached connection -/
  | read (c : Nat) (recv : Recv)
  /-- an SSL shutdown goes on -/
  | shutdown (c : Nat) (again : Bool)

/-- One event; none if there is no such event now. -/
def step (conf : Conf) (s : State) : Event → Option State
  | .request => some { s with peers := s.peers ++ [⟨none, []⟩] }
  | .get r sockaddr connected =>
    s.peers[r]?.bind fun pc =>
      if pc.connection.isSome then none
      else some (sockaddr.elim s fun sockaddr => getPeer s r sockaddr connected)
  | .free r call => s.peers[r]?.bind fun pc => freePeer conf s r pc call
  | .closePeer r =>
    s.peers[r]?.bind fun pc =>
      pc.connection.map fun c =>
        { s with
          handles := s.handles.close c, peers := s.peers.set r { pc with connection := none } }
  | .io c seen => some { s with conns := update s.conns c seen }
  | .read c recv =>
    if ∃ q ∈ s.cache, (s.items q).connection = c then some (closeHandler s c recv) else none
  | .shutdown c again =>
    if c ∈ s.shutting then some (keepaliveClose { s with shutting := s.shutting.erase c } c again)
      else none

/-- The states that a run comes to. -/
inductive Reachable (conf : Conf) : State → Prop
  | start : Reachable conf (start conf)
  | step {s s' : State} (event : Event) (h : Reachable conf s)
    (hstep : step conf s event = some s') : Reachable conf s'

/-! ## Who owns a connection -/

def State.itemHolds (s : State) (q c : Nat) : Nat := if (s.items q).connection = c then 1 else 0

def Peer.holds (pc : Peer) (c : Nat) : Nat := if pc.connection = some c then 1 else 0

/-- In how many places a connection is. -/
def State.own (s : State) (c : Nat) : Nat :=
  tally s.itemHolds s.cache c + tally Peer.holds s.peers c + s.shutting.count c

/-- Each item is in one queue and each open connection in one place; the connection of a cached
item leads back to the item and goes to its address, and the one of a request goes to what its
balancer chose. -/
structure Inv (conf : Conf) (s : State) : Prop where
  queues : (s.cache ++ s.free).Perm (List.range conf.maxCached)
  owned : s.handles.Accounted s.own
  back : ∀ q ∈ s.cache, s.data (s.items q).connection = q
  goes : ∀ q ∈ s.cache, s.connected (s.items q).connection = (s.items q).sockaddr
  held : ∀ pc ∈ s.peers, ∀ c, pc.connection = some c → s.connected c = pc.sockaddr

variable {conf : Conf} {s s' : State} {q r c d : Nat} {pc : Peer} {again : Bool}

theorem Inv.nodup (h : Inv conf s) : (s.cache ++ s.free).Nodup := h.queues.nodup_iff.mpr nodup_range

theorem Inv.notMem_free (h : Inv conf s) (hq : q ∈ s.cache) : q ∉ s.free :=
  fun hfree => (nodup_append.mp h.nodup).2.2 q hq q hfree rfl

theorem tally_erase (hq : q ∈ s.cache) (c : Nat) :
    tally s.itemHolds s.cache c = tally s.itemHolds (s.cache.erase q) c + s.itemHolds q c := by
  rw [tally_perm (perm_cons_erase hq), tally_cons, add_comm]

/-- The peer `r` without a connection is given one, or one with a connection loses it. -/
theorem tally_peer (hpc : s.peers[r]? = some pc) (pc' : Peer) (c : Nat) :
    tally Peer.holds (s.peers.set r pc') c + pc.holds c =
      tally Peer.holds s.peers c + pc'.holds c := tally_set hpc pc' c

theorem Peer.holds_none (sockaddr : Bytes) (c : Nat) :
    Peer.holds ⟨none, sockaddr⟩ c = 0 := if_neg (some_ne_none c).symm

theorem Peer.holds_some (d : Nat) (hc : pc.connection = some c) :
    pc.holds d = if d = c then 1 else 0 := by
  rw [Peer.holds, hc]
  exact if_congr (some_inj.trans eq_comm) rfl rfl

theorem own_item (hq : q ∈ s.cache) : 1 ≤ tally s.itemHolds s.cache (s.items q).connection := by
  have hle : s.itemHolds q _ ≤ tally s.itemHolds s.cache _ := le_tally hq (s.items q).connection
  rwa [State.itemHolds, if_pos rfl] at hle

theorem own_peer (hpc : pc ∈ s.peers) (hc : pc.connection = some c) :
    1 ≤ tally Peer.holds s.peers c := by
  have hle : pc.holds c ≤ tally Peer.holds s.peers c := le_tally hpc c
  rwa [Peer.holds, if_pos hc] at hle

/-- A connection in a cached item is not in another place. -/
theorem Inv.alone (h : Inv conf s) (hq : q ∈ s.cache) :
    (∀ q' ∈ s.cache, (s.items q').connection = (s.items q).connection → q' = q) ∧
      ∀ pc ∈ s.peers, pc.connection ≠ some (s.items q).connection := by
  refine ⟨fun q' hq' heq => ?_, fun pc hpc hc => ?_⟩
  · rw [← h.back q' hq', heq, h.back q hq]
  have hle := h.owned.le_one (s.items q).connection
  have hitem := own_item hq
  have hpeer := own_peer hpc hc
  rw [State.own] at hle
  omega

theorem Inv.alive_item (h : Inv conf s) (hq : q ∈ s.cache) :
    (s.items q).connection < s.handles.opened ∧ (s.items q).connection ∉ s.handles.closed := by
  have hitem := own_item hq
  refine h.owned.open_of_owned ?_
  rw [State.own]
  omega

theorem Inv.alive_peer (h : Inv conf s) (hpc : pc ∈ s.peers) (hc : pc.connection = some c) :
    c < s.handles.opened ∧ c ∉ s.handles.closed := by
  have hpeer := own_peer hpc hc
  refine h.owned.open_of_owned ?_
  rw [State.own]
  omega

theorem queues_erase (h : Inv conf s) (hq : q ∈ s.cache) :
    (s.cache.erase q ++ q :: s.free).Perm (List.range conf.maxCached) :=
  perm_middle.trans (((perm_cons_erase hq).symm.append_right s.free).trans h.queues)

/-! ## Operations -/

/-- A cached connection is closed, or its SSL shutdown begins. -/
theorem closeItem_inv (h : Inv conf s) (hq : q ∈ s.cache) (again : Bool) :
    Inv conf (closeItem s (s.items q).connection again) := by
  have hqueues := queues_erase h hq
  rw [← erase_of_not_mem (h.notMem_free hq)] at hqueues
  rw [closeItem, h.back q hq]
  cases again with
  | false =>
    refine ⟨hqueues, h.owned.close fun c => ?_, fun q' hq' => h.back q' (mem_of_mem_erase hq'),
      fun q' hq' => h.goes q' (mem_of_mem_erase hq'), h.held⟩
    change tally s.itemHolds s.cache c + tally Peer.holds s.peers c + s.shutting.count c =
      tally s.itemHolds (s.cache.erase q) c + tally Peer.holds s.peers c + s.shutting.count c + _
    rw [tally_erase hq, State.itemHolds]
    simp only [eq_comm]
    omega
  | true =>
    refine ⟨hqueues, h.owned.congr fun c => ?_, fun q' hq' => h.back q' (mem_of_mem_erase hq'),
      fun q' hq' => h.goes q' (mem_of_mem_erase hq'), h.held⟩
    change tally s.itemHolds (s.cache.erase q) c + tally Peer.holds s.peers c +
      ((s.items q).connection :: s.shutting).count c =
      tally s.itemHolds s.cache c + tally Peer.holds s.peers c + s.shutting.count c
    rw [tally_erase hq, State.itemHolds, count_cons]
    simp only [beq_iff_eq]
    omega

/-- The connection of a request is put into the first free item. -/
theorem saveItem_inv {free : List Nat} (h : Inv conf s) (hfree : s.free = q :: free)
    (hpc : s.peers[r]? = some pc)
    (hc : pc.connection = some c) : Inv conf (saveItem { s with free } r q c pc.sockaddr) := by
  have hmem := mem_of_getElem? hpc
  have hne : ∀ q' ∈ s.cache, q' ≠ q := fun q' hq' heq =>
    h.notMem_free hq' (by rw [hfree, heq]; exact mem_cons_self)
  have hother : ∀ q' ∈ s.cache, (s.items q').connection ≠ c := fun q' hq' heq =>
    (h.alone hq').2 pc hmem (hc.trans (congrArg some heq.symm))
  refine ⟨?_, h.owned.congr fun d => ?_, forall_mem_cons.mpr ⟨?_, fun q' hq' => ?_⟩,
    forall_mem_cons.mpr ⟨?_, fun q' hq' => ?_⟩, fun pc' hpc' d hd => ?_⟩
  · have hqueues := h.queues
    rw [hfree] at hqueues
    exact perm_middle.symm.trans hqueues
  · have hset := tally_peer hpc ⟨none, pc.sockaddr⟩ d
    have hcache : tally (saveItem { s with free } r q c pc.sockaddr).itemHolds s.cache d =
      tally s.itemHolds s.cache d :=
      tally_congr fun q' hq' => by
        change (if (update s.items q _ q').connection = d then 1 else 0) = _
        rw [update_of_ne (hne q' hq')]
        rfl
    have hnew : (saveItem { s with free } r q c pc.sockaddr).itemHolds q d = pc.holds d := by
      change (if (update s.items q _ q).connection = d then 1 else 0) = _
      rw [update_self, Peer.holds_some d hc]
      exact if_congr eq_comm rfl rfl
    rw [Peer.holds_none] at hset
    change tally _ (q :: s.cache) d + tally Peer.holds
      (s.peers.set r ⟨none, pc.sockaddr⟩) d + s.shutting.count d =
      tally s.itemHolds s.cache d + tally Peer.holds s.peers d + s.shutting.count d
    rw [tally_cons, hcache, hnew]
    omega
  · change update s.data c q (update s.items q _ q).connection = q
    rw [update_self, update_self]
  · change update s.data c q (update s.items q _ q').connection = q'
    rw [update_of_ne (hne q' hq'), update_of_ne (hother q' hq'), h.back q' hq']
  · change s.connected (update s.items q _ q).connection = (update s.items q _ q).sockaddr
    rw [update_self, h.held pc hmem c hc]
  · change s.connected (update s.items q _ q').connection = (update s.items q _ q').sockaddr
    rw [update_of_ne (hne q' hq'), h.goes q' hq']
  · rcases mem_or_eq_of_mem_set hpc' with hold | rfl
    · exact h.held pc' hold d hd
    · cases hd

/-- An item is always found, and but for it the queues are in order. -/
theorem takeItem_inv (h : Inv conf s) (again : Bool) :
    ∃ q s₁ s₂, takeItem s again = some (q, s₁) ∧ Inv conf s₂ ∧
      s₂.free = q :: s₁.free ∧ s₁ = { s₂ with free := s₁.free } ∧
      s₁.peers = s.peers ∧ s₁.items = s.items ∧ s₁.cache ⊆ s.cache := by
  cases hfree : s.free with
  | cons q free =>
    exact ⟨q, { s with free }, s, by
      simp only [takeItem, hfree], h, hfree, rfl, rfl, rfl, fun _ hq => hq⟩
  | nil =>
    have hlen := h.queues.length_eq
    have hpos := conf.positive
    rw [hfree, append_nil, length_range] at hlen
    rcases eq_nil_or_concat' s.cache with hnil | ⟨init, q, hcache⟩
    · rw [hnil, length_nil] at hlen
      omega
    have hmem : q ∈ s.cache := hcache ▸ mem_append_right init mem_cons_self
    have hinit : q ∉ init := fun hq => by
      have hnodup := (nodup_append.mp h.nodup).1
      rw [hcache] at hnodup
      exact (nodup_append.mp hnodup).2.2 q hq q mem_cons_self rfl
    have herase : s.cache.erase q = s.cache.dropLast := by
      rw [hcache, dropLast_concat, erase_append_right _ hinit, erase_cons_head, append_nil]
    have hback := h.back q hmem
    refine ⟨q, keepaliveClose { s with cache := s.cache.dropLast } (s.items q).connection again,
      _, ?_,
      closeItem_inv h hmem again, ?_⟩
    · simp only [takeItem, hfree, hcache, getLast?_concat, map_some]
    cases again
    · refine ⟨?_, ?_, rfl, rfl, dropLast_subset s.cache⟩
      · simp [closeItem, keepaliveClose, hback, hfree]
      · simp only [closeItem, keepaliveClose, hback, herase, Bool.false_eq_true, if_false]
    · refine ⟨?_, ?_, rfl, rfl, dropLast_subset s.cache⟩
      · simp [closeItem, keepaliveClose, hback, hfree]
      · simp only [closeItem, keepaliveClose, hback, herase, if_true]

theorem closeHandler_inv (h : Inv conf s) (hq : q ∈ s.cache) (recv : Recv) :
    Inv conf (closeHandler s (s.items q).connection recv) := by
  have hready : ∀ conns, Inv conf { s with conns } := fun _ =>
    ⟨h.queues, h.owned, h.back, h.goes, h.held⟩
  have hclose : ∀ conns, Inv conf (closeItem { s with conns } (s.items q).connection recv.again) :=
    fun conns => closeItem_inv (hready conns) hq recv.again
  rw [closeHandler]
  split
  · exact hclose s.conns
  split
  · dsimp only
    split
    · exact hready _
    · exact hclose _
  · exact hclose s.conns

theorem closeItem_cache (s : State) (c : Nat) (again : Bool) :
    (closeItem s c again).items = s.items ∧ (closeItem s c again).cache ⊆ s.cache := by
  cases again
  · exact ⟨rfl, erase_subset⟩
  · exact ⟨rfl, erase_subset⟩

theorem closeHandler_cache (s : State) (c : Nat) (recv : Recv) :
    (closeHandler s c recv).items = s.items ∧ (closeHandler s c recv).cache ⊆ s.cache := by
  rw [closeHandler]
  split
  · exact closeItem_cache s c recv.again
  split
  · dsimp only
    split
    · exact ⟨rfl, fun _ hq => hq⟩
    · exact closeItem_cache _ c recv.again
  · exact closeItem_cache s c recv.again

/-- A connection is put into the cache only from the request that is freed, if it is valid. -/
theorem freePeer_inv (h : Inv conf s) (hpc : s.peers[r]? = some pc) (call : FreeCall) :
    ∃ s', freePeer conf s r pc call = some s' ∧ Inv conf s' ∧
      ∀ q ∈ s'.cache, (q ∈ s.cache ∧ s'.items q = s.items q) ∨
        ∃ c, pc.connection = some c ∧ s'.items q = ⟨c, pc.sockaddr⟩ ∧
          invalid conf (s.conns c) call = false := by
  rw [freePeer]
  cases hc : pc.connection with
  | none => exact ⟨s, rfl, h, fun q hq => .inl ⟨hq, rfl⟩⟩
  | some c =>
    by_cases hvalid : invalid conf (s.conns c) call = true
    · exact ⟨s, if_pos hvalid, h, fun q hq => .inl ⟨hq, rfl⟩⟩
    obtain ⟨q, s₁, s₂, htake, hinv, hfree, heq, hpeers, hitems, hcache⟩ := takeItem_inv h call.again
    have hpeers₂ : s₂.peers = s.peers := (congrArg State.peers heq).symm.trans hpeers
    have hsave := saveItem_inv hinv hfree (hpeers₂ ▸ hpc) hc
    rw [← heq] at hsave
    have hnew : ∀ q' ∈ (saveItem s₁ r q c pc.sockaddr).cache,
        (q' ∈ s.cache ∧ (saveItem s₁ r q c pc.sockaddr).items q' = s.items q') ∨
          ∃ c', some c = some c' ∧ (saveItem s₁ r q c pc.sockaddr).items q' = ⟨c', pc.sockaddr⟩ ∧
            invalid conf (s.conns c') call = false := fun q' hq' => by
      change _ ∈ q :: s₁.cache at hq'
      change (_ ∧ update s₁.items q _ q' = _) ∨ ∃ c', _ ∧ update s₁.items q _ q' = _ ∧ _
      by_cases hqq : q' = q
      · exact .inr ⟨c, rfl, by rw [hqq, update_self], eq_false_of_ne_true hvalid⟩
      · rw [update_of_ne hqq, hitems]
        exact .inl ⟨hcache ((mem_cons.mp hq').resolve_left hqq), rfl⟩
    dsimp only
    rw [if_neg hvalid, htake, map_some]
    dsimp only
    split
    · have hclose := closeHandler_inv hsave (q := q) mem_cons_self call.recv
      rw [show ((saveItem s₁ r q c pc.sockaddr).items q).connection = c from
        congrArg Item.connection (update_self q _ s₁.items)] at hclose
      obtain ⟨hsame, hsub⟩ := closeHandler_cache (saveItem s₁ r q c pc.sockaddr) c call.recv
      refine ⟨_, rfl, hclose, fun q' hq' => ?_⟩
      rw [hsame]
      exact hnew q' (hsub hq')
    · exact ⟨_, rfl, hsave, hnew⟩

/-- A request is handed the connection of an item that goes where its balancer chose, or a new one.
-/
theorem getPeer_inv (h : Inv conf s) (hpc : s.peers[r]? = some pc)
    (hnone : pc.connection = none) (sockaddr : Bytes)
    (connected : Bool) :
    Inv conf (getPeer s r sockaddr connected) ∧
      ∀ q ∈ (getPeer s r sockaddr connected).cache, q ∈ s.cache ∧
        (getPeer s r sockaddr connected).items q = s.items q := by
  have hset : ∀ c d,
    tally Peer.holds (s.peers.set r ⟨c, sockaddr⟩) d =
    tally Peer.holds s.peers d + Peer.holds ⟨c, sockaddr⟩ d := by
    intro c d
    have hset := tally_peer hpc ⟨c, sockaddr⟩ d
    have hzero : pc.holds d = 0 := if_neg (by rw [hnone]; exact (some_ne_none d).symm)
    omega
  rw [getPeer]
  cases hfind : s.cache.find? fun q => (s.items q).sockaddr == sockaddr with
  | some q =>
    have hq := mem_of_find?_eq_some hfind
    have haddr : (s.items q).sockaddr = sockaddr := eq_of_beq (find?_some hfind :)
    refine ⟨⟨queues_erase h hq, h.owned.congr fun d => ?_, fun q' hq' =>
      h.back q' (mem_of_mem_erase hq'),
      fun q' hq' => h.goes q' (mem_of_mem_erase hq'), fun pc' hpc' d hd => ?_⟩, fun q' hq' =>
        ⟨mem_of_mem_erase hq', rfl⟩⟩
    · change tally s.itemHolds (s.cache.erase q) d + tally Peer.holds
        (s.peers.set r _) d + s.shutting.count d =
        tally s.itemHolds s.cache d + tally Peer.holds s.peers d + s.shutting.count d
      rw [tally_erase hq, hset, State.itemHolds, Peer.holds]
      simp only [some_inj]
      omega
    · rcases mem_or_eq_of_mem_set hpc' with hold | rfl
      · exact h.held pc' hold d hd
      · obtain rfl := some.inj hd
        exact (h.goes q hq).trans haddr
  | none =>
    cases connected with
    | false =>
      refine ⟨⟨h.queues, h.owned.congr fun d => ?_, h.back, h.goes, fun pc' hpc' d hd => ?_⟩,
        fun q hq => ⟨hq, rfl⟩⟩
      · change _ + tally Peer.holds (s.peers.set r _) d + _ = _
        rw [hset]
        rfl
      · rcases mem_or_eq_of_mem_set hpc' with hold | rfl
        · exact h.held pc' hold d hd
        · cases hd
    | true =>
      refine ⟨⟨h.queues, h.owned.openNew fun d => ?_, h.back, fun q hq =>
        ?_, fun pc' hpc' d hd => ?_⟩, fun q hq => ⟨hq, rfl⟩⟩
      · change tally s.itemHolds s.cache d + tally Peer.holds
          (s.peers.set r _) d + s.shutting.count d =
          tally s.itemHolds s.cache d + tally Peer.holds s.peers d + s.shutting.count d + _
        rw [hset, Peer.holds_some d rfl]
        omega
      · change update s.connected _ _ (s.items q).connection = _
        rw [update_of_ne (h.alive_item hq).1.ne]
        exact h.goes q hq
      · change update s.connected _ _ d = _
        rcases mem_or_eq_of_mem_set hpc' with hold | rfl
        · rw [update_of_ne (h.alive_peer hold hd).1.ne, h.held pc' hold d hd]
        · obtain rfl := some.inj hd
          rw [update_self]

/-- A request closes its connection. -/
theorem closePeer_inv (h : Inv conf s) (hpc : s.peers[r]? = some pc) (hc : pc.connection = some c) :
    Inv conf { s with
      handles := s.handles.close c, peers := s.peers.set r { pc with connection := none } } := by
  refine ⟨h.queues, h.owned.close fun d => ?_, h.back, h.goes, fun pc' hpc' d hd => ?_⟩
  · have hset := tally_peer hpc ⟨none, pc.sockaddr⟩ d
    rw [Peer.holds_none, Peer.holds_some d hc] at hset
    change tally s.itemHolds s.cache d + tally Peer.holds s.peers d + s.shutting.count d =
      tally s.itemHolds s.cache d + tally Peer.holds (s.peers.set r _) d + s.shutting.count d + _
    omega
  · rcases mem_or_eq_of_mem_set hpc' with hold | rfl
    · exact h.held pc' hold d hd
    · cases hd

/-- An SSL shutdown goes on, and the connection is closed at last. -/
theorem shutdown_inv (h : Inv conf s) (hc : c ∈ s.shutting) (again : Bool) :
    Inv conf (keepaliveClose { s with shutting := s.shutting.erase c } c again) := by
  have hperm := perm_cons_erase hc
  cases again with
  | false =>
    refine ⟨h.queues, h.owned.close fun d => ?_, h.back, h.goes, h.held⟩
    change _ + _ + s.shutting.count d = _ + _ + (s.shutting.erase c).count d + _
    rw [hperm.count_eq d, count_cons, ← add_assoc]
    exact congrArg (_ + ·) (if_congr (beq_iff_eq.trans eq_comm) rfl rfl)
  | true =>
    refine ⟨h.queues, h.owned.congr fun d => ?_, h.back, h.goes, h.held⟩
    change _ + _ + (c :: s.shutting.erase c).count d = _ + _ + s.shutting.count d
    rw [hperm.count_eq d]
    rfl

/-! ## Runs -/

theorem start_inv (conf : Conf) : Inv conf (start conf) where
  queues := reverse_perm _
  owned := Handles.accounted_none
  back _ hq := absurd hq not_mem_nil
  goes _ hq := absurd hq not_mem_nil
  held _ hpc := absurd hpc not_mem_nil

/-- What one event does: it keeps all in order, and puts into the cache the connection of a request
that is freed, at most. -/
theorem step_inv (h : Inv conf s) {event : Event} (hstep : step conf s event = some s') :
    Inv conf s' ∧ ∀ q ∈ s'.cache, (q ∈ s.cache ∧ s'.items q = s.items q) ∨
      ∃ r pc call c, event = .free r call ∧ s.peers[r]? = some pc ∧
        pc.connection = some c ∧ s'.items q = ⟨c, pc.sockaddr⟩ ∧
        invalid conf (s.conns c) call = false := by
  cases event with
  | request =>
    obtain rfl := some.inj hstep
    refine ⟨⟨h.queues, h.owned.congr fun d => ?_, h.back, h.goes, fun pc hpc c hc => ?_⟩,
      fun q hq => .inl ⟨hq, rfl⟩⟩
    · change _ + tally Peer.holds (s.peers ++ [⟨none, []⟩]) d + _ = _
      rw [tally_append]
      rfl
    · rcases mem_append.mp hpc with hold | hnew
      · exact h.held pc hold c hc
      · rw [mem_singleton.mp hnew] at hc
        cases hc
  | get r sockaddr connected =>
    obtain ⟨pc, hpc, hget⟩ := bind_eq_some_iff.mp hstep
    cases hc : pc.connection with
    | some c => simp [hc] at hget
    | none =>
      rw [hc, if_neg (by simp), some_inj] at hget
      cases sockaddr with
      | none =>
        obtain rfl : s = s' := hget
        exact ⟨h, fun q hq => .inl ⟨hq, rfl⟩⟩
      | some sockaddr =>
        obtain rfl : getPeer s r sockaddr connected = s' := hget
        obtain ⟨hinv, hcache⟩ := getPeer_inv h hpc hc sockaddr connected
        exact ⟨hinv, fun q hq => .inl (hcache q hq)⟩
  | free r call =>
    obtain ⟨pc, hpc, hfree⟩ := bind_eq_some_iff.mp hstep
    obtain ⟨next, hnext, hinv, hcache⟩ := freePeer_inv h hpc call
    obtain rfl := some.inj (hnext.symm.trans hfree)
    refine ⟨hinv, fun q hq => (hcache q hq).imp_right ?_⟩
    rintro ⟨c, hc, hitem, hvalid⟩
    exact ⟨r, pc, call, c, rfl, hpc, hc, hitem, hvalid⟩
  | closePeer r =>
    obtain ⟨pc, hpc, hclose⟩ := bind_eq_some_iff.mp hstep
    obtain ⟨c, hc, rfl⟩ := map_eq_some_iff.mp hclose
    exact ⟨closePeer_inv h hpc hc, fun q hq => .inl ⟨hq, rfl⟩⟩
  | io c seen =>
    obtain rfl := some.inj hstep
    exact ⟨⟨h.queues, h.owned, h.back, h.goes, h.held⟩, fun q hq => .inl ⟨hq, rfl⟩⟩
  | read c recv =>
    rw [step, ite_none_right_eq_some] at hstep
    obtain ⟨⟨q, hq, rfl⟩, hsome⟩ := hstep
    obtain rfl := some.inj hsome
    obtain ⟨hitems, hsub⟩ := closeHandler_cache s (s.items q).connection recv
    exact ⟨closeHandler_inv h hq recv, fun q' hq' => .inl ⟨hsub hq', by rw [hitems]⟩⟩
  | shutdown c again =>
    rw [step, ite_none_right_eq_some] at hstep
    obtain ⟨hc, hsome⟩ := hstep
    obtain rfl := some.inj hsome
    refine ⟨shutdown_inv h hc again, fun q hq => .inl ?_⟩
    cases again <;> exact ⟨hq, rfl⟩

theorem Reachable.inv (h : Reachable conf s) : Inv conf s := by
  induction h with
  | start => exact start_inv conf
  | step event _ hstep ih => exact (step_inv ih hstep).1

/-- In every state that a run comes to: each item is in one queue, no more connections are cached
than there are items, a cached connection is open, in one item and with no request, a request has
a connection to the address its balancer chose, no connection was closed twice, and what comes
into the cache was valid. -/
theorem keepalive_pool (conf : Conf) (s : State) (h : Reachable conf s) :
    ((s.cache ++ s.free).Nodup ∧ ∀ q, q ∈ s.cache ++ s.free ↔ q < conf.maxCached) ∧
      s.cache.length ≤ conf.maxCached ∧
      (∀ q ∈ s.cache, (s.items q).connection ∉ s.handles.closed ∧
        (∀ q' ∈ s.cache, (s.items q').connection = (s.items q).connection → q' = q) ∧
        ∀ pc ∈ s.peers, pc.connection ≠ some (s.items q).connection) ∧
      s.handles.closed.Nodup ∧
      (∀ pc ∈ s.peers, ∀ c, pc.connection = some c → c ∉ s.handles.closed ∧
        s.connected c = pc.sockaddr) ∧
      (∀ r pc call, s.peers[r]? = some pc → (freePeer conf s r pc call).isSome) ∧
      ∀ event s', step conf s event = some s' →
        ∀ q ∈ s'.cache, (q ∈ s.cache ∧ s'.items q = s.items q) ∨
        ∃ r pc call c, event = .free r call ∧ s.peers[r]? = some pc ∧
          pc.connection = some c ∧ s'.items q = ⟨c, pc.sockaddr⟩ ∧
          (call.keepalive ∧ call.requestBodySent) ∧ ¬call.failed ∧ ¬(s.conns c).eof ∧
          (¬(s.conns c).readError ∧ ¬(s.conns c).writeError) ∧
            ¬(s.conns c).readTimedout ∧ ¬(s.conns c).writeTimedout := by
  have hinv := h.inv
  refine ⟨⟨hinv.nodup, fun q => hinv.queues.mem_iff.trans mem_range⟩, ?_,
    fun q hq => ⟨(hinv.alive_item hq).2, hinv.alone hq⟩, hinv.owned.closed_once,
    fun pc hpc c hc => ⟨(hinv.alive_peer hpc hc).2, hinv.held pc hpc c hc⟩, fun r pc call hpc => ?_,
    fun event s' hstep q hq => ?_⟩
  · have hlen := hinv.queues.length_eq
    rw [length_append, length_range] at hlen
    omega
  · obtain ⟨next, hnext, -⟩ := freePeer_inv hinv hpc call
    rw [hnext]
    rfl
  refine ((step_inv hinv hstep).2 q hq).imp_right ?_
  rintro ⟨r, pc, call, c, hevent, hpc, hc, hitem, hvalid⟩
  refine ⟨r, pc, call, c, hevent, hpc, hc, hitem, ?_⟩
  simp only [invalid, Bool.or_eq_false_iff, Bool.not_eq_false'] at hvalid
  simp only [hvalid, Bool.false_eq_true, not_false_eq_true, and_self]

/-- The response is complete, and nothing more has arrived. -/
def completed : FreeCall := ⟨false, true, true, false, true, false, ⟨true, true, false⟩⟩

theorem keepalive_pool_completed : ∃ s :
    State, s.cache = [0] ∧ (s.items 0).connection ∉ s.handles.closed := by
  have hbegun : Reachable ⟨1, 100, one_pos⟩ _ :=
    .step (.get 0 (some [127]) true) (.step .request .start rfl) rfl
  have hsaved : Reachable ⟨1, 100, one_pos⟩ _ := .step (.free 0 completed) hbegun rfl
  exact ⟨_, rfl, ((keepalive_pool _ _ hsaved).2.2.1 0 (mem_singleton_self 0)).1⟩

end Nginx.Http.Upstream.Keepalive
