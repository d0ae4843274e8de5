/-
  Http/Upstream/RoundRobin.lean --- the peers of an upstream and their weights
  (`src/http/ngx_http_upstream_round_robin.c`).

  Peers of a group are a list in the order of `next`, and a peer is its place in it.
  The bitmap `tried` is a set of places.  Counters and weights are integers: those of
  `ngx_int_t` while the number of the peers times their total weight stays below
  2^63 (`weight=` takes any value of the type).
-/
import Nginx.Foundation.Memory

set_option autoImplicit false

namespace Nginx.Http.Upstream

/-! ## Data -/

/-- `ngx_http_upstream_rr_peer_t` -/
structure RrPeer where
  currentWeight : Int
  effectiveWeight : Int
  weight : Int
  conns : Int
  maxConns : Nat
  fails : Nat
  accessed : Int
  checked : Int
  maxFails : Nat
  failTimeout : Int
  down : Bool
  deriving DecidableEq

/-- `rrp->tried` -/
abbrev Tried : Type := Nat → Bool

namespace RrPeer

/-- `peer->max_conns && peer->conns >= peer->max_conns` -/
def full (p : RrPeer) : Bool := p.maxConns ≠ 0 ∧ p.conns ≥ p.maxConns

/-- The peer has failed too often, and not long ago. -/
def failing (p : RrPeer) (now : Int) : Bool :=
  p.maxFails ≠ 0 ∧ p.fails ≥ p.maxFails ∧ now - p.checked ≤ p.failTimeout

/-- None of the tests of the loop of `ngx_http_upstream_get_peer` passes the peer over. -/
def eligible (p : RrPeer) (now : Int) (tried : Bool) : Bool :=
  !tried && !p.down && !p.failing now && !p.full

/-- The weights after the peer was looked at. -/
def grow (p : RrPeer) : RrPeer :=
  { p with
    currentWeight := p.currentWeight + p.effectiveWeight
    effectiveWeight := if p.effectiveWeight <
      p.weight then p.effectiveWeight + 1 else p.effectiveWeight }

/-- `best`, after the loop. -/
def choose (p : RrPeer) (now total : Int) : RrPeer :=
  { p with
    currentWeight := p.currentWeight - total
    checked := if now - p.checked > p.failTimeout then now else p.checked }

/-- The body of `ngx_http_upstream_free_round_robin_peer` for a group of several peers. -/
def free (p : RrPeer) (now : Int) (failed : Bool) : RrPeer :=
  let p :=
    if failed then
      let p := { p with fails := p.fails + 1, accessed := now, checked := now }
      let p :=
        if p.maxFails ≠ 0 then
          { p with effectiveWeight := p.effectiveWeight - p.weight / p.maxFails }
        else p
      if p.effectiveWeight < 0 then { p with effectiveWeight := 0 } else p
    else if p.accessed < p.checked then { p with fails := 0 }
    else p
  { p with conns := p.conns - 1 }

end RrPeer

/-! ## Choosing a peer -/

/-- The variables of the loop of `ngx_http_upstream_get_peer`: the peers behind it, `best`
with its place, and `total`. -/
structure Choice where
  peers : List RrPeer
  best : Option (Nat × Int)
  total : Int
  deriving DecidableEq

/-- `best == NULL || peer->current_weight > best->current_weight` -/
def better (i : Nat) (currentWeight : Int) : Option (Nat × Int) → Option (Nat × Int)
  | none => some (i, currentWeight)
  | some (p, best) => if currentWeight > best then some (i, currentWeight) else some (p, best)

/-- The loop of `ngx_http_upstream_get_peer`, from place `i` on. -/
def getPeerLoop (now : Int) (tried : Tried) : Nat → List RrPeer → Option (Nat × Int) → Int → Choice
  | _, [], best, total => ⟨[], best, total⟩
  | i, peer :: peers, best, total =>
    if peer.eligible now (tried i) then
      let choice := getPeerLoop now tried (i + 1) peers (better i peer.grow.currentWeight best)
        (total + peer.effectiveWeight)
      { choice with peers := peer.grow :: choice.peers }
    else
      let choice := getPeerLoop now tried (i + 1) peers best total
      { choice with peers := peer :: choice.peers }

/-- `ngx_http_upstream_get_peer`, with `rrp->tried` and the peer that is returned. -/
def getPeer (now : Int) (tried : Tried) (peers : List RrPeer) : List RrPeer × Tried × Option Nat :=
  let choice := getPeerLoop now tried 0 peers none 0
  match choice.best with
  | none => (choice.peers, tried, none)
  | some (p, _) =>
    (choice.peers.modify p fun best =>
      best.choose now choice.total, Function.update tried p true, some p)

/-! ## Groups and requests -/

/-- `ngx_http_upstream_rr_peers_t` -/
structure RrPeers where
  peer : List RrPeer
  single : Bool
  deriving DecidableEq

/-- `rrp->peers` -/
inductive Group where
  | primary
  | backup
  deriving DecidableEq

/-- The groups of an upstream; `next` of the second one is `NULL`. -/
structure PeerGroups where
  primary : RrPeers
  next : Option RrPeers
  deriving DecidableEq

/-- `ngx_http_upstream_rr_peer_data_t`, and `tries` of the connection. -/
structure RrPeerData where
  peers : Group
  current : Option Nat
  tried : Tried
  tries : Nat

namespace PeerGroups

/-- `ngx_http_upstream_tries` -/
def tries (u : PeerGroups) : Nat :=
  u.primary.peer.length + (match u.next with | none => 0 | some next => next.peer.length)

/-- The peers of a group. -/
def group (u : PeerGroups) : Group → RrPeers
  | .primary => u.primary
  | .backup => u.next.getD ⟨[], false⟩

/-- A group is replaced. -/
def setGroup (u : PeerGroups) (peers : RrPeers) : Group → PeerGroups
  | .primary => { u with primary := peers }
  | .backup => { u with next := u.next.map fun _ => peers }

/-- `ngx_http_upstream_init_round_robin_peer` -/
def initPeer (u : PeerGroups) : RrPeerData := ⟨.primary, none, fun _ => false, u.tries⟩

end PeerGroups

/-- `8 * sizeof(uintptr_t)` -/
def wordBits : Nat := 64

/-- The words of the bitmap for `number` peers are cleared. -/
def clearTried (number : Nat) (tried : Tried) : Tried := fun i =>
  if i < (number + (wordBits - 1)) / wordBits * wordBits then false else tried i

/-- How `ngx_http_upstream_get_round_robin_peer` goes on after it has held the lock of a group. -/
inductive GetTurn where
  /-- `NGX_OK` -/
  | ok
  /-- the function is called for the other group -/
  | again
  /-- `NGX_BUSY` -/
  | busy
  deriving DecidableEq

/-- A peer of the group is sought. -/
def RrPeers.seek (now : Int) (tried : Tried) (peers : RrPeers) : List RrPeer × Tried × Option Nat :=
  if peers.single then
    match peers.peer with
    | [] => ([], tried, none)
    | peer :: rest => (peer :: rest, tried, if peer.down || peer.full then none else some 0)
  else getPeer now tried peers.peer

/-- `ngx_http_upstream_get_round_robin_peer`, for as long as it holds the lock of a group. -/
def getRoundRobinPeer (now : Int) (u : PeerGroups) (d : RrPeerData) :
    PeerGroups × RrPeerData × GetTurn :=
  let peers := u.group d.peers
  match peers.seek now d.tried with
  | (list, tried, some p) =>
    let list := list.modify p fun peer => { peer with conns := peer.conns + 1 }
    (u.setGroup { peers with peer := list } d.peers,
      { d with current := some p, tried := tried }, .ok)
  | (list, tried, none) =>
    let u := u.setGroup { peers with peer := list } d.peers
    match d.peers, u.next with
    | .primary, some next =>
      (u, { d with peers := .backup, tried := clearTried next.peer.length tried }, .again)
    | _, _ => (u, { d with tried := tried }, .busy)

/-- `ngx_http_upstream_free_round_robin_peer` -/
def freeRoundRobinPeer (now : Int) (failed : Bool) (u : PeerGroups) (d : RrPeerData) :
    PeerGroups × RrPeerData :=
  let peers := u.group d.peers
  match d.current with
  | none => (u, d)
  | some p =>
    if peers.single then
      let list := peers.peer.modify p fun peer => { peer with conns := peer.conns - 1 }
      (u.setGroup { peers with peer := list } d.peers, { d with tries := 0 })
    else
      let list := peers.peer.modify p fun peer => peer.free now failed
      (u.setGroup { peers with peer := list } d.peers, { d with tries := d.tries - 1 })

end Nginx.Http.Upstream
