/-
  Http/V2/Priority.lean --- the nodes of streams and how they depend on each
  other (`ngx_http_v2_set_dependency`, `ngx_http_v2_get_closed_node` and their
  callers in `src/http/v2/ngx_http_v2.c`).

  Nodes are numbered, 0 is `NULL`.  The queues are linked through cells of the
  nodes and of the connection; a chain of `streams_index` is a list.  A failed
  allocation ends the connection, and `rel_weight` decides nothing here.
-/
import Nginx.Foundation.Forest
import Nginx.Foundation.Queue
import Nginx.Http.V2.Frame

set_option autoImplicit false

namespace Nginx.Http.V2

open Function

open Foundation (Links Parent Byte)

/-! ## Data -/

/-- The variables of type `ngx_queue_t`. -/
inductive QueueCell where
  | dependencies
  | closed
  | queue (node : Nat)
  | children (node : Nat)
  | reuse (node : Nat)
  deriving DecidableEq

/-- `ngx_queue_data`: the node that a cell is part of. -/
def QueueCell.data : QueueCell → Nat
  | queue node => node
  | children node => node
  | reuse node => node
  | _ => 0

/-- `ngx_http_v2_node_t`; of the stream there is only whether it is `NULL`. -/
structure PriorityNode where
  id : Nat
  parent : Parent Nat
  rank : Nat
  weight : Nat
  stream : Bool
  deriving DecidableEq

/-- A node that is all zero. -/
def PriorityNode.zeroed : PriorityNode := ⟨0, .null, 0, 0, false⟩

/-- What `ngx_http_v2_connection_t` knows of the nodes. -/
structure Nodes where
  nodes : Nat → PriorityNode
  /-- the nodes from here on are not allocated yet -/
  free : Nat
  links : Links QueueCell
  streamsIndex : Nat → List Nat
  streamsIndexMask : Nat
  closedNodes : Nat
  lastSid : Nat
  lastPush : Nat

/-- `NGX_HTTP_V2_DEFAULT_WEIGHT` -/
def defaultWeight : Nat := 16

/-- The priority fields of a frame: `sizeof(uint32_t) + 1` bytes. -/
structure PriorityFields where
  first : Byte
  second : Byte
  third : Byte
  fourth : Byte
  last : Byte
  deriving DecidableEq

/-- `ngx_http_v2_parse_uint32(pos)` -/
def PriorityFields.dependency (f : PriorityFields) : Nat :=
  parseUint32 f.first f.second f.third f.fourth

/-- `dependency & 0x7fffffff` -/
def PriorityFields.depend (f : PriorityFields) : Nat := f.dependency &&& 0x7fffffff

/-- `dependency >> 31` -/
def PriorityFields.excl (f : PriorityFields) : Bool := f.dependency >>> 31 ≠ 0

/-- `pos[4] + 1` -/
def PriorityFields.weight (f : PriorityFields) : Nat := f.last.toNat + 1

namespace Nodes

variable (c : Nodes)

/-- Before the first frame. -/
def start (mask : Nat) : Nodes where
  nodes := fun _ => .zeroed
  free := 1
  links := (Links.init ⟨id, id⟩ .dependencies).init .closed
  streamsIndex := fun _ => []
  streamsIndexMask := mask
  closedNodes := 0
  lastSid := 0
  lastPush := 0

/-! ## Assignments -/

def modify (n : Nat) (f : PriorityNode → PriorityNode) : Nodes :=
  { c with nodes := update c.nodes n (f (c.nodes n)) }

def setParent (n : Nat) (parent : Parent Nat) : Nodes :=
  c.modify n fun node => { node with parent := parent }

def setRank (n rank : Nat) : Nodes := c.modify n fun node => { node with rank := rank }

def setWeight (n weight : Nat) : Nodes := c.modify n fun node => { node with weight := weight }

def setStream (n : Nat) (stream : Bool) : Nodes :=
  c.modify n fun node => { node with stream := stream }

/-- `ngx_queue_remove` -/
def remove (x : QueueCell) : Nodes := { c with links := c.links.remove x }

/-- `ngx_queue_insert_tail` -/
def insertTail (h x : QueueCell) : Nodes := { c with links := c.links.insertTail h x }

/-- `h2c->closed_nodes++`, a field of eight bits -/
def closedMore : Nodes := { c with closedNodes := (c.closedNodes + 1) % 256 }

/-- `h2c->closed_nodes--` -/
def closedLess : Nodes := { c with closedNodes := (c.closedNodes + 255) % 256 }

/-- The nodes in a queue, in the order in which a loop visits them. -/
def queued (h : QueueCell) : List Nat :=
  (c.links.elements h (c.free + 1) (c.links.next h)).map QueueCell.data

/-- The queue of the children of a node, or of `NGX_HTTP_V2_ROOT`. -/
def childrenOf : Parent Nat → QueueCell
  | .node n => .children n
  | _ => .dependencies

/-! ## Functions -/

/-- `ngx_http_v2_index` -/
def index (sid : Nat) : Nat := sid >>> 1 &&& c.streamsIndexMask

/-- The loop of `ngx_http_v2_get_node_by_id`, and all of it without `alloc`. -/
def findNode (sid : Nat) : Option Nat :=
  (c.streamsIndex (c.index sid)).find? fun n => (c.nodes n).id = sid

/-- `ngx_http_v2_node_children_update`; the bound is on the depth of the calls. -/
def childrenUpdate : Nat → Nodes → Nat → Nodes
  | 0, c, _ => c
  | bound + 1, c, node =>
    (c.queued (.children node)).foldl
      (fun c child => childrenUpdate bound (c.setRank child ((c.nodes node).rank + 1)) child) c

/-- The share of a child in the weight of its parent. -/
def share (weight total childWeight : Nat) : Nat :=
  let weight := weight * childWeight / total
  if weight = 0 then 1 else weight

/-- A child of a node that goes away comes to the parent of the node. -/
def handOver (node total : Nat) (parent : Parent Nat) (child : Nat) : Nodes :=
  (c.setParent child parent).setWeight child
    (share (c.nodes node).weight total (c.nodes child).weight)

/-- The rank of a parent, which is 0 for `NGX_HTTP_V2_ROOT`. -/
def rankOf : Parent Nat → Nat
  | .node p => (c.nodes p).rank
  | _ => 0

/-- A node is taken out of `streams_index` and of the tree, and cleared. -/
def release (node : Nat) : Nodes :=
  let i := c.index (c.nodes node).id
  let c := { c with
    streamsIndex := update c.streamsIndex i ((c.streamsIndex i).erase node) }
  let c := c.remove (.queue node)
  let children := c.queued (.children node)
  let weight := (children.map fun child => (c.nodes child).weight).sum
  let parent := (c.nodes node).parent
  let c := children.foldl (fun c child => c.handOver node weight parent child) c
  let c := childrenUpdate (c.free + 1) (c.setRank node (c.rankOf parent)) node
  let c := { c with links := c.links.add (childrenOf parent) (.children node) }
  c.modify node fun _ => .zeroed

/-- `ngx_http_v2_get_closed_node` -/
def getClosedNode : Nat × Nodes :=
  let c := c.closedLess
  let q := c.links.next .closed
  (q.data, (c.remove q).release q.data)

/-- A node for a stream that has none: what `ngx_http_v2_get_node_by_id` does with
`alloc` when its loop has found nothing. -/
def newNode (sid : Nat) : Nat × Nodes :=
  let (node, c) :=
    if c.closedNodes < 32 then
      (c.free, { c with free := c.free + 1, nodes := update c.nodes c.free .zeroed })
    else c.getClosedNode
  let c := c.modify node fun n => { n with id := sid }
  let i := c.index sid
  (node, { c with
    links := c.links.init (.children node)
    streamsIndex := update c.streamsIndex i (node :: c.streamsIndex i) })

/-- `ngx_http_v2_get_node_by_id` with `alloc` -/
def getNodeById (sid : Nat) : Nat × Nodes :=
  match c.findNode sid with
  | some node => (node, c)
  | none => c.newNode sid

/-- The loop over the nodes above `parent` in `ngx_http_v2_set_dependency`: does it come
to `node`? -/
def comesTo (node : Nat) : Nat → Parent Nat → Bool
  | bound + 1, .node next =>
    if (c.nodes next).rank ≥ (c.nodes node).rank then
      if next ≠ node then comesTo node bound (c.nodes next).parent else true
    else false
  | _, _ => false

/-- What the loop does when it has come to `node`. -/
def lift (node parent : Nat) (exclusive : Bool) : Nodes :=
  let c := c.remove (.queue parent)
  let c := { c with links := c.links.insertAfter (.queue node) (.queue parent) }
  let above := (c.nodes node).parent
  let c := c.setParent parent above
  let c := c.setRank parent (c.rankOf above + 1)
  if exclusive then c else childrenUpdate (c.free + 1) c parent

/-- An exclusive dependency: the children of the new parent come to the node. -/
def takeChildren (node : Nat) (parent : Parent Nat) : Nodes :=
  let children := childrenOf parent
  let c := (c.queued children).foldl (fun c child => c.setParent child (.node node)) c
  { c with links := (c.links.add (.children node) children).init children }

/-- The end of `ngx_http_v2_set_dependency`: the node comes under its parent. -/
def attach (node : Nat) (parent : Parent Nat) (exclusive : Bool) : Nodes :=
  let c := if exclusive then c.takeChildren node parent else c
  let c := if (c.nodes node).parent ≠ .null then c.remove (.queue node) else c
  let c := c.insertTail (childrenOf parent) (.queue node)
  let c := c.setParent node parent
  childrenUpdate (c.free + 1) c node

/-- `ngx_http_v2_set_dependency` -/
def setDependency (node depend : Nat) (exclusive : Bool) : Nodes :=
  match (if depend ≠ 0 then c.findNode depend else none) with
  | none =>
    let exclusive := if depend ≠ 0 then false else exclusive
    (c.setRank node 1).attach node .root exclusive
  | some parent =>
    let c :=
      if (c.nodes node).parent ≠ .null ∧
          c.comesTo node (c.free + 1) (c.nodes parent).parent = true then
        c.lift node parent exclusive
      else c
    let c := c.setRank node ((c.nodes parent).rank + 1)
    let c :=
      if (c.nodes parent).stream = false then
        (c.remove (.reuse parent)).insertTail .closed (.reuse parent)
      else c
    c.attach node (.node parent) exclusive

/-- A node gets a stream, and is no longer among the closed ones. -/
def openNode (node : Nat) : Nodes :=
  let c := if (c.nodes node).parent ≠ .null then (c.remove (.reuse node)).closedLess else c
  c.setStream node true

end Nodes

/-! ## Events -/

/-- What happens to the nodes of a connection. -/
inductive NodeEvent where
  /-- a HEADERS frame; `refused` when there are too many streams, or data comes
  before the settings are acknowledged -/
  | headers (sid : Nat) (priority : Option PriorityFields) (refused : Bool)
  /-- a PRIORITY frame -/
  | priority (sid : Nat) (fields : PriorityFields)
  /-- a pushed stream, for the stream of the node `parent` -/
  | push (parent : Nat)
  /-- the stream of a node is closed -/
  | close (node : Nat)
  deriving DecidableEq

namespace Nodes

variable (c : Nodes)

/-- `ngx_http_v2_state_headers`, as far as it is about nodes; `none` for a connection
error. -/
def stateHeaders (sid : Nat) (priority : Option PriorityFields) (refused : Bool) : Option Nodes :=
  let depend := (priority.map PriorityFields.depend).getD 0
  let excl := (priority.map PriorityFields.excl).getD false
  let weight := (priority.map PriorityFields.weight).getD defaultWeight
  if sid % 2 = 0 ∨ sid ≤ c.lastSid then none
  else
    let c := { c with lastSid := sid }
    if depend = sid then some c
    else if refused then some c
    else
      let (node, c) := c.getNodeById sid
      let c := c.openNode node
      if priority.isSome ∨ (c.nodes node).parent = .null then
        some ((c.setWeight node weight).setDependency node depend excl)
      else some c

/-- `ngx_http_v2_state_priority` -/
def statePriority (sid : Nat) (fields : PriorityFields) : Option Nodes :=
  if sid = 0 then none
  else if fields.depend = sid then some c
  else
    let (node, c) := c.getNodeById sid
    let c := c.setWeight node fields.weight
    let c :=
      if (c.nodes node).stream = false then
        let c :=
          if (c.nodes node).parent = .null then c.closedMore else c.remove (.reuse node)
        c.insertTail .closed (.reuse node)
      else c
    some (c.setDependency node fields.depend fields.excl)

/-- `ngx_http_v2_push_stream` with the new number of `ngx_http_v2_push_resource` -/
def pushStream (parent : Nat) : Nodes :=
  let c := { c with lastPush := c.lastPush + 2 }
  let (node, c) := c.getNodeById c.lastPush
  let c := (c.openNode node).setWeight node defaultWeight
  c.setDependency node (c.nodes parent).id false

/-- `ngx_http_v2_close_stream` -/
def closeStream (node : Nat) : Nodes :=
  ((c.setStream node false).insertTail .closed (.reuse node)).closedMore

/-- One event.  A stream that is closed or pushes another one is there. -/
def step : NodeEvent → Option Nodes
  | .headers sid priority refused => c.stateHeaders sid priority refused
  | .priority sid fields => c.statePriority sid fields
  | .push parent => if (c.nodes parent).stream then some (c.pushStream parent) else none
  | .close node => if (c.nodes node).stream then some (c.closeStream node) else none

/-- A sequence of events on a new connection. -/
def run (mask : Nat) (events : List NodeEvent) : Option Nodes :=
  events.foldlM step (start mask)

end Nodes

end Nginx.Http.V2
