/-
  Http/Postpone/Filter.lean --- subrequests and the postpone filter
  (`src/http/ngx_http_postpone_filter_module.c`, `ngx_http_subrequest`,
  `ngx_http_finalize_request` and `ngx_http_run_posted_requests`).

  Requests are numbered in the order of their creation; 0 is the main request.
  The subrequests are ordinary ones: neither background nor in memory, without a
  handler of their own behind them.  No call fails.
-/
import Mathlib.Logic.Function.Basic
import Nginx.Foundation.Memory
import Nginx.Foundation.Outline

set_option autoImplicit false

namespace Nginx.Http.Postpone

open Foundation

/-- `ngx_http_postponed_request_t`: `request` is set, or the chain `out`. -/
inductive Postponed where
  | request (sr : Nat)
  | out (chain : List Bytes)
  deriving DecidableEq

/-- `r->write_event_handler` -/
inductive Handler where
  /-- a handler of the request's own; what it does are events of the request -/
  | own
  /-- `ngx_http_writer` -/
  | writer
  /-- `ngx_http_request_finalizer` -/
  | finalizer
  /-- `ngx_http_request_empty_handler` -/
  | empty
  deriving DecidableEq

/-- `ngx_http_request_t` -/
structure Request where
  parent : Nat
  postponed : List Postponed := []
  writeEventHandler : Handler := .own
  /-- filters before the postpone filter hold output of the request -/
  buffered : Bool := false
  waited : Bool := false
  done : Bool := false
  /-- set when the request is finalized for good -/
  logged : Bool := false
  /-- `ngx_http_finalize_request` was called by the request itself -/
  finished : Bool := false
  deriving DecidableEq

/-- `ngx_connection_t` with its requests. -/
structure Connection where
  requests : Nat → Request
  /-- the number of requests -/
  created : Nat
  data : Nat
  postedRequests : List Nat
  /-- the client has not taken all output -/
  buffered : Bool
  /-- `r->main->count` -/
  count : Nat
  /-- the buffers passed to the next filter -/
  output : List Bytes

namespace Connection

variable (c : Connection)

def modify (r : Nat) (f : Request → Request) : Connection :=
  { c with requests := Function.update c.requests r (f (c.requests r)) }

def setPostponed (r : Nat) (l : List Postponed) :
    Connection := c.modify r fun q => { q with postponed := l }

def setHandler (r : Nat) (h : Handler) : Connection := c.modify r fun q =>
    { q with writeEventHandler := h }

/-- `ngx_http_post_request` -/
def postRequest (r : Nat) : Connection := { c with postedRequests := c.postedRequests ++ [r] }

/-! ## The filter -/

/-- `ngx_http_postpone_filter_add` -/
def postponeFilterAdd (input : List Bytes) : List Postponed → List Postponed
  | [] => [.out input]
  | [.out chain] => [.out (chain ++ input)]
  | [.request sr] => [.request sr, .out input]
  | pr :: rest => pr :: postponeFilterAdd input rest

/-- The loop of `ngx_http_postpone_filter` over `r->postponed`. -/
def postponeLoop (c : Connection) (r : Nat) : List Postponed → Connection
  | [] => c.setPostponed r []
  | .request sr :: next => { c.setPostponed r next with data := sr }.postRequest sr
  | .out chain :: next => postponeLoop { c with output := c.output ++ chain } r next

/-- `ngx_http_postpone_filter`; an empty chain is `NULL`. -/
def postponeFilter (r : Nat) (input : List Bytes) : Connection :=
  let postponed := (c.requests r).postponed
  if r ≠ c.data then
    if input ≠ [] then c.setPostponed r (postponeFilterAdd input postponed) else c
  else if postponed = [] then
    { c with output := c.output ++ input }
  else
    postponeLoop c r (if input ≠ [] then postponeFilterAdd input postponed else postponed)

/-! ## Requests -/

/-- `ngx_http_subrequest` -/
def subrequest (r : Nat) (waited : Bool) : Connection :=
  let sr := c.created
  let postponed := (c.requests r).postponed
  let data := if c.data = r ∧ postponed = [] then sr else c.data
  let c := c.setPostponed r (postponed ++ [.request sr])
  let c := c.modify sr fun _ => { parent := r, waited := waited }
  { c with data := data, created := c.created + 1, count := c.count + 1 }.postRequest sr

/-- `pr->postponed` without `r` at its head. -/
def withoutHead (r : Nat) : List Postponed → List Postponed
  | .request sr :: next => if sr = r then next else .request sr :: next
  | l => l

/-- `ngx_http_finalize_request(r, NGX_OK)` -/
def finalizeRequest (r : Nat) : Connection :=
  let q := c.requests r
  if r ≠ 0 then
    if q.buffered || q.postponed ≠ [] then
      c.setHandler r .writer
    else if r = c.data then
      let c := { c with count := c.count - 1 }.modify r fun q =>
        { q with logged := true, done := true }
      let c := c.setPostponed q.parent (withoutHead r (c.requests q.parent).postponed)
      { c with data := q.parent }.postRequest q.parent
    else
      let c := c.setHandler r .finalizer
      let c := if q.waited then c.modify r fun q => { q with done := true } else c
      c.postRequest q.parent
  else if q.buffered || c.buffered || q.postponed ≠ [] then
    c.setHandler r .writer
  else if r ≠ c.data then
    -- an alert: the request is not active
    c
  else c.modify r fun q => { q with done := true, writeEventHandler := .empty }

/-- `ngx_http_writer` -/
def writer (r : Nat) : Connection :=
  let c := c.postponeFilter r []
  let q := c.requests r
  if q.buffered || q.postponed ≠ [] || (r = 0 && c.buffered) then c
  else (c.setHandler r .empty).finalizeRequest r

/-- `r->write_event_handler(r)` -/
def runHandler (r : Nat) : Connection :=
  match (c.requests r).writeEventHandler with
  | .own => c
  | .writer => c.writer r
  | .finalizer => c.finalizeRequest r
  | .empty => c

/-- One turn of the loop of `ngx_http_run_posted_requests`. -/
def runPostedRequest : Connection :=
  match c.postedRequests with
  | [] => c
  | r :: rest => { c with postedRequests := rest }.runHandler r

/-- `ngx_http_request_handler` when the client can take output: the active request is run. -/
def writeEvent : Connection := c.runHandler c.data

end Connection

/-! ## Runs -/

/-- What happens on a connection. -/
inductive Event where
  /-- a request passes a chain on; filters may then hold more of its output or not -/
  | output (r : Nat) (input : List Bytes) (buffered : Bool)
  /-- a request creates a subrequest -/
  | subrequest (r : Nat) (waited : Bool)
  /-- a request is finished -/
  | finalize (r : Nat)
  | postedRequest
  | writeEvent
  /-- the client takes output, or stops to -/
  | client (buffered : Bool)
  deriving DecidableEq

/-- A request has output until it is finished and no filter holds any. -/
def Active (c : Connection) (r : Nat) : Prop :=
  r < c.created ∧ ((c.requests r).finished = false ∨ (c.requests r).buffered = true)

/-- What a request may do. -/
def Allowed (c : Connection) : Event → Prop
  | .output r _ _ => Active c r
  | .subrequest r _ => Active c r
  | .finalize r => r < c.created ∧ (c.requests r).finished = false
  | _ => True

def step (c : Connection) : Event → Connection
  | .output r input buffered => (c.postponeFilter r input).modify r fun q =>
    { q with buffered := buffered }
  | .subrequest r waited => c.subrequest r waited
  | .finalize r => (c.modify r fun q => { q with finished := true }).finalizeRequest r
  | .postedRequest => c.runPostedRequest
  | .writeEvent => c.writeEvent
  | .client buffered => { c with buffered := buffered }

/-- The main request. -/
def start : Connection where
  requests _ := { parent := 0 }
  created := 1
  data := 0
  postedRequests := []
  buffered := false
  count := 1
  output := []

/-- The tree of the requests: each with its own output, and its subrequests where it
created them. -/
def grow (c : Connection) (tree : Outline Nat Bytes) : Event → Outline Nat Bytes
  | .output r input _ => Outline.addTo r (.texts input) tree
  | .subrequest r _ => Outline.addTo r (.node c.created .nil .nil) tree
  | _ => tree

/-- The connections that can be reached, with their trees. -/
inductive Run : Connection → Outline Nat Bytes → Prop where
  | start : Run start (.node 0 .nil .nil)
  | step {c : Connection} {tree : Outline Nat Bytes} (h : Run c tree) (event : Event)
    (hallowed : Allowed c event) :
      Run (step c event) (grow c tree event)

end Nginx.Http.Postpone
