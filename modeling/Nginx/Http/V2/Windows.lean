/-
  Http/V2/Windows.lean --- the send windows of streams: what a changed initial
  window does to them (`ngx_http_v2_adjust_windows`).

  What the program does elsewhere is a parameter: the event handlers of a
  request, which work on the stream of the request and may close it, and the
  queue of output frames.
-/
import Nginx.Http.V2.Frame

set_option autoImplicit false

namespace Nginx.Http.V2

open Option

open Nginx.Core (Rc)

/-- The sending side of `ngx_http_v2_stream_t`, with the flags of the write event
of its connection. -/
structure SendStream where
  sendWindow : Int
  exhausted : Bool
  rstSent : Bool
  skipData : Bool
  /-- `fc->error` -/
  error : Bool
  /-- `wev->active` -/
  active : Bool
  /-- `wev->ready` -/
  ready : Bool
  /-- `wev->delayed` -/
  delayed : Bool
  deriving DecidableEq

/-- `ngx_http_v2_node_t`, as a place for a stream. -/
structure StreamNode where
  id : Nat
  stream : Option SendStream
  deriving DecidableEq

/-- What the rest of the program does.  `σ` is the rest of its state. -/
structure Events (σ : Type) where
  /-- `ngx_http_v2_send_rst_stream` -/
  sendRstStream : σ → Nat → ErrorCode → σ × Rc
  /-- the frame for the acknowledgement of settings, queued unless it is `NULL` -/
  sendSettingsAck : σ → σ × Rc
  /-- `rev->handler(rev)` for the stream of a node -/
  readEvent : σ → Nat → SendStream → σ × Option SendStream
  /-- `wev->handler(wev)` for the stream of a node -/
  writeEvent : σ → Nat → SendStream → σ × Option SendStream

variable {σ : Type} (ev : Events σ)

/-- `ngx_http_v2_terminate_stream`; `none` for `NGX_ERROR`. -/
def terminateStream (rest : σ) (id : Nat) (s : SendStream) (status : ErrorCode) :
    σ × Option (Option SendStream) :=
  if s.rstSent then (rest, some (some s))
  else
    match ev.sendRstStream rest id status with
    | (rest, .ok) =>
      let (rest, stream) :=
        ev.readEvent rest id { s with rstSent := true, skipData := true, error := true }
      (rest, some stream)
    | (rest, _) => (rest, none)

/-- The window of a stream is moved. -/
def SendStream.moved (s : SendStream) (delta : Int) : SendStream :=
  { s with sendWindow := s.sendWindow + delta }

/-- The window would pass the largest one allowed. -/
def SendStream.overflows (s : SendStream) (delta : Int) : Prop :=
  0 < delta ∧ s.sendWindow > maxWindow - delta

instance (s : SendStream) (delta : Int) : Decidable (s.overflows delta) :=
  inferInstanceAs (Decidable (_ ∧ _))

/-- A stream that waited for the window is made ready to write. -/
def SendStream.wake (s : SendStream) : SendStream :=
  { s with exhausted := false, active := false, ready := true }

/-- The body of the loop of `ngx_http_v2_adjust_windows`, for one stream. -/
def adjustWindow (delta : Int) (rest : σ) (id : Nat) (s : SendStream) :
    σ × Option (Option SendStream) :=
  if s.overflows delta then
    terminateStream ev rest id s .flowCtrlError
  else
    if 0 < (s.moved delta).sendWindow ∧ s.exhausted then
      if s.delayed then (rest, some (some (s.moved delta).wake))
      else
        let (rest, stream) := ev.writeEvent rest id (s.moved delta).wake
        (rest, some stream)
    else (rest, some (some (s.moved delta)))

/-- `ngx_http_v2_adjust_windows`, over the nodes in the order of the index. -/
def adjustWindows (delta : Int) : σ → List StreamNode → σ × List StreamNode × Rc
  | rest, [] => (rest, [], .ok)
  | rest, node :: nodes =>
    match node.stream with
    | none =>
      let (rest, nodes, rc) := adjustWindows delta rest nodes
      (rest, node :: nodes, rc)
    | some s =>
      match adjustWindow ev delta rest node.id s with
      | (rest, none) => (rest, node :: nodes, .error)
      | (rest, some stream) =>
        let (rest, nodes, rc) := adjustWindows delta rest nodes
        (rest, { node with stream := stream } :: nodes, rc)

/-! ## What moves -/

/-- A node before and after: its stream has moved by `delta` and was then left to
its write event if it had been waiting for the window, or it is reset because
its window would be too large. -/
inductive NodeMoved (delta : Int) : StreamNode → StreamNode → Prop where
  | closed {node : StreamNode} (h : node.stream = none) : NodeMoved delta node node
  | moved {node : StreamNode} {s : SendStream} (h : node.stream = some s)
      (hfit : ¬ s.overflows delta) (hwait : ¬ (0 < (s.moved delta).sendWindow ∧ s.exhausted)) :
      NodeMoved delta node { node with stream := some (s.moved delta) }
  | delayed {node : StreamNode} {s : SendStream} (h : node.stream = some s)
      (hfit : ¬ s.overflows delta) (hdelayed : s.delayed) :
      NodeMoved delta node
        { node with stream := some (s.moved delta).wake }
  | woken {node : StreamNode} {s : SendStream} {rest : σ} (h : node.stream = some s)
      (hfit : ¬ s.overflows delta) :
      NodeMoved delta node
        { node with stream := (ev.writeEvent rest node.id (s.moved delta).wake).2 }
  | reset {node : StreamNode} {s : SendStream} {rest : σ} (h : node.stream = some s)
      (hover : s.overflows delta) (hsent : s.rstSent = false) :
      NodeMoved delta node
        { node with stream :=
            (ev.readEvent rest node.id
              { s with rstSent := true, skipData := true, error := true }).2 }
  | wasReset {node : StreamNode} {s : SendStream} (h : node.stream = some s)
      (hover : s.overflows delta) (hsent : s.rstSent) : NodeMoved delta node node

variable {ev}

theorem nodeMoved_of_adjustWindow {delta : Int} {rest rest' : σ} {node : StreamNode}
    {s : SendStream} {stream : Option SendStream} (hs : node.stream = some s)
    (h : adjustWindow ev delta rest node.id s = (rest', some stream)) :
    NodeMoved ev delta node { node with stream := stream } := by
  rw [adjustWindow] at h
  split at h
  next hover =>
    rw [terminateStream] at h
    split at h
    next hsent =>
      obtain ⟨-, hstream⟩ := Prod.mk.inj h
      rw [← some.inj hstream, ← hs]
      exact .wasReset hs hover hsent
    next hsent =>
      split at h
      next rest₁ hrst =>
        obtain ⟨-, hstream⟩ := Prod.mk.inj h
        rw [← some.inj hstream]
        exact .reset hs hover (eq_false_of_ne_true hsent)
      next => simp at h
  next hfit =>
    split at h
    next hwait =>
      split at h
      next hdelayed =>
        obtain ⟨-, hstream⟩ := Prod.mk.inj h
        rw [← some.inj hstream]
        exact .delayed hs hfit hdelayed
      next =>
        obtain ⟨-, hstream⟩ := Prod.mk.inj h
        rw [← some.inj hstream]
        exact .woken hs hfit
    next hwait =>
      obtain ⟨-, hstream⟩ := Prod.mk.inj h
      rw [← some.inj hstream]
      exact .moved hs hfit hwait

theorem adjustWindows_moves {delta : Int} {rest : σ} {nodes : List StreamNode}
    (h : (adjustWindows ev delta rest nodes).2.2 = .ok) :
    List.Forall₂ (NodeMoved ev delta) nodes (adjustWindows ev delta rest nodes).2.1 := by
  induction nodes generalizing rest with
  | nil => exact .nil
  | cons node nodes ih =>
    rw [adjustWindows] at h ⊢
    split at h
    next hclosed =>
      exact .cons (.closed hclosed) (ih h)
    next s hs =>
      split at h
      next => simp at h
      next rest' stream hadjust =>
        exact .cons (nodeMoved_of_adjustWindow hs hadjust) (ih h)

end Nginx.Http.V2
