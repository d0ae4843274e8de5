/-
  Http/V2/OutputQueue.lean --- the frames of a connection that wait to be sent
  (`ngx_http_v2_queue_frame` and its like in `src/http/v2/ngx_http_v2.h`,
  `ngx_http_v2_send_output_queue`).

  The queue is kept last frame first.  A frame is put behind a frame that is
  blocked, and behind those whose streams are to be served first; what the nodes
  of the streams say of that may be another thing at each call.
-/
import Mathlib.Data.List.Infix
import Mathlib.Data.List.TakeWhile
import Mathlib.Order.Lattice

set_option autoImplicit false

namespace Nginx.Http.V2

open List

variable {α σ W : Type}

/-! ## Data -/

/-- `ngx_http_v2_out_frame_t`, with what is in it as one value.  A frame has `begun` when
its handler has once not finished it. -/
structure QueuedFrame (α σ : Type) where
  data : α
  stream : Option σ
  blocked : Bool
  begun : Bool
  deriving DecidableEq

/-- What a frame is, whatever is done with it. -/
def QueuedFrame.entry (frame : QueuedFrame α σ) : α × Option σ := (frame.data, frame.stream)

/-- The frames of a connection, and what the nodes of the streams say. -/
structure OutputQueue (α σ W : Type) where
  /-- `h2c->last_out`, a chain through `next` -/
  lastOut : List (QueuedFrame α σ)
  /-- the frames that handlers have finished, the first one first -/
  sent : List (QueuedFrame α σ)
  /-- `stream->node->rank` -/
  rank : σ → Nat
  /-- `stream->node->rel_weight` -/
  relWeight : σ → W

/-! ## Functions -/

/-- A loop over `last_out` up to a frame at which it stops, and `frame->next = *out; *out = frame`.
-/
def insertFrame (frame : QueuedFrame α σ) (stop : QueuedFrame α σ → Bool) :
    List (QueuedFrame α σ) → List (QueuedFrame α σ)
  | [] => [frame]
  | out :: rest => if stop out then frame :: out :: rest else out :: insertFrame frame stop rest

/-- `(*out)->blocked || (*out)->stream == NULL` -/
def QueuedFrame.barrier (out : QueuedFrame α σ) : Bool := out.blocked || out.stream.isNone

/-- `frame->next = out; out = frame`, over all frames of a chain. -/
def relink : List (QueuedFrame α σ) → List (QueuedFrame α σ) → List (QueuedFrame α σ)
  | [], out => out
  | frame :: fn, out => relink fn (frame :: out)

/-- The loop over the handlers: as many frames as this are finished, and the next one is not. -/
def runHandlers : Nat → List (QueuedFrame α σ) → List (QueuedFrame α σ) × List (QueuedFrame α σ)
  | _, [] => ([], [])
  | 0, out :: fn => ([], { out with blocked := true, begun := true } :: fn)
  | finished + 1, out :: fn => (out :: (runHandlers finished fn).1, (runHandlers finished fn).2)

namespace OutputQueue

variable [LinearOrder W] (q : OutputQueue α σ W)

/-- An empty queue. -/
def start (rank : σ → Nat) (relWeight : σ → W) : OutputQueue α σ W := ⟨[], [], rank, relWeight⟩

/-- Where the loop of `ngx_http_v2_queue_frame` stops for a frame of a stream. -/
def stopsFrame (stream : σ) (out : QueuedFrame α σ) : Bool :=
  match out.stream with
  | none => true
  | some s => out.blocked ||
      decide (q.rank s < q.rank stream ∨ q.rank s = q.rank stream ∧
        q.relWeight s ≥ q.relWeight stream)

/-- `ngx_http_v2_queue_frame`; the frame has a stream. -/
def queueFrame (data : α) (stream : σ) (blocked : Bool) : OutputQueue α σ W :=
  { q with lastOut := insertFrame ⟨data, some stream,
    blocked, false⟩ (q.stopsFrame stream) q.lastOut }

/-- `ngx_http_v2_queue_blocked_frame` -/
def queueBlockedFrame (data : α) (stream : Option σ) (blocked : Bool) : OutputQueue α σ W :=
  { q with lastOut := insertFrame ⟨data, stream, blocked, false⟩ QueuedFrame.barrier q.lastOut }

/-- `ngx_http_v2_queue_ordered_frame` -/
def queueOrderedFrame (data : α) (stream : Option σ) (blocked : Bool) : OutputQueue α σ W :=
  { q with lastOut := ⟨data, stream, blocked, false⟩ :: q.lastOut }

/-- `ngx_http_v2_send_output_queue`, from where the connection is ready to where it has not failed.
-/
def sendOutputQueue (finished : Nat) : OutputQueue α σ W :=
  let (sent, out) := runHandlers finished (relink q.lastOut [])
  { q with lastOut := relink out [], sent := q.sent ++ sent }

end OutputQueue

/-! ## Runs -/

/-- What happens to the queue. -/
inductive OutputEvent (α σ W : Type) where
  | queueFrame (data : α) (stream : σ) (blocked : Bool)
  | queueBlockedFrame (data : α) (stream : Option σ) (blocked : Bool)
  | queueOrderedFrame (data : α) (stream : Option σ) (blocked : Bool)
  /-- the nodes of the streams have other ranks and weights now -/
  | priority (rank : σ → Nat) (relWeight : σ → W)
  | send (finished : Nat)

/-- The frame that an event brings. -/
def OutputEvent.queued : OutputEvent α σ W → Option (α × Option σ)
  | queueFrame data stream _ => some (data, some stream)
  | queueBlockedFrame data stream _ => some (data, stream)
  | queueOrderedFrame data stream _ => some (data, stream)
  | _ => none

namespace OutputQueue

variable [LinearOrder W]

def step (q : OutputQueue α σ W) : OutputEvent α σ W → OutputQueue α σ W
  | .queueFrame data stream blocked => q.queueFrame data stream blocked
  | .queueBlockedFrame data stream blocked => q.queueBlockedFrame data stream blocked
  | .queueOrderedFrame data stream blocked => q.queueOrderedFrame data stream blocked
  | .priority rank relWeight => { q with rank := rank, relWeight := relWeight }
  | .send finished => q.sendOutputQueue finished

def run (q : OutputQueue α σ W) (events : List (OutputEvent α σ W)) : OutputQueue α σ W :=
  events.foldl step q

/-- The frames that were sent, and then those that wait, in the order in which they go out. -/
def history (q : OutputQueue α σ W) :
    List (α × Option σ) := (q.sent ++ q.lastOut.reverse).map QueuedFrame.entry

end OutputQueue

/-- The frames of one stream. -/
def ofStream [DecidableEq σ] (stream : Option σ) (frames : List (α × Option σ)) :
    List (α × Option σ) :=
  frames.filter fun frame => frame.2 = stream

/-! ## One call -/

section insertion

variable {frame out : QueuedFrame α σ} {stop : QueuedFrame α σ → Bool} {l : List (QueuedFrame α σ)}

theorem insertFrame_eq (frame : QueuedFrame α σ) (stop : QueuedFrame α σ → Bool)
    (l : List (QueuedFrame α σ)) :
    insertFrame frame stop l = l.takeWhile (fun out => !stop out) ++ frame :: l.dropWhile fun out =>
      !stop out := by
  induction l with
  | nil => rfl
  | cons out rest ih =>
    rw [insertFrame]
    split
    next hstop => simp [hstop]
    next hpass =>
      rw [ih]
      simp [hpass]

theorem relink_eq (l out : List (QueuedFrame α σ)) : relink l out = l.reverse ++ out := by
  induction l generalizing out with
  | nil => rfl
  | cons frame fn ih => rw [relink, ih, reverse_cons, append_assoc, singleton_append]

theorem insertFrame_perm (frame : QueuedFrame α σ) (stop : QueuedFrame α σ → Bool)
    (l : List (QueuedFrame α σ)) :
    (insertFrame frame stop l).Perm (frame :: l) := by
  rw [insertFrame_eq]
  refine perm_middle.trans ?_
  rw [takeWhile_append_dropWhile]

theorem runHandlers_entries (finished : Nat) (l : List (QueuedFrame α σ)) :
    ((runHandlers finished l).1 ++ (runHandlers finished l).2).map QueuedFrame.entry =
      l.map QueuedFrame.entry := by
  induction l generalizing finished with
  | nil => cases finished <;> rfl
  | cons out fn ih =>
    cases finished with
    | zero => rfl
    | succ finished =>
      rw [runHandlers, cons_append, map_cons, ih, map_cons]

variable [DecidableEq σ]

theorem ofStream_insertFrame
    (hpass : ∀ out ∈ l.takeWhile (fun out => !stop out), out.stream ≠ frame.stream)
    (stream : Option σ) :
    ofStream stream ((insertFrame frame stop l).reverse.map QueuedFrame.entry) =
      ofStream stream (l.reverse.map QueuedFrame.entry ++ [frame.entry]) := by
  have hsplit := takeWhile_append_dropWhile (p := fun out => !stop out) (l := l)
  rw [insertFrame_eq]
  generalize l.takeWhile (fun out => !stop out) = passed at *
  generalize l.dropWhile (fun out => !stop out) = stopped at *
  rw [← hsplit]
  simp only [ofStream, reverse_append, reverse_cons, map_append, map_cons, map_nil,
    filter_append, append_assoc]
  refine congrArg _ ?_
  by_cases hframe : frame.stream = stream
  · have hnone : (passed.reverse.map QueuedFrame.entry).filter (fun frame => frame.2 = stream) =
      [] := by
      rw [filter_eq_nil_iff]
      intro entry hentry
      obtain ⟨out, hout, rfl⟩ := mem_map.mp hentry
      have hother := hpass out (mem_reverse.mp hout)
      rw [hframe] at hother
      rw [decide_eq_true_eq]
      exact hother
    rw [hnone, append_nil, nil_append]
  · have hnone : [frame.entry].filter (fun frame => frame.2 = stream) = [] := by
      simpa [QueuedFrame.entry] using hframe
    rw [hnone, nil_append, append_nil]

end insertion

/-! ## One event -/

namespace OutputQueue

theorem history_send (q : OutputQueue α σ W) (finished : Nat) :
    (q.sendOutputQueue finished).history = q.history := by
  have hentries := runHandlers_entries finished (relink q.lastOut [])
  rw [relink_eq, append_nil] at hentries
  rw [history, sendOutputQueue]
  simp only [relink_eq, append_nil, reverse_reverse, append_assoc]
  rw [map_append, hentries, history, map_append]

variable [LinearOrder W] {q q' : OutputQueue α σ W} {event : OutputEvent α σ W}
  {events past rest : List (OutputEvent α σ W)} {rank : σ → Nat} {relWeight : σ → W}

/-- The frames that `ngx_http_v2_queue_blocked_frame` passes. -/
def passed (q : OutputQueue α σ W) : List (QueuedFrame α σ) :=
    q.lastOut.takeWhile fun out => !out.barrier

/-- A call of `ngx_http_v2_queue_blocked_frame` passes no frame of the same stream. -/
def Clear (q : OutputQueue α σ W) : OutputEvent α σ W → Prop
  | .queueBlockedFrame _ stream _ => ∀ out ∈ q.passed, out.stream ≠ stream
  | _ => True

theorem stream_ne_of_passed {stream : σ} {out : QueuedFrame α σ}
    (hout : out ∈ q.lastOut.takeWhile fun out => !q.stopsFrame stream out) :
    out.stream ≠ some stream := by
  intro heq
  have hgo := mem_takeWhile_imp hout
  rw [stopsFrame, heq] at hgo
  simp at hgo

theorem history_step_perm (q : OutputQueue α σ W) (event : OutputEvent α σ W) :
    (q.step event).history.Perm (q.history ++ event.queued.toList) := by
  have hinsert : ∀ (frame : QueuedFrame α σ) (stop : QueuedFrame α σ → Bool),
      ((q.sent ++ (insertFrame frame stop q.lastOut).reverse).map QueuedFrame.entry).Perm
        (q.history ++ [frame.entry]) := by
    intro frame stop
    have hqueue : (insertFrame frame stop q.lastOut).reverse.Perm
      (q.lastOut.reverse ++ [frame]) := by
      rw [← reverse_cons]
      exact ((reverse_perm _).trans (insertFrame_perm frame stop
        q.lastOut)).trans (reverse_perm _).symm
    have hall := (hqueue.append_left q.sent).map QueuedFrame.entry
    rw [← append_assoc] at hall
    exact hall.trans (List.Perm.of_eq map_append)
  cases event with
  | queueFrame data stream blocked => exact hinsert _ _
  | queueBlockedFrame data stream blocked => exact hinsert _ _
  | queueOrderedFrame data stream blocked =>
    rw [step, queueOrderedFrame, history, history]
    simp [OutputEvent.queued, QueuedFrame.entry]
  | priority rank relWeight => exact (append_nil _).symm ▸ List.Perm.refl _
  | send finished =>
    rw [step, history_send]
    exact (append_nil _).symm ▸ List.Perm.refl _

theorem ofStream_step [DecidableEq σ] (hclear : q.Clear event) (stream : Option σ) :
    ofStream stream (q.step event).history =
      ofStream stream (q.history ++ event.queued.toList) := by
  have hinsert : ∀ (frame : QueuedFrame α σ) (stop : QueuedFrame α σ → Bool),
      (∀ out ∈ q.lastOut.takeWhile (fun out => !stop out), out.stream ≠ frame.stream) →
      ofStream stream ((q.sent ++
        (insertFrame frame stop q.lastOut).reverse).map QueuedFrame.entry) =
        ofStream stream (q.history ++ [frame.entry]) := by
    intro frame stop hpass
    have hqueue := ofStream_insertFrame hpass stream
    rw [ofStream, map_append, filter_append, ← ofStream, ← ofStream, hqueue, history, map_append,
      append_assoc]
    simp only [ofStream, filter_append]
  cases event with
  | queueFrame data s blocked =>
    exact hinsert _ _ fun out hout => stream_ne_of_passed hout
  | queueBlockedFrame data s blocked => exact hinsert _ _ hclear
  | queueOrderedFrame data s blocked =>
    rw [step, queueOrderedFrame, history, history]
    simp [OutputEvent.queued, QueuedFrame.entry]
  | priority rank relWeight => exact (append_nil _).symm ▸ rfl
  | send finished =>
    rw [step, history_send]
    exact (append_nil _).symm ▸ rfl

/-! ## Frames that have begun -/

/-- A frame that has begun is blocked. -/
def Marked (q : OutputQueue α σ W) :
    Prop := ∀ out ∈ q.lastOut, out.begun = true → out.blocked = true

/-- A new frame has come into the queue, and whatever is to go out after it has not begun. -/
def InsertsBehind (q q' : OutputQueue α σ W) : Prop :=
  ∃ later earlier frame, q.lastOut = later ++ earlier ∧ q'.lastOut = later ++ frame :: earlier ∧
    ∀ out ∈ later, out.begun = false

theorem runHandlers_marked (finished : Nat) {l : List (QueuedFrame α σ)}
    (hl : ∀ out ∈ l, out.begun = true → out.blocked = true) :
    ∀ out ∈ (runHandlers finished l).2, out.begun = true → out.blocked = true := by
  induction l generalizing finished with
  | nil => cases finished <;> exact nofun
  | cons out fn ih =>
    have hrest := fun x hx => hl x (mem_cons_of_mem out hx)
    cases finished with
    | zero =>
      intro x hx hbegun
      obtain rfl | hx := mem_cons.mp hx
      · rfl
      · exact hrest x hx hbegun
    | succ finished => exact ih finished hrest

theorem step_marked (hq : q.Marked) (event : OutputEvent α σ W) : (q.step event).Marked := by
  have hinsert : ∀ (frame : QueuedFrame α σ) (stop : QueuedFrame α σ → Bool), frame.begun = false →
      ∀ out ∈ insertFrame frame stop q.lastOut, out.begun = true → out.blocked = true := by
    intro frame stop hnew out hout hbegun
    obtain rfl | hout := mem_cons.mp ((insertFrame_perm frame stop q.lastOut).mem_iff.mp hout)
    · rw [hnew] at hbegun
      cases hbegun
    · exact hq out hout hbegun
  cases event with
  | queueFrame data stream blocked => exact hinsert _ _ rfl
  | queueBlockedFrame data stream blocked => exact hinsert _ _ rfl
  | queueOrderedFrame data stream blocked =>
    intro out hout hbegun
    obtain rfl | hout := mem_cons.mp hout
    · cases hbegun
    · exact hq out hout hbegun
  | priority rank relWeight => exact hq
  | send finished =>
    intro out hout
    rw [step, sendOutputQueue] at hout
    simp only [relink_eq, append_nil, mem_reverse] at hout
    exact runHandlers_marked finished (fun x hx => hq x (mem_reverse.mp hx)) out hout

theorem step_insertsBehind (hq : q.Marked) (hevent : event.queued ≠ none) :
    q.InsertsBehind (q.step event) := by
  have hinsert : ∀ (frame : QueuedFrame α σ) (stop : QueuedFrame α σ → Bool),
    (∀ out, out.blocked = true → stop out = true) →
      ∃ later earlier frame', q.lastOut = later ++ earlier ∧
        insertFrame frame stop q.lastOut = later ++ frame' :: earlier ∧
        ∀ out ∈ later, out.begun = false := by
    intro frame stop hstop
    refine ⟨_,
      _, frame, takeWhile_append_dropWhile.symm, insertFrame_eq frame stop q.lastOut,
      fun out hout => ?_⟩
    have hgo := mem_takeWhile_imp hout
    by_contra hbegun
    rw [Bool.not_eq_false] at hbegun
    rw [hstop out (hq out (List.takeWhile_prefix _ |>.subset hout) hbegun)] at hgo
    cases hgo
  cases event with
  | queueFrame data stream blocked =>
    refine hinsert _ _ fun out hblocked => ?_
    rw [stopsFrame]
    split
    next => rfl
    next => rw [hblocked, Bool.true_or]
  | queueBlockedFrame data stream blocked =>
    refine hinsert _ _ fun out hblocked => ?_
    rw [QueuedFrame.barrier, hblocked, Bool.true_or]
  | queueOrderedFrame data stream blocked =>
    exact ⟨[], q.lastOut, _, rfl, rfl, fun _ hout => absurd hout not_mem_nil⟩
  | priority rank relWeight => exact absurd rfl hevent
  | send finished => exact absurd rfl hevent

/-! ## All events -/

/-- Every call of `ngx_http_v2_queue_blocked_frame` passes no frame of its stream. -/
def Orderly (q : OutputQueue α σ W) (events : List (OutputEvent α σ W)) : Prop :=
  ∀ past event rest, events = past ++ event :: rest → (q.run past).Clear event

theorem run_append (q : OutputQueue α σ W) (past : List (OutputEvent α σ W))
    (event : OutputEvent α σ W) :
    q.run (past ++ [event]) = (q.run past).step event := by
  rw [run, run, foldl_append]
  rfl

theorem Orderly.before (h : q.Orderly (past ++ [event])) :
    q.Orderly past := fun past' event' rest heq =>
  h past' event' (rest ++ [event]) (by rw [heq, append_assoc, cons_append])

theorem run_marked (hq : q.Marked) (events : List (OutputEvent α σ W)) : (q.run events).Marked := by
  induction events using List.reverseRecOn with
  | nil => exact hq
  | append_singleton past event ih =>
    rw [run_append]
    exact step_marked ih event

theorem history_run_perm (rank : σ → Nat) (relWeight : σ → W) (events : List (OutputEvent α σ W)) :
    ((start rank relWeight).run events).history.Perm (events.filterMap OutputEvent.queued) := by
  induction events using List.reverseRecOn with
  | nil => exact .refl _
  | append_singleton past event ih =>
    rw [run_append, filterMap_append]
    refine (history_step_perm _ event).trans ((ih.append_right _).trans (List.Perm.of_eq ?_))
    cases event <;> rfl

theorem ofStream_run [DecidableEq σ] (h : (start rank relWeight).Orderly events)
    (stream : Option σ) :
    ofStream stream ((start rank relWeight).run events).history =
      ofStream stream (events.filterMap OutputEvent.queued) := by
  induction events using List.reverseRecOn with
  | nil => rfl
  | append_singleton past event ih =>
    have hpast := ih h.before
    have hlast : [event].filterMap OutputEvent.queued = event.queued.toList := by
      cases event <;> rfl
    rw [run_append, ofStream_step (h past event [] rfl), filterMap_append, hlast]
    rw [ofStream] at hpast ⊢
    rw [filter_append, hpast, ofStream, ofStream, filter_append]

/-- What is sent, and what waits: no frame is lost or sent twice, none comes before one that has
begun, and those of one stream go out in the order of the calls when no call passes one of them. -/
theorem output_order [DecidableEq σ] (rank : σ → Nat) (relWeight : σ → W)
    (events : List (OutputEvent α σ W)) :
    ((start rank relWeight).run events).history.Perm (events.filterMap OutputEvent.queued) ∧
      (∀ past event rest, events = past ++ event :: rest → event.queued ≠ none →
        ((start rank relWeight).run past).InsertsBehind
          ((start rank relWeight).run (past ++ [event]))) ∧
      ((start rank relWeight).Orderly events → ∀ stream,
        ofStream stream ((start rank relWeight).run events).history =
          ofStream stream (events.filterMap OutputEvent.queued)) := by
  refine ⟨history_run_perm rank relWeight events, fun past event rest _ hevent =>
    ?_, fun h => ofStream_run h⟩
  rw [run_append]
  exact step_insertsBehind (run_marked (nofun : (start rank relWeight).Marked) past) hevent

/-- A response and its body, one frame of which is sent before another stream comes. -/
def oneResponse : List (OutputEvent Nat Nat Nat) :=
  [.queueBlockedFrame 1 (some 3) true, .queueFrame 2 3 false, .send 1,
    .queueFrame 4 5 false, .queueFrame 6 3 false]

theorem orderly_oneResponse : (start (fun _ => 1) fun _ => 1).Orderly oneResponse := by
  intro past event rest heq
  obtain _ | ⟨first, past⟩ := past
  · obtain rfl := (cons.inj heq).1
    exact nofun
  have hother : ∀ event ∈ oneResponse.tail, ∀ q : OutputQueue Nat Nat Nat, q.Clear event := by
    intro event hevent q
    simp only [oneResponse, tail_cons, mem_cons, not_mem_nil, or_false] at hevent
    obtain rfl | rfl | rfl | rfl := hevent <;> trivial
  refine hother event ?_ _
  rw [heq]
  exact mem_append_right past mem_cons_self

theorem output_order_oneResponse :
    ofStream (some 3) ((start (fun _ => 1) fun _ => 1).run oneResponse).history =
      [(1, some 3), (2, some 3), (6, some 3)] :=
  (output_order (fun _ => 1) (fun _ => 1) oneResponse).2.2 orderly_oneResponse (some 3)

/-- A frame of the stream 3, and one that is put in front of it. -/
theorem not_inOrder_blocked : ¬ ∀ (events : List (OutputEvent Nat Nat Nat)) (stream : Option Nat),
    ofStream stream ((start (fun _ => 1) fun _ => 1).run events).history =
      ofStream stream (events.filterMap OutputEvent.queued) := by
  intro h
  exact absurd (h [.queueFrame 1 3 false, .queueBlockedFrame 2 (some 3) true,
    .send 2] (some 3)) (by decide)

end OutputQueue

end Nginx.Http.V2
