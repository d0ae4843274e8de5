/-
  Http/V2/SendWindows.lean --- the send windows over a run: calls of
  `ngx_http_v2_send_chain`, WINDOW_UPDATE frames and changes of the initial window
  (`ngx_http_v2_state_window_update` and `ngx_http_v2_adjust_windows`).

  The peer keeps its own account of what it has granted and received.  The write
  handlers of streams that are woken are not run inside these functions: their
  calls are calls of the run, and no handler touches the window of another stream.
-/
import Nginx.Http.V2.SendFrames

set_option autoImplicit false

namespace Nginx.Http.V2

open Foundation Option Function

/-! ## The connection -/

/-- `ngx_http_v2_connection_t`, its sending side. -/
structure SendConn where
  sendWindow : Nat
  initWindow : Nat
  /-- the streams of the nodes of the index -/
  streams : Nat → Option OutStream

/-- `ngx_http_v2_terminate_stream`, where RST_STREAM is queued. -/
def OutStream.terminate (s : OutStream) : OutStream :=
  if s.rstSent then s else { s with rstSent := true, skipData := true, error := true }

/-- The write event of a stream is made ready. -/
def OutStream.wakeWaiting (s : OutStream) : OutStream :=
  { s with waiting := false, active := false, ready := true }

/-- The body of the loop of `ngx_http_v2_adjust_windows`. -/
def OutStream.adjust (delta : Int) (s : OutStream) : OutStream :=
  if s.overflows delta then s.terminate
  else if 0 < (s.moved delta).sendWindow ∧ s.exhausted then
    { s with toSendStream := (s.moved delta).wake }
  else { s with toSendStream := s.moved delta }

/-- The window of a stream after WINDOW_UPDATE. -/
def OutStream.update (window : Nat) (s : OutStream) : OutStream :=
  if (window : Int) > maxWindow - s.sendWindow then s.terminate
  else if s.exhausted then { s with toSendStream := (s.moved window).wake }
  else { s with toSendStream := s.moved window }

namespace SendConn

/-- As `ngx_http_v2_init` leaves it. -/
def init : SendConn := ⟨defaultWindow, defaultWindow, fun _ => none⟩

/-- A stream is replaced, where there is one. -/
def setStream (c : SendConn) (id : Nat) (f : OutStream → OutStream) : SendConn :=
  { c with streams := update c.streams id ((c.streams id).map f) }

/-- `ngx_http_v2_create_stream` -/
def createStream (c : SendConn) (id : Nat) : SendConn :=
  let stream : OutStream :=
    ⟨⟨c.initWindow, false, false, false, false, false, false, false⟩, 0, false, false⟩
  { c with streams := update c.streams id (some stream) }

/-- `ngx_http_v2_state_window_update`; `none` is a connection error, and `woken` are the
streams that leave the queue of those that wait. -/
def windowUpdate (c : SendConn) (sid window : Nat) (woken : Nat → Bool) : Option SendConn :=
  if window = 0 then
    if sid = 0 then none else some (c.setStream sid OutStream.terminate)
  else if sid ≠ 0 then some (c.setStream sid (OutStream.update window))
  else if window > subWord maxWindow c.sendWindow then none
  else some { c with
    sendWindow := c.sendWindow + window
    streams := fun id => (c.streams id).map fun s =>
      if s.waiting && woken id then s.wakeWaiting else s }

/-- A new `INITIAL_WINDOW_SIZE` that reaches `ngx_http_v2_adjust_windows`: its frame is handled in
one call.  Where the frame is cut across reads `window_delta` is lost, and there is no such step.
-/
def initialWindow (c : SendConn) (value : Nat) : Option SendConn :=
  if value > maxWindow then none
  else some { c with
    initWindow := value
    streams := fun id => (c.streams id).map (OutStream.adjust ((value : Int) - c.initWindow)) }

end SendConn

/-- What happens on a connection. -/
inductive SendEvent where
  | createStream (id : Nat)
  | sendChain (id : Nat) (limits : FrameLimits)
    (hasTrailers : Bool) (chain : List ChainLink) (limit : Nat)
  /-- a frame of the stream has been written -/
  | frameSent (id : Nat) (fin : Bool)
  | windowUpdate (sid window : Nat) (woken : Nat → Bool)
  /-- a change that reaches `ngx_http_v2_adjust_windows` -/
  | initialWindow (value : Nat)

/-- `ngx_http_v2_handle_frame` -/
def OutStream.handleFrame (fin : Bool) (s : OutStream) : OutStream :=
  { s with queued := s.queued - 1, outClosed := s.outClosed || fin }

/-- One event, and the frames that it queues for a stream; `none` when the connection is
closed. -/
def SendConn.step (c : SendConn) : SendEvent → Option (SendConn × Nat × List OutFrame)
  | .createStream id => some (c.createStream id, id, [])
  | .sendChain id limits hasTrailers chain limit =>
    match c.streams id with
    | none => some (c, id, [])
    | some s =>
      match sendChain limits hasTrailers c.sendWindow s chain limit with
      | none => none
      | some r =>
        some ({ c with sendWindow := r.sendWindow, streams := update c.streams id (some r.stream) },
          id, r.frames)
  | .frameSent id fin => some (c.setStream id (OutStream.handleFrame fin), id, [])
  | .windowUpdate sid window woken => (c.windowUpdate sid window woken).map fun c => (c, sid, [])
  | .initialWindow value => (c.initialWindow value).map fun c => (c, 0, [])

/-! ## The peer -/

/-- What the peer still accepts: on the connection, and on every stream. -/
structure Peer where
  window : Int
  initWindow : Int
  streams : Nat → Int

namespace Peer

def init : Peer := ⟨defaultWindow, defaultWindow, fun _ => defaultWindow⟩

/-- What an event grants. -/
def grant (p : Peer) : SendEvent → Peer
  | .createStream id => { p with streams := update p.streams id p.initWindow }
  | .windowUpdate sid window _ =>
    if sid = 0 then { p with window := p.window + window }
    else { p with streams := update p.streams sid (p.streams sid + window) }
  | .initialWindow value =>
    { p with initWindow := value, streams := fun id => p.streams id + (value - p.initWindow) }
  | _ => p

/-- A frame is received; `none` is a flow control error. -/
def receive (p : Peer) (id : Nat) : OutFrame → Option Peer
  | .data length _ _ =>
    if length = 0 ∨ (length : Int) ≤ p.window ∧ (length : Int) ≤ p.streams id then
      some { p with
        window := p.window - length
        streams := update p.streams id (p.streams id - length) }
    else none
  | .trailers => some p

/-- Frames are received in turn. -/
def receiveAll (id : Nat) : Peer → List OutFrame → Option Peer
  | p, [] => some p
  | p, frame :: frames => (p.receive id frame).bind fun p => receiveAll id p frames

end Peer

/-- In a run, the peer never sees a flow control error. -/
def NeverExceeds : SendConn → Peer → List SendEvent → Prop
  | _, _, [] => True
  | c, p, event :: events =>
    ∀ c' id frames, c.step event = some (c', id, frames) →
      ∃ p', (p.grant event).receiveAll id frames = some p' ∧ NeverExceeds c' p' events

/-! ## The account -/

/-- The windows of the connection are within the account of the peer. -/
structure Within (c : SendConn) (p : Peer) : Prop where
  max : c.sendWindow ≤ maxWindow
  window : (c.sendWindow : Int) ≤ p.window
  initWindow : (c.initWindow : Int) = p.initWindow
  stream : ∀ id s, c.streams id = some s → s.sendWindow ≤ p.streams id

variable {c c' : SendConn} {p p' : Peer} {m : Media}

theorem Within.init : Within .init .init :=
  ⟨by decide, le_rfl, rfl, fun _ _ h => absurd h (some_ne_none _).symm⟩

theorem Peer.receiveAll_of_fits (m : Media) {bound id : Nat} {frames : List OutFrame}
    (hlengths : ∀ frame ∈ frames, frame.LengthOk m bound)
    (hfit : (payloads m frames).length = 0 ∨
      ((payloads m frames).length : Int) ≤ p.window ∧
        ((payloads m frames).length : Int) ≤ p.streams id) :
    ∃ p', p.receiveAll id frames = some p' ∧ p'.window = p.window - (payloads m frames).length ∧
      p'.initWindow = p.initWindow ∧
      p'.streams = update p.streams id (p.streams id - (payloads m frames).length) := by
  induction frames generalizing p with
  | nil => exact ⟨p, rfl, by simp [payloads], rfl, by simp [payloads]⟩
  | cons frame frames ih =>
    have hpayloads : payloads m (frame :: frames) = frame.payload m ++ payloads m frames := rfl
    rw [hpayloads, List.length_append] at hfit ⊢
    have hrest := fun other hmem => hlengths other (List.mem_cons_of_mem _ hmem)
    cases frame with
    | trailers =>
      obtain ⟨p', hp', hw, hi, hs⟩ := @ih p hrest (by simpa [OutFrame.payload] using hfit)
      exact ⟨p', hp', by simpa [OutFrame.payload] using hw, hi, by
        simpa [OutFrame.payload] using hs⟩
    | data length bufs fin =>
      have hlength : length = ((OutFrame.data length bufs fin).payload m).length :=
        (hlengths _ List.mem_cons_self).1
      rw [← hlength] at hfit ⊢
      have hok : length = 0 ∨ (length : Int) ≤ p.window ∧ (length : Int) ≤ p.streams id := by omega
      have hreceive : p.receive id (.data length bufs fin) = some { p with
          window := p.window - length
          streams := update p.streams id (p.streams id - length) } := if_pos hok
      obtain ⟨p', hp', hw, hi, hs⟩ := @ih { p with
          window := p.window - length
          streams := update p.streams id (p.streams id - length) } hrest
        (by simp only [update_self]; omega)
      simp only [update_idem, update_self] at hw hs
      refine ⟨p', ?_, ?_, hi, ?_⟩
      · rw [receiveAll, hreceive]
        exact hp'
      · rw [hw]
        omega
      · rw [hs]
        congr 1
        omega

theorem Within.setStream (h : Within c p) (id : Nat) {f : OutStream → OutStream}
    (hf : ∀ s, (f s).sendWindow ≤ s.sendWindow) : Within (c.setStream id f) p := by
  refine ⟨h.max, h.window, h.initWindow, fun other s hs => ?_⟩
  simp only [SendConn.setStream, update_apply] at hs
  split at hs
  next heq =>
    obtain ⟨s₀, hs₀, rfl⟩ := map_eq_some_iff.mp hs
    exact (hf s₀).trans (h.stream other s₀ (heq ▸ hs₀))
  next => exact h.stream other s hs

theorem sendWindow_terminate (s : OutStream) : s.terminate.sendWindow = s.sendWindow := by
  rw [OutStream.terminate]
  split <;> rfl

theorem sendWindow_update_le (window : Nat) (s : OutStream) :
    (s.update window).sendWindow ≤ s.sendWindow + window := by
  rw [OutStream.update]
  split
  · rw [sendWindow_terminate]
    omega
  · split <;> exact le_rfl

theorem sendWindow_adjust_le (delta : Int) (s : OutStream) :
    (s.adjust delta).sendWindow ≤ s.sendWindow + delta := by
  rw [OutStream.adjust]
  split
  next hover =>
    rw [sendWindow_terminate]
    have hpos := hover.1
    omega
  next => split <;> exact le_rfl

/-- A WINDOW_UPDATE frame grants the peer as much as it adds here. -/
theorem Within.windowUpdate (h : Within c p) {sid window : Nat} {woken : Nat → Bool}
    (hc : c.windowUpdate sid window woken = some c') :
    Within c' (p.grant (.windowUpdate sid window woken)) := by
  have hmax := h.max
  have hwindow := h.window
  unfold SendConn.windowUpdate at hc
  split at hc
  next hzero =>
    split at hc
    next => exact absurd hc nofun
    next hsid =>
      obtain rfl := some.inj hc
      simp only [Peer.grant, if_neg hsid, hzero, Int.natCast_zero, Int.add_zero,
        update_eq_self]
      exact h.setStream sid fun s => (sendWindow_terminate s).le
  next hpos =>
    split at hc
    next hsid =>
      obtain rfl := some.inj hc
      simp only [Peer.grant, if_neg hsid]
      refine ⟨h.max, h.window, h.initWindow, fun other s hs => ?_⟩
      simp only [SendConn.setStream, update_apply] at hs ⊢
      split at hs
      next heq =>
        obtain ⟨s₀, hs₀, rfl⟩ := map_eq_some_iff.mp hs
        have hle := h.stream sid s₀ hs₀
        have hmore := sendWindow_update_le window s₀
        rw [if_pos heq]
        omega
      next heq =>
        rw [if_neg heq]
        exact h.stream other s hs
    next hsid =>
      split at hc
      next => exact absurd hc nofun
      next hfit =>
        obtain rfl := some.inj hc
        rw [subWord_of_le hmax (by decide)] at hfit
        simp only [Peer.grant, if_pos (not_not.mp hsid)]
        refine ⟨show c.sendWindow + window ≤ maxWindow by omega, ?_, h.initWindow, fun id s hs =>
          ?_⟩
        · simp only [Nat.cast_add]
          omega
        · obtain ⟨s₀, hs₀, rfl⟩ := map_eq_some_iff.mp hs
          refine le_trans (le_of_eq ?_) (h.stream id s₀ hs₀)
          split <;> rfl

theorem Within.adjust (h : Within c p) {value : Nat} (hc : c.initialWindow value = some c') :
    Within c' (p.grant (.initialWindow value)) := by
  unfold SendConn.initialWindow at hc
  split at hc
  next => exact absurd hc nofun
  obtain rfl := some.inj hc
  refine ⟨h.max, h.window, rfl, fun id s hs => ?_⟩
  obtain ⟨s₀, hs₀, rfl⟩ := map_eq_some_iff.mp hs
  have hle := h.stream id s₀ hs₀
  have hmore := sendWindow_adjust_le ((value : Int) - c.initWindow) s₀
  have hinit := h.initWindow
  simp only [Peer.grant]
  omega

/-- What the peer grants and receives for one event keeps the windows within its account. -/
theorem Within.step (h : Within c p) {event : SendEvent} {id : Nat} {frames : List OutFrame}
    (hc : c.step event = some (c', id, frames)) :
    ∃ p', (p.grant event).receiveAll id frames = some p' ∧ Within c' p' := by
  cases event with
  | createStream id =>
    obtain ⟨rfl, rfl, rfl⟩ := some.inj hc
    refine ⟨_, rfl, h.max, h.window, h.initWindow, fun other s hs => ?_⟩
    simp only [SendConn.createStream, update_apply] at hs
    simp only [Peer.grant, update_apply]
    split at hs
    next heq =>
      obtain rfl := some.inj hs
      rw [if_pos heq]
      exact h.initWindow.le
    next heq =>
      rw [if_neg heq]
      exact h.stream other s hs
  | sendChain id limits hasTrailers chain limit =>
    rw [SendConn.step] at hc
    split at hc
    next =>
      obtain ⟨rfl, rfl, rfl⟩ := some.inj hc
      exact ⟨p, rfl, h⟩
    next s hs =>
      have hmax := h.max
      have hwindow := h.window
      have hstream := h.stream id s hs
      have hword : c.sendWindow < 2 ^ 64 := lt_of_le_of_lt hmax (by decide)
      obtain ⟨r, hr, hsent⟩ :=
        sendChain_spec ⟨fun _ => 0, fun _ _ => 0⟩ limits hasTrailers hword s chain limit
      rw [hr] at hc
      obtain ⟨rfl, rfl, rfl⟩ := some.inj hc
      have hwindows := hsent.windows
      have hleft := hsent.window
      have hstreamLeft := hsent.streamWindow
      rw [le_min_iff, le_max_iff] at hwindows
      obtain ⟨p', hp', hw, hi, hstreams⟩ :=
        @Peer.receiveAll_of_fits p ⟨fun _ => 0, fun _ _ => 0⟩ _ id
        r.frames hsent.lengths (by omega)
      refine ⟨p', hp', show r.sendWindow ≤ maxWindow by omega, ?_, h.initWindow.trans hi.symm,
        fun other s' hs' => ?_⟩
      · rw [hw]
        show (r.sendWindow : Int) ≤ _
        omega
      rw [hstreams]
      simp only [update_apply] at hs' ⊢
      split at hs'
      next heq =>
        obtain rfl := some.inj hs'
        rw [if_pos heq]
        omega
      next heq =>
        rw [if_neg heq]
        exact h.stream other s' hs'
  | frameSent id fin =>
    obtain ⟨rfl, rfl, rfl⟩ := some.inj hc
    exact ⟨p, rfl, h.setStream id fun _ => le_rfl⟩
  | windowUpdate sid window woken =>
    obtain ⟨c₁, hc₁, heq⟩ := map_eq_some_iff.mp hc
    obtain ⟨rfl, rfl, rfl⟩ := heq
    exact ⟨_, rfl, h.windowUpdate hc₁⟩
  | initialWindow value =>
    obtain ⟨c₁, hc₁, heq⟩ := map_eq_some_iff.mp hc
    obtain ⟨rfl, rfl, rfl⟩ := heq
    exact ⟨_, rfl, h.adjust hc₁⟩

theorem Within.neverExceeds (h : Within c p) (events : List SendEvent) :
    NeverExceeds c p events := by
  induction events generalizing c p with
  | nil => trivial
  | cons event events ih =>
    intro c' id frames hc
    obtain ⟨p', hp', h'⟩ := h.step hc
    exact ⟨p', hp', ih h'⟩

/-- The DATA frames of a call have the bytes of the chain that it does not return, they fit the
windows and take their total from both, and the last one ends the stream when the whole body is
queued and there are no trailers; in a run the account of the peer is never exceeded. -/
theorem sendChain_windows (m : Media) (limits : FrameLimits) (hasTrailers : Bool) {sendWindow : Nat}
    (hword : sendWindow < 2 ^ 64) (stream : OutStream) (chain : List ChainLink) (limit : Nat)
    (events : List SendEvent) :
    (∃ r, sendChain limits hasTrailers sendWindow stream chain limit = some r ∧
      ChainSent m limits hasTrailers sendWindow stream chain limit r) ∧
      NeverExceeds .init .init events :=
  ⟨sendChain_spec m limits hasTrailers hword stream chain limit, Within.init.neverExceeds events⟩

/-- Ten bytes of memory and an empty last buffer, and windows of 7 and 100 bytes. -/
theorem sendChain_windows_cut :
    let stream : OutStream :=
      ⟨⟨100, false, false, false, false, false, false, false⟩, 0, false, false⟩
    let body : SendBuf := ⟨some ⟨16, 26, by decide⟩, none, 0, false, false⟩
    let chain : List ChainLink := [.whole body, .whole ⟨none, none, 0, true, false⟩]
    let limits : FrameLimits := ⟨4, 16384, by decide, by decide⟩
    let m : Media := ⟨fun n => UInt8.ofNat n, fun _ _ => 0⟩
    (sendChain limits false 7 stream chain 0).map (fun r =>
      (r.frames.map (OutFrame.payload m), r.chain)) =
        some ([[16, 17, 18, 19], [20, 21, 22]],
          [.shadow body 7 3 (by decide), .whole ⟨none, none, 0, true, false⟩]) ∧
      (∃ r, sendChain limits false 7 stream chain 0 = some r ∧
        ChainSent m limits false 7 stream chain 0 r) ∧
      NeverExceeds .init .init [.createStream 1, .initialWindow 3,
        .sendChain 1 limits false chain 0,
        .windowUpdate 1 5 fun _ => true, .sendChain 1 limits false chain 0] :=
  ⟨by decide, sendChain_windows _ _ false (by decide) _ _ 0 _⟩

/-- On a stream whose output is closed, two bytes are neither queued nor returned. -/
theorem sendChain_closed_drops :
    let stream : OutStream :=
      ⟨⟨100, false, false, false, false, false, false, false⟩, 0, true, false⟩
    let chain : List ChainLink := [.whole ⟨some ⟨16, 18, by decide⟩, none, 0, true, false⟩]
    let m : Media := ⟨fun n => UInt8.ofNat n, fun _ _ => 0⟩
    (sendChain ⟨8192, 16384, by decide, by decide⟩ false 65535 stream chain 0).map
        (fun r => payloads m r.frames ++ chainBytes m r.chain) = some [] ∧
      chainBytes m chain = [16, 17] := by
  decide

end Nginx.Http.V2
