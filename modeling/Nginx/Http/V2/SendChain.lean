/-
  Http/V2/SendChain.lean --- a response body is cut into DATA frames
  (`ngx_http_v2_send_chain` in `src/http/v2/ngx_http_v2_filter_module.c`).

  Memory is always there.  What `ngx_http_v2_filter_send` does with the frames
  that are queued comes after all this and changes no window; the place of a
  stream in the queue of those that wait for the connection is left out.
-/
import Nginx.Http.V2.Windows

set_option autoImplicit false

namespace Nginx.Http.V2

open Foundation

/-! ## Buffers -/

/-- From `pos` to `last`, or from `file_pos` to `file_last`. -/
structure Region where
  pos : Nat
  last : Nat
  le : pos ≤ last
  deriving DecidableEq

def Region.size (r : Region) : Nat := r.last - r.pos

/-- `size` bytes, `offset` behind the beginning. -/
def Region.part (r : Region) (offset size : Nat) : Region :=
  ⟨r.pos + offset, r.pos + offset + size, Nat.le_add_right _ _⟩

/-- `ngx_buf_t`: the region in memory, and the one in the file `fd`. -/
structure SendBuf where
  memory : Option Region
  file : Option Region
  fd : Nat
  lastBuf : Bool
  flush : Bool
  deriving DecidableEq

/-- What is in memory and in files. -/
structure Media where
  memory : Nat → Byte
  file : Nat → Nat → Byte

namespace SendBuf

/-- `ngx_buf_size` -/
def size (b : SendBuf) : Nat :=
  match b.memory, b.file with
  | some r, _ => r.size
  | none, some r => r.size
  | none, none => 0

/-- The bytes of a buffer. -/
def bytes (m : Media) (b : SendBuf) : Bytes :=
  match b.memory, b.file with
  | some r, _ => load m.memory r.pos r.size
  | none, some r => load (m.file b.fd) r.pos r.size
  | none, none => []

/-- `ngx_http_v2_filter_get_shadow` -/
def getShadow (b : SendBuf) (offset size : Nat) : SendBuf :=
  { b with memory := b.memory.map (·.part offset size), file := b.file.map (·.part offset size) }

/-- How far the beginning of `b` is behind that of `original`. -/
def offsetIn (b original : SendBuf) : Nat :=
  match original.memory, b.memory with
  | some r, some r' => r'.pos - r.pos
  | _, _ =>
    match original.file, b.file with
    | some r, some r' => r'.pos - r.pos
    | _, _ => 0

end SendBuf

/-- `ngx_chain_t`: a buffer, or the rest of one that was begun before.  The tag of the
latter is `ngx_http_v2_filter_get_shadow`, and `shadow` is the whole buffer. -/
inductive ChainLink where
  | whole (buf : SendBuf)
  | shadow (original : SendBuf) (offset size : Nat) (rest : offset + size = original.size)
  deriving DecidableEq

/-- `in->buf` -/
def ChainLink.buf : ChainLink → SendBuf
  | whole b => b
  | shadow original offset size _ => original.getShadow offset size

/-- The buffer that the loops work on, and `offset`. -/
def ChainLink.enter : ChainLink → SendBuf × Nat
  | whole b => (b, 0)
  | shadow original offset size _ =>
    (original, (original.getShadow offset size).offsetIn original)

/-- The bytes of a chain. -/
def chainBytes (m : Media) (chain : List ChainLink) : Bytes :=
  (chain.map fun link => link.buf.bytes m).flatten

/-- `ngx_http_v2_out_frame_t`: a DATA frame with `END_STREAM` or without, or the HEADERS
frame of the trailers. -/
inductive OutFrame where
  | data (length : Nat) (bufs : List SendBuf) (fin : Bool)
  | trailers
  deriving DecidableEq

/-- The stream, besides `SendStream`. -/
structure OutStream extends SendStream where
  queued : Nat
  outClosed : Bool
  waiting : Bool
  deriving DecidableEq

/-- `h2lcf->chunk_size` and `h2c->frame_size`; neither can be set to 0. -/
structure FrameLimits where
  chunkSize : Nat
  frameSize : Nat
  chunk_pos : 0 < chunkSize
  frame_pos : 0 < frameSize

/-! ## One frame -/

/-- The variables `out`, `rest`, `size`, `offset` and `in` of the inner loop. -/
structure Filling where
  out : List SendBuf
  rest : Nat
  size : Nat
  offset : Nat
  chain : List ChainLink
  deriving DecidableEq

/-- The inner loop: whole buffers, as long as they fit. -/
def fillFrame (out : List SendBuf) (rest size offset : Nat) : List ChainLink → Filling
  | [] => ⟨out, rest, size, offset, []⟩
  | link :: chain =>
    if size ≤ rest then
      let piece := if offset ≠ 0 then link.buf.getShadow offset size else link.buf
      match chain with
      | [] => ⟨out ++ [piece], rest - size, size, 0, []⟩
      | next :: _ => fillFrame (out ++ [piece]) (rest - size) next.buf.size 0 chain
    else ⟨out, rest, size, offset, link :: chain⟩

/-- `cl->buf` is changed, `cl` being the last one. -/
def setLast (f : SendBuf → SendBuf) (out : List SendBuf) : List SendBuf :=
  out.dropLast ++ (out.getLast?.map f).toList

/-- `cl->buf->last_buf` -/
def endsStream (out : List SendBuf) : Bool := (out.getLast?.map SendBuf.lastBuf).getD false

/-- `ngx_http_v2_filter_get_data_frame` -/
def getDataFrame (length : Nat) (out : List SendBuf) : OutFrame :=
  .data length (setLast (fun b => { b with flush := true }) out) (endsStream out)

/-- The variables of the outer loop. -/
structure SendLoop where
  limit : Nat
  size : Nat
  offset : Nat
  frameSize : Nat
  chain : List ChainLink
  /-- the frame of the trailers has been made -/
  trailers : Bool
  /-- `h2c->send_window` -/
  sendWindow : Nat
  stream : OutStream
  frames : List OutFrame

/-- A frame is queued. -/
def SendLoop.queueFrame (s : SendLoop) (frame : OutFrame) : SendLoop :=
  { s with stream := { s.stream with queued := s.stream.queued + 1 }, frames := s.frames ++
    [frame] }

/-- The first buffer that is left. -/
def headBuf : List ChainLink → SendBuf
  | [] => ⟨none, none, 0, false, false⟩
  | link :: _ => link.buf

/-- A part of the next buffer comes last in the frame. -/
def splitBuf (f : Filling) (rest : Nat) : Filling :=
  if rest ≠ 0 then
    { f with
      out := f.out ++ [{ (headBuf f.chain).getShadow f.offset rest with
        flush := false, lastBuf := false }]
      offset := f.offset + rest
      size := f.size - rest }
  else f

/-- The length of the next frame, and its buffers; at the end of the chain there is no more
to fill it. -/
def SendLoop.nextFrame (s : SendLoop) : Nat × Filling :=
  let frameSize := if s.frameSize > s.limit then s.limit else s.frameSize
  let f := fillFrame [] frameSize s.size s.offset s.chain
  if f.chain = [] then (frameSize - f.rest, f) else (frameSize, splitBuf f f.rest)

/-- The frame is queued, unless it is empty and does not end the stream. -/
def SendLoop.putFrame (s : SendLoop) (out : List SendBuf) : SendLoop :=
  if s.frameSize ≠ 0 ∨ endsStream out = true then
    { s with
      sendWindow := subWord s.sendWindow s.frameSize
      stream := { s.stream with
        sendWindow := s.stream.sendWindow - s.frameSize } }.queueFrame
          (getDataFrame s.frameSize out)
  else s

/-- One turn of the outer loop, and whether there is another one; `hasTrailers` is whether
`ngx_http_v2_create_trailers_frame` makes a frame. -/
def sendTurn (hasTrailers : Bool) (s : SendLoop) : SendLoop × Bool :=
  let (frameSize, f) := s.nextFrame
  let made := endsStream f.out && hasTrailers
  let out := if made then setLast (fun b => { b with lastBuf := false }) f.out else f.out
  let s := { s with
    size := f.size, offset := f.offset, chain := f.chain, frameSize := frameSize
    trailers := s.trailers || made }
  let s := s.putFrame out
  if s.chain = [] then
    (if s.trailers then s.queueFrame .trailers else s, false)
  else
    let s := { s with limit := s.limit - frameSize }
    (s, s.limit ≠ 0)

/-- The outer loop. -/
def sendLoop (hasTrailers : Bool) : Nat → SendLoop → Option SendLoop
  | 0, _ => none
  | fuel + 1, s =>
    match sendTurn hasTrailers s with
    | (s, true) => sendLoop hasTrailers fuel s
    | (s, false) => some s

/-! ## The function -/

/-- What a call leaves: the windows, the frames that were queued, and the chain that it
returns. -/
structure SendResult where
  sendWindow : Nat
  stream : OutStream
  frames : List OutFrame
  chain : List ChainLink

/-- The first loop passes buffers that are empty. -/
def skipEmpty : List ChainLink → List ChainLink
  | [] => []
  | link :: chain => if link.buf.size ≠ 0 ∨ link.buf.lastBuf then link :: chain else skipEmpty chain

/-- `ngx_http_v2_flow_control`, `false` for `NGX_DECLINED` -/
def flowControl (sendWindow : Nat) (s : OutStream) : Bool × OutStream :=
  if s.sendWindow ≤ 0 then (false, { s with exhausted := true })
  else if sendWindow = 0 then (false, { s with waiting := true })
  else (true, s)

/-- `fc->write->active = 1; fc->write->ready = 0` -/
def OutStream.pause (s : OutStream) : OutStream := { s with active := true, ready := false }

/-- `limit`, 0 being none, within the windows -/
def sendLimit (sendWindow : Nat) (streamWindow : Int) (limit : Nat) : Nat :=
  let limit := if limit = 0 ∨ limit > sendWindow then sendWindow else limit
  if (limit : Int) > streamWindow then
    if streamWindow > 0 then streamWindow.toNat else 0
  else limit

/-- The chain that is returned begins with the rest of a buffer. -/
def keepRest (offset size : Nat) : List ChainLink → List ChainLink
  | [] => []
  | link :: chain =>
    if h : offset ≠ 0 ∧ offset + size = link.buf.size then
      .shadow link.buf offset size h.2 :: chain
    else link :: chain

/-- `ngx_http_v2_send_chain` -/
def sendChain (limits : FrameLimits) (hasTrailers : Bool) (sendWindow : Nat) (stream : OutStream)
    (chain : List ChainLink) (limit : Nat) : Option SendResult :=
  match skipEmpty chain with
  | [] => some ⟨sendWindow, if stream.queued ≠ 0 then stream.pause else stream, [], []⟩
  | link :: chain =>
    if stream.outClosed then
      some ⟨sendWindow, if stream.queued ≠ 0 then stream.pause else stream, [], []⟩
    else
      let size := link.buf.size
      let (ok, stream) := if size ≠ 0 then flowControl sendWindow stream else (true, stream)
      if !ok then some ⟨sendWindow, stream.pause, [], link :: chain⟩
      else
        let (buf, offset) := link.enter
        let limit := sendLimit sendWindow stream.sendWindow limit
        let frameSize :=
          if limits.chunkSize < limits.frameSize then limits.chunkSize else limits.frameSize
        match sendLoop hasTrailers (limit + 1)
          ⟨limit, size, offset, frameSize, .whole buf :: chain, false, sendWindow, stream, []⟩ with
        | none => none
        | some s =>
          let chain := keepRest s.offset s.size s.chain
          let (ok, stream) :=
            if chain = [] then (true, s.stream) else flowControl s.sendWindow s.stream
          some ⟨s.sendWindow, if ok then stream else stream.pause, s.frames, chain⟩

end Nginx.Http.V2
