/-
  Http/Parse/Chunked.lean --- `ngx_http_parse_chunked` and the loop that every
  caller drives it with.

  The parser is resumable: it reads what is between `b->pos` and `b->last`,
  keeps its state in the context, and hands chunk data over to the caller,
  which consumes them and counts `size` down.  A buffer is the list of bytes
  from `b->pos` on; a new `b->pos` is a suffix of it.
-/
import Nginx.Core.Base
import Nginx.Http.Parse.Char

set_option autoImplicit false

namespace Nginx.Http.Parse

open Foundation
open Nginx.Core (Rc)

/-- `NGX_MAX_OFF_T_VALUE`, for a 64-bit `off_t`. -/
def ngxMaxOffTValue : Nat := 2 ^ 63 - 1

/-- The states `sw_*` of the machine. -/
inductive ChunkState where
  | chunkStart
  | chunkSize
  | chunkExtension
  | chunkExtensionAlmostDone
  | chunkData
  | afterData
  | afterDataAlmostDone
  | lastChunkExtension
  | lastChunkExtensionAlmostDone
  | trailer
  | trailerAlmostDone
  | trailerHeader
  | trailerHeaderAlmostDone
  deriving DecidableEq, Inhabited

/-- `ngx_http_chunked_t` -/
structure Chunked where
  state : ChunkState
  size : Nat
  length : Nat
  deriving DecidableEq

/-- The context `ngx_pcalloc` gives. -/
def Chunked.zeroed : Chunked := ⟨.chunkStart, 0, 0⟩

/-- What the `switch` does with one byte. -/
inductive ChunkStep where
  /-- `break`, with the state and `ctx->size` -/
  | next (state : ChunkState) (size : Nat)
  /-- `rc = NGX_OK; goto data` -/
  | data
  /-- `goto done` -/
  | done
  /-- `goto invalid` -/
  | invalid
  deriving DecidableEq

/-- The `switch (state)` on one byte.  A state without a transition for the
byte keeps it. -/
def chunkStep (state : ChunkState) (size : Nat) (ch : Byte) : ChunkStep :=
  match state with
  | .chunkStart =>
      match hexDigit? ch with
      | some v => .next .chunkSize v
      | none => .invalid
  | .chunkSize =>
      if size > ngxMaxOffTValue / 16 then .invalid
      else match hexDigit? ch with
        | some v => .next .chunkSize (size * 16 + v)
        | none =>
          if size = 0 then
            if ch = cr then .next .lastChunkExtensionAlmostDone size
            else if ch = lf then .next .trailer size
            else if ch = chr ';' ∨ ch = chr ' ' ∨ ch = chr '\t' then .next .lastChunkExtension size
            else .invalid
          else
            if ch = cr then .next .chunkExtensionAlmostDone size
            else if ch = lf then .next .chunkData size
            else if ch = chr ';' ∨ ch = chr ' ' ∨ ch = chr '\t' then .next .chunkExtension size
            else .invalid
  | .chunkExtension =>
      if ch = cr then .next .chunkExtensionAlmostDone size
      else if ch = lf then .next .chunkData size
      else .next .chunkExtension size
  | .chunkExtensionAlmostDone => if ch = lf then .next .chunkData size else .invalid
  | .chunkData => .data
  | .afterData =>
      if ch = cr then .next .afterDataAlmostDone size
      else if ch = lf then .next .chunkStart size
      else .next .afterData size
  | .afterDataAlmostDone => if ch = lf then .next .chunkStart size else .invalid
  | .lastChunkExtension =>
      if ch = cr then .next .lastChunkExtensionAlmostDone size
      else if ch = lf then .next .trailer size
      else .next .lastChunkExtension size
  | .lastChunkExtensionAlmostDone => if ch = lf then .next .trailer size else .invalid
  | .trailer =>
      if ch = cr then .next .trailerAlmostDone size
      else if ch = lf then .done
      else .next .trailerHeader size
  | .trailerAlmostDone => if ch = lf then .done else .invalid
  | .trailerHeader =>
      if ch = cr then .next .trailerHeaderAlmostDone size
      else if ch = lf then .next .trailer size
      else .next .trailerHeader size
  | .trailerHeaderAlmostDone => if ch = lf then .next .trailer size else .invalid

/-- How the `for` loop over the buffer ends. -/
inductive ChunkExit where
  /-- at the label `data`, with `rc`, `state`, `ctx->size` and `pos` -/
  | data (rc : Rc) (state : ChunkState) (size : Nat) (pos : Bytes)
  /-- at the label `done`, with `pos + 1` -/
  | done (size : Nat) (pos : Bytes)
  /-- at the label `invalid` -/
  | invalid
  deriving DecidableEq

/-- `for (pos = b->pos; pos < b->last; pos++)` -/
def chunkLoop : ChunkState → Nat → Bytes → ChunkExit
  | state, size, [] => .data .again state size []
  | state, size, ch :: rest =>
      match chunkStep state size ch with
      | .next state size => chunkLoop state size rest
      | .data => .data .ok state size (ch :: rest)
      | .done => .done size rest
      | .invalid => .invalid

/-- `ctx->length`: how many bytes at least are still to come. -/
def chunkLength (state : ChunkState) (size : Nat) : Nat :=
  match state with
  | .chunkStart => 3
  | .chunkSize => 1 + (if size ≠ 0 then size + 4 else 1)
  | .chunkExtension | .chunkExtensionAlmostDone => 1 + size + 4
  | .chunkData => size + 4
  | .afterData | .afterDataAlmostDone => 4
  | .lastChunkExtension | .lastChunkExtensionAlmostDone => 2
  | .trailer | .trailerAlmostDone => 1
  | .trailerHeader | .trailerHeaderAlmostDone => 2

/-- The state the parser resumes in: chunk data of which nothing is left are
over. -/
def Chunked.entryState (ctx : Chunked) : ChunkState :=
  if ctx.state = .chunkData ∧ ctx.size = 0 then .afterData else ctx.state

/-- `ngx_http_parse_chunked`: the return code, the context and `b->pos`.  An
`NGX_ERROR` leaves the last two without use. -/
def parseChunked (ctx : Chunked) (b : Bytes) : Rc × Chunked × Bytes :=
  match chunkLoop ctx.entryState ctx.size b with
  | .data rc state size pos =>
      if size > ngxMaxOffTValue - 5 then (.error, { ctx with state := state, size := size }, pos)
      else (rc, ⟨state, size, chunkLength state size⟩, pos)
  | .done size pos => (.done, { ctx with state := .chunkStart, size := size }, pos)
  | .invalid => (.error, ctx, b)

/-! ## The callers' loop -/

/-- What the caller has after driving the parser. -/
inductive ChunkResult where
  /-- `NGX_DONE`: the data and the bytes after the body -/
  | done (data rest : Bytes)
  /-- more input is needed: the data so far -/
  | again (data : Bytes)
  /-- `NGX_ERROR` -/
  | error
  deriving DecidableEq

/-- What the caller has after one buffer. -/
inductive ChunkBuffer where
  | done (data rest : Bytes)
  | again (ctx : Chunked) (data : Bytes)
  | error
  deriving DecidableEq

/-- `for ( ;; )` of the callers over one buffer.  On `NGX_OK` the caller takes
`min(ctx->size, last - pos)` bytes and subtracts them from `ctx->size`. -/
def driveBuffer : Nat → Chunked → Bytes → Bytes → ChunkBuffer
  | 0, ctx, data, _ => .again ctx data
  | turns + 1, ctx, data, b =>
      match parseChunked ctx b with
      | (.ok, ctx, pos) =>
          if pos.length > ctx.size then
            driveBuffer turns { ctx with size := 0 } (data ++ pos.take ctx.size)
              (pos.drop ctx.size)
          else
            driveBuffer turns { ctx with size := ctx.size - pos.length } (data ++ pos) []
      | (.done, _, pos) => .done data pos
      | (.again, ctx, _) => .again ctx data
      | (_, _, _) => .error

/-- Drive the parser over successive buffers.  Each turn that consumes data
consumes at least one byte, so a buffer takes at most one turn more than it has
bytes. -/
def driveChunked : Chunked → Bytes → List Bytes → ChunkResult
  | _, data, [] => .again data
  | ctx, data, b :: bufs =>
      match driveBuffer (b.length + 1) ctx data b with
      | .done data rest => .done data (rest ++ bufs.flatten)
      | .again ctx data => driveChunked ctx data bufs
      | .error => .error

end Nginx.Http.Parse
