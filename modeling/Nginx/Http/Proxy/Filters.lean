/-
  Http/Proxy/Filters.lean --- the input filters of the proxy module
  (`src/http/modules/ngx_http_proxy_module.c`).

  What follows the header of a response comes in pieces, and each is handed to
  one of four filters: the response is chunked or not, and it is buffered by
  the event pipe, which counts in `p->length`, or passed on at once, which
  counts in `u->length`.  A piece is the list of its bytes, and what the
  filters put into `p->in` or `u->out_bufs` is the list of the bytes in them.
  The buffers and links they allocate are there.
-/
import Nginx.Http.Parse.Chunked

set_option autoImplicit false

namespace Nginx.Http.Proxy

open Foundation
open Nginx.Core (Rc)
open Http.Parse

/-- `u->headers_in`, what of it decides the framing.  A length is one that
`ngx_atoof` returns, or `-1` when there is none. -/
structure HeadersIn where
  statusN : Nat
  chunked : Bool
  contentLengthN : Int
  connectionClose : Bool
  length_ge : -1 ≤ contentLengthN

/-- `u->pipe->input_filter` and `u->input_filter`, which are set together. -/
inductive InputFilter where
  /-- `ngx_http_proxy_copy_filter`, `ngx_http_proxy_non_buffered_copy_filter` -/
  | copy
  /-- `ngx_http_proxy_chunked_filter`, `ngx_http_proxy_non_buffered_chunked_filter` -/
  | chunked
  deriving DecidableEq

/-- What the filters read and write of the upstream, its pipe and the module's
context. -/
structure Upstream where
  /-- `u->pipe->length` -/
  pipeLength : Int
  /-- `u->pipe->upstream_done` -/
  upstreamDone : Bool
  /-- `u->length` -/
  length : Int
  keepalive : Bool
  inputFilter : InputFilter
  /-- `ctx->chunked` -/
  chunked : Chunked
  /-- the bytes in `p->in` and `u->out_bufs`, in the order they were put there -/
  passed : Bytes

namespace Upstream

/-- As the handler, `ngx_http_upstream_process_headers` and
`ngx_http_upstream_send_response` leave it. -/
def initial : Upstream where
  pipeLength := -1
  upstreamDone := false
  length := -1
  keepalive := false
  inputFilter := .copy
  chunked := .zeroed
  passed := []

end Upstream

def ngxHttpNoContent : Nat := 204
def ngxHttpNotModified : Nat := 304
def ngxHttpSwitchingProtocols : Nat := 101

/-- A response without a body whatever its header says: `head` is
`ctx->head`. -/
def HeadersIn.noBody (h : HeadersIn) (head : Bool) : Bool :=
  h.statusN = ngxHttpNoContent ∨ h.statusN = ngxHttpNotModified ∨ head

/-- `ngx_http_proxy_process_header`, where the header is complete: the length
of a chunked response is cleared, and `u->keepalive` is set for a response
without a body. -/
def processHeader (h : HeadersIn) (head : Bool) (u : Upstream) : HeadersIn × Upstream :=
  let h := if h.chunked then { h with contentLengthN := -1, length_ge := Int.le_refl _ } else h
  let u :=
    if h.noBody head ∨ (!h.chunked ∧ h.contentLengthN = 0) then
      { u with keepalive := !h.connectionClose }
    else u
  let u := if h.statusN = ngxHttpSwitchingProtocols then { u with keepalive := false } else u
  (h, u)

/-- `ngx_http_proxy_input_filter_init` -/
def inputFilterInit (h : HeadersIn) (head : Bool) (u : Upstream) : Upstream :=
  if h.noBody head then
    { u with pipeLength := 0, length := 0, keepalive := !h.connectionClose }
  else if h.chunked then
    { u with inputFilter := .chunked, pipeLength := 3, length := 1 }
  else if h.contentLengthN = 0 then
    { u with pipeLength := 0, length := 0, keepalive := !h.connectionClose }
  else
    { u with pipeLength := h.contentLengthN, length := h.contentLengthN }

/-- `ngx_http_proxy_copy_filter` -/
def copyFilter (h : HeadersIn) (u : Upstream) (buf : Bytes) : Rc × Upstream :=
  if buf = [] then (.ok, u)
  else
    let u := { u with passed := u.passed ++ buf }
    if u.pipeLength = -1 then (.ok, u)
    else
      let u := { u with pipeLength := u.pipeLength - buf.length }
      if u.pipeLength = 0 then
        (.ok, { u with upstreamDone := true, keepalive := !h.connectionClose })
      else if u.pipeLength < 0 then (.ok, { u with upstreamDone := true })
      else (.ok, u)

/-- `for ( ;; )` of both chunked filters: what `ngx_http_parse_chunked` returns
at last, the context, and the bytes passed on. -/
def chunkedTurns : Nat → Chunked → Bytes → Bytes → Rc × Chunked × Bytes
  | 0, ctx, passed, _ => (.again, ctx, passed)
  | turns + 1, ctx, passed, buf =>
      match parseChunked ctx buf with
      | (.ok, ctx, pos) =>
          if pos.length ≥ ctx.size then
            chunkedTurns turns { ctx with size := 0 } (passed ++ pos.take ctx.size)
              (pos.drop ctx.size)
          else
            chunkedTurns turns { ctx with size := ctx.size - pos.length } (passed ++ pos) []
      | (rc, ctx, _) => (rc, ctx, passed)

/-- `ngx_http_proxy_chunked_filter`.  Each turn of the loop that goes on takes
at least one byte. -/
def chunkedFilter (h : HeadersIn) (u : Upstream) (buf : Bytes) : Rc × Upstream :=
  if buf = [] then (.ok, u)
  else
    match chunkedTurns (buf.length + 1) u.chunked u.passed buf with
    | (.done, ctx, passed) =>
        (.ok, { u with
          chunked := ctx
          passed := passed
          upstreamDone := true
          keepalive := !h.connectionClose })
    | (.again, ctx, passed) =>
        (.ok, { u with chunked := ctx, passed := passed, pipeLength := ctx.length })
    | (_, ctx, passed) => (.error, { u with chunked := ctx, passed := passed })

/-- `ngx_http_proxy_non_buffered_copy_filter` -/
def nonBufferedCopyFilter (h : HeadersIn) (u : Upstream) (bytes : Bytes) : Rc × Upstream :=
  let u := { u with passed := u.passed ++ bytes }
  if u.length = -1 then (.ok, u)
  else
    let u := { u with length := u.length - bytes.length }
    if u.length = 0 then (.ok, { u with keepalive := !h.connectionClose }) else (.ok, u)

/-- `ngx_http_proxy_non_buffered_chunked_filter` -/
def nonBufferedChunkedFilter (h : HeadersIn) (u : Upstream) (bytes : Bytes) : Rc × Upstream :=
  match chunkedTurns (bytes.length + 1) u.chunked u.passed bytes with
  | (.done, ctx, passed) =>
      (.ok, { u with
        chunked := ctx
        passed := passed
        keepalive := !h.connectionClose
        length := 0 })
  | (.again, ctx, passed) => (.ok, { u with chunked := ctx, passed := passed })
  | (_, ctx, passed) => (.error, { u with chunked := ctx, passed := passed })

/-- Whether the response is buffered: `u->buffering`. -/
inductive Mode where
  | buffered
  | nonBuffered
  deriving DecidableEq

/-- `p->input_filter(p, buf)` and `u->input_filter(u->input_filter_ctx, n)` -/
def inputFilter (mode : Mode) (h : HeadersIn) (u : Upstream) (piece : Bytes) : Rc × Upstream :=
  match mode, u.inputFilter with
  | .buffered, .copy => copyFilter h u piece
  | .buffered, .chunked => chunkedFilter h u piece
  | .nonBuffered, .copy => nonBufferedCopyFilter h u piece
  | .nonBuffered, .chunked => nonBufferedChunkedFilter h u piece

/-- The pieces handed to the filter one after the other, up to an error.  Both
callers may hand over more after the end of the response: the pipe all buffers
that one `recv_chain` filled, and the other one what comes while the client
takes its time. -/
def inputFilters (mode : Mode) (h : HeadersIn) : Upstream → List Bytes → Rc × Upstream
  | u, [] => (.ok, u)
  | u, piece :: pieces =>
      match inputFilter mode h u piece with
      | (.ok, u) => inputFilters mode h u pieces
      | (rc, u) => (rc, u)

/-- What the callers take for the end of the response without a close of the
upstream: `p->upstream_done`, which the pipe also sets itself when `p->length`
is zero, and `u->length == 0`. -/
def Upstream.ended (u : Upstream) : Mode → Prop
  | .buffered => u.upstreamDone = true ∨ u.pipeLength = 0
  | .nonBuffered => u.length = 0

/-- A response, from the end of its header on. -/
def response (mode : Mode) (h : HeadersIn) (head : Bool) (pieces : List Bytes) : Rc × Upstream :=
  let (h, u) := processHeader h head .initial
  inputFilters mode h (inputFilterInit h head u) pieces

end Nginx.Http.Proxy
