/-
  Http/HeaderBuffer.lean --- the client header buffers while a request line is
  read: `ngx_http_alloc_large_header_buffer`, for a request line, and the loop
  of `ngx_http_process_request_line` around the parser.

  A delivery of bytes moves `b->last` forward; the parser is called on what is
  new.  When it has eaten a full buffer and wants more, the incomplete line is
  copied to a large buffer and every pointer into it is moved along, those that
  are not set yet included.
-/
import Nginx.Http.FastUri

set_option autoImplicit false

namespace Nginx.Http

open Foundation
open Parse

/-- `large_client_header_buffers` -/
structure LargeBuffers where
  num : Nat
  size : Nat

/-- The connection while the request line is read. -/
structure Conn where
  mem : Nat → Byte
  r : Request
  /-- `r->header_in` -/
  headerIn : Buf
  /-- `hc->free` -/
  free : List Buf
  /-- `hc->busy` -/
  busy : List Buf
  nbusy : Nat

/-- `new + (p - old)`, on addresses. -/
def relocate (new old p : Nat) : Nat := addWord new (subWord p old)

/-- The branch `if (request_line)` that moves the pointers. -/
def relocateLine (new old : Nat) (r : Request) : Request :=
  { r with
    requestStart := new
    requestEnd := if r.requestEnd ≠ 0 then relocate new old r.requestEnd else r.requestEnd
    methodEnd := relocate new old r.methodEnd
    uriStart := relocate new old r.uriStart
    uriEnd := relocate new old r.uriEnd
    schemaStart := if r.schemaStart ≠ 0 then relocate new old r.schemaStart else r.schemaStart
    schemaEnd := if r.schemaStart ≠ 0 then relocate new old r.schemaEnd else r.schemaEnd
    hostStart := if r.hostStart ≠ 0 then relocate new old r.hostStart else r.hostStart
    hostEnd :=
      if r.hostStart ≠ 0 then
        if r.hostEnd ≠ 0 then relocate new old r.hostEnd else r.hostEnd
      else r.hostEnd
    portStart := if r.portStart ≠ 0 then relocate new old r.portStart else r.portStart
    portEnd := if r.portStart ≠ 0 then relocate new old r.portEnd else r.portEnd
    uriExt := if r.uriExt ≠ 0 then relocate new old r.uriExt else r.uriExt
    argsStart := if r.argsStart ≠ 0 then relocate new old r.argsStart else r.argsStart
    httpProtocol :=
      if r.httpProtocol ≠ 0 then relocate new old r.httpProtocol else r.httpProtocol }

/-- What `ngx_http_alloc_large_header_buffer` returns. -/
inductive AllocResult where
  /-- `NGX_OK` -/
  | ok (c : Conn)
  | declined
  | error

/-- The line is copied to the buffer `b`, and `b` takes the place of
`r->header_in`. -/
def Conn.moveTo (c : Conn) (b : Buf) (free : List Buf) : Conn :=
  let old := c.r.requestStart
  let len := c.headerIn.pos - old
  let b := { b with pos := b.start + len, last := b.start + len }
  { mem := memcpy c.mem b.start (load c.mem old len)
    r := relocateLine b.start old c.r
    headerIn := b
    free := free
    busy := b :: c.busy
    nbusy := c.nbusy + 1 }

/-- `ngx_http_alloc_large_header_buffer(r, 1)`; `alloc` is the memory that the
pool gives for a new buffer, if it gives any. -/
def allocLargeHeaderBuffer (conf : LargeBuffers) (alloc : Option Nat) (c : Conn) : AllocResult :=
  if c.r.state = .start then
    -- the client fills up the buffer with "\r\n"
    .ok { c with headerIn := { c.headerIn with pos := c.headerIn.start, last := c.headerIn.start } }
  else if c.headerIn.pos - c.r.requestStart ≥ conf.size then .declined
  else match c.free with
    | b :: free => .ok (c.moveTo b free)
    | [] =>
        if c.nbusy < conf.num then
          match alloc with
          | none => .error
          | some start => .ok (c.moveTo ⟨start, start, start, start + conf.size⟩ [])
        else .declined

/-- New bytes behind `b->last`. -/
def Conn.deliver (c : Conn) (bytes : Bytes) : Conn :=
  { c with
    mem := memcpy c.mem c.headerIn.last bytes
    headerIn := { c.headerIn with last := c.headerIn.last + bytes.length } }

/-- `ngx_http_parse_request_line(r, r->header_in)` -/
def Conn.parse (c : Conn) : LineResult := parseRequestLine c.mem c.r c.headerIn

/-- An address range that a buffer can have. -/
def ValidRange (start last : Nat) : Prop := 0 < start ∧ start ≤ last ∧ last < wordRange

/-- How the bytes that have arrived leave the loop of
`ngx_http_process_request_line`. -/
inductive Outcome where
  /-- `NGX_OK`, with the memory and the request -/
  | ok (mem : Nat → Byte) (r : Request)
  /-- the parser waits for more -/
  | again
  | error (rc : LineError)

/-- A connection whose buffers lie in memory, with nothing read. -/
structure Conn.Fresh (conf : LargeBuffers) (c : Conn) : Prop where
  request : c.r = .created
  valid : ValidRange c.headerIn.start c.headerIn.end
  pos : c.headerIn.start ≤ c.headerIn.pos
  last : c.headerIn.pos = c.headerIn.last
  le_end : c.headerIn.last ≤ c.headerIn.end
  free : ∀ b ∈ c.free, ValidRange b.start b.end ∧ b.start + conf.size ≤ b.end

/-- The values that `ngx_http_process_request_line` takes from a parsed line. -/
structure LineFields where
  requestLine : Bytes
  method : Method
  methodName : Bytes
  httpProtocol : Bytes
  schema : Bytes
  host : Bytes
  /-- the strings of the URI, for each setting of `merge_slashes` -/
  uri : Bool → Option UriValues
  complexUri : Bool
  quotedUri : Bool
  plusInUri : Bool
  spaceInUri : Bool
  httpVersion : Nat

def lineFields (mem : Nat → Byte) (r : Request) : LineFields where
  requestLine := slice mem r.requestStart r.requestEnd
  method := r.method
  methodName := slice mem r.requestStart (r.methodEnd + 1)
  httpProtocol := if r.httpProtocol ≠ 0 then slice mem r.httpProtocol r.requestEnd else []
  schema := if r.schemaEnd ≠ 0 then slice mem r.schemaStart r.schemaEnd else []
  host := if r.hostEnd ≠ 0 then slice mem r.hostStart r.hostEnd else []
  uri mergeSlashes := processRequestUri mergeSlashes mem r
  complexUri := r.complexUri
  quotedUri := r.quotedUri
  plusInUri := r.plusInUri
  spaceInUri := r.spaceInUri
  httpVersion := r.httpVersion

end Nginx.Http
