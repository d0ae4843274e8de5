/-
  Http/Request.lean --- the part of `ngx_http_request_t` that the request line
  is parsed into, and the buffer it is parsed from.

  A pointer is an address, and 0 is `NULL`.  What it points to is read from a
  memory of bytes.
-/
import Nginx.Foundation.Memory

set_option autoImplicit false

namespace Nginx.Http

open Foundation

/-- The pointers of `ngx_buf_t` to a buffer in memory. -/
structure Buf where
  start : Nat
  pos : Nat
  last : Nat
  «end» : Nat
  deriving DecidableEq

/-- `NGX_HTTP_GET` and so on. -/
inductive Method where
  | unknown
  | get
  | head
  | post
  | put
  | delete
  | mkcol
  | copy
  | move
  | options
  | propfind
  | proppatch
  | lock
  | unlock
  | patch
  | trace
  deriving DecidableEq

/-- The states `sw_*` of `ngx_http_parse_request_line`, the first of them 0. -/
inductive LineState where
  | start
  | method
  | spacesBeforeUri
  | schema
  | schemaSlash
  | schemaSlashSlash
  | hostStart
  | host
  | hostEnd
  | hostIpLiteral
  | port
  | hostHttp09
  | afterSlashInUri
  | checkUri
  | checkUriHttp09
  | uri
  | http09
  | httpH
  | httpHT
  | httpHTT
  | httpHTTP
  | firstMajorDigit
  | majorDigit
  | firstMinorDigit
  | minorDigit
  | spacesAfterDigit
  | almostDone
  deriving DecidableEq

/-- The fields of `ngx_http_request_t` that parsing the request line reads and
writes. -/
structure Request where
  state : LineState
  requestStart : Nat
  requestEnd : Nat
  methodEnd : Nat
  uriStart : Nat
  uriEnd : Nat
  uriExt : Nat
  argsStart : Nat
  schemaStart : Nat
  schemaEnd : Nat
  hostStart : Nat
  hostEnd : Nat
  portStart : Nat
  portEnd : Nat
  /-- `r->http_protocol.data` -/
  httpProtocol : Nat
  method : Method
  httpMajor : Nat
  httpMinor : Nat
  httpVersion : Nat
  complexUri : Bool
  quotedUri : Bool
  plusInUri : Bool
  spaceInUri : Bool
  deriving DecidableEq

/-- The request that `ngx_http_create_request` gives: zeroed but for the
method. -/
def Request.created : Request where
  state := .start
  requestStart := 0
  requestEnd := 0
  methodEnd := 0
  uriStart := 0
  uriEnd := 0
  uriExt := 0
  argsStart := 0
  schemaStart := 0
  schemaEnd := 0
  hostStart := 0
  hostEnd := 0
  portStart := 0
  portEnd := 0
  httpProtocol := 0
  method := .unknown
  httpMajor := 0
  httpMinor := 0
  httpVersion := 0
  complexUri := false
  quotedUri := false
  plusInUri := false
  spaceInUri := false

/-- The bytes from one address up to another. -/
def slice (mem : Nat → Byte) (first last : Nat) : Bytes := load mem first (last - first)

end Nginx.Http
