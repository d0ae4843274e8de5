/-
  Http/FastCgi/Protocol.lean --- FastCGI as the application sees it: records, lengths of
  names and values, the streams of one request.

  The record header is `ngx_http_fastcgi_header_t` of
  `src/http/modules/ngx_http_fastcgi_module.c`, and the request is number 1.  The decoder
  asks for one BEGIN_REQUEST, then for the PARAMS and the STDIN stream, each of them
  closed by its first empty record, and for nothing behind them.
-/
import Nginx.Foundation.Framing
import Nginx.Foundation.Memory

set_option autoImplicit false

namespace Nginx.Http.FastCgi

open List Foundation

/-! ## Constants -/

/-- `NGX_HTTP_FASTCGI_BEGIN_REQUEST` -/
def beginRequest : Byte := 1

/-- `NGX_HTTP_FASTCGI_PARAMS` -/
def paramsType : Byte := 4

/-- `NGX_HTTP_FASTCGI_STDIN` -/
def stdinType : Byte := 5

/-- `NGX_HTTP_FASTCGI_RESPONDER` -/
def responder : Byte := 1

/-- `NGX_HTTP_FASTCGI_KEEP_CONN` -/
def keepConnFlag : Byte := 1

/-! ## Records -/

structure Record where
  type : Byte
  content : Bytes
  padding : Nat
  deriving DecidableEq

/-- `ngx_http_fastcgi_header_t` -/
def headerBytes (type : Byte) (len padding : Nat) : Bytes :=
  [1, type, 0, 1, UInt8.ofNat (len >>> 8), UInt8.ofNat len, UInt8.ofNat padding, 0]

/-- A record on the wire. -/
def Record.bytes (rec : Record) : Bytes :=
  headerBytes rec.type rec.content.length rec.padding ++
    (rec.content ++ List.replicate rec.padding 0)

/-- The length of a name or value as both passes over the request headers have it. -/
def lengthBytes (n : Nat) : Bytes :=
  if n > 127 then
    [UInt8.ofNat ((n >>> 24) &&& 0x7f ||| 0x80), UInt8.ofNat (n >>> 16),
      UInt8.ofNat (n >>> 8), UInt8.ofNat n]
  else [UInt8.ofNat n]

/-- A name with its value on the wire. -/
def pairBytes (p : Bytes × Bytes) :
    Bytes := lengthBytes p.1.length ++ lengthBytes p.2.length ++ p.1 ++ p.2

end Nginx.Http.FastCgi
