/-
  Http/FastCgi/Request.lean --- the request that is sent to a FastCGI application
  (`src/http/modules/ngx_http_fastcgi_module.c`).

  The hash of `ngx_http_fastcgi_params_t` is the list of the names in it.  A request
  header is known by its number, as the source knows it by its address.  Allocations do
  not fail, and a buffer that is made keeps its size beside the bytes written to it.
-/
import Nginx.Core.Chain
import Nginx.Core.Hash
import Nginx.Http.FastCgi.Protocol
import Nginx.Http.Script

set_option autoImplicit false

namespace Nginx.Http.FastCgi

open Foundation Nginx.Core

/-! ## Configuration -/

/-- `ngx_http_upstream_param_t`, with its value in parts. -/
structure Param where
  key : Bytes
  value : List ScriptPart
  skipEmpty : Bool
  deriving DecidableEq

/-- The name starts with `HTTP_` and does not end there. -/
def Param.isHttp (p : Param) : Bool := 5 < p.key.length && p.key.take 5 == ascii "HTTP_"

/-- `ngx_http_fastcgi_params_t`; `lengths` is `none` where it is `NULL`. -/
structure Params where
  lengths : Option (List LenCode)
  values : List ValueCode
  number : Nat
  hash : List Bytes

/-- `ngx_strcasecmp(a, b) == 0` -/
def sameName (a b : Bytes) : Bool := strlow a == strlow b

/-- `while (h->key.len)`: the default parameters that are not configured are added. -/
def mergeDefaults : List Param → List Param → List Param
  | merged, [] => merged
  | merged, h :: defaults =>
    if merged.any fun s => sameName h.key s.key then mergeDefaults merged defaults
    else mergeDefaults (merged ++ [{ h with skipEmpty := true }]) defaults

/-- The parameter is compiled; one that only hides a header is not. -/
def Param.compiled (p : Param) : Bool := !(p.isHttp && p.value.isEmpty)

/-- What a parameter adds to `params->lengths`. -/
def Param.lenCodes (p : Param) : List LenCode :=
  .copy p.key.length :: .copy p.skipEmpty.toNat :: (p.value.map ScriptPart.lenCode ++ [.null])

/-- What a parameter adds to `params->values`. -/
def Param.valueCodes (p : Param) : List ValueCode :=
  .copy p.key :: (p.value.map ScriptPart.valueCode ++ [.null])

/-- The parameters that `ngx_http_fastcgi_init_params` goes through, where there are any. -/
def sources (paramsSource defaultParams : Option (List Param)) : Option (List Param) :=
  match defaultParams with
  | none => paramsSource
  | some defaults => some (mergeDefaults (paramsSource.getD []) defaults)

/-- `ngx_http_fastcgi_init_params` -/
def initParams (paramsSource defaultParams : Option (List Param)) : Params :=
  (sources paramsSource defaultParams).elim ⟨none, [], 0, []⟩ fun src =>
    let names := (src.filter Param.isHttp).map fun p => p.key.drop 5
    let compiled := src.filter Param.compiled
    ⟨some (compiled.flatMap Param.lenCodes ++ [.null]),
      compiled.flatMap Param.valueCodes, names.length, names⟩

/-- `ngx_hash_find(&params->hash, hash, key, len)`; the names are in the hash in lower case. -/
def Params.find (params : Params) (key : Bytes) :
    Bool := params.hash.any fun name => strlow name == key

/-- `ngx_http_fastcgi_loc_conf_t` -/
structure LocConf where
  paramsSource : Option (List Param)
  /-- `ngx_http_fastcgi_cache_headers` -/
  cacheHeaders : List Param
  keepConn : Bool
  passRequestHeaders : Bool
  passRequestBody : Bool

/-- `flcf->params` and `flcf->params_cache` -/
def LocConf.params (flcf : LocConf) (cacheable : Bool) : Params :=
  initParams flcf.paramsSource (if cacheable then some flcf.cacheHeaders else none)

/-! ## The request -/

/-- `ngx_table_elt_t` -/
structure TableElt where
  key : Bytes
  value : Bytes
  deriving DecidableEq

structure Request where
  script : ScriptRequest
  headersIn : List TableElt
  cacheable : Bool
  requestBodyNoBuffering : Bool
  /-- `u->request_bufs` -/
  requestBufs : List NgxBuf

/-- A character of `lowcase_key`. -/
def lowcase (ch : Byte) :
    Byte := if chr 'A' ≤ ch ∧
    ch ≤ chr 'Z' then ch ||| 0x20 else if ch = chr '-' then chr '_' else ch

/-- A character of the name of a variable. -/
def upcase (ch : Byte) :
    Byte := if chr 'a' ≤ ch ∧
    ch ≤ chr 'z' then ch &&& ~~~0x20 else if ch = chr '-' then chr '_' else ch

/-- `padding = 8 - len % 8; padding = (padding == 8) ? 0 : padding` -/
def paddingOf (len : Nat) : Nat := if 8 - len % 8 = 8 then 0 else 8 - len % 8

/-- `ngx_create_temp_buf(pool, size)` and what is written behind `b->last`. -/
structure TempBuf where
  size : Nat
  written : Bytes

def TempBuf.write (b : TempBuf) (bytes : Bytes) :
    TempBuf := { b with written := b.written ++ bytes }

/-- A buffer of the chain that is sent: one that is made, or a copy of one of the body. -/
inductive OutBuf where
  | temp (b : TempBuf)
  | body (b : NgxBuf)

def OutBuf.bytes : OutBuf → Bytes
  | .temp b => b.written
  | .body b => b.bytes

/-- The copy of a buffer from one position to another. -/
def bodyPiece (b : NgxBuf) (pos last : Nat) : NgxBuf :=
  if b.inFile then { b with filePos := pos, fileLast := last }
  else { b with
    area := .text b.areaBytes, start := some (b.areaBytes.drop pos), pos := pos, last := last }

/-- `do { … } while (!next)`: the buffers before the last that is made, and that one. -/
def splitBuf (b : NgxBuf) : Nat → Nat → TempBuf → List OutBuf × TempBuf
  | 0, _, cur => ([], cur)
  | fuel + 1, pos, cur =>
    let last := if b.inFile then b.fileLast else b.last
    let next := pos + 32 * 1024 ≥ last
    let stop := if next then last else pos + 32 * 1024
    let len := stop - pos
    let padding := paddingOf len
    let cur := cur.write (headerBytes stdinType len padding)
    let side : TempBuf := (TempBuf.mk (8 + padding) []).write (List.replicate padding 0)
    if next then ([.temp cur, .body (bodyPiece b pos stop)], side)
    else
      let (out, side) := splitBuf b fuel stop side
      (.temp cur :: .body (bodyPiece b pos stop) :: out, side)

/-- `ngx_http_fastcgi_request_start`, with the lengths of the PARAMS record. -/
def requestStart (keepConn : Bool) (len padding : Nat) : Bytes :=
  headerBytes beginRequest 8 0 ++
    [0, responder, if keepConn then keepConnFlag else 0, 0, 0, 0, 0, 0] ++
    headerBytes paramsType len padding

end Nginx.Http.FastCgi
