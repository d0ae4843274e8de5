/-
  Http/Cache/FileHeader.lean --- the header of a cache file, as it is written and read
  (`src/http/ngx_http_file_cache.c`, `src/http/ngx_http_cache.h`).

  A file is its header, kept as the structure that it is, and the bytes behind it.  MD5
  and CRC32 are functions of all the bytes that they are updated with.  Whether the node
  of a key lets its file be opened is part of what files there are.
-/
import Nginx.Core.Hash
import Nginx.Foundation.Elements

set_option autoImplicit false

namespace Nginx.Http.Cache

open Foundation Nginx.Core

/-- `ngx_md5_final` and `ngx_crc32_final` of the bytes before them. -/
structure Digests where
  md5 : Bytes → Bytes
  crc32 : Bytes → Nat

/-- `ngx_table_elt_t`; a header that is removed has the hash 0. -/
structure TableElt where
  hash : Nat
  key : Bytes
  value : Bytes
  deriving DecidableEq

/-- `ngx_http_cache_t`, without its node. -/
structure HttpCache where
  keys : List Bytes
  crc32 : Nat
  key : Bytes
  main : Bytes
  validSec : Int
  updatingSec : Int
  errorSec : Int
  lastModified : Int
  date : Int
  etag : Bytes
  vary : Bytes
  variant : Bytes
  headerStart : Nat
  bodyStart : Nat
  length : Nat
  validMsec : Nat
  secondary : Bool
  deriving DecidableEq

/-- `ngx_http_file_cache_header_t` -/
structure FileHeader where
  version : Nat
  validSec : Int
  updatingSec : Int
  errorSec : Int
  lastModified : Int
  date : Int
  crc32 : Nat
  /-- `u_short`, as the two fields behind it -/
  validMsec : Nat
  headerStart : Nat
  bodyStart : Nat
  etagLen : Nat
  etag : Bytes
  varyLen : Nat
  vary : Bytes
  variant : Bytes
  deriving DecidableEq

/-- A file of the cache. -/
structure CacheFile where
  header : FileHeader
  text : Bytes

/-! ## Constants -/

/-- `sizeof(ngx_http_file_cache_header_t)` -/
def headerSize : Nat := 336

/-- `ngx_http_file_cache_key` -/
def fileCacheKey : Bytes := 10 :: ascii "KEY: "

/-- `NGX_HTTP_CACHE_VERSION` -/
def cacheVersion : Nat := 5

/-- `NGX_HTTP_CACHE_ETAG_LEN` -/
def etagMax : Nat := 128

/-- `NGX_HTTP_CACHE_VARY_LEN` -/
def varyMax : Nat := 128

/-- The size of the file. -/
def CacheFile.size (file : CacheFile) : Nat := headerSize + file.text.length

/-- An array of a structure that was set to zero. -/
def filled (size : Nat) (bytes : Bytes) : Bytes := bytes ++ List.replicate (size - bytes.length) 0

/-! ## The variant of a request -/

/-- `*p == ' ' || *p == ','` -/
def isSeparator (ch : Byte) : Bool := ch == chr ' ' || ch == chr ','

/-- `normalize` of `ngx_http_file_cache_vary_header` -/
def isNormalized (name : Bytes) : Bool :=
  strlow name == strlow (ascii "Accept-Charset") || strlow name == strlow
    (ascii "Accept-Encoding") ||
    strlow name == strlow (ascii "Accept-Language")

/-- The values of the request headers of that name. -/
def headerValues (headers : List TableElt) (name : Bytes) : List Bytes :=
  (headers.filter fun h => h.hash != 0 && strlow h.key == strlow name).map TableElt.value

/-- What `ngx_http_file_cache_vary_header` updates the digest with. -/
def varyHeader (headers : List TableElt) (name : Bytes) : Bytes :=
  joinFrom (chr ',') false
    (if isNormalized name then
      (headerValues headers name).flatMap (elements isSeparator) else headerValues headers name)

/-- What `ngx_http_file_cache_vary` updates the digest with. -/
def varyInput (main : Bytes) (headers : List TableElt) (vary : Bytes) : Bytes :=
  main ++ (elements isSeparator (strlow vary)).flatMap fun name =>
    name ++ ascii ":" ++ varyHeader headers name ++ [13, 10]

/-- `ngx_http_file_cache_vary` -/
def varyHash (D : Digests) (main : Bytes) (headers : List TableElt) (vary : Bytes) :
    Bytes := D.md5 (varyInput main headers vary)

/-! ## The cache of a request -/

/-- `ngx_http_file_cache_create_key` -/
def createKey (D : Digests) (c : HttpCache) : HttpCache :=
  { c with
    crc32 := D.crc32 c.keys.flatten
    headerStart := headerSize + fileCacheKey.length + c.keys.flatten.length + 1
    key := D.md5 c.keys.flatten
    main := D.md5 c.keys.flatten }

/-- `u->headers_in` where a Vary header is processed, and `r->cache->vary`. -/
structure VaryState where
  cacheable : Bool
  vary : Bytes
  deriving DecidableEq

/-- `ngx_http_upstream_process_vary`; `ignore` is `NGX_HTTP_UPSTREAM_IGN_VARY`. -/
def processVary (ignore : Bool) (s : VaryState) (value : Bytes) : VaryState :=
  if ignore then s
  else
    { cacheable := if value.length > varyMax ∨ value = ascii "*" then false else s.cacheable
      vary := value }

/-- `ngx_http_file_cache_update_variant`, as far as keys go. -/
def updateVariant (c : HttpCache) : HttpCache :=
  if c.secondary = false then c
  else if c.vary ≠ [] ∧ c.variant = c.key then c
  else { c with key := c.main }

/-- `ngx_http_file_cache_set_header`: the header, and the cache with its variant. -/
def setHeader (D : Digests) (headers : List TableElt) (c : HttpCache) : FileHeader × HttpCache :=
  let vary := c.vary.take varyMax
  let variant := if vary = [] then c.variant else varyHash D c.main headers vary
  let h : FileHeader :=
    { version := cacheVersion
      validSec := c.validSec
      updatingSec := c.updatingSec
      errorSec := c.errorSec
      lastModified := c.lastModified
      date := c.date
      crc32 := c.crc32
      validMsec := short c.validMsec
      headerStart := short c.headerStart
      bodyStart := short c.bodyStart
      etagLen := if c.etag.length ≤ etagMax then c.etag.length else 0
      etag := if c.etag.length ≤ etagMax then filled etagMax c.etag else filled etagMax []
      varyLen := vary.length
      vary := filled varyMax vary
      variant := if vary = [] then filled 16 [] else variant }
  (h, updateVariant { c with vary := vary, variant := variant })

/-- How `ngx_http_file_cache_read` ends; whether the response is still valid is not part of it. -/
inductive ReadResult where
  | declined
  /-- `ngx_http_file_cache_reopen` has switched to the key of the variant -/
  | reopen (c : HttpCache)
  | accepted (c : HttpCache)

/-- `for (i = 0; i < c->keys.nelts; i++)`: the keys stand one behind the other. -/
def matchKeys : List Bytes → Bytes → Bool
  | [], _ => true
  | key :: keys, p => p.take key.length == key && matchKeys keys (p.drop key.length)

/-- `ngx_http_file_cache_reopen` before it opens again. -/
def reopen (c : HttpCache) (variant : Bytes) : ReadResult :=
  if c.secondary then .declined else .reopen
    { c with secondary := true, variant := variant, key := variant }

/-- What an accepted header sets. -/
def restore (c : HttpCache) (h : FileHeader) (variant : Bytes) : HttpCache :=
  { c with
    validSec := h.validSec
    updatingSec := h.updatingSec
    errorSec := h.errorSec
    lastModified := h.lastModified
    date := h.date
    validMsec := h.validMsec
    bodyStart := h.bodyStart
    etag := h.etag.take h.etagLen
    variant := variant }

/-- `if (h->vary_len)`: the variant of the request is compared with the one of the file. -/
def readVariant (D : Digests) (headers : List TableElt) (c : HttpCache) (h : FileHeader) :
    ReadResult :=
  if h.varyLen = 0 then .accepted (restore c h c.variant)
  else
    let variant := varyHash D c.main headers (h.vary.take h.varyLen)
    if variant ≠ h.variant then reopen c variant else .accepted (restore c h variant)

/-- `ngx_http_file_cache_read`; so much is read as the file has, and `c->body_start` at most. -/
def readFile (D : Digests) (headers : List TableElt) (c : HttpCache) (file : CacheFile) :
    ReadResult :=
  let n := min file.size c.bodyStart
  let h := file.header
  if n < c.headerStart then .declined
  else if h.version ≠ cacheVersion then .declined
  else if h.crc32 ≠ c.crc32 ∨ h.headerStart ≠ c.headerStart then .declined
  else if matchKeys c.keys (file.text.drop fileCacheKey.length) = false then .declined
  else if h.bodyStart > c.bodyStart then .declined
  else if h.varyLen > varyMax then .declined
  else readVariant D headers c h

/-- `ngx_http_file_cache_open` of a request, `again` being what follows
`ngx_http_file_cache_reopen`. -/
def openWith (D : Digests) (headers : List TableElt) (files : Bytes → Option CacheFile)
    (again : HttpCache → Option (CacheFile × HttpCache))
    (c : HttpCache) : Option (CacheFile × HttpCache) :=
  (files c.key).bind fun file =>
    match readFile D headers { c with length := file.size } file with
    | .declined => none
    | .reopen c => again c
    | .accepted c => some (file, c)

/-- `ngx_http_file_cache_open`: the file that is served, and the cache.  A second variant is never
asked for. -/
def openCache (D : Digests) (headers : List TableElt) (files : Bytes → Option CacheFile)
    (c : HttpCache) :
    Option (CacheFile × HttpCache) :=
  openWith D headers files (openWith D headers files fun _ => none) c

/-! ## What is read -/

/-- What is asked of a file before its variant. -/
structure Readable (c : HttpCache) (file : CacheFile) : Prop where
  whole : c.headerStart ≤ min file.size c.bodyStart
  version : file.header.version = cacheVersion
  crc32 : file.header.crc32 = c.crc32
  headerStart : file.header.headerStart = c.headerStart
  keys : matchKeys c.keys (file.text.drop fileCacheKey.length) = true
  bodyStart : file.header.bodyStart ≤ c.bodyStart
  vary : file.header.varyLen ≤ varyMax

variable {headers : List TableElt}

variable {D : Digests} {c : HttpCache}

variable {h : FileHeader}

end Nginx.Http.Cache
