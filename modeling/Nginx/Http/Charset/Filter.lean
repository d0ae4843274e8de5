/-
  Http/Charset/Filter.lean --- recoding from UTF-8
  (`src/http/modules/ngx_http_charset_filter_module.c`).

  The body filter where `ctx->from_utf8` is set.  Reads outside the buffer, and writes
  behind the end of an output buffer or of `ctx->saved`, are faults.  No allocation
  fails.
-/
import Nginx.Core.Utf8Decode

set_option autoImplicit false

namespace Nginx.Http.Charset

open Foundation Nginx.Core

/-- `NGX_UTF_LEN` -/
def utfLen : Nat := 4

/-- `NGX_HTML_ENTITY_LEN` -/
def htmlEntityLen : Nat := 10

/-- `ctx->table`: pages of the bytes of the characters below `0x10000`; `\0` is none. -/
abbrev Table : Type := Nat → Option (Nat → Byte)

/-! ## Buffers -/

structure Flags where
  flush : Bool := false
  lastBuf : Bool := false
  lastInChain : Bool := false
  deriving DecidableEq

/-- `ngx_buf_t` -/
structure Buf where
  /-- what stands between `pos` and `last` -/
  bytes : Bytes
  /-- `end - start` -/
  capacity : Nat
  /-- `temporary`, `memory` or `mmap` -/
  memory : Bool
  sync : Bool := false
  flags : Flags := {}
  /-- the tag is the one of the module -/
  own : Bool := true
  deriving DecidableEq

/-- The bytes of a buffer in memory. -/
def Buf.text (b : Buf) : Bytes := if b.memory then b.bytes else []

/-- `ngx_buf_size` -/
def Buf.size (b : Buf) : Nat := b.text.length

/-- `ngx_http_charset_ctx_t`.  Every buffer of the module has a `pos`, so that
`free_bufs` stays empty. -/
structure Ctx where
  /-- the first `saved_len` bytes of `saved` -/
  saved : Bytes := []
  freeBuffers : List Buf := []
  busy : List Buf := []
  deriving DecidableEq

inductive Fault where
  /-- a byte outside of the buffer is read -/
  | read
  /-- an output buffer is written behind its end -/
  | write
  /-- `ctx->saved` is written behind its end -/
  | saved
  deriving DecidableEq

/-- `ngx_http_charset_get_buf`, with `pos` and `last` set. -/
def getBuf (bytes : Bytes) : Buf := { bytes := bytes, capacity := 0, memory := false }

/-- The loop of `ngx_http_charset_get_buffer` over `ctx->free_buffers`. -/
def takeFree (size : Nat) : List Buf → Option (Buf × List Buf)
  | [] => none
  | b :: rest =>
    if size ≤ b.capacity then some ({ b with bytes := [], memory := true }, rest)
    else (takeFree size rest).map fun found => (found.1, b :: found.2)

/-- `ngx_http_charset_get_buffer` -/
def getBuffer (ctx : Ctx) (size : Nat) : Buf × Ctx :=
  match takeFree size ctx.freeBuffers with
  | some (b, rest) => (b, { ctx with freeBuffers := rest })
  | none => ({ bytes := [], capacity := size, memory := true }, ctx)

/-- Bytes are written at `dst`. -/
def Buf.write (b : Buf) (bytes : Bytes) : Except Fault Buf :=
  if b.bytes.length + bytes.length ≤ b.capacity then .ok { b with bytes := b.bytes ++ bytes }
  else .error .write

/-- `ngx_memcpy(&ctx->saved[ctx->saved_len], src, n)`, and `ctx->saved_len += n`. -/
def Ctx.save (ctx : Ctx) (src : Bytes) (n : Nat) : Except Fault Ctx :=
  if src.length < n then .error .read
  else if utfLen < ctx.saved.length + n then .error .saved
  else .ok { ctx with saved := ctx.saved ++ src.take n }

/-! ## Characters -/

/-- The loop of `ngx_sprintf_num` for a decimal number of 32 bits. -/
def decimalLoop : Nat → Nat → Bytes → Bytes
  | 0, _, text => text
  | digits + 1, n, text =>
    let text := (chr '0' + UInt8.ofNat (n % 10)) :: text
    if n / 10 = 0 then text else decimalLoop digits (n / 10) text

/-- `ngx_sprintf(dst, "&#%uD;", n)` -/
def entity (n : Nat) : Bytes := ascii "&#" ++ decimalLoop 10 n [] ++ ascii ";"

/-- The byte of the table for the character `n`; `\0` is none. -/
def lookup (table : Table) (n : Nat) : Byte :=
  match table (n >>> 8) with
  | none => 0
  | some p => p (n &&& 0xff)

/-- What is written for the value `n` of a complete sequence. -/
def replacement (table : Table) (n : Nat) : Bytes :=
  if n < 0x10000 then
    let c := lookup table n
    if c ≠ 0 then [c] else entity n
  else if 0x10ffff < n then [chr '?']
  else entity n

/-! ## Recoding -/

/-- The room for the next character: a new buffer where there is too little. -/
def makeRoom (ctx : Ctx) (chain : List Buf) (b : Buf) (src : Bytes) : List Buf × Buf × Ctx :=
  if b.capacity - b.bytes.length < htmlEntityLen then
    let (next, ctx) := getBuffer ctx (src.length + htmlEntityLen)
    (chain ++ [b], next, ctx)
  else (chain, b, ctx)

/-- The end of `ngx_http_charset_recode_from_utf8`. -/
def finish (flags : Flags) (ctx : Ctx) (chain : List Buf) (b : Buf) : List Buf × Ctx :=
  (chain ++ [{ b with flags := flags }], ctx)

/-- The loop at `recode:`, for as many turns as there are bytes; each passes one at least. -/
def recodeLoop (table : Table) (flags : Flags) :
    Nat → Ctx → List Buf → Buf → Bytes → Except Fault (List Buf × Ctx)
  | 0, ctx, chain, b, _ => .ok (finish flags ctx chain b)
  | _ + 1, ctx, chain, b, [] => .ok (finish flags ctx chain b)
  | turns + 1, ctx, chain, b, c :: rest => do
    let src := c :: rest
    let (chain, b, ctx) := makeRoom ctx chain b src
    if c < 0x80 then
      let b ← b.write [c]
      recodeLoop table flags turns ctx chain b rest
    else
      let (n, passed) := utf8Decode src
      if n = utf8Incomplete then
        let ctx ← ctx.save src src.length
        let b := if b.bytes = [] then { b with sync := true, memory := false } else b
        .ok (finish flags ctx chain b)
      else
        let b ← b.write (replacement table n)
        recodeLoop table flags turns ctx chain b (src.drop passed)

/-- A size that is enough for an entity. -/
def bufferSize (size : Nat) : Nat := if size < htmlEntityLen then size + htmlEntityLen else size

/-- The loop that takes bytes of the buffer into `ctx->saved`; the bytes there, and `i`. -/
def fillSaved : Nat → Bytes → Bytes → Bytes × Nat
  | 0, saved, _ => (saved, saved.length)
  | _ + 1, saved, [] => (saved, saved.length)
  | room + 1, saved, c :: p =>
    if p = [] then (saved ++ [c], saved.length)
    else fillSaved room (saved ++ [c]) p

/-- `ngx_http_charset_recode_from_utf8` with an incomplete sequence from before. -/
def recodeSaved (table : Table) (ctx : Ctx) (buf : Buf) : Except Fault (List Buf × Ctx) := do
  let (saved, i) := fillSaved (utfLen - ctx.saved.length) ctx.saved buf.bytes
  let (n, passed) := utf8Decode (saved.take i)
  if n = utf8Incomplete ∧ i < utfLen then
    let ctx ← ctx.save buf.bytes i
    .ok ([{ getBuf buf.bytes with sync := true }], ctx)
  else
    let (b, ctx') := getBuffer ctx (bufferSize buf.bytes.length)
    let b ← b.write (if n = utf8Incomplete then [chr '?'] else replacement table n)
    let passed := if n = utf8Incomplete then utfLen else passed
    if passed < ctx.saved.length then
      -- `src` is before the buffer
      .error .read
    else
      let src := buf.bytes.drop (passed - ctx.saved.length)
      recodeLoop table buf.flags src.length { ctx' with saved := [] } [] b src

/-- `ngx_http_charset_recode_from_utf8` with nothing saved. -/
def recodeFresh (table : Table) (ctx : Ctx) (buf : Buf) : Except Fault (List Buf × Ctx) :=
  let head := buf.bytes.takeWhile (· < 0x80)
  let src := buf.bytes.dropWhile (· < 0x80)
  if src = [] then .ok ([buf], ctx)
  else if 512 < head.length then
    let out := { getBuf head with memory := buf.memory, flags := { flush := buf.flags.flush } }
    if (utf8Decode src).1 = utf8Incomplete then do
      let ctx ← ctx.save src src.length
      .ok ([out], ctx)
    else
      let (b, ctx) := getBuffer ctx (bufferSize src.length)
      recodeLoop table buf.flags src.length ctx [out] b src
  else
    let (b, ctx) := getBuffer ctx (bufferSize (head.length + src.length))
    recodeLoop table buf.flags buf.bytes.length ctx [] b buf.bytes

/-- `ngx_http_charset_recode_from_utf8` -/
def recodeFromUtf8 (table : Table) (ctx : Ctx) (buf : Buf) : Except Fault (List Buf × Ctx) :=
  if ctx.saved.length = 0 then recodeFresh table ctx buf else recodeSaved table ctx buf

/-! ## The body filter -/

/-- The loop of `ngx_http_charset_body_filter` over the buffers of a chain. -/
def recodeChain (table : Table) (ctx : Ctx) : List Buf → Except Fault (List Buf × Ctx)
  | [] => .ok ([], ctx)
  | b :: rest => do
    let (out, ctx) ← if b.size = 0 then .ok ([b], ctx) else recodeFromUtf8 table ctx b
    let (more, ctx) ← recodeChain table ctx rest
    .ok (out ++ more, ctx)

/-- The next filter takes `n` bytes of the busy buffers. -/
def taken : Nat → List Buf → List Buf
  | _, [] => []
  | n, b :: rest => { b with bytes := b.bytes.drop n } :: taken (n - b.size) rest

/-- The loop over `ctx->busy`. -/
def release (freeBuffers : List Buf) : List Buf → List Buf × List Buf
  | [] => (freeBuffers, [])
  | b :: busy =>
    if b.size ≠ 0 then (freeBuffers, b :: busy)
    else release (if b.own then b :: freeBuffers else freeBuffers) busy

/-- A call of `ngx_http_charset_body_filter`: the chain, and how much the next filter has
taken at its end. -/
structure Call where
  chain : List Buf
  taken : Nat

/-- `ngx_http_charset_body_filter`; the chain for the next filter. -/
def bodyFilter (table : Table) (ctx : Ctx) (call : Call) : Except Fault (List Buf × Ctx) := do
  let (out, ctx) ← recodeChain table ctx call.chain
  let (freeBuffers, busy) := release ctx.freeBuffers (taken call.taken (ctx.busy ++ out))
  .ok (out, { ctx with freeBuffers := freeBuffers, busy := busy })

/-- The calls for a response; all that is passed to the next filter. -/
def run (table : Table) (ctx : Ctx) : List Call → Except Fault (List Buf × Ctx)
  | [] => .ok ([], ctx)
  | call :: calls => do
    let (out, ctx) ← bodyFilter table ctx call
    let (more, ctx) ← run table ctx calls
    .ok (out ++ more, ctx)

end Nginx.Http.Charset
