/-
  Stream/SslPreread.lean --- the parser of `src/stream/ngx_stream_ssl_preread_module.c`
  and the handler that calls it.

  The locals of `ngx_stream_ssl_preread_parse_record` are the fields of the context, which
  they are copied from and, where it returns `NGX_AGAIN`, back to.  A write behind the end of
  a buffer and a subtraction below zero are faults, so that a call which is not one has made
  none.  The pool decides which allocations fail and what their memory holds.
-/
import Nginx.Core.Base

set_option autoImplicit false

namespace Nginx.Stream

open Foundation
open Nginx.Core (Rc)

/-- `ngx_pnalloc`: the outcome of the `k`-th allocation of a pool, of `size` bytes. -/
structure Pool where
  pnalloc : Nat → Nat → Option Bytes
  length_pnalloc : ∀ k size data, pnalloc k size = some data → data.length = size

/-- The states `sw_*` of the machine. -/
inductive PrereadState where
  | start
  | header
  | version
  | random
  | sidLen
  | sid
  | csLen
  | cs
  | cmLen
  | cm
  | ext
  | extHeader
  | sniLen
  | sniHostHead
  | sniHost
  | alpnLen
  | alpnProtoLen
  | alpnProtoData
  | supverLen
  deriving DecidableEq, Inhabited

/-- Where `dst` points. -/
inductive Dst where
  /-- `NULL` -/
  | null
  /-- `ctx->buf + i` -/
  | buf (i : Nat)
  /-- `ctx->version + i` -/
  | version (i : Nat)
  /-- `ctx->host.data + i` -/
  | host (i : Nat)
  /-- `ctx->alpn.data + i` -/
  | alpn (i : Nat)
  deriving DecidableEq, Inhabited

/-- `ngx_stream_ssl_preread_ctx_t`; `host` and `alpn` are the memory at `host.data` and
`alpn.data`, `allocs` counts the allocations. -/
structure PrereadCtx where
  left : Nat
  size : Nat
  ext : Nat
  dst : Dst
  buf : Bytes
  version : Bytes
  host : Option Bytes
  hostLen : Nat
  alpn : Option Bytes
  alpnLen : Nat
  state : PrereadState
  allocs : Nat
  deriving DecidableEq

/-- The context `ngx_pcalloc` gives. -/
def PrereadCtx.zeroed : PrereadCtx :=
  { left := 0
    size := 0
    ext := 0
    dst := .null
    buf := [0, 0, 0, 0]
    version := [0, 0]
    host := none
    hostLen := 0
    alpn := none
    alpnLen := 0
    state := .start
    allocs := 0 }

/-- `ctx->host` -/
def PrereadCtx.hostName (ctx : PrereadCtx) : Bytes := (ctx.host.getD []).take ctx.hostLen

/-- `ctx->alpn` -/
def PrereadCtx.alpnNames (ctx : PrereadCtx) : Bytes := (ctx.alpn.getD []).take ctx.alpnLen

/-- What a call must never do. -/
inductive PrereadFault where
  /-- bytes are written that are not in the buffer -/
  | overrun
  /-- an unsigned counter is decreased below zero -/
  | wrapped
  /-- the loop goes on longer than its bound -/
  | outOfFuel
  deriving DecidableEq

/-- A buffer with other bytes from place `i` on. -/
def overwrite (mem : Bytes) (i : Nat) (src : Bytes) :
    Bytes := mem.take i ++ src ++ mem.drop (i + src.length)

/-- The bytes of `src` are written at place `i` of a buffer. -/
def write (mem : Bytes) (i : Nat) (src : Bytes) : Except PrereadFault Bytes :=
  if i + src.length ≤ mem.length then .ok (overwrite mem i src) else .error .overrun

/-- `a -= b` -/
def decrease (a b : Nat) : Except PrereadFault Nat := if b ≤ a then .ok (a - b) else .error .wrapped

/-- `dst = ngx_cpymem(dst, pos, n)` -/
def cpymem (ctx : PrereadCtx) (src : Bytes) : Except PrereadFault PrereadCtx :=
  match ctx.dst with
  | .null => .ok ctx
  | .buf i => (write ctx.buf i src).map fun mem =>
    { ctx with buf := mem, dst := .buf (i + src.length) }
  | .version i => (write ctx.version i src).map fun mem =>
    { ctx with version := mem, dst := .version (i + src.length) }
  | .host i => (write (ctx.host.getD []) i src).map fun mem =>
    { ctx with host := some mem, dst := .host (i + src.length) }
  | .alpn i => (write (ctx.alpn.getD []) i src).map fun mem =>
    { ctx with alpn := some mem, dst := .alpn (i + src.length) }

/-- The head of the loop: so much of the field is taken as there is. -/
def consume (ctx : PrereadCtx) (src : Bytes) : Except PrereadFault PrereadCtx :=
  (cpymem ctx src).bind fun ctx =>
    (decrease ctx.left src.length).map fun left =>
      { ctx with size := ctx.size - src.length, left := left }

/-- What the `switch` comes to. -/
inductive Move where
  | goOn (ctx : PrereadCtx)
  | ret (rc : Rc) (ctx : PrereadCtx)
  deriving DecidableEq

/-- `p[i]` -/
def PrereadCtx.p (ctx : PrereadCtx) (i : Nat) : Nat := (ctx.buf.getD i 0).toNat

/-- `(p[i] << 8) + p[i + 1]` -/
def PrereadCtx.p16 (ctx : PrereadCtx) (i : Nat) : Nat := ctx.p i * 256 + ctx.p (i + 1)

/-- The next field has `size` bytes and goes to `dst`. -/
def PrereadCtx.expect (ctx : PrereadCtx) (state : PrereadState) (dst : Dst) (size : Nat) :
    PrereadCtx :=
  { ctx with state := state, dst := dst, size := size }

/-- `case sw_ext_header` -/
def extHeader (ctx : PrereadCtx) : PrereadCtx :=
  if ctx.p 0 = 0 ∧ ctx.p 1 = 0 ∧ ctx.host = none then ctx.expect .sniLen (.buf 0) 2
  else if ctx.p 0 = 0 ∧ ctx.p 1 = 16 ∧ ctx.alpn = none then ctx.expect .alpnLen (.buf 0) 2
  else if ctx.p 0 = 0 ∧ ctx.p 1 = 43 then ctx.expect .supverLen (.buf 0) 1
  else ctx.expect .ext .null (ctx.p16 2)

/-- `case sw_sni_host_head` -/
def sniHostHead (pool : Pool) (ctx : PrereadCtx) : Except PrereadFault Move :=
  let size := ctx.p16 1
  if ctx.p 0 ≠ 0 then .ok (.ret .declined ctx)
  else if ctx.ext < 3 + size then .ok (.ret .declined ctx)
  else
    (decrease ctx.ext (3 + size)).map fun ext =>
      match pool.pnalloc ctx.allocs size with
      | none => .ret .error ctx
      | some data =>
        .goOn ({ ctx with ext := ext, host := some data, allocs := ctx.allocs + 1 }.expect .sniHost
          (.host 0) size)

/-- `case sw_alpn_len` -/
def alpnLen (pool : Pool) (ctx : PrereadCtx) : Move :=
  match pool.pnalloc ctx.allocs (ctx.p16 0) with
  | none => .ret .error ctx
  | some data =>
    .goOn ({ ctx with ext := ctx.p16 0, alpn := some data, allocs := ctx.allocs + 1 }.expect
      .alpnProtoLen (.buf 0) 1)

/-- `case sw_alpn_proto_len` -/
def alpnProtoLen (ctx : PrereadCtx) : Except PrereadFault Move :=
  let size := ctx.p 0
  if size = 0 then .ok (.ret .declined ctx)
  else if ctx.ext < 1 + size then .ok (.ret .declined ctx)
  else
    (decrease ctx.ext (1 + size)).map fun ext =>
      .goOn ({ ctx with ext := ext }.expect .alpnProtoData (.alpn ctx.alpnLen) size)

/-- `case sw_alpn_proto_data` -/
def alpnProtoData (ctx : PrereadCtx) : Except PrereadFault Move :=
  let len := ctx.alpnLen + ctx.p 0
  if ctx.ext ≠ 0 then
    (write (ctx.alpn.getD []) len [chr ',']).map fun data =>
      .goOn ({ ctx with alpn := some data, alpnLen := len + 1 }.expect .alpnProtoLen (.buf 0) 1)
  else .ok (.goOn ({ ctx with alpnLen := len }.expect .ext .null 0))

/-- `switch (state)` -/
def switch (pool : Pool) (ctx : PrereadCtx) : Except PrereadFault Move :=
  match ctx.state with
  | .start => .ok (.goOn ({ ctx with left := 4 }.expect .header (.buf 0) 4))
  | .header =>
    if ctx.p 0 ≠ 1 then .ok (.ret .declined ctx)
    else .ok
      (.goOn ({ ctx with left := ctx.p 1 * 65536 + ctx.p16 2 }.expect .version (.version 0) 2))
  | .version => .ok (.goOn (ctx.expect .random .null 32))
  | .random => .ok (.goOn (ctx.expect .sidLen (.buf 0) 1))
  | .sidLen => .ok (.goOn (ctx.expect .sid .null (ctx.p 0)))
  | .sid => .ok (.goOn (ctx.expect .csLen (.buf 0) 2))
  | .csLen => .ok (.goOn (ctx.expect .cs .null (ctx.p16 0)))
  | .cs => .ok (.goOn (ctx.expect .cmLen (.buf 0) 1))
  | .cmLen => .ok (.goOn (ctx.expect .cm .null (ctx.p 0)))
  | .cm => if ctx.left = 0 then .ok (.ret .ok ctx) else .ok (.goOn (ctx.expect .ext (.buf 0) 2))
  | .ext =>
    if ctx.left = 0 then .ok (.ret .ok ctx) else .ok (.goOn (ctx.expect .extHeader (.buf 0) 4))
  | .extHeader => .ok (.goOn (extHeader ctx))
  | .sniLen => .ok (.goOn ({ ctx with ext := ctx.p16 0 }.expect .sniHostHead (.buf 0) 3))
  | .sniHostHead => sniHostHead pool ctx
  | .sniHost => .ok (.goOn ({ ctx with hostLen := ctx.p16 1 }.expect .ext .null ctx.ext))
  | .alpnLen => .ok (alpnLen pool ctx)
  | .alpnProtoLen => alpnProtoLen ctx
  | .alpnProtoData => alpnProtoData ctx
  | .supverLen => .ok (.goOn ({ ctx with version := [3, 4] }.expect .ext .null (ctx.p 0)))

/-- `for ( ;; )` of `ngx_stream_ssl_preread_parse_record`, for so many turns at most. -/
def parseLoop (pool : Pool) : Nat → PrereadCtx → Bytes → Except PrereadFault (Rc × PrereadCtx)
  | 0, _, _ => .error .outOfFuel
  | turns + 1, ctx, pos =>
    (consume ctx (pos.take ctx.size)).bind fun taken =>
      if taken.size ≠ 0 then .ok (.again, taken)
      else
        (switch pool taken).bind fun move =>
          match move with
          | .ret rc next => .ok (rc, next)
          | .goOn next =>
            if next.left <
              next.size then .ok (.declined, next) else parseLoop pool turns next
              (pos.drop ctx.size)

/-- `ngx_stream_ssl_preread_parse_record`; at most four turns go by for every byte. -/
def parseRecord (pool : Pool) (ctx : PrereadCtx) (pos : Bytes) :
    Except PrereadFault (Rc × PrereadCtx) :=
  parseLoop pool (4 * pos.length + 4) ctx pos

/-! ## The handler -/

/-- `ngx_stream_get_module_ctx`: the context, and what is left of the buffer behind `ctx->pos`
where the handler is called again. -/
structure Session where
  ctx : Option PrereadCtx
  unread : Bytes
  deriving DecidableEq

/-- A session before the first call. -/
def Session.fresh : Session := ⟨none, []⟩

/-- The loop over the records of `ngx_stream_ssl_preread_handler`, `p` being the bytes up to
`c->buffer->last`; every record has five bytes and more. -/
def handlerLoop (pool : Pool) : Nat → PrereadCtx → Bytes → Except PrereadFault (Rc × Session)
  | 0, _, _ => .error .outOfFuel
  | turns + 1, ctx, p =>
    if p.length < 5 then .ok (.again, ⟨some ctx, p⟩)
    else
      let at' : Nat → Nat := fun i => (p.getD i 0).toNat
      if 128 ≤ at' 0 ∧ at' 2 = 1 ∧ (at' 3 = 0 ∨ at' 3 = 3) then
        -- a ClientHello of version 2
        .ok (.ok, ⟨some { ctx with version := [p.getD 3 0, p.getD 4 0] }, []⟩)
      else if at' 0 ≠ 22 then .ok (.declined, ⟨none, []⟩)
      else if at' 1 ≠ 3 then .ok (.declined, ⟨none, []⟩)
      else
        let len := at' 3 * 256 + at' 4
        -- the whole record is there before it is parsed
        if p.length < len + 5 then .ok (.again, ⟨some ctx, p⟩)
        else
          (parseRecord pool ctx ((p.drop 5).take len)).bind fun result =>
            match result with
            | (.declined, _) => .ok (.declined, ⟨none, []⟩)
            | (.again, next) => handlerLoop pool turns next (p.drop (len + 5))
            | (rc, next) => .ok (rc, ⟨some next, []⟩)

/-- `ngx_stream_ssl_preread_handler` of a server with `ssl_preread on`, on a stream socket that
has a buffer, `read` being what has arrived since the last call. -/
def handler (pool : Pool) (s : Session) (read : Bytes) : Except PrereadFault (Rc × Session) :=
  let p := s.unread ++ read
  handlerLoop pool (p.length + 1) (s.ctx.getD .zeroed) p

/-- The handler is called for one read after the other until it returns something else than
`NGX_AGAIN`. -/
def handlerCalls (pool : Pool) : Session → List Bytes → Except PrereadFault (Rc × Session)
  | s, [] => .ok (.again, s)
  | s, read :: reads =>
    (handler pool s read).bind fun result =>
      match result with
      | (.again, s) => handlerCalls pool s reads
      | (rc, s) => .ok (rc, s)

end Nginx.Stream
