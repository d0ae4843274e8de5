/-
  Http/Slice/Filter.lean --- the slice filter and the range filter behind it
  (`ngx_http_slice_filter_module.c`, `ngx_http_range_filter_module.c`).

  Sums of `off_t` are checked: a sum that the type does not have is no result at all.
  `size_t` products of the slice size are at most the offset they are made from.  Memory
  is always there.
-/
import Nginx.Core.Hash
import Nginx.Core.HttpTime
import Nginx.Http.RangeParse

set_option autoImplicit false

namespace Nginx.Http.Slice

open Foundation
open Nginx.Core (parseHttpTime strlow)
open Http.Parse (isDigit)

structure Conf where
  /-- `slice` -/
  size : Nat
  /-- `max_ranges` -/
  maxRanges : Nat
  deriving DecidableEq

/-- What the filters read of the client's request; before HTTP/1.0 there are no header lines. -/
structure Request where
  version : Nat
  range : Option Bytes
  ifRange : Option Bytes
  lines : range ≠ none ∨ ifRange ≠ none → 1000 ≤ version

/-- An answer of the upstream. -/
structure Answer where
  status : Nat
  etag : Option Bytes
  lastModified : Option Int
  contentRange : Option Bytes
  body : Bytes
  deriving DecidableEq

/-- `r->headers_out` -/
structure HeadersOut where
  status : Nat
  contentLength : Int
  contentOffset : Int
  deriving DecidableEq

/-- `ngx_http_slice_ctx_t`; `stop` is `end`, `sr` is whether the subrequest is done, `range` has
the numbers of the text. -/
structure Ctx where
  start : Int
  stop : Int := 0
  range : Int × Int
  etag : Bytes := []
  last : Bool := false
  active : Bool := false
  sr : Option Bool := none
  deriving DecidableEq

/-! ## The first slice -/

/-- The value of a Range header that begins with `bytes=`, from there on. -/
def bytesRange (value : Bytes) : Option Bytes :=
  if value.length < 7 ∨ strlow (value.take 6) ≠ ascii "bytes=" then none else some (value.drop 6)

/-- `ngx_http_slice_get_start` -/
def getStart (req : Request) : Option Int :=
  if req.ifRange ≠ none then some 0
  else
    match req.range.bind bytesRange with
    | none => some 0
    | some text =>
      if chr ',' ∈ cString text then some 0
      else
        let p := skipSpaces (cString text)
        if peek p = chr '-' then some 0
        else
          match readOffset 0 p with
          | none => none
          | some (.error _) => some 0
          | some (.ok (start, _)) => some start

/-- `bytes=%O-%O` for the slice at `start`. -/
def sliceRange (conf : Conf) (start : Int) : Option (Int × Int) := do
  let next ← offT (start + conf.size)
  let last ← offT (next - 1)
  some (start, last)

/-- `ngx_http_slice_range_variable`, where there is no context yet. -/
def newCtx (conf : Conf) (req : Request) : Option Ctx := do
  let start ← getStart req
  let start := conf.size * (start / conf.size)
  let range ← sliceRange conf start
  some { start := start, range := range }

/-! ## The range filter -/

structure RangeCtx where
  ranges : List HttpRange
  offset : Int
  deriving DecidableEq

inductive RangeFiltered where
  /-- as it is -/
  | next
  | single (ctx : RangeCtx) (out : HeadersOut)
  | notSatisfiable
  /-- several ranges; there are none where `single_range` is set -/
  | multipart
  deriving DecidableEq

/-- Whether the ranges count, for an `If-Range`. -/
def ifRangeHolds (req : Request) (etag : Option Bytes) (lastModified : Option Int) : Bool :=
  match req.ifRange with
  | none => true
  | some value =>
    if 2 ≤ value.length ∧ value.getLast? = some (chr '"') then decide (etag = some value)
    else
      match lastModified with
      | none => false
      | some time => decide (parseHttpTime value = some time)

/-- `ngx_http_range_header_filter`, with `allow_ranges`, `subrequest_ranges` and `single_range`;
`mainRanges` are those of the main request, in a subrequest. -/
def rangeHeaderFilter (conf : Conf) (req : Request) (main : Bool)
    (mainRanges : Option (List HttpRange)) (a : Answer)
    (out : HeadersOut) : Option RangeFiltered :=
  if req.version < 1000 ∨ out.status ≠ 200 ∨ out.contentLength = -1 then some .next
  else if conf.maxRanges = 0 then some .next
  else
    match req.range.bind bytesRange with
    | none => some .next
    | some text =>
      if ifRangeHolds req a.etag a.lastModified then
        match rangeParse mainRanges text out.contentLength 1 with
        | none => none
        | some (.ok [range]) =>
          let ctx : RangeCtx := { ranges := [range], offset := out.contentOffset }
          if main then
            match offT (range.stop - range.start) with
            | none => none
            | some length => some
              (.single ctx { status := 206, contentLength := length, contentOffset := range.start })
          else some (.single ctx { out with status := 206 })
        | some (.ok _) => some .multipart
        | some .notSatisfiable => some .notSatisfiable
        | some .declined => some .next
      else some .next

/-- `ngx_buf_t`; `data` where it is in memory or in a file. -/
structure Buf where
  bytes : Bytes
  data : Bool
  lastBuf : Bool := false
  lastInChain : Bool := false
  sync : Bool := false
  flush : Bool := false
  deriving DecidableEq

/-- `ngx_buf_special` -/
def Buf.special (b : Buf) : Bool := (b.flush || b.lastBuf || b.sync) && !b.data

/-- `ngx_http_range_singlepart_body`; what is passed on, and `ctx->offset` behind it. -/
def singlepartBody (main : Bool) (range : HttpRange) : Int → List Buf → Option (List Buf × Int)
  | offset, [] => some ([], offset)
  | offset, b :: rest =>
    match offT (offset + b.bytes.length) with
    | none => none
    | some last =>
      if b.special then (singlepartBody main range last rest).map fun passed =>
        (b :: passed.1, passed.2)
      else if range.stop ≤ offset ∨ range.start ≥ last then singlepartBody main range last rest
      else
        let front := if range.start > offset then (range.start - offset).toNat else 0
        if range.stop ≤ last then
          let kept := b.bytes.length - (last - range.stop).toNat
          some ([{ b with
            bytes := (b.bytes.take kept).drop front, lastBuf := main, lastInChain := true }], last)
        else
          (singlepartBody main range last rest).map fun passed =>
            ({ b with bytes := b.bytes.drop front } :: passed.1, passed.2)

/-- `ngx_http_range_body_filter`, for one range -/
def rangeBodyFilter (main : Bool) (ctx : Option RangeCtx) (bufs : List Buf) :
    Option (List Buf × Option RangeCtx) :=
  match ctx with
  | some { ranges := [range], offset := offset } =>
    (singlepartBody main range offset bufs).map fun passed =>
      (passed.1, some { ranges := [range], offset := passed.2 })
  | _ => some (bufs, ctx)

/-! ## The headers of an answer -/

/-- `ngx_http_slice_content_range_t` -/
structure ContentRange where
  start : Int
  stop : Int
  completeLength : Int
  deriving DecidableEq

/-- A number of `Content-Range`. -/
def readNumber (p : Bytes) : Option (Option (Int × Bytes)) :=
  if ¬ isDigit (peek p) then some none
  else
    match readOffset 0 p with
    | none => none
    | some (.error _) => some none
    | some (.ok read) => some (some read)

/-- What follows the slash of `Content-Range`. -/
def completeLength (start stop : Int) (p : Bytes) : Option (Option ContentRange) :=
  let p := skipSpaces p
  match if peek p ≠ chr '*' then readNumber p else some (some (-1, p.tail)) with
  | none => none
  | some none => some none
  | some (some (complete, p)) =>
    if peek (skipSpaces p) ≠ 0 then some none
    else some (some { start := start, stop := stop, completeLength := complete })

/-- What follows the last number before the slash. -/
def contentRangeLast (start last : Int) (p : Bytes) : Option (Option ContentRange) :=
  match offT (last + 1) with
  | none => none
  | some stop =>
    let p := skipSpaces p
    if peek p ≠ chr '/' then some none else completeLength start stop p.tail

/-- What follows the dash of `Content-Range`. -/
def contentRangeStop (start : Int) (p : Bytes) : Option (Option ContentRange) :=
  match readNumber (skipSpaces p) with
  | none => none
  | some none => some none
  | some (some (last, p)) => contentRangeLast start last p

/-- `ngx_http_slice_parse_content_range` -/
def parseContentRange (value : Option Bytes) : Option (Option ContentRange) :=
  match value with
  | none => some none
  | some value =>
    if value.length < 7 ∨ value.take 6 ≠ ascii "bytes " then some none
    else
      match readNumber (skipSpaces (cString (value.drop 6))) with
      | none => none
      | some none => some none
      | some (some (start, p)) =>
        let p := skipSpaces p
        if peek p ≠ chr '-' then some none else contentRangeStop start p.tail

/-- What the header filter does with an answer. -/
inductive HeaderRc where
  /-- not one of slices; it is passed on as it is -/
  | plain
  /-- `NGX_ERROR` -/
  | error
  /-- another response is sent -/
  | refused
  | sent (ctx : Ctx) (range : Option RangeCtx) (out : HeadersOut)
  deriving DecidableEq

/-- The end of `ngx_http_slice_header_filter` for a main request. -/
def mainEnd (conf : Conf) (ctx : Ctx) (complete : Int) (out : HeadersOut) : Option Ctx :=
  if out.status = 206 then do
    let next ← offT (ctx.start + conf.size)
    let stop ← offT (out.contentOffset + out.contentLength)
    let start :=
      if next ≤ out.contentOffset then conf.size * (out.contentOffset / conf.size) else ctx.start
    some { ctx with start := start, stop := stop }
  else some { ctx with stop := complete }

/-- The headers go to the next filters. -/
def sendHeader (conf : Conf) (req : Request) (main : Bool)
    (mainRanges : Option (List HttpRange)) (ctx : Ctx) (a : Answer)
    (cr : ContentRange) : Option HeaderRc :=
  let out : HeadersOut :=
    { status := 200, contentLength := cr.completeLength, contentOffset := cr.start }
  match rangeHeaderFilter conf req main mainRanges a out with
  | none => none
  | some .notSatisfiable | some .multipart => some .refused
  | some .next =>
    if main then (mainEnd conf ctx cr.completeLength out).map fun ctx =>
      .sent ctx none out else some (.sent ctx none out)
  | some (.single range out) =>
    if main then (mainEnd conf ctx cr.completeLength out).map fun ctx => .sent ctx (some range) out
    else some (.sent ctx (some range) out)

/-- An earlier answer had another `ETag`. -/
def etagMismatch (ctx : Ctx) (a : Answer) : Bool := ctx.etag ≠ [] ∧ a.etag ≠ some ctx.etag

/-- `ngx_http_slice_header_filter` -/
def headerFilter (conf : Conf) (req : Request) (main : Bool)
    (mainRanges : Option (List HttpRange)) (ctx : Ctx) (a : Answer) :
    Option HeaderRc :=
  if a.status ≠ 206 then some (if main then .plain else .error)
  else if etagMismatch ctx a then some .error
  else
    match parseContentRange a.contentRange with
    | none => none
    | some none => some .error
    | some (some cr) =>
      if cr.completeLength = -1 then some .error
      else
        match offT (cr.start + conf.size) with
        | none => none
        | some next =>
          let stop := min next cr.completeLength
          if cr.start ≠ ctx.start ∨ cr.stop ≠ stop then some .error
          else sendHeader conf req main mainRanges
            { ctx with start := stop, active := true, etag := a.etag.getD ctx.etag } a cr

/-! ## The session -/

/-- What there is of the answers: one that is awaited, one that is read with so many bytes of
it left, or none. `main` is whether it is the main request's. -/
inductive Feed where
  | awaits (main : Bool)
  | reads (main : Bool) (left : Bytes)
  | nothing
  deriving DecidableEq

/-- A request with its subrequests: `out` is what the filters have passed on. -/
structure Session where
  ctx : Option Ctx
  /-- the range filter's contexts, of the main request and of the subrequest -/
  mainRange : Option RangeCtx := none
  subRange : Option RangeCtx := none
  feed : Feed
  requests : List (Int × Int)
  out : List Buf := []
  closed : Bool := false
  deriving DecidableEq

/-- How the last bytes of an answer come. -/
inductive Ending where
  | more
  /-- a buffer of its own -/
  | special
  /-- with the last buffer -/
  | marked
  deriving DecidableEq

inductive Event where
  | header (a : Answer)
  /-- so many bytes in each buffer; `buffered` is `r->buffered` behind the next filters -/
  | body (cuts : List Nat) (ending : Ending) (buffered : Bool)
  /-- the subrequest is done -/
  | done
  /-- the main request is run again -/
  | wake (buffered : Bool)
  deriving DecidableEq

/-- Buffers with the bytes that have come, and what is left. -/
def cut : List Nat → Bytes → List Buf × Bytes
  | [], left => ([], left)
  | n :: cuts, left =>
    let (bufs, rest) := cut cuts (left.drop n)
    ({ bytes := left.take n, data := true } :: bufs, rest)

/-- The chain that the upstream passes on; `last_buf` is set for the main request only. -/
def chain (main : Bool) (ending : Ending) (bufs : List Buf) : List Buf :=
  match ending with
  | .more => bufs
  | .special =>
    bufs ++ [{ bytes := [], data := false, lastBuf := main, lastInChain := !main, sync := !main }]
  | .marked =>
    match bufs.getLast? with
    | none => bufs
    | some b => bufs.dropLast ++ [{ b with lastBuf := main, lastInChain := true }]

/-- The loop of `ngx_http_slice_body_filter`. -/
def takeLast (b : Buf) :
    Buf := if b.lastBuf then { b with lastBuf := false, lastInChain := true, sync := true } else b

namespace Session

/-- The request with its first slice requested. -/
def start (conf : Conf) (req : Request) : Option Session :=
  (newCtx conf req).map fun ctx =>
    { ctx := some ctx, feed := .awaits true, requests := [ctx.range] }

/-- The rest of `ngx_http_slice_body_filter`, behind the next filters. -/
def proceed (conf : Conf) (s : Session) (ctx : Ctx) (buffered : Bool) : Option Session :=
  if ¬ ctx.last then some { s with ctx := some ctx }
  else if ctx.sr = some false then some { s with ctx := some ctx }
  else if ¬ ctx.active then some { s with ctx := some ctx, closed := true }
  else if ctx.start ≥ ctx.stop then
    -- `ngx_http_send_special(r, NGX_HTTP_LAST)`
    (rangeBodyFilter true s.mainRange [{ bytes := [], data := false, lastBuf := true }]).map
      fun passed =>
      { s with ctx := none, mainRange := passed.2, out := s.out ++ passed.1 }
  else if buffered then some { s with ctx := some ctx }
  else
    (sliceRange conf ctx.start).map fun range =>
      { s with
        ctx := some { ctx with sr := some false, range := range, active := false }
        feed := .awaits false
        requests := s.requests ++ [range] }

/-- `ngx_http_slice_body_filter` of the main request -/
def bodyFilter (conf : Conf) (s : Session) (bufs : List Buf) (buffered : Bool) : Option Session :=
  match s.ctx with
  | none =>
    (rangeBodyFilter true s.mainRange bufs).map fun passed =>
      { s with mainRange := passed.2, out := s.out ++ passed.1 }
  | some ctx =>
    match rangeBodyFilter true s.mainRange (bufs.map takeLast) with
    | none => none
    | some passed =>
      { s with mainRange := passed.2, out := s.out ++ passed.1 }.proceed conf
        { ctx with last := ctx.last || bufs.any Buf.lastBuf } buffered

/-- The answer that has come. -/
def answered (conf : Conf) (req : Request) (s : Session) (main : Bool) (a : Answer) :
    Option Session :=
  match s.ctx with
  | none => some s
  | some ctx =>
    match headerFilter conf req main (s.mainRange.map RangeCtx.ranges) ctx a with
    | none => none
    | some .plain => some { s with ctx := none, feed := .reads main a.body }
    | some .error | some .refused => some { s with closed := true }
    | some (.sent ctx range _) =>
      if main then some { s with ctx := some ctx, mainRange := range, feed := .reads true a.body }
      else some { s with ctx := some ctx, subRange := range, feed := .reads false a.body }

/-- Bytes of the answer that is read. -/
def received (conf : Conf) (s : Session) (main : Bool) (left : Bytes)
    (cuts : List Nat) (ending : Ending) (buffered : Bool) :
    Option Session :=
  let (bufs, rest) := cut cuts left
  let bufs := chain main ending bufs
  if ending ≠ .more ∧ rest ≠ [] then some s
  else if ending = .marked ∧ cuts = [] then some s
  else
    let feed := if ending = .more then .reads main rest else .nothing
    if main then { s with feed := feed }.bodyFilter conf bufs buffered
    else
      (rangeBodyFilter false s.subRange bufs).map fun passed =>
        { s with feed := feed, subRange := passed.2, out := s.out ++ passed.1 }

/-- One event; one that is not there changes nothing. -/
def step (conf : Conf) (req : Request) (s : Session) (event : Event) : Option Session :=
  if s.closed then some s
  else
    match event, s.feed with
    | .header a, .awaits main => s.answered conf req main a
    | .body cuts ending buffered, .reads main left => s.received conf main left cuts ending buffered
    | .done, .nothing =>
      match s.ctx with
      | none => some s
      | some ctx => some { s with ctx := some { ctx with sr := ctx.sr.map fun _ => true } }
    | .wake buffered, _ => s.bodyFilter conf [] buffered
    | _, _ => some s

end Session

end Nginx.Http.Slice
