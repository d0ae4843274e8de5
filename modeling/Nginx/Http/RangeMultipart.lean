/-
  Http/RangeMultipart.lean --- a response of several ranges
  (`ngx_http_range_multipart_header` and `ngx_http_range_multipart_body` in
  `src/http/modules/ngx_http_range_filter_module.c`).

  The length is added up before the body is there, from the texts that are printed; the
  chain is made later, of the same texts and of the first bytes of one of them.  Memory
  is always there; offsets are not negative, and they and `len` stay below 2^63.
-/
import Mathlib.Data.Nat.Digits.Lemmas
import Nginx.Core.Format
import Nginx.Http.RangeBody

set_option autoImplicit false

namespace Nginx.Http.RangeMultipart

open List Foundation Nginx.Core Http.RangeBody

/-! ## The header -/

/-- `CRLF` -/
def crlf : Bytes := [13, 10]

/-- `NGX_ATOMIC_T_LEN` -/
def atomicLen : Nat := 20

/-- `NGX_OFF_T_LEN` -/
def offLen : Nat := 20

/-- What is read of `r->headers_out`. -/
structure HeadersOut where
  contentType : Bytes
  contentTypeLen : Nat
  charset : Bytes
  contentLength : Nat
  deriving DecidableEq

/-- `"%0muA"` -/
def boundaryText (boundary : BitVec 64) :
    Bytes := padded (chr '0') atomicLen (numeralOf 0 boundary.toNat)

/-- `"%O"` -/
def offText (n : Nat) : Bytes := numeralOf 0 n

/-- `r->headers_out.content_type_len == r->headers_out.content_type.len &&
r->headers_out.charset.len` -/
def HeadersOut.withCharset (h : HeadersOut) :
    Bool := h.contentTypeLen == h.contentType.length && !h.charset.isEmpty

/-- The `size` of `ctx->boundary_header.data`. -/
def boundaryHeaderSize (h : HeadersOut) : Nat :=
  (crlf ++ ascii "--").length + atomicLen +
    (crlf ++ ascii "Content-Type: ").length + h.contentType.length +
    (crlf ++ ascii "Content-Range: bytes ").length +
    if h.withCharset then (ascii "; charset=").length + h.charset.length else 0

/-- `ctx->boundary_header` -/
def boundaryHeader (h : HeadersOut) (boundary : BitVec 64) : Bytes :=
  if h.withCharset then
    crlf ++ ascii "--" ++ boundaryText boundary ++ crlf ++
    ascii "Content-Type: " ++ h.contentType ++ ascii "; charset=" ++ h.charset ++ crlf ++
    ascii "Content-Range: bytes "
  else if !h.contentType.isEmpty then
    crlf ++ ascii "--" ++ boundaryText boundary ++ crlf ++
    ascii "Content-Type: " ++ h.contentType ++ crlf ++
    ascii "Content-Range: bytes "
  else
    crlf ++ ascii "--" ++ boundaryText boundary ++ crlf ++
    ascii "Content-Range: bytes "

/-- How much is allocated for the new content type. -/
def contentTypeSize :
    Nat := (ascii "Content-Type: multipart/byteranges; boundary=").length + atomicLen

/-- The new content type. -/
def multipartType (boundary : BitVec 64) :
    Bytes := ascii "multipart/byteranges; boundary=" ++ boundaryText boundary

/-- How much is allocated for the `content_range` of a range. -/
def contentRangeSize : Nat := 3 * offLen + 2 + 4

/-- `content_range`: `"%O-%O/%O" CRLF CRLF` -/
def contentRange (total : Nat) (range : ByteRange) : Bytes :=
  offText range.start ++ ascii "-" ++ offText (range.stop - 1) ++ ascii "/" ++
    offText total ++ crlf ++ crlf

/-- The size of the last boundary. -/
def closingSize : Nat := (crlf ++ ascii "--").length + atomicLen + (ascii "--" ++ crlf).length

/-- `ngx_http_range_filter_ctx_t`, each range with its `content_range`. -/
structure MultipartCtx where
  boundaryHeader : Bytes
  ranges : List (ByteRange × Bytes)

/-- The loop over the ranges: `len`, and the ranges with their `content_range`. -/
def headerLoop (headerLen total : Nat) : Nat → List ByteRange → Nat × List (ByteRange × Bytes)
  | len, [] => (len, [])
  | len, range :: ranges =>
    let text := contentRange total range
    let rest :=
      headerLoop headerLen total
        (len + (headerLen + text.length + (range.stop - range.start))) ranges
    (rest.1, (range, text) :: rest.2)

/-- `ngx_http_range_multipart_header`, with the number of `ngx_next_temp_number`: the context, and
what is left of the headers. -/
def multipartHeader (h : HeadersOut) (boundary : BitVec 64) (ranges : List ByteRange) :
    MultipartCtx × HeadersOut :=
  let header := boundaryHeader h boundary
  let counted := headerLoop header.length h.contentLength closingSize ranges
  (⟨header, counted.2⟩,
    { contentType := multipartType boundary, contentTypeLen := (multipartType boundary).length,
      charset := [],
      contentLength := counted.1 })

/-! ## The body -/

/-- A buffer of `ngx_calloc_buf` over these bytes. -/
def textBuf (temporary memory lastBuf : Bool) (bytes : Bytes) : BodyBuf :=
  { NgxBuf.zeroed with
    area := .text bytes, last := bytes.length, temporary := temporary,
      memory := memory, lastBuf := lastBuf }

/-- The range data: the buffer has a part of what is in `buf`. -/
def rangeData (buf : BodyBuf) (range : ByteRange) : BodyBuf :=
  { NgxBuf.zeroed with
    inFile := buf.inFile
    temporary := buf.temporary
    memory := buf.memory
    file := buf.file
    area := .text buf.areaBytes
    filePos := if buf.inFile then buf.filePos + range.start else 0
    fileLast := if buf.inFile then buf.filePos + range.stop else 0
    pos := if buf.inMemory then buf.pos + range.start else 0
    last := if buf.inMemory then buf.pos + range.stop else 0 }

/-- The loop over the ranges. -/
def bodyLoop (header : Bytes) (buf : BodyBuf) : List (ByteRange × Bytes) → List BodyBuf
  | [] => []
  | (range, text) :: rest =>
    textBuf false true false header :: textBuf true false false text ::
      rangeData buf range :: bodyLoop header buf rest

/-- The bytes of the last buffer. -/
def closing (header : Bytes) :
    Bytes := header.take ((crlf ++ ascii "--").length + atomicLen) ++ ascii "--" ++ crlf

/-- `ngx_http_range_multipart_body` -/
def multipartBody (ctx : MultipartCtx) (buf : BodyBuf) : List BodyBuf :=
  bodyLoop ctx.boundaryHeader buf ctx.ranges ++
    [textBuf true false true (closing ctx.boundaryHeader)]

/-- `ngx_http_range_test_overlapped`: `ctx->offset` behind it, and `none` for `NGX_ERROR`. -/
def testOverlapped (ctx : MultipartCtx) (offset : Nat) (buf : BodyBuf) : Option Nat :=
  if offset ≠ 0 then none
  else if !buf.lastBuf && ctx.ranges.any (fun r =>
    decide (offset > r.1.start ∨ offset + buf.size < r.1.stop)) then none
  else some buf.size

/-- `ngx_http_range_body_filter` with several ranges: what is passed on, and `ctx->offset`. -/
def multipartFilter (ctx : MultipartCtx) (offset : Nat) : List BodyBuf → Option (List BodyBuf × Nat)
  | [] => some ([], offset)
  | buf :: rest =>
    if buf.special then some (buf :: rest, offset)
    else (testOverlapped ctx offset buf).map fun offset => (multipartBody ctx buf, offset)

attribute [local simp] headerLoop bodyLoop

/-! ## How long the texts are -/

theorem length_numeral_le {text : Nat → Byte} {base n k : Nat} (hbase : 1 < base)
    (hk : 0 < k) (hn : n < base ^ k) :
    (numeral text base n).length ≤ k := by
  rw [numeral]
  split
  next => exact hk
  next =>
    rw [length_map, length_reverse]
    exact (Nat.digits_length_le_iff hbase n).mpr hn

theorem length_offText_le {n : Nat} (h : n < 2 ^ 63) : (offText n).length ≤ 19 :=
  length_numeral_le (by decide) (by decide) (h.trans (by decide))

@[simp] theorem length_boundaryText (boundary : BitVec 64) :
    (boundaryText boundary).length = atomicLen := by
  have hlt : boundary.toNat < 10 ^ 20 := boundary.isLt.trans (by decide)
  have hle : (numeralOf 0 boundary.toNat).length ≤ atomicLen :=
    length_numeral_le (by decide) (by decide) hlt
  rw [boundaryText, padded, length_append, length_replicate, Nat.sub_add_cancel hle]

theorem boundaryHeader_fits (h : HeadersOut) (boundary : BitVec 64) :
    (boundaryHeader h boundary).length ≤ boundaryHeaderSize h := by
  rw [boundaryHeader, boundaryHeaderSize]
  split
  next => simp only [length_append, length_boundaryText]; omega
  next =>
    split
    next => simp only [length_append, length_boundaryText]; omega
    next => simp only [length_append, length_boundaryText]; omega

theorem multipartType_fits (boundary : BitVec 64) :
    (multipartType boundary).length ≤ contentTypeSize := by
  rw [multipartType, length_append, length_boundaryText, contentTypeSize]
  exact Nat.add_le_add_right (by decide) _

variable {total : Nat}

theorem contentRange_fits {range : ByteRange} (htotal : total < 2 ^ 63)
    (hstop : range.stop ≤ total) :
    (contentRange total range).length ≤ contentRangeSize := by
  have hrange := range.nonempty
  have hstart := length_offText_le (show range.start < 2 ^ 63 by omega)
  have hlast := length_offText_le (show range.stop - 1 < 2 ^ 63 by omega)
  have hall := length_offText_le htotal
  have hcrlf : crlf.length = 2 := rfl
  have hdash : (ascii "-").length = 1 := rfl
  have hslash : (ascii "/").length = 1 := rfl
  simp only [contentRange, length_append, hcrlf, hdash, hslash, contentRangeSize, offLen]
  omega

theorem closing_eq (h : HeadersOut) (boundary : BitVec 64) :
    closing (boundaryHeader h boundary) = crlf ++ ascii "--" ++
      boundaryText boundary ++ ascii "--" ++ crlf := by
  have hprefix : ∃ rest,
    boundaryHeader h boundary = crlf ++ ascii "--" ++ boundaryText boundary ++ rest := by
    rw [boundaryHeader]
    split
    next => exact ⟨_, by simp only [append_assoc]; rfl⟩
    next =>
      split
      next => exact ⟨_, by simp only [append_assoc]; rfl⟩
      next => exact ⟨_, by simp only [append_assoc]; rfl⟩
  obtain ⟨rest, hrest⟩ := hprefix
  have hlength : (crlf ++ ascii "--" ++ boundaryText boundary).length =
    (crlf ++ ascii "--").length + atomicLen := by
    rw [length_append, length_boundaryText]
  rw [closing, hrest, ← hlength, take_left]

theorem length_closing (h : HeadersOut) (boundary : BitVec 64) :
    (closing (boundaryHeader h boundary)).length = closingSize := by
  simp only [closing_eq, length_append, length_boundaryText, closingSize]
  omega

/-! ## The chain -/

variable {buf : BodyBuf} {range : ByteRange}

theorem bytes_textBuf {temporary memory : Bool} (h : (temporary || memory) = true)
    (lastBuf : Bool) (bytes : Bytes) :
    (textBuf temporary memory lastBuf bytes).bytes = bytes := by
  have hmemory : (textBuf temporary memory lastBuf bytes).inMemory = true := h
  rw [NgxBuf.bytes, if_pos hmemory]
  exact take_length

theorem drop_take_drop (xs : Bytes) {pos last : Nat} {start stop : Nat}
    (hstop : pos + stop ≤ last) :
    (xs.take (pos + stop)).drop (pos + start) =
      (((xs.take last).drop pos).take stop).drop start := by
  rw [take_drop, take_take, min_eq_left hstop, drop_drop]

theorem bytes_rangeData (hsound : Sound buf) (hdata : buf.inMemory = true ∨ buf.inFile = true)
    (hstop : range.stop ≤ buf.bytes.length) :
    (rangeData buf range).bytes = (buf.bytes.take range.stop).drop range.start := by
  have hkeeps : (rangeData buf range).inMemory = buf.inMemory := rfl
  rw [hsound.length_bytes] at hstop
  rcases hmemory : buf.inMemory with _ | _
  · have hfile : buf.inFile = true := hdata.resolve_left (ne_true_of_eq_false hmemory)
    have hpos : (rangeData buf range).filePos = buf.filePos + range.start := if_pos hfile
    have hlast : (rangeData buf range).fileLast = buf.filePos + range.stop := if_pos hfile
    rw [NgxBuf.size, hmemory, if_neg Bool.false_ne_true] at hstop
    obtain ⟨hle, -⟩ := hsound.file hfile
    rw [NgxBuf.bytes, hkeeps, hmemory, if_neg Bool.false_ne_true, hpos,
      hlast, NgxBuf.bytes, hmemory, if_neg Bool.false_ne_true]
    exact drop_take_drop buf.file (by omega)
  · have hpos : (rangeData buf range).pos = buf.pos + range.start := if_pos hmemory
    have hlast : (rangeData buf range).last = buf.pos + range.stop := if_pos hmemory
    rw [NgxBuf.size, hmemory, if_pos rfl] at hstop
    obtain ⟨hle, -⟩ := hsound.memory hmemory
    rw [NgxBuf.bytes, hkeeps, hmemory, if_pos rfl, hpos, hlast, NgxBuf.bytes, hmemory, if_pos rfl]
    exact drop_take_drop buf.areaBytes (by omega)

/-- A part of the response: its header, and the bytes of the range. -/
def part (header : Bytes) (total : Nat) (body : Bytes) (range : ByteRange) : Bytes :=
  header ++ contentRange total range ++ (body.take range.stop).drop range.start

theorem headerLoop_snd (headerLen total len : Nat) (ranges : List ByteRange) :
    (headerLoop headerLen total len ranges).2 = ranges.map fun range =>
      (range, contentRange total range) := by
  induction ranges generalizing len with
  | nil => rfl
  | cons range ranges ih => rw [headerLoop, ih, map_cons]

theorem length_part {header body : Bytes} (hstop : range.stop ≤ body.length) :
    (part header total body range).length =
      header.length + (contentRange total range).length + (range.stop - range.start) := by
  rw [part, length_append, length_append, length_drop, length_take, min_eq_left hstop]

theorem headerLoop_fst {header body : Bytes} {len : Nat} {ranges : List ByteRange}
    (h : ∀ range ∈ ranges, range.stop ≤ body.length) :
    (headerLoop header.length total len ranges).1 =
      len + (ranges.flatMap (part header total body)).length := by
  induction ranges generalizing len with
  | nil => rfl
  | cons range ranges ih =>
    obtain ⟨hrange, hranges⟩ := forall_mem_cons.mp h
    rw [headerLoop, ih hranges, flatMap_cons, length_append, length_part hrange]
    omega

theorem dataOf_bodyLoop {header : Bytes} {ranges : List ByteRange} (hsound : Sound buf)
    (hdata : buf.inMemory = true ∨ buf.inFile = true)
    (h : ∀ range ∈ ranges, range.stop ≤ buf.bytes.length) :
    dataOf (bodyLoop header buf (ranges.map fun range => (range, contentRange total range))) =
      ranges.flatMap (part header total buf.bytes) := by
  induction ranges with
  | nil => rfl
  | cons range ranges ih =>
    obtain ⟨hrange, hranges⟩ := forall_mem_cons.mp h
    rw [map_cons, bodyLoop, dataOf_cons, dataOf_cons, dataOf_cons, ih hranges,
      bytes_rangeData hsound hdata hrange,
      flatMap_cons, part, bytes_textBuf rfl, bytes_textBuf rfl, append_assoc, append_assoc]

/-- The length that the header promises is the length of the chain, every part has the bytes of
its range, and what is printed fits in. -/
theorem multipart_exact (h : HeadersOut) (boundary : BitVec 64)
    (ranges : List ByteRange) (buf : BodyBuf) (hsound : Sound buf)
    (hdata : buf.inMemory = true ∨ buf.inFile = true) (hbody : buf.bytes.length = h.contentLength)
    (hlength : h.contentLength < 2 ^ 63)
    (hranges : ∀ range ∈ ranges, range.stop ≤ h.contentLength) :
    (∃ chain offset,
      multipartFilter (multipartHeader h boundary ranges).1 0 [buf] = some (chain, offset) ∧
      dataOf chain = ranges.flatMap (part (boundaryHeader h boundary) h.contentLength buf.bytes) ++
        (crlf ++ ascii "--" ++ boundaryText boundary ++ ascii "--" ++ crlf) ∧
      (dataOf chain).length = (multipartHeader h boundary ranges).2.contentLength) ∧
    (boundaryHeader h boundary).length ≤ boundaryHeaderSize h ∧
    (multipartType boundary).length ≤ contentTypeSize ∧
    (∀ range ∈ ranges, (contentRange h.contentLength range).length ≤ contentRangeSize) ∧
    (closing (boundaryHeader h boundary)).length ≤ closingSize := by
  rw [← hbody] at hranges
  have hplain : buf.special = false := by
    rw [NgxBuf.special]
    rcases hdata with hmemory | hfile
    · rw [hmemory, Bool.not_true, Bool.and_false, Bool.false_and]
    · rw [hfile, Bool.not_true, Bool.and_false]
  have hranges' : (multipartHeader h boundary ranges).1.ranges = ranges.map fun range =>
    (range, contentRange h.contentLength range) :=
    headerLoop_snd ..
  have hall : (multipartHeader h boundary ranges).1.ranges.any
      (fun r => decide (0 > r.1.start ∨ 0 + buf.size < r.1.stop)) = false := by
    rw [any_eq_false]
    intro r hr
    rw [hranges'] at hr
    obtain ⟨range, hrange, rfl⟩ := mem_map.mp hr
    have hstop := hranges range hrange
    rw [hsound.length_bytes] at hstop
    rw [decide_eq_true_iff]
    dsimp only
    omega
  have hpassed : multipartFilter (multipartHeader h boundary ranges).1 0 [buf] =
      some (multipartBody (multipartHeader h boundary ranges).1 buf, buf.size) := by
    rw [multipartFilter, hplain, if_neg Bool.false_ne_true, testOverlapped,
      if_neg (not_not.mpr rfl), hall, Bool.and_false,
      if_neg Bool.false_ne_true]
    rfl
  have hbytes : dataOf (multipartBody (multipartHeader h boundary ranges).1 buf) =
      ranges.flatMap (part (boundaryHeader h boundary) h.contentLength buf.bytes) ++
        (crlf ++ ascii "--" ++ boundaryText boundary ++ ascii "--" ++ crlf) := by
    rw [multipartBody, dataOf_append, hranges', dataOf_singleton, bytes_textBuf rfl]
    exact congrArg₂ (· ++ ·) (dataOf_bodyLoop hsound hdata hranges) (closing_eq h boundary)
  refine ⟨⟨_, _, hpassed, hbytes, ?_⟩, boundaryHeader_fits h boundary, multipartType_fits boundary,
    fun range hrange =>
      contentRange_fits hlength (hbody ▸ hranges range hrange),
        le_of_eq (length_closing h boundary)⟩
  have hcounted : (multipartHeader h boundary ranges).2.contentLength =
      closingSize +
        (ranges.flatMap (part (boundaryHeader h boundary) h.contentLength buf.bytes)).length :=
        headerLoop_fst hranges
  rw [hbytes, hcounted, length_append, ← closing_eq h boundary, length_closing, add_comm]

/-- The first byte and the last two of four. -/
theorem multipart_exact_two :
    let made :=
      multipartHeader ⟨ascii "text/plain", 10, [], 4⟩ 7 [⟨0, 1, by decide⟩, ⟨2, 4, by decide⟩]
    ∃ chain offset, multipartFilter made.1 0 [memoryBuf (ascii "abcd")] = some (chain, offset) ∧
      dataOf chain =
        ascii "\r\n--00000000000000000007\r\nContent-Type: text/plain\r\n" ++
        ascii "Content-Range: bytes 0-0/4\r\n\r\na" ++
        ascii "\r\n--00000000000000000007\r\nContent-Type: text/plain\r\n" ++
        ascii "Content-Range: bytes 2-3/4\r\n\r\ncd" ++
        ascii "\r\n--00000000000000000007--\r\n" ∧
      made.2.contentLength = 195 ∧ (dataOf chain).length = 195 := by
  intro made
  obtain ⟨chain, offset, hfilter, hbytes, hlength⟩ := (multipart_exact
    ⟨ascii "text/plain", 10, [], 4⟩ 7 [⟨0, 1, by decide⟩, ⟨2, 4, by decide⟩]
    (memoryBuf (ascii "abcd")) (sound_memoryBuf _) (.inl rfl) rfl (by decide)
    (forall_mem_cons.mpr ⟨by decide, forall_mem_singleton.mpr (by decide)⟩)).1
  have hmade : made.2.contentLength = 195 := by decide
  exact ⟨chain, offset, hfilter, hbytes.trans (by decide +kernel), hmade, hlength.trans hmade⟩

end Nginx.Http.RangeMultipart
