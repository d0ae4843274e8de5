/-
  Http/V2/Huff.lean --- the Huffman coder and decoder of HPACK strings
  (`ngx_http_v2_huff_encode.c`, `ngx_http_v2_huff_decode.c`).

  The word of the coder is `ngx_uint_t`, 64 bits.  What a function writes through
  `dst` is the list of bytes written there.
-/
import Nginx.Core.Base
import Nginx.Http.V2.HuffTables

set_option autoImplicit false

namespace Nginx.Http.V2

open Foundation
open Nginx.Core (align)

/-! ## The coder -/

/-- `sizeof(buf)` -/
def huffWordSize : Nat := 8

/-- The variables of `ngx_http_v2_huff_encode`, and what it has written. -/
structure HuffEncoder where
  hlen : Nat
  buf : Nat
  pending : Nat
  dst : Bytes
  deriving DecidableEq

/-- The `n` low bytes of a word, the highest first: the last loop of
`ngx_http_v2_huff_encode`, with `pending / 8` bytes to write. -/
def huffEncodeBytes (buf : Nat) : Nat → Bytes
  | 0 => []
  | n + 1 => UInt8.ofNat (buf >>> (8 * n)) :: huffEncodeBytes buf n

/-- `ngx_http_v2_huff_encode_buf` -/
def huffEncodeBuf (buf : Nat) : Bytes :=
  [UInt8.ofNat (buf >>> 56), UInt8.ofNat (buf >>> 48), UInt8.ofNat (buf >>> 40),
    UInt8.ofNat (buf >>> 32), UInt8.ofNat (buf >>> 24), UInt8.ofNat (buf >>> 16),
    UInt8.ofNat (buf >>> 8), UInt8.ofNat buf]

/-- `ngx_http_v2_huff_encode_table_lc` or `ngx_http_v2_huff_encode_table` -/
def huffTable (lower : Bool) : List (List HuffCode) :=
  if lower then huffEncodeTableLc else huffEncodeTable

/-- The loop of `ngx_http_v2_huff_encode`; an error is a `return 0` inside it. -/
def huffEncodeLoop (table : List (List HuffCode)) (len : Nat) :
    Bytes → HuffEncoder → Except HuffEncoder HuffEncoder
  | [], e => .ok e
  | ch :: src, e =>
    let next := tableEntry table ⟨0, 0⟩ ch.toNat
    let code := next.code
    let pending := e.pending + next.len
    -- accumulate bits
    if pending < huffWordSize * 8 then
      huffEncodeLoop table len src
        { e with buf := e.buf ||| (code <<< (huffWordSize * 8 - pending)) % wordRange
                 pending := pending }
    else if e.hlen + huffWordSize ≥ len then .error e
    else
      let pending := pending - huffWordSize * 8
      let buf := e.buf ||| code >>> pending
      huffEncodeLoop table len src
        { hlen := e.hlen + huffWordSize
          buf := if pending ≠ 0 then (code <<< (huffWordSize * 8 - pending)) % wordRange else 0
          pending := pending
          dst := e.dst ++ huffEncodeBuf buf }

/-- `ngx_http_v2_huff_encode`: the value returned, and what is written to `dst`. -/
def huffEncode (src : Bytes) (lower : Bool) : Nat × Bytes :=
  match huffEncodeLoop (huffTable lower) src.length src ⟨0, 0, 0, []⟩ with
  | .error e => (0, e.dst)
  | .ok e =>
    if e.pending = 0 then (e.hlen, e.dst)
    else
      let buf := e.buf ||| (wordRange - 1) >>> e.pending
      let pending := align e.pending 8
      if e.hlen + pending / 8 ≥ src.length then (0, e.dst)
      else
        let buf := buf >>> (huffWordSize * 8 - pending)
        (e.hlen + pending / 8, e.dst ++ huffEncodeBytes buf (pending / 8))

/-! ## The decoder -/

/-- `ngx_http_v2_huff_decode_code_t` -/
structure HuffDecodeCode where
  next : Byte
  emit : Byte
  sym : Byte
  ending : Byte
  deriving DecidableEq

/-- `ngx_http_v2_huff_decode_codes[state][bits]` -/
def huffDecodeCode (state : Byte) (bits : Nat) : HuffDecodeCode :=
  let row := tableEntry huffDecodeCodes (0, 0) state.toNat
  let half := if bits < 8 then row.1 else row.2
  let code := half >>> (32 * (7 - bits % 8))
  ⟨UInt8.ofNat (code >>> 24), UInt8.ofNat (code >>> 16), UInt8.ofNat (code >>> 8), UInt8.ofNat code⟩

/-- The state of a decoder: what outlives a call, `ending`, and the output. -/
structure HuffDecoder where
  state : Byte
  ending : Byte
  dst : Bytes
  deriving DecidableEq

/-- `ngx_http_v2_huff_decode_bits`; an error leaves everything as it was. -/
def huffDecodeBits (d : HuffDecoder) (bits : Nat) : Except HuffDecoder HuffDecoder :=
  let code := huffDecodeCode d.state bits
  if code.next = d.state then .error d
  else
    .ok
      { state := code.next
        ending := code.ending
        dst := if code.emit ≠ 0 then d.dst ++ [code.sym] else d.dst }

/-- The loop of `ngx_http_v2_huff_decode`. -/
def huffDecodeLoop : Bytes → HuffDecoder → Except HuffDecoder HuffDecoder
  | [], d => .ok d
  | ch :: src, d =>
    (huffDecodeBits d (ch >>> 4).toNat).bind fun d =>
      (huffDecodeBits d (ch &&& 0xf).toNat).bind fun d => huffDecodeLoop src d

/-- `ngx_http_v2_huff_decode`: `state` and the output behind it. -/
def huffDecode (state : Byte) (src dst : Bytes) (last : Bool) :
    Except HuffDecoder HuffDecoder :=
  (huffDecodeLoop src ⟨state, 1, dst⟩).bind fun d =>
    if last then
      if d.ending = 0 then .error d else .ok { d with state := 0 }
    else .ok d

/-- A string that arrives in pieces: `last` is set on the final one only. -/
def huffDecodePieces : Byte → List Bytes → Bytes → Bytes → Except HuffDecoder HuffDecoder
  | state, [], final, dst => huffDecode state final dst true
  | state, piece :: pieces, final, dst =>
    (huffDecode state piece dst false).bind fun d => huffDecodePieces d.state pieces final d.dst

end Nginx.Http.V2
