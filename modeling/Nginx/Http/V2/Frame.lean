/-
  Http/V2/Frame.lean --- frames as the receiving side sees them: the constants of
  `src/http/v2/ngx_http_v2.h`, the frame header, and `ngx_http_v2_state_save`.

  The unread part of the receive buffer, from `pos` to `end`, is a list of bytes.
-/
import Nginx.Core.Base
import Nginx.Foundation.Machines

set_option autoImplicit false

namespace Nginx.Http.V2

open Foundation
open Foundation.Resumable (Turn)

/-- The status codes of `ngx_http_v2_module.h` that a connection error carries. -/
inductive ErrorCode where
  | noError
  | protocolError
  | internalError
  | flowCtrlError
  | settingsTimeout
  | streamClosed
  | sizeError
  | refusedStream
  | cancel
  | compError
  | connectError
  | enhanceYourCalm
  deriving DecidableEq

/-! ## Constants -/

/-- `NGX_HTTP_V2_STATE_BUFFER_SIZE` -/
def stateBufferSize : Nat := 16

/-- `NGX_HTTP_V2_FRAME_HEADER_SIZE` -/
def frameHeaderSize : Nat := 9

/-- `NGX_HTTP_V2_DEFAULT_FRAME_SIZE` -/
def defaultFrameSize : Nat := 1 <<< 14

/-- `NGX_HTTP_V2_MAX_FRAME_SIZE` -/
def maxFrameSize : Nat := (1 <<< 24) - 1

/-- `NGX_HTTP_V2_MAX_WINDOW` -/
def maxWindow : Nat := (1 <<< 31) - 1

/-- `NGX_HTTP_V2_DEFAULT_WINDOW` -/
def defaultWindow : Nat := 65535

/-- `NGX_HTTP_V2_SETTINGS_FRAME` -/
def settingsFrame : Byte := 0x4

/-- `NGX_HTTP_V2_ACK_FLAG` -/
def ackFlag : Byte := 0x01

/-! ## Numbers on the wire -/

/-- `ngx_http_v2_parse_uint16` -/
def parseUint16 (a b : Byte) : Nat := a.toNat <<< 8 + b.toNat

/-- `ngx_http_v2_parse_uint32` -/
def parseUint32 (a b c d : Byte) : Nat :=
  a.toNat <<< 24 + b.toNat <<< 16 + c.toNat <<< 8 + d.toNat

/-- `ngx_http_v2_write_uint32` -/
def writeUint32 (s : Nat) : Bytes :=
  [UInt8.ofNat (s >>> 24), UInt8.ofNat (s >>> 16), UInt8.ofNat (s >>> 8), UInt8.ofNat s]

/-! ## The frame header -/

/-- What `ngx_http_v2_state_head` takes from the nine bytes of a frame header. -/
structure FrameHead where
  length : Nat
  type : Byte
  flags : Byte
  sid : Nat
  deriving DecidableEq

/-- The header at the start of the unread bytes and what follows it. -/
def parseHead : Bytes → Option (FrameHead × Bytes)
  | a :: b :: c :: type :: flags :: e :: f :: g :: h :: rest =>
    some (⟨parseUint32 a b c type >>> 8, type, flags, parseUint32 e f g h &&& 0x7fffffff⟩, rest)
  | _ => none

/-- A frame header on the wire. -/
def headBytes (length : Nat) (type flags : Byte) (sid : Nat) : Bytes :=
  writeUint32 (length <<< 8 + type.toNat) ++ flags :: writeUint32 sid

/-- A whole frame on the wire. -/
def frameBytes (type flags : Byte) (sid : Nat) (payload : Bytes) : Bytes :=
  headBytes payload.length type flags sid ++ payload

theorem parseUint32_write {s : Nat} (h : s < 2 ^ 32) :
    parseUint32 (UInt8.ofNat (s >>> 24)) (UInt8.ofNat (s >>> 16)) (UInt8.ofNat (s >>> 8))
      (UInt8.ofNat s) = s := by
  simp only [parseUint32, UInt8.toNat_ofNat', Nat.shiftLeft_eq, Nat.shiftRight_eq_div_pow]
  omega

@[simp] theorem length_headBytes (length : Nat) (type flags : Byte) (sid : Nat) :
    (headBytes length type flags sid).length = frameHeaderSize := rfl

theorem parseHead_eq_none_iff {unread : Bytes} :
    parseHead unread = none ↔ unread.length < frameHeaderSize := by
  match unread with
  | _ :: _ :: _ :: _ :: _ :: _ :: _ :: _ :: _ :: rest => simp [parseHead, frameHeaderSize]
  | [] | [_] | [_, _] | [_, _, _] | [_, _, _, _] | [_, _, _, _, _] | [_, _, _, _, _, _]
  | [_, _, _, _, _, _, _] | [_, _, _, _, _, _, _, _] => simp [parseHead, frameHeaderSize]

theorem parseHead_headBytes {length sid : Nat} {type flags : Byte} (hlen : length < 2 ^ 24)
    (hsid : sid < 2 ^ 31) (more : Bytes) :
    parseHead (headBytes length type flags sid ++ more) =
      some (⟨length, type, flags, sid⟩, more) := by
  have htype : UInt8.ofNat (length <<< 8 + type.toNat) = type := by
    apply UInt8.toNat_inj.mp
    have hlt := type.toNat_lt
    rw [UInt8.toNat_ofNat', Nat.shiftLeft_eq]
    omega
  have hhead : parseUint32 (UInt8.ofNat ((length <<< 8 + type.toNat) >>> 24))
      (UInt8.ofNat ((length <<< 8 + type.toNat) >>> 16))
      (UInt8.ofNat ((length <<< 8 + type.toNat) >>> 8)) type = length <<< 8 + type.toNat := by
    have hlt := type.toNat_lt
    have heq := parseUint32_write (s := length <<< 8 + type.toNat)
      (by rw [Nat.shiftLeft_eq]; omega)
    rwa [htype] at heq
  have hlength : (length <<< 8 + type.toNat) >>> 8 = length := by
    have hlt := type.toNat_lt
    rw [Nat.shiftLeft_eq, Nat.shiftRight_eq_div_pow]
    omega
  have hmask : sid &&& 0x7fffffff = sid := by
    rw [show 0x7fffffff = 2 ^ 31 - 1 from rfl, Nat.and_two_pow_sub_one_eq_mod,
      Nat.mod_eq_of_lt hsid]
  simp only [headBytes, writeUint32, List.cons_append, List.nil_append, parseHead, htype, hhead,
    parseUint32_write (lt_trans hsid (by decide)), hmask]
  rw [hlength]

/-! ## Saving -/

variable {η σ : Type}

/-- `ngx_http_v2_state_save`: what is unread is kept for the next read. -/
def stateSave (s : σ) (unread : Bytes) (handler : η) : Turn η σ ErrorCode Byte :=
  if unread.length > stateBufferSize then .fail .internalError s
  else .save handler s unread

theorem stateSave_of_le {s : σ} {unread : Bytes} {handler : η}
    (h : unread.length ≤ stateBufferSize) : stateSave s unread handler = .save handler s unread :=
  if_neg (not_lt.mpr h)

end Nginx.Http.V2
