/-
  Http/V2/Field.lean --- the integers and the strings of a header block
  (`ngx_http_v2_parse_int` and `ngx_http_v2_state_field_len` with what follows it in
  `src/http/v2/ngx_http_v2.c`, and `src/http/v2/ngx_http_v2_encode.c`).

  The integer and the string may be cut anywhere into reads.  `state.length` is what is
  left of the payload of the frame.
-/
import Nginx.Http.V2.Frame
import Nginx.Http.V2.HuffStrings

set_option autoImplicit false

namespace Nginx.Http.V2

open Nginx.Core (strlow)
open List Foundation
open Foundation.Resumable (Turn)

/-! ## Integers -/

/-- `NGX_HTTP_V2_INT_OCTETS` -/
def intOctets : Nat := 4

/-- `NGX_HTTP_V2_MAX_FIELD` -/
def maxField : Nat := 127 + (1 <<< ((intOctets - 1) * 7)) - 1

/-- `ngx_http_v2_prefix` -/
def intPrefix (bits : Nat) : Nat := (1 <<< bits) - 1

/-- The bytes of `ngx_http_v2_write_int` behind the first one. -/
def writeIntRest (value : Nat) : Bytes :=
  if 128 ≤
    value then UInt8.ofNat (value % 128 + 128) :: writeIntRest
    (value / 128) else [UInt8.ofNat value]
termination_by value

/-- `ngx_http_v2_write_int`; `flag` is what is at `pos` before. -/
def writeInt (flag : Byte) (pre value : Nat) : Bytes :=
  if value < pre then [flag ||| UInt8.ofNat value]
  else (flag ||| UInt8.ofNat pre) :: writeIntRest (value - pre)

/-- What `ngx_http_v2_parse_int` returns. -/
inductive IntResult where
  | value (n : Nat)
  | again
  | declined
  | error
  /-- `*p` is read where there is nothing -/
  | pastEnd
  deriving DecidableEq

/-- The value returned, `state.length`, and what is from `*pos` on. -/
structure ParsedInt where
  result : IntResult
  length : Nat
  unread : Bytes
  deriving DecidableEq

/-- The loop of `ngx_http_v2_parse_int`: the value and `p - start`, if an octet ends it. -/
def parseIntLoop : Bytes → Nat → Nat → Nat → Option (Nat × Nat)
  | [], _, _, _ => none
  | octet :: window, shift, value, passed =>
    let value := value + (octet.toNat &&& 0x7f) <<< shift
    if octet <
      128 then some (value, passed + 1) else parseIntLoop window (shift + 7) value (passed + 1)

/-- `ngx_http_v2_parse_int` on what is unread. -/
def parseInt (pre length : Nat) : Bytes → ParsedInt
  | [] => ⟨.pastEnd, length, []⟩
  | first :: data =>
    let value := first.toNat &&& pre
    if value ≠ pre then
      if length = 0 then ⟨.error, length, first :: data⟩
      else ⟨.value value, length - 1, data⟩
    else
      let window := (first :: data).take intOctets
      match parseIntLoop (window.drop 1) 0 value 1 with
      | some (value, passed) =>
        if passed > length then ⟨.error, length, first :: data⟩
        else ⟨.value value, length - passed, (first :: data).drop passed⟩
      | none =>
        if window.length ≥ length then ⟨.error, length, first :: data⟩
        else if window.length = intOctets then ⟨.declined, length, first :: data⟩
        else ⟨.again, length, first :: data⟩

/-! ## Strings -/

/-- `ngx_http_v2_string_encode` -/
def stringEncode (src : Bytes) (lower : Bool) : Bytes :=
  let (hlen, tmp) := huffEncode src lower
  if hlen > 0 then writeInt 0x80 (intPrefix 7) hlen ++ tmp
  else writeInt 0 (intPrefix 7) src.length ++ if lower then strlow src else src

/-- The functions that a read goes to, and the two that come behind the field. -/
inductive FieldHandler where
  | fieldLen
  | fieldHuff
  | fieldRaw
  | fieldSkip
  | processHeader
  | handleContinuation (next : FieldHandler)
  deriving DecidableEq

/-- What the field depends on: `h2scf->max_field_size`, and whether there is a stream or
an entry of the table that it is for. -/
structure FieldConf where
  maxFieldSize : Nat
  stored : Bool
  deriving DecidableEq

/-- `h2c->state`: the payload left, the flag of the frame, and the field with what is
still missing of it. -/
structure FieldState where
  length : Nat
  endHeaders : Bool
  fieldRest : Nat
  fieldState : Byte
  field : Bytes
  deriving DecidableEq

variable (conf : FieldConf)

/-- What the handlers come to behind the bytes they take. -/
def fieldNext (s : FieldState) (rest : Bytes) (handler : FieldHandler) :
    Turn FieldHandler FieldState ErrorCode Byte :=
  if s.fieldRest = 0 then .goOn .processHeader s rest
  else if s.length ≠ 0 then stateSave s rest handler
  else if s.endHeaders then .fail .sizeError s
  else .goOn (.handleContinuation handler) s rest

/-- How many bytes a handler takes. -/
def FieldState.size (s : FieldState) (unread : Bytes) :
    Nat := min (min unread.length s.fieldRest) s.length

/-- `ngx_http_v2_state_field_huff` -/
def stateFieldHuff (s : FieldState) (unread : Bytes) :
    Turn FieldHandler FieldState ErrorCode Byte :=
  let size := s.size unread
  let s := { s with length := s.length - size, fieldRest := s.fieldRest - size }
  match huffDecode s.fieldState (unread.take size) s.field (s.fieldRest = 0) with
  | .error d => .fail .compError { s with fieldState := d.state, field := d.dst }
  | .ok d =>
    fieldNext { s with fieldState := d.state, field := d.dst } (unread.drop size) .fieldHuff

/-- `ngx_http_v2_state_field_raw` -/
def stateFieldRaw (s : FieldState) (unread : Bytes) : Turn FieldHandler FieldState ErrorCode Byte :=
  let size := s.size unread
  let s :=
    { s with
      length := s.length - size, fieldRest := s.fieldRest - size
      field := s.field ++ unread.take size }
  fieldNext s (unread.drop size) .fieldRaw

/-- `ngx_http_v2_state_field_skip` -/
def stateFieldSkip (s : FieldState) (unread : Bytes) :
    Turn FieldHandler FieldState ErrorCode Byte :=
  let size := s.size unread
  let s := { s with length := s.length - size, fieldRest := s.fieldRest - size }
  fieldNext s (unread.drop size) .fieldSkip

/-- `ngx_http_v2_state_field_len` -/
def stateFieldLen (s : FieldState) (unread : Bytes) : Turn FieldHandler FieldState ErrorCode Byte :=
  if ¬ s.endHeaders ∧ s.length < intOctets then .goOn (.handleContinuation .fieldLen) s unread
  else if s.length < 1 then .fail .sizeError s
  else
    match unread with
    | [] => stateSave s [] .fieldLen
    | first :: rest =>
      let parsed := parseInt (intPrefix 7) s.length (first :: rest)
      match parsed.result with
      | .again => stateSave s (first :: rest) .fieldLen
      | .declined => .fail .compError s
      | .error | .pastEnd => .fail .sizeError s
      | .value len =>
        let s := { s with length := parsed.length }
        if len > conf.maxFieldSize then .fail .enhanceYourCalm s
        else
          let s := { s with fieldRest := len }
          if ¬ conf.stored then stateFieldSkip s parsed.unread
          else
            let s := { s with field := [] }
            if first >>> 7 ≠
              0 then stateFieldHuff s parsed.unread else stateFieldRaw s parsed.unread

/-- One call.  What comes behind the field is left to the function that reads it. -/
def callField : FieldHandler → FieldState → Bytes → Turn FieldHandler FieldState ErrorCode Byte
  | .fieldLen, s, unread => stateFieldLen conf s unread
  | .fieldHuff, s, unread => stateFieldHuff s unread
  | .fieldRaw, s, unread => stateFieldRaw s unread
  | .fieldSkip, s, unread => stateFieldSkip s unread
  | handler, s, unread => .save handler s unread

/-! ## The octets of an integer -/

theorem writeIntRest_small {value : Nat} (h : value < 128) :
    writeIntRest value = [UInt8.ofNat value] := by
  rw [writeIntRest, if_neg (not_le.mpr h)]

theorem writeIntRest_large {value : Nat} (h : 128 ≤ value) :
    writeIntRest value = UInt8.ofNat (value % 128 + 128) :: writeIntRest (value / 128) := by
  rw [writeIntRest, if_pos h]

/-- Every octet but the last one goes on. -/
inductive Octets : Bytes → Nat → Prop where
  | last {octet : Byte} {n : Nat} (h : octet.toNat = n) (hlt : n < 128) : Octets [octet] n
  | more {octet : Byte} {octets : Bytes} {n : Nat} (h : 128 ≤ octet.toNat)
    (hrest : Octets octets n) :
      Octets (octet :: octets) (octet.toNat - 128 + 128 * n)

theorem octets_writeIntRest (value : Nat) : Octets (writeIntRest value) value := by
  induction value using Nat.strongRecOn with
  | ind value ih =>
    rcases Nat.lt_or_ge value 128 with hsmall | hlarge
    · rw [writeIntRest_small hsmall]
      exact .last (Nat.mod_eq_of_lt (by omega)) hsmall
    have hbyte : (UInt8.ofNat (value % 128 + 128)).toNat = value % 128 + 128 :=
      Nat.mod_eq_of_lt (by omega)
    have hmore :=
      @Octets.more (UInt8.ofNat (value % 128 + 128)) _ _ (by omega) (ih (value / 128) (by omega))
    rw [hbyte, show value % 128 + 128 - 128 + 128 * (value / 128) = value by omega] at hmore
    rw [writeIntRest_large hlarge]
    exact hmore

variable {octets : Bytes} {n : Nat}

theorem Octets.pos (h : Octets octets n) : 0 < octets.length := by
  cases h with
  | last _ _ => exact Nat.one_pos
  | more _ _ => exact Nat.succ_pos _

theorem length_writeIntRest_le (k value : Nat) :
    (writeIntRest value).length ≤ k + 1 ↔ value < 128 ^ (k + 1) := by
  induction k generalizing value with
  | zero =>
    rcases Nat.lt_or_ge value 128 with hsmall | hlarge
    · rw [writeIntRest_small hsmall]
      exact iff_of_true (le_refl 1) hsmall
    · have hpos := (octets_writeIntRest (value / 128)).pos
      rw [writeIntRest_large hlarge, length_cons]
      omega
  | succ k ih =>
    have hpow : 128 ^ (k + 1 + 1) = 128 ^ (k + 1) * 128 := Nat.pow_succ ..
    have hpowpos : 0 < 128 ^ (k + 1) := Nat.pow_pos (by decide)
    rcases Nat.lt_or_ge value 128 with hsmall | hlarge
    · rw [writeIntRest_small hsmall, length_singleton]
      omega
    · rw [writeIntRest_large hlarge, length_cons, Nat.add_le_add_iff_right, ih, hpow,
        Nat.div_lt_iff_lt_mul (by decide)]

theorem and_seven (octet : Byte) : octet.toNat &&& 0x7f = octet.toNat % 128 :=
    Nat.and_two_pow_sub_one_eq_mod octet.toNat 7

theorem octet_lt_iff (octet : Byte) : octet < 128 ↔ octet.toNat < 128 := UInt8.lt_iff_toNat_lt

theorem parseIntLoop_octets (h : Octets octets n) (rest : Bytes) (shift value passed : Nat) :
    parseIntLoop (octets ++ rest) shift value passed =
      some (value + n * 2 ^ shift, passed + octets.length) := by
  induction h generalizing shift value passed with
  | @last octet n hn hlt =>
    rw [singleton_append, parseIntLoop, if_pos ((octet_lt_iff octet).mpr (hn ▸ hlt)),
      and_seven, hn, Nat.mod_eq_of_lt hlt,
      Nat.shiftLeft_eq, length_singleton]
  | @more octet octets n hmore hrest ih =>
    have hlt := octet.toNat_lt
    have hnot : ¬ octet < 128 := fun hlt =>
      absurd ((octet_lt_iff octet).mp hlt) (not_lt.mpr hmore)
    have hlow : octet.toNat % 128 = octet.toNat - 128 := by omega
    rw [cons_append, parseIntLoop, if_neg hnot, ih, and_seven, hlow, Nat.shiftLeft_eq, length_cons]
    congr 2
    · ring
    · omega

theorem parseIntLoop_none {window : Bytes} (h : ∀ octet ∈ window, 128 ≤ octet.toNat)
    (shift value passed : Nat) :
    parseIntLoop window shift value passed = none := by
  induction window generalizing shift value passed with
  | nil => rfl
  | cons octet window ih =>
    obtain ⟨hoctet, hwindow⟩ := forall_mem_cons.mp h
    have hnot : ¬ octet < 128 := fun hlt =>
      absurd ((octet_lt_iff octet).mp hlt) (not_lt.mpr hoctet)
    rw [parseIntLoop, if_neg hnot, ih hwindow]

theorem Octets.take_high (h : Octets octets n) {k : Nat} (hk : k < octets.length) :
    ∀ octet ∈ octets.take k, 128 ≤ octet.toNat := by
  induction h generalizing k with
  | last _ _ =>
    obtain rfl : k = 0 := Nat.lt_one_iff.mp hk
    exact forall_mem_nil _
  | more hmore _ ih =>
    cases k with
    | zero => exact forall_mem_nil _
    | succ k =>
      rw [take_succ_cons]
      exact forall_mem_cons.mpr ⟨hmore, ih (Nat.lt_of_succ_lt_succ hk)⟩

/-! ## Integers there and back -/

theorem and_intPrefix {flag : Byte} {bits value : Nat} (hbits : bits ≤ 7)
    (hflag : flag.toNat &&& intPrefix bits = 0)
    (hvalue : value ≤ intPrefix bits) :
    (flag ||| UInt8.ofNat value).toNat &&& intPrefix bits = value := by
  have hpow : intPrefix bits = 2 ^ bits - 1 := by rw [intPrefix, Nat.one_shiftLeft]
  have hpos : 0 < 2 ^ bits := Nat.two_pow_pos bits
  have hle : 2 ^ bits ≤ 2 ^ 7 := Nat.pow_le_pow_right (by decide) hbits
  have hbyte : (UInt8.ofNat value).toNat = value := Nat.mod_eq_of_lt (by omega)
  rw [UInt8.toNat_or, hbyte, Nat.and_or_distrib_right, hflag, Nat.zero_or,
    hpow, Nat.and_two_pow_sub_one_eq_mod,
    Nat.mod_eq_of_lt (by omega)]

variable {pre length : Nat} {first : Byte}

theorem parseInt_small (h : first.toNat &&& pre ≠ pre) (hlength : 0 < length) (rest : Bytes) :
    parseInt pre length (first :: rest) = ⟨.value (first.toNat &&& pre), length - 1, rest⟩ := by
  rw [parseInt, if_pos h, if_neg hlength.ne']

theorem parseInt_octets (hfirst : first.toNat &&& pre = pre) (h : Octets octets n)
    (hfit : octets.length + 1 ≤ intOctets)
    (hlength : octets.length + 1 ≤ length) (rest : Bytes) :
    parseInt pre length (first :: (octets ++ rest)) =
      ⟨.value (pre + n), length - (octets.length + 1), rest⟩ := by
  have hwindow : ((first :: (octets ++ rest)).take intOctets).drop 1 =
    octets ++ rest.take (intOctets - 1 - octets.length) := by
    rw [show intOctets = intOctets - 1 + 1 from rfl, take_succ_cons,
      drop_one, tail_cons, take_append,
      take_of_length_le (Nat.le_sub_one_of_lt hfit)]
    rfl
  have hloop := parseIntLoop_octets h (rest.take (intOctets - 1 - octets.length)) 0 pre 1
  rw [pow_zero, mul_one, add_comm 1] at hloop
  have hdrop : (first :: (octets ++ rest)).drop (octets.length + 1) = rest := by
    rw [drop_succ_cons, drop_left]
  rw [parseInt, hfirst, if_neg (not_not.mpr rfl)]
  dsimp only
  rw [hwindow, hloop]
  dsimp only
  rw [if_neg (not_lt.mpr hlength), hdrop]

theorem parseInt_window {data : Bytes} (hfirst : first.toNat &&& pre = pre)
    (h : ∀ octet ∈ data.take (intOctets - 1), 128 ≤ octet.toNat) :
    parseInt pre length (first :: data) =
      ⟨if min intOctets (data.length + 1) ≥ length then .error
        else if min intOctets (data.length + 1) = intOctets then .declined else .again,
          length, first :: data⟩ := by
  have hwindow : ((first :: data).take intOctets).drop 1 = data.take (intOctets - 1) := rfl
  have hlen : ((first :: data).take intOctets).length = min intOctets (data.length + 1) :=
    length_take
  rw [parseInt, hfirst, if_neg (not_not.mpr rfl)]
  dsimp only
  rw [hwindow, parseIntLoop_none h, hlen]
  dsimp only
  split
  · rfl
  split
  · rfl
  · rfl

theorem parseInt_again (hfirst : first.toNat &&& pre = pre) (h : Octets octets n)
    (hfit : octets.length + 1 ≤ intOctets)
    (hlength : octets.length + 1 ≤ length) {k : Nat} (hk : k < octets.length) :
    parseInt pre length (first :: octets.take k) = ⟨.again, length, first :: octets.take k⟩ := by
  have hlen : (octets.take k).length = k := by
    rw [length_take]
    omega
  have hhigh : ∀ octet ∈ (octets.take k).take (intOctets - 1), 128 ≤ octet.toNat :=
    fun octet hoctet => h.take_high hk octet (mem_of_mem_take hoctet)
  have hmin : min intOctets (k + 1) = k + 1 := by omega
  rw [parseInt_window hfirst hhigh, hlen, hmin, if_neg (by omega), if_neg (by omega)]

theorem parseInt_long (hfirst : first.toNat &&& pre = pre) (h : Octets octets n)
    (hlong : intOctets < octets.length + 1)
    (rest : Bytes) :
    parseInt pre length (first :: (octets ++ rest)) =
      ⟨if intOctets ≥ length then .error else .declined, length, first :: (octets ++ rest)⟩ := by
  have htake : (octets ++ rest).take (intOctets - 1) = octets.take (intOctets - 1) :=
    take_append_of_le_length (by omega)
  have hhigh : ∀ octet ∈ (octets ++ rest).take (intOctets - 1), 128 ≤ octet.toNat := by
    rw [htake]
    exact h.take_high (by rw [intOctets] at hlong ⊢; omega)
  have hmin : min intOctets ((octets ++ rest).length + 1) = intOctets := by
    rw [length_append]
    omega
  rw [parseInt_window hfirst hhigh, hmin, if_pos rfl]

theorem writeInt_cases {flag : Byte} {bits : Nat} (value : Nat)
    (hbits : bits ≤ 7) (hflag : flag.toNat &&& intPrefix bits = 0) :
    (value < intPrefix bits ∧ ∃ first : Byte, writeInt flag (intPrefix bits) value = [first] ∧
      first.toNat &&& intPrefix bits = value) ∨
    (intPrefix bits ≤ value ∧
      ∃ first : Byte, ∃ octets, writeInt flag (intPrefix bits) value = first :: octets ∧
      first.toNat &&& intPrefix bits = intPrefix bits ∧
        octets = writeIntRest (value - intPrefix bits)) := by
  rcases Nat.lt_or_ge value (intPrefix bits) with hsmall | hlarge
  · exact .inl ⟨hsmall, _, by rw [writeInt, if_pos hsmall], and_intPrefix hbits hflag hsmall.le⟩
  · exact .inr
      ⟨hlarge, _, _, by rw [writeInt, if_neg (not_lt.mpr hlarge)],
      and_intPrefix hbits hflag le_rfl, rfl⟩

section RoundTrip

variable {flag : Byte} {bits value : Nat}

theorem length_writeInt_le (hbits : bits ≤ 7) (hflag : flag.toNat &&& intPrefix bits = 0) :
    (writeInt flag (intPrefix bits) value).length ≤ intOctets ↔
      value ≤ intPrefix bits + 2 ^ 21 - 1 := by
  rcases writeInt_cases value hbits hflag
    with ⟨hsmall, first, heq, -⟩ | ⟨hlarge, first, octets, heq, -, rfl⟩
  · rw [heq]
    exact iff_of_true (Nat.le_of_ble_eq_true rfl) (by omega)
  · have hlen := length_writeIntRest_le 2 (value - intPrefix bits)
    rw [heq, length_cons, intOctets, Nat.add_le_add_iff_right, hlen]
    omega

theorem parseInt_writeInt (hbits : bits ≤ 7) (hflag : flag.toNat &&& intPrefix bits = 0)
    (hvalue : value ≤ intPrefix bits + 2 ^ 21 - 1)
    (hlength : (writeInt flag (intPrefix bits) value).length ≤ length)
    (rest : Bytes) :
    parseInt (intPrefix bits) length (writeInt flag (intPrefix bits) value ++ rest) =
      ⟨.value value, length - (writeInt flag (intPrefix bits) value).length, rest⟩ := by
  have hfit := (length_writeInt_le hbits hflag).mpr hvalue
  rcases writeInt_cases value hbits hflag with
    ⟨hsmall, first, heq, hfirst⟩ | ⟨hlarge, first, octets, heq, hfirst, hoctets⟩
  · rw [heq] at hlength ⊢
    rw [singleton_append, parseInt_small (by omega) hlength, hfirst]
    rfl
  have hrest := octets_writeIntRest (value - intPrefix bits)
  rw [← hoctets] at hrest
  rw [heq] at hlength hfit ⊢
  rw [cons_append, parseInt_octets hfirst hrest hfit hlength, Nat.add_sub_cancel' hlarge]
  rfl

theorem parseInt_take (hbits : bits ≤ 7) (hflag : flag.toNat &&& intPrefix bits = 0)
    (hvalue : value ≤ intPrefix bits + 2 ^ 21 - 1)
    (hlength : (writeInt flag (intPrefix bits) value).length ≤ length)
    {k : Nat} (hpos : 0 < k) (hk : k < (writeInt flag (intPrefix bits) value).length) :
    parseInt (intPrefix bits) length ((writeInt flag (intPrefix bits) value).take k) =
      ⟨.again, length, (writeInt flag (intPrefix bits) value).take k⟩ := by
  obtain ⟨k, rfl⟩ := Nat.exists_eq_succ_of_ne_zero hpos.ne'
  have hfit := (length_writeInt_le hbits hflag).mpr hvalue
  rcases writeInt_cases value hbits hflag with
    ⟨hsmall, first, heq, hfirst⟩ | ⟨hlarge, first, octets, heq, hfirst, hoctets⟩
  · rw [heq, length_singleton] at hk
    omega
  have hrest := octets_writeIntRest (value - intPrefix bits)
  rw [← hoctets] at hrest
  rw [heq] at hlength hfit hk ⊢
  rw [take_succ_cons]
  exact parseInt_again hfirst hrest hfit hlength (Nat.lt_of_succ_lt_succ hk)

end RoundTrip

/-! ## A field in pieces -/

section Field

variable {conf : FieldConf} {s : FieldState} {reads : List Bytes}
    {body following out : Bytes} {fuel : Nat}

/-- The state behind a field. -/
def FieldState.behind (s : FieldState) (taken : Nat) (out : Bytes) : FieldState :=
  { s with length := s.length - taken, fieldRest := 0, fieldState := 0, field := out }

theorem feed_processHeader (s : FieldState) (kept : Bytes) (hfuel : 0 < fuel) :
    Resumable.feed (callField conf) fuel (.ready .processHeader s kept) reads =
      .ready .processHeader s (kept ++ reads.flatten) := by
  induction reads generalizing kept with
  | nil => rw [flatten_nil, append_nil, Resumable.feed_nil]
  | cons read reads ih =>
    obtain ⟨fuel, rfl⟩ := Nat.exists_eq_succ_of_ne_zero hfuel.ne'
    have hdeliver : Resumable.deliver (callField conf) (fuel + 1)
      (.ready .processHeader s kept) read =
        .ready .processHeader s (kept ++ read) := rfl
    rw [Resumable.feed_cons, hdeliver, ih, flatten_cons, append_assoc]

theorem drain_processHeader {handler : FieldHandler} {s' : FieldState}
    {unread rest : Bytes} (hfuel : 1 < fuel)
    (hcall : callField conf handler s unread = .goOn .processHeader s' rest) :
    Resumable.drain (callField conf) fuel handler s unread = .ready .processHeader s' rest := by
  obtain ⟨fuel, rfl⟩ := Nat.exists_eq_add_of_le' hfuel
  rw [Resumable.drain, hcall]
  cases rest with
  | nil => rfl
  | cons a rest => rfl

/-- What a handler makes of the rest of a field. -/
def FieldHandler.Reads : FieldHandler → FieldState → Bytes → Bytes → Prop
  | .fieldHuff, s, body, out =>
    ∀ (pieces : List Bytes) (final : Bytes), pieces.flatten ++ final = body →
      ∃ ending, huffDecodePieces s.fieldState pieces final s.field = .ok ⟨0, ending, out⟩
  | .fieldRaw, s, body, out => s.fieldState = 0 ∧ s.field ++ body = out
  | _, _, _, _ => False

/-- The rest `body` of a field is to come. -/
structure FieldHandler.Expects (handler : FieldHandler) (s : FieldState) (body out : Bytes) :
    Prop where
  rest : s.fieldRest = body.length
  fits : body.length ≤ s.length
  reads : handler.Reads s body out

theorem FieldHandler.Expects.whole {handler : FieldHandler}
    (h : handler.Expects s body out) (conf : FieldConf) (extra : Bytes) :
    callField conf handler s (body ++ extra) =
      .goOn .processHeader (s.behind body.length out) extra := by
  have hrest := h.rest
  have hfits := h.fits
  have hsize : s.size (body ++ extra) = body.length := by
    rw [FieldState.size, length_append]
    omega
  cases handler with
  | fieldHuff =>
    obtain ⟨ending, hdecode⟩ := h.reads [] body rfl
    rw [huffDecodePieces] at hdecode
    rw [callField, stateFieldHuff, hsize, take_left, drop_left, hrest, Nat.sub_self]
    simp only [decide_true, hdecode, fieldNext, if_true]
    rfl
  | fieldRaw =>
    obtain ⟨hstate, hout⟩ := h.reads
    rw [callField, stateFieldRaw, hsize, take_left, drop_left, hrest,
      Nat.sub_self, hout, fieldNext, if_pos rfl,
      FieldState.behind, hstate]
  | fieldLen => exact h.reads.elim
  | fieldSkip => exact h.reads.elim
  | processHeader => exact h.reads.elim
  | handleContinuation _ => exact h.reads.elim

/-- A part of what a handler expects is kept for the next call. -/
theorem FieldHandler.Expects.part {handler : FieldHandler} {piece : Bytes}
    (h : handler.Expects s (piece ++ body) out)
    (conf : FieldConf) (hbody : body ≠ []) :
    ∃ s', callField conf handler s piece = .save handler s' [] ∧ handler.Expects s' body out ∧
      s'.behind body.length out = s.behind (piece ++ body).length out := by
  have hrest := h.rest
  have hfits := h.fits
  have hpos := length_pos_of_ne_nil hbody
  rw [length_append] at hrest hfits
  have hsize : s.size piece = piece.length := by
    rw [FieldState.size]
    omega
  have hmissing : s.fieldRest - piece.length ≠ 0 := by omega
  have hleft : s.length - piece.length ≠ 0 := by omega
  have hbehind : s.length - piece.length - body.length = s.length - (piece ++ body).length := by
    rw [length_append]
    omega
  have hsave : ∀ s' : FieldState, stateSave s' [] handler = .save handler s' [] :=
    fun s' => stateSave_of_le (Nat.zero_le _)
  cases handler with
  | fieldHuff =>
    obtain ⟨ending, hdecode⟩ := h.reads [piece] body (by rw [flatten_singleton])
    rw [huffDecodePieces] at hdecode
    obtain ⟨d, hpiece⟩ : ∃ d, huffDecode s.fieldState piece s.field false = .ok d := by
      cases hpiece : huffDecode s.fieldState piece s.field false with
      | error d =>
        rw [hpiece] at hdecode
        cases hdecode
      | ok d => exact ⟨d, rfl⟩
    refine ⟨{ s with length := s.length - piece.length, fieldRest := s.fieldRest - piece.length,
                     fieldState := d.state, field := d.dst }, ?_,
                       ⟨?_, ?_, fun pieces final hpieces => ?_⟩, ?_⟩
    · rw [callField, stateFieldHuff, hsize, take_length, drop_length]
      simp only [hmissing, decide_false, hpiece, fieldNext, if_false,
        ne_eq, hleft, not_false_eq_true, if_true]
      exact hsave _
    · simp only
      omega
    · simp only
      omega
    · obtain ⟨ending, hall⟩ := h.reads (piece :: pieces) final
        (by rw [flatten_cons, append_assoc, hpieces])
      rw [huffDecodePieces, hpiece] at hall
      exact ⟨ending, hall⟩
    · simp only [FieldState.behind, hbehind]
  | fieldRaw =>
    obtain ⟨hstate, hout⟩ := h.reads
    refine ⟨{ s with length := s.length - piece.length, fieldRest := s.fieldRest - piece.length,
                     field := s.field ++ piece }, ?_, ⟨?_, ?_, hstate, ?_⟩, ?_⟩
    · rw [callField, stateFieldRaw, hsize, take_length, drop_length]
      simp only [hmissing, fieldNext, if_false, ne_eq, hleft, not_false_eq_true, if_true]
      exact hsave _
    · simp only
      omega
    · simp only
      omega
    · rw [append_assoc, hout]
    · simp only [FieldState.behind, hbehind]
  | fieldLen => exact h.reads.elim
  | fieldSkip => exact h.reads.elim
  | processHeader => exact h.reads.elim
  | handleContinuation _ => exact h.reads.elim

theorem FieldHandler.Expects.feed {handler : FieldHandler}
    (h : handler.Expects s body out) {unread : Bytes} (hfuel : 1 < fuel)
    (hreads : unread ++ reads.flatten = body ++ following) :
    Resumable.feed (callField conf) fuel
      (Resumable.drain (callField conf) fuel handler s unread) reads =
      .ready .processHeader (s.behind body.length out) following := by
  induction reads generalizing s body unread with
  | nil =>
    rw [flatten_nil, append_nil] at hreads
    rw [Resumable.feed_nil, hreads, drain_processHeader hfuel (h.whole conf following)]
  | cons read reads ih =>
    rcases append_eq_append_iff.mp hreads with ⟨more, hbody, hlater⟩ | ⟨extra, hunread, hlater⟩
    · by_cases hmore : more = []
      · subst hmore
        rw [append_nil] at hbody
        rw [nil_append] at hlater
        subst hbody
        have hwhole := h.whole conf []
        rw [append_nil] at hwhole
        rw [drain_processHeader hfuel hwhole, feed_processHeader _ _ (Nat.zero_lt_of_lt hfuel),
          hlater, nil_append]
      · subst hbody
        obtain ⟨s', hcall, hexpects, hbehind⟩ := h.part conf hmore
        have hlater' : read ++ reads.flatten = more ++ following := by rw [← flatten_cons, hlater]
        have hnext := ih hexpects hlater'
        rw [Resumable.drain_save (Nat.zero_lt_of_lt hfuel) hcall, Resumable.feed_cons, ← hbehind]
        exact hnext
    · subst hunread
      rw [drain_processHeader hfuel (h.whole conf extra),
        feed_processHeader _ _ (Nat.zero_lt_of_lt hfuel), hlater]

/-! ### The length in front of it -/

/-- The form of a string: the bit in front of the length, and who reads what is behind it. -/
inductive StringForm : Byte → FieldHandler → Prop where
  | huff : StringForm 0x80 .fieldHuff
  | raw : StringForm 0 .fieldRaw

variable {flag : Byte} {handler : FieldHandler} {len : Nat}

theorem StringForm.and_intPrefix (h : StringForm flag handler) :
    flag.toNat &&& intPrefix 7 = 0 := by
  cases h with
  | huff => rfl
  | raw => rfl

set_option maxRecDepth 4000 in
theorem StringForm.bit (h : StringForm flag handler) : ∀ b : Byte, b.toNat < 128 →
    ((flag ||| b) >>> 7 ≠ 0 ↔ handler = .fieldHuff) := by
  cases h with
  | huff =>
    apply forall_byte
    decide
  | raw =>
    apply forall_byte
    decide

theorem StringForm.head (h : StringForm flag handler) (len : Nat) :
    ∃ first rest, writeInt flag (intPrefix 7) len = first :: rest ∧
      (first >>> 7 ≠ 0 ↔ handler = .fieldHuff) := by
  have hbyte : ∀ n, n < 128 → (UInt8.ofNat n).toNat < 128 := fun n hn => by
    rw [UInt8.toNat_ofNat']
    omega
  rw [writeInt]
  by_cases hsmall : len < intPrefix 7
  · rw [if_pos hsmall]
    exact ⟨_, _, rfl, h.bit _ (hbyte len (lt_trans hsmall (by decide)))⟩
  · rw [if_neg hsmall]
    exact ⟨_, _, rfl, h.bit _ (hbyte _ (by decide))⟩

/-- The header block may be read on. -/
def FieldState.Readable (s : FieldState) : Prop := ¬ (¬ s.endHeaders ∧ s.length < intOctets)

theorem stateFieldLen_writeInt (h : StringForm flag handler)
    (hstored : conf.stored = true) (hs : s.Readable)
    (hvalue : len ≤ intPrefix 7 + 2 ^ 21 - 1) (hmax : len ≤ conf.maxFieldSize)
    (hlength : (writeInt flag (intPrefix 7) len).length ≤ s.length) (more : Bytes) :
    callField conf .fieldLen s (writeInt flag (intPrefix 7) len ++ more) =
      callField conf handler { s with length := s.length - (writeInt flag (intPrefix 7) len).length,
                                      fieldRest := len, field := [] } more := by
  have hparse := parseInt_writeInt (by decide) h.and_intPrefix hvalue hlength more
  obtain ⟨first, rest, hcons, hfirst⟩ := h.head len
  have hpos : ¬ s.length < 1 := by
    rw [hcons, length_cons] at hlength
    omega
  rw [hcons, cons_append] at hparse
  rw [callField, stateFieldLen.eq_def, if_neg hs, if_neg hpos, hcons, cons_append]
  simp only [hparse, if_neg (not_lt.mpr hmax), hstored, not_true_eq_false, if_false]
  cases h with
  | huff =>
    rw [if_pos (hfirst.mpr rfl)]
    rfl
  | raw =>
    rw [if_neg fun hne => nomatch hfirst.mp hne]
    rfl

theorem stateFieldLen_take (conf : FieldConf) (h : StringForm flag handler)
    (hs : s.Readable) (hvalue : len ≤ intPrefix 7 + 2 ^ 21 - 1)
    (hlength : (writeInt flag (intPrefix 7) len).length ≤ s.length) {k : Nat}
    (hk : k < (writeInt flag (intPrefix 7) len).length) :
    callField conf .fieldLen s ((writeInt flag (intPrefix 7) len).take k) =
      .save .fieldLen s ((writeInt flag (intPrefix 7) len).take k) := by
  have hfit := (length_writeInt_le (by decide) h.and_intPrefix).mpr hvalue
  have hsave : stateSave s ((writeInt flag (intPrefix 7) len).take k) FieldHandler.fieldLen =
      .save .fieldLen s ((writeInt flag (intPrefix 7) len).take k) := by
    apply stateSave_of_le
    rw [length_take]
    exact (min_le_right _ _).trans (hfit.trans (by decide))
  have hpos : ¬ s.length < 1 := by omega
  rw [callField, stateFieldLen.eq_def, if_neg hs, if_neg hpos]
  cases k with
  | zero => exact hsave
  | succ k =>
    have hparse := parseInt_take (by decide) h.and_intPrefix hvalue hlength (Nat.succ_pos k) hk
    obtain ⟨first, rest, hcons, -⟩ := h.head len
    rw [hcons, take_succ_cons] at hparse hsave ⊢
    simp only [hparse]
    exact hsave

theorem feed_stringForm (h : StringForm flag handler) (hstored : conf.stored = true)
    (hs : s.Readable)
    (hvalue : body.length ≤ intPrefix 7 + 2 ^ 21 - 1) (hmax : body.length ≤ conf.maxFieldSize)
    (hlength : (writeInt flag (intPrefix 7) body.length ++ body).length ≤ s.length)
    (hfuel : 1 < fuel)
    (hfield : ∀ s' : FieldState, s'.fieldState = s.fieldState → s'.field = [] →
      handler.Reads s' body out)
    {kept : Bytes} (hkept : kept.length < (writeInt flag (intPrefix 7) body.length).length)
    (hreads : kept ++ reads.flatten = writeInt flag (intPrefix 7) body.length ++
      body ++ following) :
    Resumable.feed (callField conf) fuel (.ready .fieldLen s kept) reads =
      .ready .processHeader
        (s.behind (writeInt flag (intPrefix 7) body.length ++ body).length out) following := by
  rw [length_append] at hlength
  have hint : (writeInt flag (intPrefix 7) body.length).length ≤ s.length := by omega
  rw [append_assoc] at hreads
  induction reads generalizing kept with
  | nil =>
    have hlen := congrArg List.length hreads
    rw [flatten_nil, append_nil, length_append] at hlen
    omega
  | cons read reads ih =>
    rw [flatten_cons, ← append_assoc] at hreads
    rw [Resumable.feed_cons, Resumable.deliver]
    by_cases hshort : (kept ++ read).length < (writeInt flag (intPrefix 7) body.length).length
    · have hprefix : kept ++ read =
        (writeInt flag (intPrefix 7) body.length).take (kept ++ read).length := by
        have htake := congrArg (List.take (kept ++ read).length) hreads
        rwa [take_left, take_append_of_le_length hshort.le] at htake
      have hcall := stateFieldLen_take conf h hs hvalue hint hshort
      rw [← hprefix] at hcall
      rw [Resumable.drain_save (Nat.zero_lt_of_lt hfuel) hcall]
      exact ih hshort hreads
    · obtain ⟨more, hunread, hlater⟩ : ∃ more,
        kept ++ read = writeInt flag (intPrefix 7) body.length ++ more ∧
          more ++ reads.flatten = body ++ following := by
        rcases append_eq_append_iff.mp hreads with ⟨rest, hint', hrest⟩ | ⟨more, hunread, hrest⟩
        · have hlen := congrArg List.length hint'
          rw [length_append] at hlen
          obtain rfl : rest = [] := length_eq_zero_iff.mp (by omega)
          exact ⟨[], by rw [append_nil, hint', append_nil], hrest⟩
        · exact ⟨more, hunread, hrest.symm⟩
      have hexpects : handler.Expects
        { s with length := s.length - (writeInt flag (intPrefix 7) body.length).length,
                                               fieldRest := body.length, field := [] } body out :=
        ⟨rfl, by simp only; omega, hfield _ rfl rfl⟩
      have hcall := stateFieldLen_writeInt h hstored hs hvalue hmax hint more
      have hbehind : ({ s with length := s.length -
        (writeInt flag (intPrefix 7) body.length).length, fieldRest := body.length,
                               field := [] } : FieldState).behind body.length out =
          s.behind (writeInt flag (intPrefix 7) body.length ++ body).length out := by
        simp only [FieldState.behind, length_append, Nat.sub_sub]
      rw [hunread, Resumable.drain_congr hcall, hexpects.feed hfuel hlater, hbehind]

end Field

/-! ## There and back -/

theorem stringEncode_form (src : Bytes) (lower : Bool) :
    ∃ flag handler body, StringForm flag handler ∧
      stringEncode src lower = writeInt flag (intPrefix 7) body.length ++ body ∧
      body.length ≤ src.length ∧
      ∀ s : FieldState, s.fieldState = 0 → s.field = [] →
        handler.Reads s body (huffTarget lower src) := by
  rw [stringEncode]
  by_cases hpos : 0 < (huffEncode src lower).1
  · obtain ⟨hlt, hlen, k, hk, hbits⟩ := (huffEncode_spec src lower).2 hpos
    refine ⟨_, _, (huffEncode src lower).2, .huff, ?_, by
      omega, fun s hstate hfield pieces final hpieces => ?_⟩
    · simp only [gt_iff_lt, if_pos hpos, hlen]
    · rw [← hpieces] at hbits
      rw [hstate, hfield]
      exact huffDecodePieces_codes (by omega) hbits
  · have hlen := length_huffTarget lower src
    refine ⟨_, _, huffTarget lower src, .raw, ?_, hlen.le, fun s hstate hfield => ⟨hstate, ?_⟩⟩
    · rw [hlen]
      simp only [gt_iff_lt, if_neg hpos, huffTarget]
    · rw [hfield, nil_append]

/-- An integer of up to four octets is read back, of a part of it nothing is taken, and
a longer one is no value; a string is read back, however it is cut. -/
theorem header_block_round_trip :
    (∀ bits, 4 ≤ bits → bits ≤ 7 →
      ∀ (flag : Byte) (v length : Nat), flag.toNat &&& intPrefix bits = 0 →
      v ≤ intPrefix bits + 2 ^ 21 - 1 → (writeInt flag (intPrefix bits) v).length ≤ length →
      (∀ rest, parseInt (intPrefix bits) length (writeInt flag (intPrefix bits) v ++ rest) =
        ⟨.value v, length - (writeInt flag (intPrefix bits) v).length, rest⟩) ∧
      ∀ k, 0 < k → k < (writeInt flag (intPrefix bits) v).length →
        parseInt (intPrefix bits) length ((writeInt flag (intPrefix bits) v).take k) =
          ⟨.again, length, (writeInt flag (intPrefix bits) v).take k⟩) ∧
    (∀ (pre length : Nat) (first : Byte) (octets rest : Bytes) (n : Nat),
      first.toNat &&& pre = pre → Octets octets n →
      intOctets < (first :: octets).length →
      (parseInt pre length (first :: (octets ++ rest))).result = .declined ∨
        (parseInt pre length (first :: (octets ++ rest))).result = .error) ∧
    (∀ bits, 4 ≤ bits → bits ≤ 7 → ∀ (flag : Byte) (v : Nat), flag.toNat &&& intPrefix bits = 0 →
      intPrefix bits + 2 ^ 21 ≤ v →
        ∃ first octets n, writeInt flag (intPrefix bits) v = first :: octets ∧
        first.toNat &&& intPrefix bits = intPrefix bits ∧ Octets octets n ∧
          intOctets < (first :: octets).length) ∧
    ∀ (conf : FieldConf) (s : FieldState) (src : Bytes) (lower : Bool)
      (reads : List Bytes) (following : Bytes) (fuel : Nat),
      src.length ≤ maxField → src.length ≤ conf.maxFieldSize →
        conf.stored = true → s.Readable → s.fieldState = 0 →
      (stringEncode src lower).length ≤ s.length → 1 < fuel →
        reads.flatten = stringEncode src lower ++ following →
      Resumable.feed (callField conf) fuel (.ready .fieldLen s []) reads =
        .ready .processHeader
          (s.behind (stringEncode src lower).length (if lower then strlow src else src))
          following := by
  refine ⟨?_, ?_, ?_, ?_⟩
  · intro bits _ hbits flag v length hflag hv hlength
    exact ⟨parseInt_writeInt hbits hflag hv hlength, fun k hpos hk =>
      parseInt_take hbits hflag hv hlength hpos hk⟩
  · intro pre length first octets rest n hfirst hoctets hlong
    rw [parseInt_long hfirst hoctets hlong]
    dsimp only
    split
    · exact .inr rfl
    · exact .inl rfl
  · intro bits _ hbits flag v hflag hv
    have hlong : ¬ (writeInt flag (intPrefix bits) v).length ≤ intOctets :=
      (length_writeInt_le hbits hflag).not.mpr (by omega)
    rcases writeInt_cases v hbits hflag with ⟨hsmall, -⟩ | ⟨-, first, octets, heq, hfirst, rfl⟩
    · omega
    · rw [heq, not_le] at hlong
      exact ⟨first, _, _, heq, hfirst, octets_writeIntRest _, hlong⟩
  · intro conf s src lower reads following fuel hfield hmax hstored hs hstate hlength hfuel hreads
    obtain ⟨flag, handler, body, hform, hencode, hbody, hreadsBody⟩ := stringEncode_form src lower
    obtain ⟨first, rest, hcons, -⟩ := hform.head body.length
    rw [hencode] at hlength hreads ⊢
    refine feed_stringForm hform hstored hs ?_ (hbody.trans hmax) hlength hfuel ?_ ?_ hreads
    · exact hbody.trans hfield
    · intro s' hstate' hfield'
      exact hreadsBody s' (hstate'.trans hstate) hfield'
    · rw [hcons]
      exact Nat.succ_pos _

/-- An integer of two octets, one of five, and a string in two reads. -/
theorem header_block_round_trip_example :
    parseInt (intPrefix 5) 10 [0x3f, 0x00, 0x82] = ⟨.value 31, 8, [0x82]⟩ ∧
    ((parseInt (intPrefix 7) 10 [0x7f, 0x80, 0x80, 0x80, 0x00]).result = .declined ∨
      (parseInt (intPrefix 7) 10 [0x7f, 0x80, 0x80, 0x80, 0x00]).result = .error) ∧
    Resumable.feed (callField ⟨4096, true⟩) 2
      (.ready .fieldLen ⟨20, true, 0, 0, []⟩ []) [[0x02], ascii "ab" ++ [0x82]] =
      .ready .processHeader ⟨17, true, 0, 0, ascii "ab"⟩ [0x82] := by
  refine ⟨?_, ?_, ?_⟩
  · have hwrite : writeInt 0x20 (intPrefix 5) 31 = [0x3f, 0x00] := by
      rw [writeInt, if_neg (by decide), writeIntRest_small (by decide)]
      rfl
    have hparse :=
      (header_block_round_trip.1 5 (by decide) (by decide) 0x20 31 10 (by decide) (by decide)
      (by rw [hwrite]; decide)).1 [0x82]
    rw [hwrite] at hparse
    exact hparse
  · have hoctets : Octets [0x80, 0x80, 0x80, 0x00] 0 :=
      .more (by decide) (.more (by decide) (.more (by decide) (.last rfl (by decide))))
    exact header_block_round_trip.2.1
      (intPrefix 7) 10 0x7f [0x80, 0x80, 0x80, 0x00] [] 0 rfl hoctets (by decide)
  · have hencode : stringEncode (ascii "Ab") true = 0x02 :: ascii "ab" := by
      rw [stringEncode, writeInt, if_pos (by decide)]
      decide
    have hfield := header_block_round_trip.2.2.2 ⟨4096, true⟩ ⟨20, true, 0, 0, []⟩ (ascii "Ab") true
      [[0x02], ascii "ab" ++ [0x82]] [0x82] 2 (by decide) (by decide) rfl (fun h =>
        h.1 rfl) rfl (by rw [hencode]; decide) (by decide)
      (by rw [hencode]; decide)
    rw [hencode] at hfield
    exact hfield

end Nginx.Http.V2
