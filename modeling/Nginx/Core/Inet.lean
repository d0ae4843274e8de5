/-
  Core/Inet.lean --- addresses as text and blocks of addresses (`src/core/ngx_inet.c`).

  An IPv4 address is a word of 32 bits in host byte order.  A pointer into a text is what
  is left of the text there.
-/
import Nginx.Core.HttpTime

set_option autoImplicit false

namespace Nginx.Core

open Foundation Option

/-! ## IPv4 -/

/-- `INADDR_NONE` -/
def inaddrNone : BitVec 32 := 0xffffffff

/-- The loop of `ngx_inet_addr`, and what is behind it. -/
def inetAddrLoop (addr : BitVec 32) (octet n : Nat) : Bytes → BitVec 32
  | [] => if n = 3 then (addr <<< 8) + BitVec.ofNat 32 octet else inaddrNone
  | c :: p =>
    if isDecimal c then
      let octet := octet * 10 + decimalValue c
      if octet > 255 then inaddrNone else inetAddrLoop addr octet n p
    else if c = chr '.' then inetAddrLoop ((addr <<< 8) + BitVec.ofNat 32 octet) 0 (n + 1) p
    else inaddrNone

/-- `ngx_inet_addr` -/
def inetAddr (text : Bytes) : BitVec 32 := inetAddrLoop 0 0 0 text

/-! ## IPv6 -/

/-- The variables of `ngx_inet6_addr`: `addr` are the bytes written, `zero` how many they were at
`::`, and `digit` what is left behind the last colon. -/
structure Inet6State where
  addr : Bytes := []
  zero : Option Nat := none
  digit : Option Bytes := none
  n : Nat := 8
  nibbles : Nat := 0
  word : Nat := 0
  deriving DecidableEq

namespace Inet6State

/-- `*addr++ = (u_char) (word >> 8)` and `*addr++ = (u_char) (word & 0xff)`, with `n` one less -/
def put (st : Inet6State) (word : Nat) : Inet6State :=
  { st with addr := st.addr ++ [(word >>> 8).toUInt8, word.toUInt8], n := st.n - 1 }

/-- A colon. -/
def colon (st : Inet6State) (p : Bytes) : Option Inet6State :=
  if st.nibbles ≠ 0 then
    let st := { st.put st.word with digit := some p }
    if st.n ≠ 0 then some { st with nibbles := 0, word := 0 } else none
  else if st.zero = none then some { st with digit := some p, zero := some st.addr.length }
  else none

/-- A dot behind a digit. -/
def dot (st : Inet6State) : Option Inet6State :=
  if st.n < 2 then none
  else
    match st.digit with
    | none => none
    | some digit =>
      let word := inetAddr digit
      if word = inaddrNone then none else some
        { st.put (word >>> 16).toNat with word := word.toNat }

/-- A digit of a group, or what is none. -/
def nibble (st : Inet6State) (c : Byte) : Option Inet6State :=
  let st := { st with nibbles := st.nibbles + 1 }
  if st.nibbles > 4 then none
  else if isDecimal c then some { st with word := st.word * 16 + decimalValue c }
  else
    let c := c ||| 0x20
    if chr 'a' ≤ c ∧
      c ≤ chr 'f' then some { st with word := st.word * 16 + (c - chr 'a').toNat + 10 } else none

/-- The end: the last group is written, and what is behind `::` moved to the end. -/
def finish (st : Inet6State) : Option Bytes :=
  if st.nibbles = 0 ∧ st.zero = none then none
  else
    let st := st.put st.word
    match st.zero with
    | some z =>
      if st.n ≠ 0 then some
        (st.addr.take z ++ List.replicate (st.n * 2) 0 ++ st.addr.drop z) else none
    | none => if st.n ≠ 0 then none else some st.addr

end Inet6State

/-- The loop of `ngx_inet6_addr`; none is `NGX_ERROR`. -/
def inet6Loop (st : Inet6State) : Bytes → Option Inet6State
  | [] => some st
  | c :: p =>
    if c = chr ':' then (st.colon p).bind fun st => inet6Loop st p
    else if c = chr '.' ∧ st.nibbles ≠ 0 then st.dot
    else (st.nibble c).bind fun st => inet6Loop st p

/-- `ngx_inet6_addr` -/
def inet6Bytes (p : Bytes) : Option Bytes :=
  match p with
  | [] => none
  | c :: rest => (inet6Loop {} (if c = chr ':' then rest else p)).bind Inet6State.finish

attribute [local simp] inetAddrLoop inet6Loop

/-! ## The sixteen bytes -/

/-- What holds in the loop. -/
structure Inet6State.Writing (st : Inet6State) : Prop where
  length : st.addr.length + 2 * st.n = 16
  left : 1 ≤ st.n
  zero : ∀ z, st.zero = some z → z ≤ st.addr.length

variable {st st' : Inet6State} {c : Byte} {p : Bytes}

theorem Inet6State.Writing.put (h : st.Writing) (word : Nat) :
    (st.put word).addr.length + 2 * (st.put word).n = 16 ∧
      ∀ z, (st.put word).zero = some z → z ≤ (st.put word).addr.length := by
  have hlength : (st.put word).addr.length = st.addr.length + 2 := List.length_append
  have hn : (st.put word).n = st.n - 1 := rfl
  refine ⟨by have := h.length; have := h.left; omega, fun z hz => ?_⟩
  have hle := h.zero z hz
  omega

theorem Inet6State.Writing.colon (h : st.Writing) (hcolon : st.colon p = some st') :
    st'.Writing := by
  rw [Inet6State.colon] at hcolon
  split at hcolon
  · obtain ⟨hlength, hzero⟩ := h.put st.word
    simp only at hcolon
    split at hcolon
    · next hn =>
      obtain rfl := some.inj hcolon
      exact ⟨hlength, pos_of_ne_zero hn, hzero⟩
    · exact absurd hcolon.symm (some_ne_none _)
  · split at hcolon
    · obtain rfl := some.inj hcolon
      exact ⟨h.length, h.left, fun z hz => le_of_eq (some.inj hz).symm⟩
    · exact absurd hcolon.symm (some_ne_none _)

theorem Inet6State.Writing.dot (h : st.Writing) (hdot : st.dot = some st') : st'.Writing := by
  rw [Inet6State.dot] at hdot
  split at hdot
  · exact absurd hdot.symm (some_ne_none _)
  next hn =>
  split at hdot
  · exact absurd hdot.symm (some_ne_none _)
  simp only at hdot
  split at hdot
  · exact absurd hdot.symm (some_ne_none _)
  · obtain rfl := some.inj hdot
    obtain ⟨hlength, hzero⟩ := h.put _
    refine ⟨hlength, ?_, hzero⟩
    exact Nat.le_sub_of_add_le (not_lt.mp hn)

theorem Inet6State.nibble_eq (hnibble : st.nibble c = some st') :
    st'.addr = st.addr ∧ st'.n = st.n ∧ st'.zero = st.zero := by
  rw [Inet6State.nibble] at hnibble
  simp only at hnibble
  split at hnibble
  · exact absurd hnibble.symm (some_ne_none _)
  split at hnibble
  · obtain rfl := some.inj hnibble
    exact ⟨rfl, rfl, rfl⟩
  · split at hnibble
    · obtain rfl := some.inj hnibble
      exact ⟨rfl, rfl, rfl⟩
    · exact absurd hnibble.symm (some_ne_none _)

theorem Inet6State.Writing.loop (h : st.Writing) (hloop : inet6Loop st p = some st') :
    st'.Writing := by
  induction p generalizing st with
  | nil => exact some.inj hloop ▸ h
  | cons c p ih =>
    rw [inet6Loop] at hloop
    split at hloop
    · obtain ⟨st₁, hcolon, hrest⟩ := bind_eq_some_iff.mp hloop
      exact ih (h.colon hcolon) hrest
    split at hloop
    · exact h.dot hloop
    · obtain ⟨st₁, hnibble, hrest⟩ := bind_eq_some_iff.mp hloop
      obtain ⟨haddr, hn, hzero⟩ := Inet6State.nibble_eq hnibble
      exact ih ⟨haddr ▸ hn ▸ h.length, hn ▸ h.left, haddr ▸ hzero ▸ h.zero⟩ hrest

theorem inet6Bytes_length {text addr : Bytes} (h : inet6Bytes text = some addr) :
    addr.length = 16 := by
  cases text with
  | nil => exact absurd h.symm (some_ne_none _)
  | cons c rest =>
    obtain ⟨st, hloop, hfinish⟩ := bind_eq_some_iff.mp h
    have hwriting : st.Writing := Inet6State.Writing.loop ⟨rfl, by decide, by simp⟩ hloop
    obtain ⟨hlength, hzero⟩ := hwriting.put st.word
    rw [Inet6State.finish] at hfinish
    split at hfinish
    · exact absurd hfinish.symm (some_ne_none _)
    simp only at hfinish
    split at hfinish
    · next z hsome =>
      have hle := hzero z hsome
      split at hfinish
      · obtain rfl := some.inj hfinish
        simp only [List.length_append, List.length_take, List.length_replicate, List.length_drop]
        omega
      · exact absurd hfinish.symm (some_ne_none _)
    · split at hfinish
      · exact absurd hfinish.symm (some_ne_none _)
      · next hn =>
        obtain rfl := some.inj hfinish
        omega

/-! ## Socket addresses -/

/-- `struct in6_addr` -/
structure In6Addr where
  bytes : Bytes
  length_eq : bytes.length = 16
  deriving DecidableEq

/-- `ngx_inet6_addr`; none is `NGX_ERROR` -/
def inet6Addr (text : Bytes) : Option In6Addr :=
  match h : inet6Bytes text with
  | some addr => some ⟨addr, inet6Bytes_length h⟩
  | none => none

/-- `struct sockaddr` of the three families. -/
inductive SockAddr where
  | inet (addr : BitVec 32) (port : Nat)
  | inet6 (addr : In6Addr) (port : Nat)
  | unix
  deriving DecidableEq

/-- `ngx_inet_set_port` -/
def SockAddr.setPort (sa : SockAddr) (port : Nat) : SockAddr :=
  match sa with
  | inet addr _ => inet addr port
  | inet6 addr _ => inet6 addr port
  | unix => unix

/-- `ngx_parse_addr`; none is `NGX_DECLINED` -/
def parseAddr (text : Bytes) : Option SockAddr :=
  let inaddr := inetAddr text
  if inaddr ≠ inaddrNone then some (.inet inaddr 0) else (inet6Addr text).map fun inaddr6 =>
    .inet6 inaddr6 0

/-- The end of `ngx_parse_addr_port`, with the text of the address and of the port. -/
def withPort (addr port : Bytes) : Option SockAddr :=
  match atoi port with
  | none => none
  | some port => if port < 1 ∨ 65535 < port then none else (parseAddr addr).map fun sa =>
    sa.setPort port

/-- `ngx_parse_addr_port`; none is `NGX_DECLINED` -/
def parseAddrPort (text : Bytes) : Option SockAddr :=
  match parseAddr text with
  | some sa => some sa
  | none =>
    if text.head? = some (chr '[') then
      match text.dropWhile (· != chr ']') with
      | _ :: c :: p =>
        if c ≠ chr ':' then none else withPort
          ((text.drop 1).take (text.length - 2 - (p.length + 1))) p
      | _ => none
    else
      match text.dropWhile (· != chr ':') with
      | _ :: p => withPort (text.take (text.length - (p.length + 1))) p
      | [] => none

/-! ## Blocks of addresses -/

/-- `ngx_cidr_t` -/
inductive Cidr where
  | inet (addr mask : BitVec 32)
  | inet6 (addr mask : In6Addr)
  | unix
  deriving DecidableEq

/-- `IN6_IS_ADDR_V4MAPPED` -/
def In6Addr.isV4Mapped (a : In6Addr) :
    Bool := a.bytes.take 12 == List.replicate 10 0 ++ [0xff, 0xff]

/-- The last four bytes as an IPv4 address. -/
def In6Addr.inaddr (a : In6Addr) : BitVec 32 :=
  let p := a.bytes
  (BitVec.ofNat 32 (p.getD 12 0).toNat <<< 24) + (BitVec.ofNat 32 (p.getD 13 0).toNat <<< 16) +
    (BitVec.ofNat 32 (p.getD 14 0).toNat <<< 8) + BitVec.ofNat 32 (p.getD 15 0).toNat

/-- The address that is compared: one that is mapped counts as IPv4. -/
def SockAddr.family (sa : SockAddr) : SockAddr :=
  match sa with
  | inet6 a port => if a.isV4Mapped then inet a.inaddr port else inet6 a port
  | sa => sa

/-- One round of `ngx_cidr_match` -/
def Cidr.matches (cidr : Cidr) (sa : SockAddr) : Bool :=
  match cidr, sa with
  | inet addr mask, .inet inaddr _ => inaddr &&& mask == addr
  | inet6 addr mask, .inet6 inaddr6 _ =>
    List.zipWith (· &&& ·) inaddr6.bytes mask.bytes == addr.bytes
  | unix, .unix => true
  | _, _ => false

/-- `ngx_cidr_match`, whether it is `NGX_OK` -/
def cidrMatch (sa : SockAddr) (cidrs : List Cidr) :
    Bool := cidrs.any fun cidr => cidr.matches sa.family

end Nginx.Core
