/-
  Stream/SslPrereadHello.lean --- the TLS handshake message ClientHello, and what the
  parser makes of one.

  What a well-formed message is and how it is written: the fixed fields, the extensions in
  any order, no two of one type, and the fragments that the message is sent in.
  Field by field the parser goes from one context to the next (`parse_move`); behind every
  extension it is where the next one begins, with the names of those before it (`AtExt`).
-/
import Nginx.Stream.SslPrereadSafe

set_option autoImplicit false

namespace Nginx.Stream

open List Foundation Option
open Nginx.Core (Rc)

/-- A number of two bytes. -/
def u16 (n : Nat) : Bytes := [UInt8.ofNat (n / 256), UInt8.ofNat n]

/-- A number of three bytes. -/
def u24 (n : Nat) : Bytes := [UInt8.ofNat (n / 65536), UInt8.ofNat (n / 256), UInt8.ofNat n]

/-- An extension. -/
inductive Extension where
  /-- `server_name` with one host name -/
  | serverName (host : Bytes)
  /-- `application_layer_protocol_negotiation` -/
  | alpn (protocols : List Bytes)
  /-- `supported_versions` -/
  | supportedVersions (versions : Bytes)
  | other (type : Nat) (data : Bytes)
  deriving DecidableEq

/-- `extension_type` -/
def Extension.type : Extension → Nat
  | .serverName _ => 0
  | .alpn _ => 16
  | .supportedVersions _ => 43
  | .other type _ => type

/-- A list of protocol names, each behind its length. -/
def protocolBytes (protocols : List Bytes) :
    Bytes := protocols.flatMap fun name => UInt8.ofNat name.length :: name

/-- `extension_data` -/
def Extension.data : Extension → Bytes
  | .serverName host => u16 (3 + host.length) ++ 0 :: u16 host.length ++ host
  | .alpn protocols => u16 (protocolBytes protocols).length ++ protocolBytes protocols
  | .supportedVersions versions => UInt8.ofNat versions.length :: versions
  | .other _ data => data

/-- The extension as it is written. -/
def Extension.bytes (e : Extension) : Bytes := u16 e.type ++ u16 e.data.length ++ e.data

/-- What the lengths of an extension are, and that no other extension has a type with a form of its
own. -/
def Extension.WellFormed (e : Extension) : Prop :=
  e.data.length < 65536 ∧
    match e with
    | .serverName _ => True
    | .alpn protocols => protocols ≠ [] ∧ ∀ name ∈ protocols, name ≠ [] ∧ name.length < 256
    | .supportedVersions versions => versions.length < 256
    | .other type _ => type < 65536 ∧ type ≠ 0 ∧ type ≠ 16 ∧ type ≠ 43

/-- A ClientHello. -/
structure ClientHello where
  version : Bytes
  random : Bytes
  sessionId : Bytes
  cipherSuites : Bytes
  compressionMethods : Bytes
  extensions : Option (List Extension)
  deriving DecidableEq

/-- The extensions that there are. -/
def ClientHello.exts (hello : ClientHello) : List Extension := hello.extensions.getD []

/-- The extensions as they are written. -/
def ClientHello.extensionBytes (hello : ClientHello) : Bytes :=
  match hello.extensions with
  | none => []
  | some exts => u16 (exts.flatMap Extension.bytes).length ++ exts.flatMap Extension.bytes

/-- The body of the message. -/
def ClientHello.body (hello : ClientHello) : Bytes :=
  hello.version ++ hello.random ++ UInt8.ofNat hello.sessionId.length :: hello.sessionId ++
    u16 hello.cipherSuites.length ++
    hello.cipherSuites ++ UInt8.ofNat hello.compressionMethods.length :: hello.compressionMethods ++
      hello.extensionBytes

/-- The handshake message. -/
def ClientHello.bytes (hello : ClientHello) : Bytes := 1 :: u24 hello.body.length ++ hello.body

/-- What the lengths of the fields are. -/
structure ClientHello.WellFormed (hello : ClientHello) : Prop where
  version : hello.version.length = 2
  random : hello.random.length = 32
  sessionId : hello.sessionId.length < 256
  cipherSuites : hello.cipherSuites.length < 65536
  compressionMethods : hello.compressionMethods.length < 256
  extensions : (hello.exts.flatMap Extension.bytes).length < 65536
  each : ∀ e ∈ hello.exts, e.WellFormed
  distinct : hello.exts.Pairwise fun e e' => e.type ≠ e'.type

/-- The host name of an extension. -/
def Extension.host? : Extension → Option Bytes
  | .serverName host => some host
  | _ => none

/-- The protocol names of an extension, with commas between them. -/
def Extension.names? : Extension → Option Bytes
  | .alpn protocols => some ([chr ','].intercalate protocols)
  | _ => none

/-- The host name of the message; it is empty where there is none. -/
def ClientHello.serverName (hello : ClientHello) :
    Bytes := (hello.exts.findSome? Extension.host?).getD []

/-- The protocol names of the message; they are empty where there are none. -/
def ClientHello.alpnProtocols (hello : ClientHello) :
    Bytes := (hello.exts.findSome? Extension.names?).getD []

/-- A record with a fragment of a handshake message; `minor` is the second byte of its version. -/
structure HandshakeRecord where
  minor : Byte
  fragment : Bytes
  deriving DecidableEq

/-- The record as it is written. -/
def HandshakeRecord.bytes (r : HandshakeRecord) :
    Bytes := [22, 3, r.minor] ++ u16 r.fragment.length ++ r.fragment

/-- Fragments are not empty, and their length has two bytes. -/
def HandshakeRecord.WellFormed (r : HandshakeRecord) :
    Prop := r.fragment ≠ [] ∧ r.fragment.length < 65536

/-! ## Numbers -/

theorem toNat_u16 {n : Nat} (h : n < 65536) :
    (UInt8.ofNat (n / 256)).toNat * 256 + (UInt8.ofNat n).toNat = n := by
  simp only [UInt8.toNat_ofNat']
  omega

theorem toNat_u24 {n : Nat} (h : n < 16777216) :
    (UInt8.ofNat (n / 65536)).toNat * 65536 +
      ((UInt8.ofNat (n / 256)).toNat * 256 + (UInt8.ofNat n).toNat) = n := by
  simp only [UInt8.toNat_ofNat']
  omega

theorem toNat_u8 {n : Nat} (h : n < 256) : (UInt8.ofNat n).toNat = n := by
  simp only [UInt8.toNat_ofNat']
  omega

theorem take_overwrite {mem src : Bytes} {i : Nat} (h : i ≤ mem.length) :
    (overwrite mem i src).take (i + src.length) = mem.take i ++ src := by
  have hlen : (mem.take i ++ src).length = i + src.length := by
    rw [length_append, length_take_of_le h]
  rw [overwrite, take_left' hlen]

theorem overwrite_whole {mem src : Bytes} (h : mem.length = src.length) :
    overwrite mem 0 src = src := by
  rw [overwrite, take_zero, nil_append, zero_add, ← h, drop_length, append_nil]

/-! ## Fields -/

variable {ctx : PrereadCtx}

theorem parse_field (pool : Pool) (h : ctx.Waits) {w : Bytes}
    (hw : w.length = ctx.size) (rest : Bytes) :
    parseRecord pool ctx (w ++ rest) = (switch pool (ctx.taken w)).bind (resume pool rest) := by
  rw [parseRecord_eq h.fit h.left, if_neg (by rw [length_append]; omega),
    take_left' hw, drop_left' hw]

theorem parse_move (pool : Pool) {next : PrereadCtx} (h : ctx.Waits)
    {w : Bytes} (hw : w.length = ctx.size)
    (hswitch : switch pool (ctx.taken w) = .ok (.goOn next)) (hleft : next.size ≤ next.left) :
    next.Waits ∧ ∀ rest, parseRecord pool ctx (w ++ rest) = parseRecord pool next rest := by
  obtain ⟨move, hmove, hfit⟩ := switch_fit pool (fit_taken h.fit (le_of_eq hw))
  obtain rfl := Except.ok.inj (hmove.symm.trans hswitch)
  refine ⟨⟨hfit, hleft⟩, fun rest => ?_⟩
  rw [parse_field pool h hw, hswitch, Except.bind, resume, if_neg (not_lt.mpr hleft)]

/-- What the parser does behind an extension. -/
def atExt (pool : Pool) (ctx : PrereadCtx) (rest : Bytes) : Except PrereadFault (Rc × PrereadCtx) :=
  (switch pool ctx).bind (resume pool rest)

/-- The context behind an extension: what is left, and the names so far. -/
structure AtExt (ctx : PrereadCtx) (left : Nat) (host alpn : Option Bytes) : Prop where
  fit : ctx.Fit
  state : ctx.state = .ext
  left : ctx.left = left
  hostData : ctx.host = host
  hostLen : ctx.hostLen = (host.getD []).length
  alpnData : ctx.alpn.map (·.take ctx.alpnLen) = alpn

/-- What one extension comes to: a context behind it, or an allocation that has failed. -/
def Passes (pool : Pool) (ctx : PrereadCtx) (w : Bytes) (left : Nat) (host alpn : Option Bytes) :
    Prop :=
  (∃ next, AtExt next left host alpn ∧ ∀ rest, atExt pool ctx (w ++ rest) = atExt pool next rest) ∨
    (∃ next k size, pool.pnalloc k size = none ∧
      ∀ rest, atExt pool ctx (w ++ rest) = .ok (.error, next))

variable {type : Nat}

theorem extHeader_eq (htype : ctx.p16 0 = type) :
    extHeader ctx =
      if type = 0 ∧ ctx.host = none then ctx.expect .sniLen (.buf 0) 2
      else if type = 16 ∧ ctx.alpn = none then ctx.expect .alpnLen (.buf 0) 2
      else if type = 43 then ctx.expect .supverLen (.buf 0) 1
      else ctx.expect .ext .null (ctx.p16 2) := by
  have hlt : ctx.p 1 < 256 := UInt8.toNat_lt _
  have hbytes : ∀ k, k < 256 → (ctx.p 0 = 0 ∧ ctx.p 1 = k ↔ type = k) := by
    intro k hk
    rw [PrereadCtx.p16, zero_add] at htype
    omega
  unfold extHeader
  simp only [← and_assoc, hbytes 0 (by decide), hbytes 16 (by decide), hbytes 43 (by decide)]

/-- The context behind the header of an extension. -/
def behindHeader (ctx : PrereadCtx) (type len : Nat) : PrereadCtx :=
  (ctx.expect .extHeader (.buf 0) 4).taken (u16 type ++ u16 len)

theorem behindHeader_type (ctx : PrereadCtx) (h : type < 65536) (len : Nat) :
    (behindHeader ctx type len).p16 0 = type :=
  toNat_u16 h

theorem behindHeader_len (ctx : PrereadCtx) (type : Nat) {len : Nat} (h : len < 65536) :
    (behindHeader ctx type len).p16 2 = len :=
  toNat_u16 h

variable {left : Nat} {host alpn : Option Bytes}

theorem atExt_header (pool : Pool) (h : AtExt ctx (4 + left) host alpn)
    (type len : Nat)
    (hleft : (extHeader (behindHeader ctx type len)).size ≤
    (extHeader (behindHeader ctx type len)).left) :
    (extHeader (behindHeader ctx type len)).Waits ∧
      ∀ rest, atExt pool ctx (u16 type ++ u16 len ++ rest) =
        parseRecord pool (extHeader (behindHeader ctx type len)) rest := by
  have hswitch : switch pool ctx = .ok (.goOn (ctx.expect .extHeader (.buf 0) 4)) := by
    rw [switch, h.state]
    exact if_neg (by rw [h.left]; omega)
  have hle : 4 ≤ ctx.left := by
    rw [h.left]
    exact Nat.le_add_right 4 left
  have hwaits : (ctx.expect .extHeader (.buf 0) 4).Waits :=
    ⟨⟨h.fit.buf, h.fit.version, room_buf h.fit.buf .extHeader (Nat.le_refl 4),
      trivial, h.fit.unset⟩, hle⟩
  obtain ⟨hnext, hparse⟩ := parse_move pool hwaits (w := u16 type ++ u16 len) rfl rfl hleft
  refine ⟨hnext, fun rest => ?_⟩
  refine Eq.trans ?_ (hparse rest)
  rw [atExt, hswitch, Except.bind, resume]
  exact if_neg (not_lt.mpr hle)

theorem length_bytes (e : Extension) : e.bytes.length = 4 + e.data.length := by
  simp only [Extension.bytes, u16, length_append, length_cons, length_nil]

variable {pool : Pool}

theorem passes_other {data : Bytes}
    (h : AtExt ctx (4 + data.length + left) host alpn)
    (hwell : (Extension.other type data).WellFormed) :
    Passes pool ctx (Extension.other type data).bytes left host alpn := by
  obtain ⟨hlen, htype, hsni, halpn, hsupver⟩ := hwell
  change data.length < 65536 at hlen
  have heq : extHeader (behindHeader ctx type data.length) =
    (behindHeader ctx type data.length).expect .ext .null data.length := by
    rw [extHeader_eq (behindHeader_type ctx htype _), if_neg fun h =>
      hsni h.1, if_neg fun h => halpn h.1, if_neg hsupver,
      behindHeader_len ctx type hlen]
  have hleft : data.length ≤ ctx.left - 4 := by
    rw [h.left]
    omega
  rw [add_assoc] at h
  obtain ⟨hnext, hparse⟩ := atExt_header pool h type data.length (by rw [heq]; exact hleft)
  rw [heq] at hnext hparse
  refine .inl
    ⟨PrereadCtx.taken _ data, ⟨fit_taken hnext.fit (le_rfl), rfl, ?_,
    h.hostData, h.hostLen, h.alpnData⟩, fun rest => ?_⟩
  · change ctx.left - 4 - data.length = left
    rw [h.left]
    omega
  · rw [Extension.bytes, append_assoc]
    exact (hparse _).trans (parse_field pool hnext rfl rest)

theorem passes_supportedVersions {versions : Bytes}
    (h : AtExt ctx (4 + (1 + versions.length) + left) host alpn)
    (hwell : (Extension.supportedVersions versions).WellFormed) :
    Passes pool ctx (Extension.supportedVersions versions).bytes left host alpn := by
  obtain ⟨hlen, hversions⟩ := hwell
  have htype : 43 < 65536 := by decide
  generalize hn : (Extension.supportedVersions versions).data.length = n
  have heq : extHeader (behindHeader ctx 43 n) =
    (behindHeader ctx 43 n).expect .supverLen (.buf 0) 1 := by
    rw [extHeader_eq (behindHeader_type ctx htype n), if_neg (by omega),
      if_neg (by omega), if_pos rfl]
  have hleft : 1 + versions.length ≤ ctx.left - 4 := by
    rw [h.left]
    omega
  rw [add_assoc] at h
  obtain ⟨hnext, hparse⟩ := atExt_header pool h 43 n (by rw [heq]; change 1 ≤ ctx.left - 4; omega)
  rw [heq] at hnext hparse
  obtain ⟨hlast, hmove⟩ := parse_move pool hnext (w := [UInt8.ofNat versions.length]) rfl rfl (by
    change (UInt8.ofNat versions.length).toNat ≤ ctx.left - 4 - 1
    rw [toNat_u8 hversions]
    omega)
  have hsize := toNat_u8 hversions
  refine .inl ⟨PrereadCtx.taken _ versions,
    ⟨fit_taken hlast.fit (le_of_eq hsize.symm), rfl, ?_, h.hostData, h.hostLen, h.alpnData⟩,
      fun rest => ?_⟩
  · change ctx.left - 4 - 1 - versions.length = left
    rw [h.left]
    omega
  · rw [Extension.bytes, hn, append_assoc]
    exact (hparse _).trans ((hmove _).trans (parse_field pool hlast hsize.symm rest))

theorem sniHostHead_eq (pool : Pool) (htype : ctx.p 0 = 0) (hext : ctx.ext = 3 + ctx.p16 1) :
    sniHostHead pool ctx =
      .ok (match pool.pnalloc ctx.allocs (ctx.p16 1) with
        | none => .ret .error ctx
        | some data =>
          .goOn ({ ctx with ext := 0, host := some data, allocs := ctx.allocs + 1 }.expect .sniHost
            (.host 0) (ctx.p16 1))) := by
  unfold sniHostHead
  dsimp only
  rw [if_neg (not_not.mpr htype), if_neg (by omega), decrease, if_pos (by omega),
    hext, Nat.sub_self]
  rfl

theorem taken_of_buf (hdst : ctx.dst = .buf 0) (w : Bytes) :
    ctx.taken w =
      { ctx with buf := overwrite ctx.buf 0 w, dst := .buf w.length, size := ctx.size -
        w.length, left := ctx.left - w.length } := by
  unfold PrereadCtx.taken PrereadCtx.written
  rw [hdst]
  dsimp only
  rw [zero_add]

/-- What reading some bytes comes to: a context behind the extension, or an allocation that has
failed. -/
def Leads (pool : Pool) (ctx : PrereadCtx) (w : Bytes) (left : Nat) (host alpn : Option Bytes) :
    Prop :=
  (∃ next, AtExt next left host alpn ∧
    ∀ rest, parseRecord pool ctx (w ++ rest) = atExt pool next rest) ∨
    (∃ next k size, pool.pnalloc k size = none ∧
      ∀ rest, parseRecord pool ctx (w ++ rest) = .ok (.error, next))

theorem leads_hostHead (pool : Pool) {ctx : PrereadCtx} {left : Nat}
    {alpn : Option Bytes} {host : Bytes} (h : ctx.Waits)
    (hstate : ctx.state = .sniHostHead) (hdst : ctx.dst = .buf 0)
    (hsize : ctx.size = 3) (hext : ctx.ext = 3 + host.length)
    (hleft : ctx.left = 3 + host.length + left)
    (halpn : ctx.alpn.map (·.take ctx.alpnLen) = alpn) (hlen : host.length < 65536) :
    Leads pool ctx (0 :: u16 host.length ++ host) left (some host) alpn := by
  have htaken := taken_of_buf hdst (0 :: u16 host.length)
  have hfield : (0 :: u16 host.length).length = ctx.size := hsize.symm
  have hnum : (ctx.taken (0 :: u16 host.length)).p16 1 = host.length := by
    rw [htaken]
    exact toNat_u16 hlen
  have htype : (ctx.taken (0 :: u16 host.length)).p 0 = 0 := by
    rw [htaken]
    rfl
  have hmove : switch pool (ctx.taken (0 :: u16 host.length)) =
    sniHostHead pool (ctx.taken (0 :: u16 host.length)) := by
    rw [switch, state_taken, hstate]
  rw [sniHostHead_eq pool htype (by rw [hnum, htaken]; exact hext), hnum] at hmove
  cases halloc : pool.pnalloc (ctx.taken (0 :: u16 host.length)).allocs host.length with
  | none =>
    rw [halloc] at hmove
    refine .inr ⟨ctx.taken (0 :: u16 host.length), _, _, halloc, fun rest => ?_⟩
    rw [append_assoc, parse_field pool h hfield, hmove]
    rfl
  | some data =>
    rw [halloc] at hmove
    have hdata := pool.length_pnalloc _ _ _ halloc
    have hfit : host.length ≤ (ctx.taken (0 :: u16 host.length)).left := by
      change host.length ≤ ctx.left - 3
      omega
    obtain ⟨hname, hparse⟩ := parse_move pool h hfield hmove hfit
    obtain ⟨hbehind, hlast⟩ := parse_move pool hname (w := host) rfl rfl (Nat.zero_le _)
    refine .inl
      ⟨PrereadCtx.taken _ [], ⟨fit_taken hbehind.fit (Nat.zero_le _), rfl, ?_, ?_, ?_, ?_⟩,
      fun rest => ?_⟩
    · change ctx.left - 3 - host.length = left
      omega
    · exact congrArg some (overwrite_whole hdata)
    · exact hnum
    · rw [htaken]
      exact halpn
    · rw [append_assoc, hparse, hlast]
      exact parse_field pool hbehind (w := []) rfl rest

theorem passes_serverName {host : Bytes}
    (h : AtExt ctx (4 + (5 + host.length) + left) none alpn)
    (hwell : (Extension.serverName host).WellFormed) :
    Passes pool ctx (Extension.serverName host).bytes left (some host) alpn := by
  obtain ⟨hlen, -⟩ := hwell
  have hdata : (Extension.serverName host).data = u16 (3 + host.length) ++
    (0 :: u16 host.length ++ host) := rfl
  have hlength : (Extension.serverName host).data.length = 5 + host.length := by
    simp only [hdata, u16, length_append, length_cons, length_nil]
    omega
  rw [hlength] at hlen
  have heq : extHeader (behindHeader ctx 0 (5 + host.length)) =
    (behindHeader ctx 0 (5 + host.length)).expect .sniLen (.buf 0) 2 := by
    rw [extHeader_eq (behindHeader_type ctx (by decide) _)]
    exact if_pos ⟨rfl, h.hostData⟩
  have hleft : ctx.left = 4 + (5 + host.length) + left := h.left
  rw [add_assoc] at h
  obtain ⟨h₁, hparse₁⟩ :=
    atExt_header pool h 0 (5 + host.length) (by rw [heq]; change 2 ≤ ctx.left - 4; omega)
  rw [heq] at h₁ hparse₁
  obtain ⟨h₂, hparse₂⟩ :=
    parse_move pool h₁ (w := u16 (3 + host.length)) rfl rfl (by change 3 ≤ ctx.left - 4 - 2; omega)
  have hbytes : ∀ rest, (Extension.serverName host).bytes ++ rest =
      u16 0 ++ u16 (5 + host.length) ++
        (u16 (3 + host.length) ++ ((0 :: u16 host.length ++ host) ++ rest)) := by
    intro rest
    rw [Extension.bytes, hlength, hdata]
    simp only [append_assoc]
    rfl
  have hend : ctx.left - 4 - 2 = 3 + host.length + left := by omega
  rcases @leads_hostHead pool _ left _ host h₂ rfl rfl rfl
    (toNat_u16 (by omega)) hend h.alpnData (by omega) with
    ⟨next, hnext, hparse⟩ | ⟨next, k, size, halloc, hparse⟩
  · exact .inl ⟨next, hnext, fun rest => by rw [hbytes, hparse₁, hparse₂, hparse]⟩
  · exact .inr ⟨next, k, size, halloc, fun rest => by rw [hbytes, hparse₁, hparse₂, hparse]⟩

theorem alpnProtoLen_eq (hne : ctx.p 0 ≠ 0) (hext : 1 + ctx.p 0 ≤ ctx.ext) :
    alpnProtoLen ctx =
      .ok (.goOn ({ ctx with ext := ctx.ext - (1 + ctx.p 0) }.expect .alpnProtoData
      (.alpn ctx.alpnLen) (ctx.p 0))) := by
  unfold alpnProtoLen
  dsimp only
  rw [if_neg hne, if_neg (not_lt.mpr hext), decrease, if_pos hext]
  rfl

/-- The context behind a name, which stands at the end of those before it. -/
structure Named (ctx : PrereadCtx) (before name : Bytes) (next : PrereadCtx) (data : Bytes) :
    Prop where
  fit : next.Fit
  state : next.state = .alpnProtoData
  len : next.p 0 = name.length
  ext : next.ext = ctx.ext - (1 + name.length)
  left : next.left = ctx.left - (1 + name.length)
  host : next.host = ctx.host
  hostLen : next.hostLen = ctx.hostLen
  alpn : next.alpn = some data
  alpnLen : next.alpnLen = before.length
  names : data.take (before.length + name.length) = before ++ name

theorem parse_protocol (pool : Pool) {name : Bytes} (hne : name ≠ [])
    (hshort : name.length < 256) {data before : Bytes}
    (h : ctx.Waits) (hstate : ctx.state = .alpnProtoLen) (hdst : ctx.dst = .buf 0)
    (hsize : ctx.size = 1)
    (hext : 1 + name.length ≤ ctx.ext) (hleft : 1 + name.length ≤ ctx.left)
    (hdata : ctx.alpn = some data)
    (hlen : ctx.alpnLen = before.length) (hbefore : data.take before.length = before) :
    ∃ next data', Named ctx before name next data' ∧
      ∀ rest, parseRecord pool ctx (UInt8.ofNat name.length :: name ++ rest) =
        (switch pool next).bind (resume pool rest) := by
  have hfield : [UInt8.ofNat name.length].length = ctx.size := hsize.symm
  have htaken := taken_of_buf hdst [UInt8.ofNat name.length]
  have hnum : (ctx.taken [UInt8.ofNat name.length]).p 0 = name.length := by
    rw [htaken]
    exact toNat_u8 hshort
  have hpos : 0 < name.length := length_pos_of_ne_nil hne
  have hmove : switch pool (ctx.taken [UInt8.ofNat name.length]) =
    alpnProtoLen (ctx.taken [UInt8.ofNat name.length]) := by
    rw [switch, state_taken, hstate]
  have hext' : (ctx.taken [UInt8.ofNat name.length]).ext = ctx.ext := by rw [htaken]
  rw [alpnProtoLen_eq (by omega) (by rw [hnum, hext']; exact hext), hnum] at hmove
  obtain ⟨hnext, hparse⟩ :=
    parse_move pool h hfield hmove (by change name.length ≤ ctx.left - 1; omega)
  have hroom := h.fit.names
  rw [PrereadCtx.NamesFit, hstate] at hroom
  dsimp only at hroom
  rw [hlen, hdata, getD_some] at hroom
  refine ⟨PrereadCtx.taken _ name, overwrite data before.length name,
    ⟨fit_taken hnext.fit (le_rfl), rfl, hnum, ?_, ?_, ?_, ?_, ?_, ?_, ?_⟩, fun rest => ?_⟩
  · change (ctx.taken _).ext - _ = _
    rw [hext']
  · change ctx.left - 1 - name.length = _
    omega
  · change (ctx.taken _).host = _
    rw [htaken]
  · change (ctx.taken _).hostLen = _
    rw [htaken]
  · change some (overwrite ((ctx.taken _).alpn.getD []) (ctx.taken _).alpnLen name) = _
    rw [htaken]
    dsimp only
    rw [hdata, hlen, getD_some]
  · change (ctx.taken _).alpnLen = _
    rw [htaken]
    exact hlen
  · rw [take_overwrite (by omega), hbefore]
  · have happ : UInt8.ofNat name.length :: name ++ rest = [UInt8.ofNat name.length] ++
      (name ++ rest) := rfl
    rw [happ, hparse]
    exact parse_field pool hnext rfl rest

theorem leads_protocols (pool : Pool) {name : Bytes} {names : List Bytes}
    (hnames : ∀ n ∈ name :: names, n ≠ [] ∧ n.length < 256)
    {ctx : PrereadCtx} {left : Nat} (data before : Bytes) (h : ctx.Waits)
    (hstate : ctx.state = .alpnProtoLen)
    (hdst : ctx.dst = .buf 0) (hsize : ctx.size = 1)
    (hext : ctx.ext = (protocolBytes (name :: names)).length)
    (hleft : ctx.left = (protocolBytes (name :: names)).length + left)
    (hhostLen : ctx.hostLen = (ctx.host.getD []).length)
    (hdata : ctx.alpn = some data) (hlen : ctx.alpnLen = before.length)
    (hbefore : data.take before.length = before) :
    ∃ next, AtExt next left ctx.host (some (before ++ [chr ','].intercalate (name :: names))) ∧
      ∀ rest, parseRecord pool ctx (protocolBytes (name :: names) ++ rest) =
        atExt pool next rest := by
  induction names generalizing name ctx data before with
  | nil =>
    obtain ⟨hne, hshort⟩ := hnames name mem_cons_self
    have hbytes : protocolBytes [name] = UInt8.ofNat name.length :: name := append_nil _
    rw [hbytes, length_cons] at hext hleft
    obtain ⟨next, data', hnext, hparse⟩ :=
      parse_protocol pool hne hshort h hstate hdst hsize (by omega) (by omega) hdata hlen hbefore
    -- the last name: the list ends behind it
    have hzero : next.ext = 0 := by
      rw [hnext.ext, hext]
      omega
    have hmove : switch pool next =
      .ok (.goOn ({ next with alpnLen := next.alpnLen + next.p 0 }.expect .ext .null 0)) := by
      rw [switch, hnext.state]
      exact if_neg (not_not.mpr hzero)
    obtain ⟨move, hok, hfit⟩ := switch_fit pool hnext.fit
    obtain rfl := Except.ok.inj (hok.symm.trans hmove)
    refine ⟨PrereadCtx.taken _ [], ⟨fit_taken hfit (Nat.zero_le _), rfl, ?_, hnext.host, ?_, ?_⟩,
      fun rest => ?_⟩
    · change next.left = left
      rw [hnext.left, hleft]
      omega
    · change next.hostLen = _
      rw [hnext.hostLen, hhostLen]
    · change next.alpn.map (·.take (next.alpnLen + next.p 0)) = _
      rw [hnext.alpn, hnext.alpnLen, hnext.len, map_some, hnext.names, intercalate_singleton]
    · rw [hbytes, hparse, hmove, Except.bind, resume]
      exact (if_neg (Nat.not_lt_zero _)).trans
        (parse_field pool ⟨hfit, Nat.zero_le _⟩ (w := []) rfl rest)
  | cons name' names ih =>
    obtain ⟨hne, hshort⟩ := hnames name mem_cons_self
    have hbytes : protocolBytes (name :: name' :: names) =
      UInt8.ofNat name.length :: name ++ protocolBytes (name' :: names) := rfl
    have hpos : 0 < (protocolBytes (name' :: names)).length := Nat.succ_pos _
    rw [hbytes, length_append, length_cons] at hext hleft
    obtain ⟨next, data', hnext, hparse⟩ :=
      parse_protocol pool hne hshort h hstate hdst hsize (by omega) (by omega) hdata hlen hbefore
    -- a comma is written behind the name
    have hmore : next.ext ≠ 0 := by
      rw [hnext.ext, hext]
      omega
    have hroom := hnext.fit.names
    rw [PrereadCtx.NamesFit, hnext.state] at hroom
    have hfits : next.alpnLen + next.p 0 + [chr ','].length ≤ (next.alpn.getD []).length := by
      have hle := hroom.1
      rw [length_singleton]
      omega
    have hmove : switch pool next = .ok (.goOn ({ next with
        alpn := some (overwrite (next.alpn.getD []) (next.alpnLen + next.p 0) [chr ','])
        alpnLen := next.alpnLen + next.p 0 + 1 }.expect .alpnProtoLen (.buf 0) 1)) := by
      rw [switch, hnext.state]
      dsimp only
      unfold alpnProtoData write
      dsimp only
      rw [if_pos hmore, if_pos hfits]
      rfl
    obtain ⟨move, hok, hfit⟩ := switch_fit pool hnext.fit
    obtain rfl := Except.ok.inj (hok.symm.trans hmove)
    have hleft' : next.left = (protocolBytes (name' :: names)).length + left := by
      rw [hnext.left, hleft]
      omega
    have hwaits := PrereadCtx.Waits.mk hfit (by change 1 ≤ next.left; omega)
    have hlong : before.length + name.length ≤ data'.length := by
      rw [hnext.alpn, hnext.alpnLen, hnext.len, getD_some] at hfits
      omega
    obtain ⟨last, hlast, hrest⟩ := @ih name' (fun n hn => hnames n (mem_cons_of_mem _ hn)) _
      (overwrite data' (before.length + name.length) [chr ','])
        (before ++ name ++ [chr ',']) hwaits rfl rfl rfl (by
        change next.ext = _
        rw [hnext.ext, hext]
        omega) hleft' (by
        change next.hostLen = (next.host.getD []).length
        rw [hnext.hostLen, hnext.host, hhostLen]) (by
        change some (overwrite (next.alpn.getD []) (next.alpnLen + next.p 0) [chr ',']) = _
        rw [hnext.alpn, hnext.alpnLen, hnext.len, getD_some]) (by
        change next.alpnLen + next.p 0 + 1 = _
        rw [hnext.alpnLen, hnext.len, length_append, length_append]
        rfl) (by
        have hcomma := @take_overwrite data' [chr ','] (before.length + name.length) hlong
        rw [hnext.names] at hcomma
        rw [length_append, length_append]
        exact hcomma)
    refine ⟨last, ?_, fun rest => ?_⟩
    · rw [intercalate_cons_cons, ← append_assoc, ← append_assoc]
      exact hnext.host ▸ hlast
    · rw [hbytes, append_assoc, hparse, hmove, Except.bind, resume]
      exact (if_neg (not_lt.mpr hwaits.left)).trans (hrest rest)

theorem passes_alpn {protocols : List Bytes}
    (h : AtExt ctx (4 + (2 + (protocolBytes protocols).length) + left) host none)
    (hwell : (Extension.alpn protocols).WellFormed) :
    Passes pool ctx (Extension.alpn protocols).bytes left host
      (some ([chr ','].intercalate protocols)) := by
  obtain ⟨hlen, hne, hnames⟩ := hwell
  obtain ⟨name, names, rfl⟩ := exists_cons_of_ne_nil hne
  generalize hlist : (protocolBytes (name :: names)).length = n at h
  have hdata : (Extension.alpn (name :: names)).data = u16 n ++ protocolBytes (name :: names) := by
    rw [← hlist]; rfl
  have hlength : (Extension.alpn (name :: names)).data.length = 2 + n := by
    rw [hdata, length_append, hlist]
    rfl
  rw [hlength] at hlen
  have hnum := toNat_u16 (n := n) (by omega)
  have hnone : ctx.alpn = none := map_eq_none_iff.mp h.alpnData
  have heq : extHeader (behindHeader ctx 16 (2 + n)) =
    (behindHeader ctx 16 (2 + n)).expect .alpnLen (.buf 0) 2 := by
    rw [extHeader_eq (behindHeader_type ctx (by decide) _), if_neg (by omega)]
    exact if_pos ⟨rfl, hnone⟩
  have hleft : ctx.left = 4 + (2 + n) + left := h.left
  rw [add_assoc] at h
  obtain ⟨h₁, hparse₁⟩ :=
    atExt_header pool h 16 (2 + n) (by rw [heq]; change 2 ≤ ctx.left - 4; omega)
  rw [heq] at h₁ hparse₁
  have hbytes : ∀ rest, (Extension.alpn (name :: names)).bytes ++ rest =
      u16 16 ++ u16 (2 + n) ++ (u16 n ++ (protocolBytes (name :: names) ++ rest)) := by
    intro rest
    rw [Extension.bytes, hlength, hdata]
    simp only [append_assoc]
    rfl
  generalize hhead : (behindHeader ctx 16 (2 + n)).expect .alpnLen (.buf 0) 2 = head at h₁ hparse₁
  have hsize : (head.taken (u16 n)).p16 0 = n := by
    rw [← hhead]
    exact hnum
  have hmove : switch pool (head.taken (u16 n)) = .ok (alpnLen pool (head.taken (u16 n))) := by
    rw [switch, state_taken, ← hhead]
    rfl
  have hfield : (u16 n).length = head.size := by
    rw [← hhead]
    rfl
  have hrest : head.left = 2 + n + left := by
    rw [← hhead]
    change ctx.left - 4 = _
    omega
  unfold alpnLen at hmove
  rw [hsize] at hmove
  cases halloc : pool.pnalloc (head.taken (u16 n)).allocs n with
  | none =>
    rw [halloc] at hmove
    refine .inr ⟨head.taken (u16 n), _, _, halloc, fun rest => ?_⟩
    rw [hbytes, hparse₁, parse_field pool h₁ hfield, hmove]
    rfl
  | some data =>
    rw [halloc] at hmove
    have hleft' : (head.taken (u16 n)).left = n + left := by
      change head.left - 2 = _
      omega
    have hpos : 0 < (protocolBytes (name :: names)).length := Nat.succ_pos _
    obtain ⟨h₂, hparse₂⟩ :=
      parse_move pool h₁ hfield hmove (by change 1 ≤ (head.taken (u16 n)).left; omega)
    have hzero : (head.taken (u16 n)).alpnLen = 0 := by
      rw [← hhead]
      exact h.fit.unset hnone
    have hhost : (head.taken (u16 n)).host = host := by
      rw [← hhead]
      exact h.hostData
    have hhostLen : (head.taken (u16 n)).hostLen = ((head.taken (u16 n)).host.getD []).length := by
      rw [hhost, ← hhead]
      exact h.hostLen
    obtain ⟨next, hnext, hlast⟩ := leads_protocols pool hnames data [] h₂ rfl rfl rfl hlist.symm
      (hlist.symm ▸ hleft') hhostLen rfl hzero rfl
    refine .inl ⟨next, ?_, fun rest => by rw [hbytes, hparse₁, hparse₂, hlast]⟩
    rw [nil_append] at hnext
    exact hhost ▸ hnext

/-! ## All extensions -/

variable {e : Extension}

theorem passes_extension (pool : Pool)
    (h : AtExt ctx (e.bytes.length + left) host alpn) (hwell : e.WellFormed)
    (hhost : e.type = 0 → host = none)
    (halpn : e.type = 16 → alpn = none) :
    Passes pool ctx e.bytes left (host.or e.host?) (alpn.or e.names?) := by
  rw [length_bytes] at h
  cases e with
  | serverName name =>
    obtain rfl := hhost rfl
    have hlen : (Extension.serverName name).data.length = 5 + name.length := by
      simp only [Extension.data, u16, length_append, length_cons, length_nil]
    rw [hlen] at h
    change Passes pool ctx _ left (some name) (alpn.or none)
    rw [or_none]
    exact passes_serverName h hwell
  | alpn protocols =>
    obtain rfl := halpn rfl
    have hlen : (Extension.alpn protocols).data.length = 2 + (protocolBytes protocols).length := by
      simp only [Extension.data, u16, length_append, length_cons, length_nil]
    rw [hlen] at h
    change Passes pool ctx _ left (host.or none) (some _)
    rw [or_none]
    exact passes_alpn h hwell
  | supportedVersions versions =>
    have hlen : (Extension.supportedVersions versions).data.length = 1 + versions.length := by
      simp only [Extension.data, length_cons]
      omega
    rw [hlen] at h
    change Passes pool ctx _ left (host.or none) (alpn.or none)
    rw [or_none, or_none]
    exact passes_supportedVersions h hwell
  | other type data =>
    change Passes pool ctx _ left (host.or none) (alpn.or none)
    rw [or_none, or_none]
    exact passes_other h hwell

theorem atExt_end (h : AtExt ctx 0 host alpn) (rest : Bytes) :
    atExt pool ctx rest = .ok (.ok, ctx) := by
  rw [atExt, switch, h.state]
  dsimp only
  rw [if_pos h.left]
  rfl

theorem host?_of_type (h : e.type ≠ 0) : e.host? = none := by
  cases e with
  | serverName host => exact absurd rfl h
  | _ => rfl

theorem names?_of_type (h : e.type ≠ 16) : e.names? = none := by
  cases e with
  | alpn protocols => exact absurd rfl h
  | _ => rfl

theorem or_findSome?_cons (f : Extension → Option Bytes) (first : Option Bytes)
    (e : Extension) (exts : List Extension) :
    (first.or (f e)).or (exts.findSome? f) = first.or ((e :: exts).findSome? f) := by
  rw [Option.or_assoc, findSome?_cons]
  cases f e <;> rfl

theorem parse_extensions (pool : Pool) {exts : List Extension} (hwell : ∀ e ∈ exts, e.WellFormed)
    (hdistinct : exts.Pairwise fun e e' => e.type ≠ e'.type)
    (h : AtExt ctx (exts.flatMap Extension.bytes).length host alpn)
    (hhost : ∀ e ∈ exts, e.type = 0 → host = none)
    (halpn : ∀ e ∈ exts, e.type = 16 → alpn = none) (rest : Bytes) :
    (∃ next,
      AtExt next 0 (host.or (exts.findSome? Extension.host?))
      (alpn.or (exts.findSome? Extension.names?)) ∧
        atExt pool ctx (exts.flatMap Extension.bytes ++ rest) = .ok (.ok, next)) ∨
      ∃ next k size, pool.pnalloc k size = none ∧
        atExt pool ctx (exts.flatMap Extension.bytes ++ rest) = .ok (.error, next) := by
  induction exts generalizing ctx host alpn with
  | nil =>
    rw [findSome?_nil, findSome?_nil, or_none, or_none]
    exact .inl ⟨ctx, h, atExt_end h _⟩
  | cons e exts ih =>
    obtain ⟨hne, hdistinct⟩ := pairwise_cons.mp hdistinct
    rw [flatMap_cons, length_append] at h
    rcases passes_extension pool h (hwell e mem_cons_self) (hhost e mem_cons_self)
      (halpn e mem_cons_self) with
      ⟨next, hnext, hparse⟩ | ⟨next, k, size, halloc, hparse⟩
    · rw [flatMap_cons, append_assoc, hparse, ← or_findSome?_cons, ← or_findSome?_cons]
      refine ih (fun e' he' => hwell e' (mem_cons_of_mem _ he')) hdistinct hnext
        (fun e' he' htype => ?_) fun e' he' htype => ?_
      · rw [hhost e' (mem_cons_of_mem _ he') htype, none_or]
        exact host?_of_type fun hzero => hne e' he' (hzero.trans htype.symm)
      · rw [halpn e' (mem_cons_of_mem _ he') htype, none_or]
        exact names?_of_type fun hsame => hne e' he' (hsame.trans htype.symm)
    · exact .inr ⟨next, k, size, halloc, by rw [flatMap_cons, append_assoc]; exact hparse _⟩

/-! ## The message -/

/-- The result of a call: the names of the message, or an allocation that has failed. -/
def ClientHello.Result (hello : ClientHello) (pool : Pool) (rc : Rc) (ctx : PrereadCtx) : Prop :=
  (rc = .ok ∧ ctx.hostName = hello.serverName ∧ ctx.alpnNames = hello.alpnProtocols) ∨
    (rc = .error ∧ ∃ k size, pool.pnalloc k size = none)

theorem hostName_of_atExt (h : AtExt ctx left host alpn) :
    ctx.hostName = host.getD [] := by
  rw [PrereadCtx.hostName, h.hostData, h.hostLen, take_length]

theorem alpnNames_of_atExt (h : AtExt ctx left host alpn) :
    ctx.alpnNames = alpn.getD [] := by
  rw [PrereadCtx.alpnNames, ← h.alpnData]
  cases ctx.alpn with
  | none => exact take_nil
  | some data => rfl

variable {hello : ClientHello}

theorem length_body (h : hello.WellFormed) :
    hello.body.length =
      38 + hello.sessionId.length + hello.cipherSuites.length + hello.compressionMethods.length +
      hello.extensionBytes.length := by
  have hversion := h.version
  have hrandom := h.random
  simp only [ClientHello.body, u16, length_append, length_cons, length_nil]
  omega

theorem length_extensionBytes (h : hello.WellFormed) : hello.extensionBytes.length < 65538 := by
  have hlen := h.extensions
  unfold ClientHello.exts at hlen
  unfold ClientHello.extensionBytes
  cases hexts : hello.extensions with
  | none => exact Nat.succ_pos _
  | some exts =>
    rw [hexts] at hlen
    simp only [u16, length_append, length_cons, length_nil]
    change (exts.flatMap Extension.bytes).length < 65536 at hlen
    omega

theorem switch_header (pool : Pool) (hstate : ctx.state = .header) (htype : ctx.p 0 = 1) :
    switch pool ctx =
      .ok (.goOn
      ({ ctx with left := ctx.p 1 * 65536 + ctx.p16 2 }.expect .version (.version 0) 2)) := by
  rw [switch, hstate]
  exact if_neg (not_not.mpr htype)

/-- The context in front of the body. -/
def bodyCtx (left : Nat) (buf : Bytes) :
    PrereadCtx := { PrereadCtx.zeroed with buf := buf, left := left }.expect .version (.version 0) 2

theorem parse_type (pool : Pool) (h : hello.WellFormed) :
    ∃ buf, (bodyCtx hello.body.length buf).Waits ∧
      ∀ rest, parseRecord pool .zeroed (1 :: u24 hello.body.length ++ rest) =
        parseRecord pool (bodyCtx hello.body.length buf) rest := by
  have hlen := length_body h
  have hexts := length_extensionBytes h
  have hsid := h.sessionId
  have hcs := h.cipherSuites
  have hcm := h.compressionMethods
  have hnum := toNat_u24 (n := hello.body.length) (by omega)
  generalize hello.body.length = n at *
  obtain ⟨h₁, hparse₁⟩ := parse_move pool waits_zeroed (w := []) rfl rfl (Nat.le_refl 4)
  have hmove : switch pool
    ((PrereadCtx.expect { PrereadCtx.zeroed.taken [] with left := 4 } .header (.buf 0) 4).taken
    (1 :: u24 n)) =
      .ok (.goOn (bodyCtx n (1 :: u24 n))) :=
    (switch_header pool rfl rfl).trans
      (congrArg (fun left => Except.ok (Move.goOn (bodyCtx left (1 :: u24 n)))) hnum)
  obtain ⟨h₂, hparse₂⟩ := parse_move pool h₁ rfl hmove (by change 2 ≤ n; omega)
  exact ⟨_, h₂, fun rest => (hparse₁ _).trans (hparse₂ rest)⟩

theorem parse_head (pool : Pool) (h : hello.WellFormed) :
    ∃ ctx, ctx.Fit ∧ ctx.state = .cm ∧ ctx.left = hello.extensionBytes.length ∧
      ctx.host = none ∧ ctx.hostLen = 0 ∧ ctx.alpn = none ∧
      ∀ rest, parseRecord pool .zeroed
        (hello.bytes ++ rest) =
        (switch pool ctx).bind (resume pool (hello.extensionBytes ++ rest)) := by
  have hlen := length_body h
  have hbytes : ∀ rest,
    hello.bytes ++ rest = 1 :: u24 hello.body.length ++ (hello.version ++ (hello.random ++
      ([UInt8.ofNat hello.sessionId.length] ++
        (hello.sessionId ++ (u16 hello.cipherSuites.length ++ (hello.cipherSuites ++
      ([UInt8.ofNat hello.compressionMethods.length] ++
        (hello.compressionMethods ++ (hello.extensionBytes ++ rest))))))))) := by
    intro rest
    simp only [ClientHello.bytes, ClientHello.body, append_assoc, cons_append, nil_append]
  obtain ⟨buf, h₀, hparse₀⟩ := parse_type pool h
  generalize hello.body.length = n at *
  have hsid := toNat_u8 h.sessionId
  have hcs := toNat_u16 h.cipherSuites
  have hcm := toNat_u8 h.compressionMethods
  have hversion := h.version
  have hrandom := h.random
  -- the sizes of the fields, as the parser reads them
  have hleft : n - hello.version.length - hello.random.length - 1 -
    hello.sessionId.length - 2 - hello.cipherSuites.length - 1 -
      hello.compressionMethods.length = hello.extensionBytes.length := by omega
  obtain ⟨h₁, hparse₁⟩ :=
    parse_move pool h₀ (w := hello.version) hversion rfl
      (by change 32 ≤ n - hello.version.length; omega)
  obtain ⟨h₂, hparse₂⟩ := parse_move pool h₁ (w := hello.random) hrandom rfl (by
    change 1 ≤ n - hello.version.length - hello.random.length
    omega)
  obtain ⟨h₃, hparse₃⟩ := parse_move pool h₂ (w := [UInt8.ofNat hello.sessionId.length]) rfl rfl (by
    change (UInt8.ofNat hello.sessionId.length).toNat ≤
      n - hello.version.length - hello.random.length - 1
    omega)
  obtain ⟨h₄, hparse₄⟩ := parse_move pool h₃ (w := hello.sessionId) hsid.symm rfl (by
    change 2 ≤ n - hello.version.length - hello.random.length - 1 - hello.sessionId.length
    omega)
  obtain ⟨h₅, hparse₅⟩ := parse_move pool h₄ (w := u16 hello.cipherSuites.length) rfl rfl (by
    change (UInt8.ofNat (hello.cipherSuites.length / 256)).toNat * 256 +
      (UInt8.ofNat hello.cipherSuites.length).toNat ≤
      n - hello.version.length - hello.random.length - 1 - hello.sessionId.length - 2
    omega)
  obtain ⟨h₆, hparse₆⟩ := parse_move pool h₅ (w := hello.cipherSuites) hcs.symm rfl (by
    change 1 ≤
      n - hello.version.length - hello.random.length - 1 - hello.sessionId.length -
      2 - hello.cipherSuites.length
    omega)
  obtain ⟨h₇, hparse₇⟩ :=
    parse_move pool h₆ (w := [UInt8.ofNat hello.compressionMethods.length]) rfl rfl (by
    change (UInt8.ofNat hello.compressionMethods.length).toNat ≤
      n - hello.version.length - hello.random.length - 1 - hello.sessionId.length -
        2 - hello.cipherSuites.length - 1
    omega)
  refine ⟨PrereadCtx.taken _ hello.compressionMethods,
    fit_taken h₇.fit (le_of_eq hcm.symm), rfl, hleft, rfl, rfl, rfl, fun rest => ?_⟩
  rw [hbytes, hparse₀, hparse₁, hparse₂, hparse₃, hparse₄, hparse₅, hparse₆, hparse₇]
  exact parse_field pool h₇ hcm.symm _

/-- A client hello in one record, cut nowhere. -/
theorem parse_hello (pool : Pool) (h : hello.WellFormed) :
    ∃ rc ctx, parseRecord pool .zeroed hello.bytes = .ok (rc, ctx) ∧ hello.Result pool rc ctx := by
  obtain ⟨ctx, hfit, hstate, hleft, hhost, hhostLen, halpn, hparse⟩ := parse_head pool h
  have hbytes := hparse []
  rw [append_nil, append_nil] at hbytes
  have hexts := h.extensions
  have heach := h.each
  have hdistinct := h.distinct
  unfold ClientHello.exts at hexts heach hdistinct
  unfold ClientHello.extensionBytes at hleft hbytes
  cases hsome : hello.extensions with
  | none =>
    rw [hsome] at hleft hbytes
    have hend : switch pool ctx = .ok (.ret .ok ctx) := by
      rw [switch, hstate]
      exact if_pos hleft
    refine ⟨.ok, ctx, by rw [hbytes, hend]; rfl, .inl ⟨rfl, ?_, ?_⟩⟩
    · rw [PrereadCtx.hostName, hhost, ClientHello.serverName, ClientHello.exts, hsome]
      exact take_nil
    · rw [PrereadCtx.alpnNames, halpn, ClientHello.alpnProtocols, ClientHello.exts, hsome]
      exact take_nil
  | some exts =>
    rw [hsome] at hleft hbytes hexts heach hdistinct
    change (exts.flatMap Extension.bytes).length < 65536 at hexts
    have hlen : ctx.left = 2 + (exts.flatMap Extension.bytes).length := hleft.trans length_append
    have hmove : switch pool ctx = .ok (.goOn (ctx.expect .ext (.buf 0) 2)) := by
      rw [switch, hstate]
      exact if_neg (by omega)
    have hwaits : (ctx.expect .ext (.buf 0) 2).Waits :=
      ⟨⟨hfit.buf, hfit.version, room_buf hfit.buf .ext (by decide), trivial, hfit.unset⟩, by
        change 2 ≤ ctx.left; omega⟩
    have hat : AtExt
      ((ctx.expect .ext (.buf 0) 2).taken (u16 (exts.flatMap Extension.bytes).length))
        (exts.flatMap Extension.bytes).length none none := by
      refine ⟨fit_taken hwaits.fit (Nat.le_refl 2), rfl, ?_, hhost, hhostLen, ?_⟩
      · change ctx.left - 2 = _
        omega
      · change ctx.alpn.map _ = none
        rw [halpn]
        rfl
    have hstart : parseRecord pool .zeroed hello.bytes =
        atExt pool ((ctx.expect .ext (.buf 0) 2).taken (u16 (exts.flatMap Extension.bytes).length))
          (exts.flatMap Extension.bytes ++ []) := by
      rw [hbytes, hmove, Except.bind, resume]
      refine (if_neg (not_lt.mpr hwaits.left)).trans ?_
      rw [append_nil]
      exact parse_field pool hwaits rfl _
    rcases parse_extensions pool heach hdistinct hat (fun _ _ _ => rfl) (fun _ _ _ => rfl) [] with
      ⟨next, hnext, hall⟩ | ⟨next, k, size, halloc, hall⟩
    · refine ⟨.ok, next, hstart.trans hall, .inl ⟨rfl, ?_, ?_⟩⟩
      · rw [hostName_of_atExt hnext, ClientHello.serverName, ClientHello.exts,
          hsome, none_or, getD_some]
      · rw [alpnNames_of_atExt hnext, ClientHello.alpnProtocols,
          ClientHello.exts, hsome, none_or, getD_some]
    · exact ⟨.error, next, hstart.trans hall, .inr ⟨rfl, k, size, halloc⟩⟩

end Nginx.Stream
