/-
  Http/FastCgi/Passes.lean --- what the two passes of `ngx_http_fastcgi_create_request`
  agree on, and the body of the request as records.

  Both passes over the parameters and both over the request headers are described by one
  list: the parameters that are sent and the headers that no parameter overrides.  The
  length that the first counts is the length of what the second writes.
  The buffers of the body are cut at 32K; the header of a piece is written at the end of
  the buffer in front of it, and its padding into a buffer behind it.
-/
import Nginx.Http.FastCgi.Request

set_option autoImplicit false

namespace Nginx.Http.FastCgi

open List Foundation Nginx.Core

/-! ## What is sent -/

/-- The parameter for the request, unless it is skipped. -/
def Param.sent (r : ScriptRequest) (p : Param) : Option (Bytes × Bytes) :=
  if p.compiled ∧
    ¬(p.skipEmpty = true ∧ r.value p.value = []) then some (p.key, r.value p.value) else none

/-- The parameters that are configured, with the default ones for a cacheable request. -/
def LocConf.source (flcf : LocConf) (cacheable : Bool) : List Param :=
  (sources flcf.paramsSource (if cacheable then some flcf.cacheHeaders else none)).getD []

def sentParams (flcf : LocConf) (r : Request) : List (Bytes × Bytes) :=
  (flcf.source r.cacheable).filterMap (Param.sent r.script)

/-- A parameter has the name that the header would be sent under, in whatever case. -/
def overridden (src : List Param) (header : TableElt) : Bool :=
  src.any fun p => p.isHttp && strlow (p.key.drop 5) == header.key.map lowcase

/-- The variable that a header is sent as. -/
def httpVariable (header : TableElt) :
    Bytes × Bytes := (ascii "HTTP_" ++ header.key.map upcase, header.value)

def sentHeaders (flcf : LocConf) (r : Request) : List (Bytes × Bytes) :=
  if flcf.passRequestHeaders then
    (r.headersIn.filter fun h => !overridden (flcf.source r.cacheable) h).map httpVariable
  else []

/-- A parameter as it is written, its name with a length of one byte. -/
def paramBytes (p : Bytes × Bytes) :
    Bytes := UInt8.ofNat p.1.length :: lengthBytes p.2.length ++ p.1 ++ p.2

section params

variable {r : ScriptRequest} {p : Param}

end params

/-! ## The request headers -/

section headers

variable {params : Params}

end headers

/-! ## The PARAMS record -/

/-- What is between the header of the PARAMS record and its padding. -/
def paramsContent (flcf : LocConf) (r : Request) : Bytes :=
  (sentParams flcf r).flatMap paramBytes ++ (sentHeaders flcf r).flatMap pairBytes

/-! ## The body in pieces -/

/-- A buffer that is special, or of memory only, or of a file only. -/
inductive BodyBuf (b : NgxBuf) : Prop where
  | special (h : b.special = true)
  | memory (hmem : b.inMemory = true) (hfile : b.inFile = false)
    (hpos : b.pos ≤ b.last) (hlast : b.last ≤ b.areaBytes.length)
  | file (hmem : b.inMemory = false) (hfile : b.inFile = true)
    (hpos : b.filePos ≤ b.fileLast) (hlast : b.fileLast ≤ b.file.length)

/-- Bytes cut at 32K; nothing is one empty piece. -/
def pieces : Nat → Bytes → List Bytes
  | 0, _ => []
  | fuel + 1, bytes =>
    if bytes.length ≤
      32 * 1024 then [bytes] else bytes.take (32 * 1024) :: pieces fuel (bytes.drop (32 * 1024))

def stdinRecord (content : Bytes) : Record := ⟨stdinType, content, paddingOf content.length⟩

/-- The buffers carry the records, and all of them but the last are full. -/
structure Carries (cur : TempBuf) (records : List Record) (res : List OutBuf × TempBuf) : Prop where
  bytes : res.1.flatMap OutBuf.bytes ++ res.2.written = cur.written ++ records.flatMap Record.bytes
  full : cur.size = cur.written.length + 8 →
    (∀ t, .temp t ∈ res.1 → t.written.length = t.size) ∧ res.2.size = res.2.written.length + 8

theorem Carries.nil (cur : TempBuf) : Carries cur [] ([], cur) :=
  ⟨(append_nil _).symm, fun h => ⟨fun _ ht => absurd ht not_mem_nil, h⟩⟩

theorem Carries.append {cur mid last : TempBuf} {records records' : List Record}
    {out out' : List OutBuf}
    (h : Carries cur records (out, mid)) (h' : Carries mid records' (out', last)) :
    Carries cur (records ++ records') (out ++ out', last) := by
  refine ⟨?_, fun hroom => ?_⟩
  · have hb := h.bytes
    have hb' := h'.bytes
    dsimp only at hb hb' ⊢
    rw [flatMap_append, append_assoc, hb', ← append_assoc, hb, flatMap_append, append_assoc]
  · obtain ⟨hout, hmid⟩ := h.full hroom
    obtain ⟨hout', hlast⟩ := h'.full hmid
    refine ⟨fun t ht => ?_, hlast⟩
    rcases mem_append.mp ht with ht | ht
    · exact hout t ht
    · exact hout' t ht

theorem Carries.piece (cur : TempBuf) {b : NgxBuf} {content : Bytes}
    {len : Nat} (hbytes : b.bytes = content) (hlen : len = content.length) :
    Carries cur [stdinRecord content]
      ([.temp (cur.write (headerBytes stdinType len (paddingOf len))), .body b],
        (TempBuf.mk (8 + paddingOf len) []).write (List.replicate (paddingOf len) 0)) := by
  subst hlen
  refine ⟨?_, fun hroom => ⟨fun t ht => ?_, ?_⟩⟩
  · simp only [flatMap_cons, flatMap_nil, append_nil, OutBuf.bytes,
      TempBuf.write, hbytes, Record.bytes, stdinRecord,
      nil_append, append_assoc]
  · rcases mem_cons.mp ht with heq | ht
    · obtain rfl := OutBuf.temp.inj heq
      rw [TempBuf.write, length_append, hroom]
      rfl
    · cases mem_singleton.mp ht
  · simp only [TempBuf.write, nil_append, length_replicate]
    omega

/-- What is between two positions of the buffer. -/
def window (b : NgxBuf) (pos last : Nat) :
    Bytes := ((if b.inFile then b.file else b.areaBytes).take last).drop pos

variable {b : NgxBuf}

theorem BodyBuf.length_bytes (h : BodyBuf b) (hs : b.special = false) :
    b.bytes.length = b.size := by
  cases h with
  | special h => rw [hs] at h; exact absurd h Bool.false_ne_true
  | memory hmem hfile hpos hlast =>
    simp [NgxBuf.bytes, NgxBuf.size, hmem, min_eq_left hlast]
  | file hmem hfile hpos hlast =>
    simp [NgxBuf.bytes, NgxBuf.size, hmem, min_eq_left hlast]

end Nginx.Http.FastCgi
