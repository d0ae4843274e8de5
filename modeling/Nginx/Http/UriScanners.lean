/-
  Http/UriScanners.lean --- `ngx_http_parse_uri` and the part of
  `ngx_http_parse_request_line` that scans a URI are one machine.

  Each state of the first is a state of the second, and on a byte that cannot
  end a URI both make the same assignments.  So a request line and its URI alone
  are scanned in lockstep, and what the request line adds behind the URI leaves
  the results of the scan alone.
-/
import Nginx.Http.FastUri
import Nginx.Http.LineLockstep

set_option autoImplicit false

namespace Nginx.Http

open List Foundation
open Parse

/-! ## Texts in memory -/

/-- The bytes from an address on are this text. -/
def Holds (mem : Nat → Byte) (p : Nat) (text : Bytes) : Prop := slice mem p (p + text.length) = text

section Holds

variable {mem : Nat → Byte} {p : Nat}

instance (text : Bytes) : Decidable (Holds mem p text) := inferInstanceAs (Decidable (_ = _))

theorem holds_append {text rest : Bytes} :
    Holds mem p (text ++ rest) ↔ Holds mem p text ∧ Holds mem (p + text.length) rest := by
  have hsplit : slice mem p (p + (text ++ rest).length) =
      slice mem p (p + text.length) ++
        slice mem (p + text.length) (p + text.length + rest.length) := by
    rw [length_append, ← add_assoc]
    exact slice_append (Nat.le_add_right _ _) (Nat.le_add_right _ _)
  have hlength : (slice mem p (p + text.length)).length = text.length := by
    rw [length_slice, Nat.add_sub_cancel_left]
  rw [Holds, hsplit]
  exact ⟨fun h => append_inj h hlength, fun h => congrArg₂ (· ++ ·) h.1 h.2⟩

theorem holds_cons {ch : Byte} {rest : Bytes} :
    Holds mem p (ch :: rest) ↔ mem p = ch ∧ Holds mem (p + 1) rest := by
  have hone : Holds mem p [ch] ↔ mem p = ch := by
    rw [Holds, length_singleton, slice_cons (Nat.lt_succ_self p), slice_self, cons.injEq]
    exact and_iff_left rfl
  rw [← singleton_append, holds_append, hone, length_singleton]

end Holds

/-! ## The loop of the request line -/

section LineLoop

variable {mem : Nat → Byte} {state state' : LineState} {r r' : Request}
    {p : Nat} {assigns : List Assign}

theorem lineLoop_next (n : Nat) (hact : lineAction state (mem p) = .next assigns state')
    (hrun : runAssigns mem p (mem p) r assigns = .ok r') :
    lineLoop mem (n + 1) state r p = lineLoop mem n state' r' (p + 1) := by
  rw [lineLoop, hact]
  simp only [hrun]

theorem lineLoop_done (n : Nat) (hact : lineAction state (mem p) = .done assigns)
    (hrun : runAssigns mem p (mem p) r assigns = .ok r') :
    lineLoop mem (n + 1) state r p = .done r' p := by
  rw [lineLoop, hact]
  simp only [hrun]

theorem parseRequestLine_of_done {r₀ : Request} {b : Buf}
    (hloop : lineLoop mem (b.last - b.pos) r₀.state r₀ b.pos = .done r p)
    (hversion : (finishLine r p).httpVersion ≠ 9) :
    parseRequestLine mem r₀ b = .ok (finishLine r p) { b with pos := p + 1 } := by
  rw [parseRequestLine, hloop]
  exact if_neg fun h => hversion h.1

end LineLoop

/-! ## One machine -/

/-- The state of `ngx_http_parse_request_line` that a state of `ngx_http_parse_uri` stands for. -/
def UriScan.line : UriScan → LineState
  | .start => .spacesBeforeUri
  | .afterSlashInUri => .afterSlashInUri
  | .checkUri => .checkUri
  | .uri => .uri

/-- A byte that a request line has in its URI only. -/
def InUri (ch : Byte) : Prop := ch ≠ chr ' ' ∧ ch ≠ cr ∧ ch ≠ lf ∧ ch ≠ 0

instance (ch : Byte) : Decidable (InUri ch) := inferInstanceAs (Decidable (_ ∧ _))

/-- The assignments of a scan. -/
def scanAssigns :
    List Assign := [.complexUri, .quotedUri, .plusInUri, .argsStart, .uriExt, .uriExtNull]

theorem uriScanAction_line (state : UriScan) (hstate : state ≠ .start)
    {ch : Byte} (hch : InUri ch) :
    ∃ assigns state', state' ≠ .start ∧ (∀ asg ∈ assigns, asg ∈ scanAssigns) ∧
      uriScanAction state ch = some (assigns, state') ∧
        lineAction state.line ch = .next assigns state'.line := by
  obtain ⟨hspace, hcr, hlf, hzero⟩ := hch
  cases husual : isUsual ch with
  | true =>
    cases state with
    | start => exact absurd rfl hstate
    | afterSlashInUri =>
      exact ⟨[], .checkUri, UriScan.noConfusion, by decide, by rw [uriScanAction, if_pos husual],
        by rw [UriScan.line, lineAction, if_pos husual]; rfl⟩
    | checkUri =>
      exact ⟨[], .checkUri, UriScan.noConfusion, by decide, by rw [uriScanAction, if_pos husual],
        by rw [UriScan.line, lineAction, checkUriAction, if_pos husual]⟩
    | uri =>
      exact ⟨[], .uri, UriScan.noConfusion, by decide, by rw [uriScanAction, if_pos husual],
        by rw [UriScan.line, lineAction, uriAction, if_pos husual]⟩
  | false =>
    rcases (isUsual_eq_false_iff ch).mp husual with h | h | h | h | h | h | h | h | h | h
    · exact absurd h hzero
    · exact absurd h hlf
    · exact absurd h hcr
    · exact absurd h hspace
    all_goals
      subst h
      cases state
      · exact absurd rfl hstate
      all_goals exact ⟨_, _, by decide, by decide, rfl, rfl⟩

/-! ## Lockstep -/

section Lockstep

variable {mem mem' : Nat → Byte} {s t n : Nat} {a b : Request}

/-- A request line with its URI at `s` and a URI alone at `t`, scanned up to `n` bytes. -/
structure Scanned (s t n : Nat) (a b : Request) : Prop where
  method : a.method = .get
  uriStart : a.uriStart = s ∧ b.uriStart = t
  complexUri : a.complexUri = b.complexUri
  quotedUri : a.quotedUri = b.quotedUri
  plusInUri : a.plusInUri = b.plusInUri
  argsStart : SameOffsetOrNull s t n a.argsStart b.argsStart
  uriExt : SameOffsetOrNull s t n a.uriExt b.uriExt

theorem Scanned.succ (h : Scanned s t n a b) : Scanned s t (n + 1) a b :=
  { h with argsStart := h.argsStart.mono (Nat.le_succ n), uriExt := h.uriExt.mono (Nat.le_succ n) }

theorem Scanned.run (h : Scanned s t (n + 1) a b) {asg : Assign}
    (hasg : asg ∈ scanAssigns) (ch : Byte) :
    ∃ a' b', asg.run mem (s + n) ch a = .ok a' ∧ asg.run mem' (t + n) ch b = .ok b' ∧
      Scanned s t (n + 1) a' b' := by
  have hnext : SameOffsetOrNull s t (n + 1) (s + n + 1) (t + n + 1) :=
    .inr ⟨n + 1, le_rfl, rfl, rfl⟩
  simp only [scanAssigns, mem_cons, not_mem_nil, or_false] at hasg
  rcases hasg with rfl | rfl | rfl | rfl | rfl | rfl
  · exact ⟨_, _, rfl, rfl, { h with complexUri := rfl }⟩
  · exact ⟨_, _, rfl, rfl, { h with quotedUri := rfl }⟩
  · exact ⟨_, _, rfl, rfl, { h with plusInUri := rfl }⟩
  · exact ⟨_, _, rfl, rfl, { h with argsStart := hnext }⟩
  · exact ⟨_, _, rfl, rfl, { h with uriExt := hnext }⟩
  · exact ⟨_, _, rfl, rfl, { h with uriExt := .inl ⟨rfl, rfl⟩ }⟩

theorem Scanned.runAssigns {assigns : List Assign} (hall : ∀ asg ∈ assigns, asg ∈ scanAssigns)
    (ch : Byte)
    (h : Scanned s t (n + 1) a b) :
    ∃ a' b', runAssigns mem (s + n) ch a assigns = .ok a' ∧
      runAssigns mem' (t + n) ch b assigns = .ok b' ∧
      Scanned s t (n + 1) a' b' := by
  induction assigns generalizing a b with
  | nil => exact ⟨a, b, rfl, rfl, h⟩
  | cons asg assigns ih =>
    obtain ⟨hasg, hall⟩ := forall_mem_cons.mp hall
    obtain ⟨a₁, b₁, ha, hb, h₁⟩ := @Scanned.run mem mem' s t n a b h asg hasg ch
    obtain ⟨a', b', ha', hb', h'⟩ := ih hall h₁
    refine ⟨a', b', ?_, ?_, h'⟩
    · rw [Parse.runAssigns, foldlM_cons, ha]
      exact ha'
    · rw [Parse.runAssigns, foldlM_cons, hb]
      exact hb'

theorem Scanned.loop (u : Bytes) {state : UriScan} (hstate : state ≠ .start)
    (hu : ∀ ch ∈ u, InUri ch)
    (hline : Holds mem (s + n) u) (huri : Holds mem' (t + n) u) (h : Scanned s t n a b) :
    ∃ (state' : UriScan) (a' b' : Request), state' ≠ .start ∧
      Scanned s t (n + u.length) a' b' ∧ uriScanLoop mem' u.length state b (t + n) = some b' ∧
      ∀ m, lineLoop mem (m + u.length) state.line a (s + n) =
        lineLoop mem m state'.line a' (s + n + u.length) := by
  induction u generalizing state n a b with
  | nil => exact ⟨state, a, b, hstate, h, rfl, fun m => rfl⟩
  | cons ch u ih =>
    obtain ⟨hch, hline⟩ := holds_cons.mp hline
    obtain ⟨hch', huri⟩ := holds_cons.mp huri
    obtain ⟨assigns, state₁, hstate₁, hall, hscan, hact⟩ :=
      uriScanAction_line state hstate (hu ch mem_cons_self)
    obtain ⟨a₁, b₁, ha, hb, h₁⟩ := @Scanned.runAssigns mem mem' s t n a b assigns hall ch h.succ
    obtain ⟨state', a', b', hstate', h', hloop, hlines⟩ :=
      ih hstate₁ (fun c hc => hu c (mem_cons_of_mem _ hc)) hline huri h₁
    refine ⟨state', a', b', hstate', ?_, ?_, fun m => ?_⟩
    · rwa [length_cons, add_comm u.length 1, ← add_assoc]
    · rw [length_cons, uriScanLoop, hch', hscan]
      simp only [hb]
      exact hloop
    · rw [length_cons, ← add_assoc,
        lineLoop_next _ (by rw [hch]; exact hact) (by rw [hch]; exact ha), add_assoc s,
        hlines m, add_comm u.length 1, ← add_assoc, ← add_assoc]

end Lockstep

/-! ## A whole line -/

section Line

variable {mem mem' : Nat → Byte} {r : Request} {p : Nat}

/-- The line `GET u HTTP/1.1`. -/
def getLine (u : Bytes) : Bytes := ascii "GET " ++ (u ++ (ascii " HTTP/1.1" ++ [cr, lf]))

theorem lineLoop_method (n : Nat) (h : Holds mem p (ascii "GET ")) :
    lineLoop mem (n + 4) .start r p =
      lineLoop mem n .spacesBeforeUri
        { r with requestStart := p, methodEnd := p + 2, method := .get } (p + 4) := by
  have htext : ascii "GET " = [chr 'G', chr 'E', chr 'T', chr ' '] := rfl
  have hname : slice mem p (p + 3) = ascii "GET" :=
    (holds_append.mp (show Holds mem p (ascii "GET" ++ [chr ' ']) from h)).1
  rw [htext] at h
  simp only [holds_cons] at h
  obtain ⟨hG, hE, hT, hspace, -⟩ := h
  rw [lineLoop_next _ (by rw [hG]; rfl) rfl, lineLoop_next _ (by rw [hE]; rfl) rfl,
    lineLoop_next _ (by rw [hT]; rfl) rfl,
    lineLoop_next _ (by rw [hspace]; rfl) rfl, hname]
  rfl

theorem lineLoop_version {state : LineState} (hstate : state = .checkUriHttp09 ∨ state = .http09)
    (h : Holds mem p (ascii "HTTP/1.1" ++ [cr, lf])) :
    lineLoop mem 10 state r p = .done
      { r with httpProtocol := p, httpMajor := 1, httpMinor := 1, requestEnd := p + 8 }
      (p + 9) := by
  have htext : ascii "HTTP/1.1" ++ [cr, lf] =
      [chr 'H', chr 'T', chr 'T', chr 'P', chr '/', chr '1', chr '.', chr '1', cr, lf] := rfl
  rw [htext] at h
  simp only [holds_cons] at h
  obtain ⟨hH, hT, hT', hP, hslash, hmajor, hdot, hminor, hcr, hlf, -⟩ := h
  have hfirst : lineLoop mem 10 state r p = lineLoop mem 9 .httpH
    { r with httpProtocol := p } (p + 1) := by
    rcases hstate with rfl | rfl
    · exact lineLoop_next _ (by rw [hH]; rfl) rfl
    · exact lineLoop_next _ (by rw [hH]; rfl) rfl
  rw [hfirst, lineLoop_next _ (by rw [hT]; rfl) rfl, lineLoop_next _ (by rw [hT']; rfl) rfl,
    lineLoop_next _ (by rw [hP]; rfl) rfl,
    lineLoop_next _ (by rw [hslash]; rfl) rfl,
      lineLoop_next _ (by rw [hmajor]; rfl) (by rw [hmajor]; rfl),
    lineLoop_next _ (by rw [hdot]; rfl) rfl,
      lineLoop_next _ (by rw [hminor]; rfl) (by rw [hminor]; rfl),
    lineLoop_next _ (by rw [hcr]; rfl) rfl, lineLoop_done _ (by rw [hlf]; rfl) rfl]
  rfl

theorem lineLoop_uriEnd (n : Nat) {state : UriScan} (hstate : state ≠ .start)
    (hspace : mem p = chr ' ') :
    ∃ state', (state' = LineState.checkUriHttp09 ∨ state' = .http09) ∧
      lineLoop mem (n + 1) state.line r p = lineLoop mem n state'
        { r with uriEnd := p } (p + 1) := by
  cases state with
  | start => exact absurd rfl hstate
  | afterSlashInUri => exact ⟨_, .inl rfl, lineLoop_next _ (by rw [hspace]; rfl) rfl⟩
  | checkUri => exact ⟨_, .inl rfl, lineLoop_next _ (by rw [hspace]; rfl) rfl⟩
  | uri => exact ⟨_, .inr rfl, lineLoop_next _ (by rw [hspace]; rfl) rfl⟩

/-- What a scan of a URI leaves, with pointers as offsets from its start. -/
structure ScanResult where
  complexUri : Bool
  quotedUri : Bool
  plusInUri : Bool
  argsStart : Option Int
  uriExt : Option Int
  deriving DecidableEq

/-- The offset from the start of the URI of a pointer that is not `NULL`. -/
def Request.uriOffset (r : Request) (ptr : Nat) :
    Option Int := if ptr = 0 then none else some ((ptr : Int) - r.uriStart)

def Request.scanResult (r : Request) : ScanResult :=
  ⟨r.complexUri, r.quotedUri, r.plusInUri, r.uriOffset r.argsStart, r.uriOffset r.uriExt⟩

theorem uriOffset_eq {s t n x y : Nat} {a b : Request} (hs : 0 < s)
    (ht : 0 < t) (ha : a.uriStart = s) (hb : b.uriStart = t)
    (h : SameOffsetOrNull s t n x y) : a.uriOffset x = b.uriOffset y := by
  rcases h with ⟨rfl, rfl⟩ | ⟨j, -, rfl, rfl⟩
  · rfl
  · rw [Request.uriOffset, Request.uriOffset, if_neg (by omega),
      if_neg (by omega), ha, hb, Nat.cast_add, Nat.cast_add,
      add_sub_cancel_left, add_sub_cancel_left]

theorem Scanned.scanResult {s t n : Nat} {a b : Request} (h : Scanned s t n a b)
    (hs : 0 < s) (ht : 0 < t) :
    a.scanResult = b.scanResult := by
  have hargs := uriOffset_eq hs ht h.uriStart.1 h.uriStart.2 h.argsStart
  have hext := uriOffset_eq hs ht h.uriStart.1 h.uriStart.2 h.uriExt
  rw [Request.scanResult, Request.scanResult, h.complexUri, h.quotedUri, h.plusInUri, hargs, hext]

/-- **One scanner.**  On a URI that begins with a slash and has no space, `CR`, `LF` or NUL,
`ngx_http_parse_uri` returns `NGX_OK` with the flags and offsets that `ngx_http_parse_request_line`
leaves on a request line with this URI. -/
theorem scanners_agree (u : Bytes) (hslash : u.head? = some (chr '/'))
    (hu : ∀ ch ∈ u, InUri ch) {s t : Nat} (hs : 0 < s)
    (ht : 0 < t) {b : Buf} (hpos : b.pos = s) (hlast : b.last = s + (getLine u).length)
    (hline : Holds mem s (getLine u))
    (huri : Holds mem' t u) :
    ∃ r b' r', parseRequestLine mem .created b = .ok r b' ∧
      parseUri mem' { Request.created with uriStart := t, uriEnd := t + u.length } = some r' ∧
      r.scanResult = r'.scanResult := by
  obtain ⟨u, rfl⟩ : ∃ v, u = chr '/' :: v := head?_eq_some_iff.mp hslash
  obtain ⟨hget, hline⟩ := holds_append.mp hline
  obtain ⟨hpath, hline⟩ := holds_append.mp hline
  obtain ⟨hspace, hversion⟩ :=
    holds_cons.mp (show Holds mem _ (chr ' ' :: (ascii "HTTP/1.1" ++ [cr, lf])) from hline)
  obtain ⟨hfirst, hpath⟩ := holds_cons.mp hpath
  obtain ⟨hfirst', hpath'⟩ := holds_cons.mp huri
  have hfirst : mem (s + 4) = chr '/' := hfirst
  have hend : s + (ascii "GET ").length + (chr '/' :: u).length = s + 4 + 1 + u.length := by
    rw [length_cons, add_comm u.length 1, ← add_assoc]
    rfl
  rw [hend] at hspace hversion
  have hlength : b.last - b.pos = 10 + 1 + u.length + 1 + 4 := by
    rw [hlast, hpos, getLine, length_append, length_append, length_append, length_cons]
    have hget : (ascii "GET ").length = 4 := rfl
    have hversion : (ascii " HTTP/1.1").length = 9 := rfl
    have heol : [cr, lf].length = 2 := rfl
    omega
  have hbegun : Scanned (s + 4) t 1
      { Request.created with requestStart := s, methodEnd := s + 2, method := .get, uriStart := s +
        4 }
      { Request.created with uriStart := t, uriEnd := t + (chr '/' :: u).length } :=
    ⟨rfl, ⟨rfl, rfl⟩, rfl, rfl, rfl, .inl ⟨rfl, rfl⟩, .inl ⟨rfl, rfl⟩⟩
  have hinside : ∀ ch ∈ u, InUri ch := fun ch hch => hu ch (mem_cons_of_mem _ hch)
  obtain ⟨state, a, a', hstate, hscanned, hscan, hlines⟩ :=
    @Scanned.loop _ _ _ _ _ _ _ u .afterSlashInUri UriScan.noConfusion hinside hpath hpath' hbegun
  obtain ⟨state', hstate', huriEnd⟩ := @lineLoop_uriEnd mem a _ 10 state hstate hspace
  have hrun := calc lineLoop mem (b.last - b.pos) .start .created b.pos
    _ = lineLoop mem (10 + 1 + u.length) .afterSlashInUri _ (s + 4 + 1) := by
      rw [hlength, hpos, lineLoop_method _ hget, lineLoop_next _ (by rw [hfirst]; rfl) rfl]
    _ = lineLoop mem (10 + 1) state.line a (s + 4 + 1 + u.length) := hlines (10 + 1)
    _ = .done _ _ := by rw [huriEnd, lineLoop_version hstate' hversion]
  have hversion9 : 1 * 1000 + 1 ≠ 9 := by decide
  have hparse' : parseUri mem'
    { Request.created with uriStart := t, uriEnd := t + (chr '/' :: u).length } = some a' := by
    rw [parseUri, Nat.add_sub_cancel_left, length_cons, uriScanLoop, hfirst']
    exact hscan
  exact ⟨_, _, a', parseRequestLine_of_done hrun hversion9, hparse',
    hscanned.scanResult (Nat.add_pos_left hs 4) ht⟩

/-- The line with the URI `/a.b?c`, from address 1 on. -/
def scannedLine (i : Nat) : Byte := (getLine (ascii "/a.b?c")).getD (i - 1) 0

set_option maxRecDepth 4000 in
theorem scanners_agree_scannedLine :
    ∃ r b' r', parseRequestLine scannedLine .created ⟨1, 1, 22, 22⟩ = .ok r b' ∧
    parseUri scannedLine { Request.created with uriStart := 5, uriEnd := 11 } = some r' ∧
      r.scanResult = r'.scanResult :=
  scanners_agree (ascii "/a.b?c") (by decide) (by decide) (by decide)
    (by decide) rfl (by decide) (by decide) (by decide)

end Line

end Nginx.Http
