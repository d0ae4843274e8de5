/-
  Http/Parse/RequestLine.lean --- `ngx_http_parse_request_line`.

  What the `switch` does with a byte is split into what it decides and what it
  writes.  `lineAction` is the decision: from the state and the byte alone it
  gives the assignments to make, in order, and the next state.  `Assign.run` is
  one assignment to fields of `r`, with the pointer `p` at the byte.  A case
  that falls through into the next one makes the assignments of both.  The two
  states that step the cursor back hand the byte on to the state they go to.
-/
import Nginx.Http.Parse.Char
import Nginx.Http.Request

set_option autoImplicit false

namespace Nginx.Http.Parse

open Foundation

/-- The codes that refuse a request line. -/
inductive LineError where
  /-- `NGX_HTTP_PARSE_INVALID_METHOD` -/
  | invalidMethod
  /-- `NGX_HTTP_PARSE_INVALID_REQUEST` -/
  | invalidRequest
  /-- `NGX_HTTP_PARSE_INVALID_VERSION` -/
  | invalidVersion
  /-- `NGX_HTTP_PARSE_INVALID_09_METHOD` -/
  | invalid09Method
  deriving DecidableEq

/-- The assignments to fields of `r`. -/
inductive Assign where
  /-- `r->request_start = p` -/
  | requestStart
  /-- `r->method_end = p - 1` and the `switch (p - m)` behind it -/
  | methodEnd
  /-- `r->uri_start = p` -/
  | uriStart
  /-- `r->schema_start = p` -/
  | schemaStart
  /-- `r->schema_end = p` -/
  | schemaEnd
  /-- `r->host_start = p` -/
  | hostStart
  /-- `r->host_end = p` -/
  | hostEnd
  /-- `r->port_end = p` -/
  | portEnd
  /-- `r->uri_start = r->schema_end + 1; r->uri_end = r->schema_end + 2` -/
  | singleSlash
  /-- `r->uri_end = p` -/
  | uriEnd
  /-- `r->http_minor = 9` -/
  | http09
  /-- `r->http_protocol.data = p` -/
  | httpProtocol
  /-- `r->complex_uri = 1` -/
  | complexUri
  /-- `r->quoted_uri = 1` -/
  | quotedUri
  /-- `r->plus_in_uri = 1` -/
  | plusInUri
  /-- `r->space_in_uri = 1` -/
  | spaceInUri
  /-- `r->args_start = p + 1` -/
  | argsStart
  /-- `r->uri_ext = p + 1` -/
  | uriExt
  /-- `r->uri_ext = NULL` -/
  | uriExtNull
  /-- `r->http_major = ch - '0'` and the check behind it -/
  | firstMajorDigit
  /-- `r->http_major = r->http_major * 10 + (ch - '0')` and the check behind it -/
  | majorDigit
  /-- `r->http_minor = ch - '0'` -/
  | firstMinorDigit
  /-- the check of `r->http_minor` and `r->http_minor = r->http_minor * 10 + (ch - '0')` -/
  | minorDigit
  /-- `r->request_end = p - 1` -/
  | requestEnd
  deriving DecidableEq

/-- The `switch (p - m)` on the length of the method. -/
def findMethod (m : Bytes) (method : Method) : Method :=
  match m.length with
  | 3 =>
      if m = ascii "GET" then .get
      else if m = ascii "PUT" then .put
      else method
  | 4 =>
      if m[1]? = some (chr 'O') then
        if m = ascii "POST" then .post
        else if m = ascii "COPY" then .copy
        else if m = ascii "MOVE" then .move
        else if m = ascii "LOCK" then .lock
        else method
      else
        if m = ascii "HEAD" then .head
        else method
  | 5 =>
      if m = ascii "MKCOL" then .mkcol
      else if m = ascii "PATCH" then .patch
      else if m = ascii "TRACE" then .trace
      else method
  | 6 =>
      if m = ascii "DELETE" then .delete
      else if m = ascii "UNLOCK" then .unlock
      else method
  | 7 => if m = ascii "OPTIONS" then .options else method
  | 8 => if m = ascii "PROPFIND" then .propfind else method
  | 9 => if m = ascii "PROPPATCH" then .proppatch else method
  | _ => method

/-- One assignment, at the byte `ch` that `p` points to. -/
def Assign.run (mem : Nat → Byte) (p : Nat) (ch : Byte) (r : Request) :
    Assign → Except LineError Request
  | .requestStart => .ok { r with requestStart := p }
  | .methodEnd => .ok { r with
      methodEnd := p - 1
      method := findMethod (slice mem r.requestStart p) r.method }
  | .uriStart => .ok { r with uriStart := p }
  | .schemaStart => .ok { r with schemaStart := p }
  | .schemaEnd => .ok { r with schemaEnd := p }
  | .hostStart => .ok { r with hostStart := p }
  | .hostEnd => .ok { r with hostEnd := p }
  | .portEnd => .ok { r with portEnd := p }
  | .singleSlash => .ok { r with uriStart := r.schemaEnd + 1, uriEnd := r.schemaEnd + 2 }
  | .uriEnd => .ok { r with uriEnd := p }
  | .http09 => .ok { r with httpMinor := 9 }
  | .httpProtocol => .ok { r with httpProtocol := p }
  | .complexUri => .ok { r with complexUri := true }
  | .quotedUri => .ok { r with quotedUri := true }
  | .plusInUri => .ok { r with plusInUri := true }
  | .spaceInUri => .ok { r with spaceInUri := true }
  | .argsStart => .ok { r with argsStart := p + 1 }
  | .uriExt => .ok { r with uriExt := p + 1 }
  | .uriExtNull => .ok { r with uriExt := 0 }
  | .firstMajorDigit =>
      let major := (ch - chr '0').toNat
      if major > 1 then .error .invalidVersion else .ok { r with httpMajor := major }
  | .majorDigit =>
      let major := r.httpMajor * 10 + (ch - chr '0').toNat
      if major > 1 then .error .invalidVersion else .ok { r with httpMajor := major }
  | .firstMinorDigit => .ok { r with httpMinor := (ch - chr '0').toNat }
  | .minorDigit =>
      if r.httpMinor > 99 then .error .invalidRequest
      else .ok { r with httpMinor := r.httpMinor * 10 + (ch - chr '0').toNat }
  | .requestEnd => .ok { r with requestEnd := p - 1 }

/-- What the `switch` does with a byte. -/
inductive LineAction where
  /-- make the assignments, `break` in this state -/
  | next (assigns : List Assign) (state : LineState)
  /-- make the assignments, `goto done` -/
  | done (assigns : List Assign)
  /-- make the assignments (they can refuse the line, too), `return` -/
  | fail (rc : LineError)
  deriving DecidableEq

/-- Make assignments first. -/
def LineAction.after (first : List Assign) : LineAction → LineAction
  | .next assigns state => .next (first ++ assigns) state
  | .done assigns => .done (first ++ assigns)
  | .fail rc => .fail rc

/-- `c = (u_char) (ch | 0x20); c >= 'a' && c <= 'z'` -/
def isLetter (ch : Byte) : Bool := chr 'a' ≤ ch ||| 0x20 ∧ ch ||| 0x20 ≤ chr 'z'

/-- `ch >= '0' && ch <= '9'` -/
def isDigit (ch : Byte) : Bool := chr '0' ≤ ch ∧ ch ≤ chr '9'

/-- `(ch < 'A' || ch > 'Z') && ch != '_' && ch != '-'` -/
def isNotMethod (ch : Byte) : Bool :=
  (ch < chr 'A' ∨ ch > chr 'Z') ∧ ch ≠ chr '_' ∧ ch ≠ chr '-'

/-- From `case sw_host_end` on. -/
def hostEndAction (ch : Byte) : LineAction :=
  if ch = chr ':' then .next [.hostEnd] .port
  else if ch = chr '/' then .next [.hostEnd, .uriStart] .afterSlashInUri
  else if ch = chr ' ' then .next [.hostEnd, .singleSlash] .hostHttp09
  else .fail .invalidRequest

/-- From `case sw_host` on. -/
def hostAction (ch : Byte) : LineAction :=
  if isLetter ch then .next [] .host
  else if isDigit ch ∨ ch = chr '.' ∨ ch = chr '-' then .next [] .host
  else hostEndAction ch

/-- The bytes of an IP literal besides digits, letters, `:` and `]`:
unreserved and sub-delims. -/
def ipLiteralBytes : Bytes := ascii "-._~!$&'()*+,;="

/-- `case sw_check_uri` -/
def checkUriAction (ch : Byte) : LineAction :=
  if isUsual ch then .next [] .checkUri
  else if ch = chr '/' then .next [.uriExtNull] .afterSlashInUri
  else if ch = chr '.' then .next [.uriExt] .checkUri
  else if ch = chr ' ' then .next [.uriEnd] .checkUriHttp09
  else if ch = cr then .next [.uriEnd, .http09] .almostDone
  else if ch = lf then .done [.uriEnd, .http09]
  else if ch = chr '%' then .next [.quotedUri] .uri
  else if ch = chr '?' then .next [.argsStart] .uri
  else if ch = chr '#' then .next [.complexUri] .uri
  else if ch = chr '+' then .next [.plusInUri] .checkUri
  else if ch = 0 then .fail .invalidRequest
  else .next [] .checkUri

/-- `case sw_uri` -/
def uriAction (ch : Byte) : LineAction :=
  if isUsual ch then .next [] .uri
  else if ch = chr ' ' then .next [.uriEnd] .http09
  else if ch = cr then .next [.uriEnd, .http09] .almostDone
  else if ch = lf then .done [.uriEnd, .http09]
  else if ch = chr '#' then .next [.complexUri] .uri
  else if ch = 0 then .fail .invalidRequest
  else .next [] .uri

/-- A byte that must be the given one. -/
def expect (want : Char) (state : LineState) (ch : Byte) : LineAction :=
  if ch = chr want then .next [] state else .fail .invalidRequest

/-- The `switch (state)` on one byte. -/
def lineAction (state : LineState) (ch : Byte) : LineAction :=
  match state with
  | .start =>
      if ch = cr ∨ ch = lf then .next [.requestStart] .start
      else if isNotMethod ch then .fail .invalidMethod
      else .next [.requestStart] .method
  | .method =>
      if ch = chr ' ' then .next [.methodEnd] .spacesBeforeUri
      else if isNotMethod ch then .fail .invalidMethod
      else .next [] .method
  | .spacesBeforeUri =>
      if ch = chr '/' then .next [.uriStart] .afterSlashInUri
      else if isLetter ch then .next [.schemaStart] .schema
      else if ch = chr ' ' then .next [] .spacesBeforeUri
      else .fail .invalidRequest
  | .schema =>
      if isLetter ch then .next [] .schema
      else if isDigit ch ∨ ch = chr '+' ∨ ch = chr '-' ∨ ch = chr '.' then .next [] .schema
      else if ch = chr ':' then .next [.schemaEnd] .schemaSlash
      else .fail .invalidRequest
  | .schemaSlash => expect '/' .schemaSlashSlash ch
  | .schemaSlashSlash => expect '/' .hostStart ch
  | .hostStart =>
      if ch = chr '[' then .next [.hostStart] .hostIpLiteral
      else (hostAction ch).after [.hostStart]
  | .host => hostAction ch
  | .hostEnd => hostEndAction ch
  | .hostIpLiteral =>
      if isDigit ch then .next [] .hostIpLiteral
      else if isLetter ch then .next [] .hostIpLiteral
      else if ch = chr ':' then .next [] .hostIpLiteral
      else if ch = chr ']' then .next [] .hostEnd
      else if ch ∈ ipLiteralBytes then .next [] .hostIpLiteral
      else .fail .invalidRequest
  | .port =>
      if isDigit ch then .next [] .port
      else if ch = chr '/' then .next [.portEnd, .uriStart] .afterSlashInUri
      else if ch = chr ' ' then .next [.portEnd, .singleSlash] .hostHttp09
      else .fail .invalidRequest
  | .hostHttp09 =>
      if ch = chr ' ' then .next [] .hostHttp09
      else if ch = cr then .next [.http09] .almostDone
      else if ch = lf then .done [.http09]
      else if ch = chr 'H' then .next [.httpProtocol] .httpH
      else .fail .invalidRequest
  | .afterSlashInUri =>
      if isUsual ch then .next [] .checkUri
      else if ch = chr ' ' then .next [.uriEnd] .checkUriHttp09
      else if ch = cr then .next [.uriEnd, .http09] .almostDone
      else if ch = lf then .done [.uriEnd, .http09]
      else if ch = chr '.' then .next [.complexUri] .uri
      else if ch = chr '%' then .next [.quotedUri] .uri
      else if ch = chr '/' then .next [.complexUri] .uri
      else if ch = chr '?' then .next [.argsStart] .uri
      else if ch = chr '#' then .next [.complexUri] .uri
      else if ch = chr '+' then .next [.plusInUri] .afterSlashInUri
      else if ch = 0 then .fail .invalidRequest
      else .next [] .checkUri
  | .checkUri => checkUriAction ch
  | .checkUriHttp09 =>
      if ch = chr ' ' then .next [] .checkUriHttp09
      else if ch = cr then .next [.http09] .almostDone
      else if ch = lf then .done [.http09]
      else if ch = chr 'H' then .next [.httpProtocol] .httpH
      else (checkUriAction ch).after [.spaceInUri]
  | .uri => uriAction ch
  | .http09 =>
      if ch = chr ' ' then .next [] .http09
      else if ch = cr then .next [.http09] .almostDone
      else if ch = lf then .done [.http09]
      else if ch = chr 'H' then .next [.httpProtocol] .httpH
      else (uriAction ch).after [.spaceInUri]
  | .httpH => expect 'T' .httpHT ch
  | .httpHT => expect 'T' .httpHTT ch
  | .httpHTT => expect 'P' .httpHTTP ch
  | .httpHTTP => expect '/' .firstMajorDigit ch
  | .firstMajorDigit =>
      if ch < chr '1' ∨ ch > chr '9' then .fail .invalidRequest
      else .next [.firstMajorDigit] .majorDigit
  | .majorDigit =>
      if ch = chr '.' then .next [] .firstMinorDigit
      else if ch < chr '0' ∨ ch > chr '9' then .fail .invalidRequest
      else .next [.majorDigit] .majorDigit
  | .firstMinorDigit =>
      if ch < chr '0' ∨ ch > chr '9' then .fail .invalidRequest
      else .next [.firstMinorDigit] .minorDigit
  | .minorDigit =>
      if ch = cr then .next [] .almostDone
      else if ch = lf then .done []
      else if ch = chr ' ' then .next [] .spacesAfterDigit
      else if ch < chr '0' ∨ ch > chr '9' then .fail .invalidRequest
      else .next [.minorDigit] .minorDigit
  | .spacesAfterDigit =>
      if ch = chr ' ' then .next [] .spacesAfterDigit
      else if ch = cr then .next [] .almostDone
      else if ch = lf then .done []
      else .fail .invalidRequest
  | .almostDone =>
      if ch = lf then .done [.requestEnd] else .fail .invalidRequest

/-- The assignments for one byte, in order. -/
def runAssigns (mem : Nat → Byte) (p : Nat) (ch : Byte) (r : Request) (assigns : List Assign) :
    Except LineError Request :=
  assigns.foldlM (Assign.run mem p ch) r

/-- How the loop over the buffer ends. -/
inductive LineExit where
  /-- `p` has reached `b->last` -/
  | again (state : LineState) (r : Request)
  /-- at the label `done`, with `p` at the last byte -/
  | done (r : Request) (p : Nat)
  /-- by a `return` -/
  | fail (rc : LineError)
  deriving DecidableEq

/-- `for (p = b->pos; p < b->last; p++)`, with the number of bytes left. -/
def lineLoop (mem : Nat → Byte) : Nat → LineState → Request → Nat → LineExit
  | 0, state, r, _ => .again state r
  | n + 1, state, r, p =>
      match lineAction state (mem p) with
      | .next assigns state =>
          match runAssigns mem p (mem p) r assigns with
          | .ok r => lineLoop mem n state r (p + 1)
          | .error rc => .fail rc
      | .done assigns =>
          match runAssigns mem p (mem p) r assigns with
          | .ok r => .done r p
          | .error rc => .fail rc
      | .fail rc => .fail rc

/-- What a call returns.  The caller drops the request on an error. -/
inductive LineResult where
  /-- `NGX_OK` -/
  | ok (r : Request) (b : Buf)
  /-- `NGX_AGAIN` -/
  | again (r : Request) (b : Buf)
  | error (rc : LineError)
  deriving DecidableEq

/-- The code at the label `done`. -/
def finishLine (r : Request) (p : Nat) : Request :=
  { r with
    requestEnd := if r.requestEnd = 0 then p else r.requestEnd
    httpVersion := r.httpMajor * 1000 + r.httpMinor
    state := .start }

/-- `ngx_http_parse_request_line` -/
def parseRequestLine (mem : Nat → Byte) (r : Request) (b : Buf) : LineResult :=
  match lineLoop mem (b.last - b.pos) r.state r b.pos with
  | .again state r => .again { r with state := state } { b with pos := b.last }
  | .done r p =>
      let r := finishLine r p
      if r.httpVersion = 9 ∧ r.method ≠ .get then .error .invalid09Method
      else .ok r { b with pos := p + 1 }
  | .fail rc => .error rc

theorem exists_done_of_ok {mem : Nat → Byte} {r r' : Request} {b b' : Buf}
    (h : parseRequestLine mem r b = .ok r' b') :
    ∃ r₁ p, lineLoop mem (b.last - b.pos) r.state r b.pos = .done r₁ p ∧ r' = finishLine r₁ p ∧
      b' = { b with pos := p + 1 } := by
  rw [parseRequestLine] at h
  split at h
  · cases h
  · rename_i r₁ p hloop
    simp only at h
    split at h
    · cases h
    · cases h
      exact ⟨r₁, p, hloop, rfl, rfl⟩
  · cases h

/-! ## What the loop preserves -/

/-- The assignments of an action, then a condition on the state and request
that it leaves, or on the request at the label `done`. -/
def LineAction.Ensures (mem : Nat → Byte) (p : Nat) (r : Request)
    (post : LineState → Request → Prop)
    (postDone : Request → Prop) : LineAction → Prop
  | .next assigns state => ∀ r', runAssigns mem p (mem p) r assigns = .ok r' → post state r'
  | .done assigns => ∀ r', runAssigns mem p (mem p) r assigns = .ok r' → postDone r'
  | .fail _ => True

/-- The rule of the loop: an invariant that every step keeps holds where it ends. -/
theorem lineLoop_ensures {mem : Nat → Byte} (inv : LineState → Request → Nat → Prop)
    (post : Request → Prop)
    (hstep : ∀ state r p, inv state r p →
      LineAction.Ensures mem p r (fun state' r' => inv state' r' (p + 1)) post
        (lineAction state (mem p))) :
    ∀ (n : Nat) {state : LineState} {r : Request} {p : Nat}, inv state r p →
    match lineLoop mem n state r p with
    | .again state' r' => inv state' r' (p + n)
    | .done r' _ => post r'
    | .fail _ => True := by
  intro n
  induction n with
  | zero => exact fun h => h
  | succ n ih =>
    intro state r p h
    have hact := hstep state r p h
    rw [lineLoop]
    cases hline : lineAction state (mem p) with
    | fail rc => trivial
    | done assigns =>
      rw [hline] at hact
      cases hrun : runAssigns mem p (mem p) r assigns with
      | error rc =>
        simp only [hrun]
      | ok r' =>
        simp only [hrun]
        exact hact r' hrun
    | next assigns state' =>
      rw [hline] at hact
      cases hrun : runAssigns mem p (mem p) r assigns with
      | error rc =>
        simp only [hrun]
      | ok r' =>
        simp only [hrun]
        have hrest := ih (hact r' hrun)
        rw [add_assoc, add_comm 1] at hrest
        exact hrest

end Nginx.Http.Parse
