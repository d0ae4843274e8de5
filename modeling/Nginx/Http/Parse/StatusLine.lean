/-
  Http/Parse/StatusLine.lean --- `ngx_http_parse_status_line`: the first line of
  the response of an upstream.

  The fields of `r` and of `status` that the function works on are one record.
  A call goes on where the last one stopped, in the same buffer.
-/
import Nginx.Core.StrCase
import Nginx.Http.RangeSet

set_option autoImplicit false

namespace Nginx.Http.Parse

open Foundation
open Nginx.Core (load_succ)

/-- The states of `ngx_http_parse_status_line`. -/
inductive StatusState where
  | start
  | h
  | ht
  | htt
  | http
  | firstMajorDigit
  | majorDigit
  | firstMinorDigit
  | minorDigit
  | status
  | spaceAfterStatus
  | statusText
  | almostDone
  deriving DecidableEq

/-- `r->state`, `r->http_major` and `r->http_minor`, and the fields of `ngx_http_status_t`; the
address 0 is `NULL`. -/
structure StatusLine where
  state : StatusState
  httpMajor : Nat
  httpMinor : Nat
  httpVersion : Nat
  code : Nat
  count : Nat
  start : Nat
  stop : Nat
  deriving DecidableEq

/-- Before the first call: `r->state` is `sw_start` and `status` is zeroed. -/
structure StatusLine.Fresh (s : StatusLine) : Prop where
  state : s.state = .start
  code : s.code = 0
  count : s.count = 0
  stop : s.stop = 0

/-- What the `switch (state)` does with a byte. -/
inductive StatusStep where
  /-- `break` -/
  | next (s : StatusLine)
  /-- `goto done` -/
  | done (s : StatusLine)
  /-- `return NGX_ERROR` -/
  | error
  deriving DecidableEq

/-- A state that knows one byte. -/
def expectStatus (want : Char) (state : StatusState) (ch : Byte) (s : StatusLine) : StatusStep :=
  if ch = chr want then .next { s with state := state } else .error

/-- The `switch (state)` on the byte at `p`. -/
def statusStep (p : Nat) (ch : Byte) (s : StatusLine) : StatusStep :=
  match s.state with
  | .start => expectStatus 'H' .h ch s
  | .h => expectStatus 'T' .ht ch s
  | .ht => expectStatus 'T' .htt ch s
  | .htt => expectStatus 'P' .http ch s
  | .http => expectStatus '/' .firstMajorDigit ch s
  | .firstMajorDigit =>
      if ch < chr '1' ∨ ch > chr '9' then .error
      else .next { s with httpMajor := digitValue ch, state := .majorDigit }
  | .majorDigit =>
      if ch = chr '.' then .next { s with state := .firstMinorDigit }
      else if ch < chr '0' ∨ ch > chr '9' then .error
      else if s.httpMajor > 99 then .error
      else .next { s with httpMajor := s.httpMajor * 10 + digitValue ch }
  | .firstMinorDigit =>
      if ch < chr '0' ∨ ch > chr '9' then .error
      else .next { s with httpMinor := digitValue ch, state := .minorDigit }
  | .minorDigit =>
      if ch = chr ' ' then .next { s with state := .status }
      else if ch < chr '0' ∨ ch > chr '9' then .error
      else if s.httpMinor > 99 then .error
      else .next { s with httpMinor := s.httpMinor * 10 + digitValue ch }
  | .status =>
      if ch = chr ' ' then .next s
      else if ch < chr '0' ∨ ch > chr '9' then .error
      else
        let s := { s with code := s.code * 10 + digitValue ch, count := s.count + 1 }
        if s.count = 3 then .next { s with state := .spaceAfterStatus, start := p - 2 } else .next s
  | .spaceAfterStatus =>
      if ch = chr ' ' then .next { s with state := .statusText }
      else if ch = chr '.' then .next { s with state := .statusText }
      else if ch = cr then .next { s with state := .almostDone }
      else if ch = lf then .done s
      else .error
  | .statusText =>
      if ch = cr then .next { s with state := .almostDone }
      else if ch = lf then .done s
      else .next s
  | .almostDone =>
      if ch = lf then .done { s with stop := p - 1 } else .error

/-- What a call returns, with `b->pos`. -/
inductive StatusRc where
  /-- `NGX_OK` -/
  | ok (s : StatusLine) (pos : Nat)
  /-- `NGX_AGAIN` -/
  | again (s : StatusLine) (pos : Nat)
  /-- `NGX_ERROR` -/
  | error
  deriving DecidableEq

/-- The code at the label `done`. -/
def finishStatus (s : StatusLine) (p : Nat) : StatusLine :=
  { s with
    stop := if s.stop = 0 then p else s.stop
    httpVersion := s.httpMajor * 1000 + s.httpMinor
    state := .start }

/-- `ngx_http_parse_status_line` on so many bytes from `p` on. -/
def parseStatusLine (mem : Nat → Byte) : Nat → Nat → StatusLine → StatusRc
  | 0, p, s => .again s p
  | left + 1, p, s =>
      match statusStep p (mem p) s with
      | .next s => parseStatusLine mem left (p + 1) s
      | .done s => .ok (finishStatus s p) (p + 1)
      | .error => .error

/-- Call after call, each with so many bytes more, until one does not return `NGX_AGAIN`. -/
def parseStatusCalls (mem : Nat → Byte) : List Nat → Nat → StatusLine → StatusRc
  | [], p, s => .again s p
  | left :: calls, p, s =>
      match parseStatusLine mem left p s with
      | .again s p => parseStatusCalls mem calls p s
      | rc => rc

/-! ## One call for all -/

/-- The same over the bytes themselves. -/
def statusRun : Nat → StatusLine → Bytes → StatusRc
  | p, s, [] => .again s p
  | p, s, ch :: text =>
      match statusStep p ch s with
      | .next s => statusRun (p + 1) s text
      | .done s => .ok (finishStatus s p) (p + 1)
      | .error => .error

theorem parseStatusLine_eq_statusRun (mem : Nat → Byte) (left p : Nat) (s : StatusLine) :
    parseStatusLine mem left p s = statusRun p s (load mem p left) := by
  induction left generalizing p s with
  | zero => rfl
  | succ left ih =>
    rw [parseStatusLine, load_succ, statusRun]
    cases statusStep p (mem p) s with
    | next s => exact ih (p + 1) s
    | done s => rfl
    | error => rfl

theorem statusRun_append (p : Nat) (s : StatusLine) (text rest : Bytes) :
    statusRun p s (text ++ rest) =
      match statusRun p s text with
      | .again s p => statusRun p s rest
      | rc => rc := by
  induction text generalizing p s with
  | nil => rfl
  | cons ch text ih =>
    rw [List.cons_append, statusRun, statusRun]
    cases statusStep p ch s with
    | next s => exact ih (p + 1) s
    | done s => rfl
    | error => rfl

theorem statusRun_again {p p' : Nat} {s s' : StatusLine} {text : Bytes}
    (h : statusRun p s text = .again s' p') :
    p' = p + text.length := by
  induction text generalizing p s with
  | nil =>
    cases h
    rfl
  | cons ch text ih =>
    rw [statusRun] at h
    cases hstep : statusStep p ch s with
    | next s =>
      rw [hstep] at h
      rw [ih h, List.length_cons]
      omega
    | done s =>
      rw [hstep] at h
      cases h
    | error =>
      rw [hstep] at h
      cases h

theorem parseStatusCalls_eq_statusRun (mem : Nat → Byte) (calls : List Nat)
    (p : Nat) (s : StatusLine) :
    parseStatusCalls mem calls p s = statusRun p s (load mem p calls.sum) := by
  induction calls generalizing p s with
  | nil => rfl
  | cons left calls ih =>
    rw [parseStatusCalls, parseStatusLine_eq_statusRun, List.sum_cons,
      load_append, statusRun_append]
    cases hrun : statusRun p s (load mem p left) with
    | again s' p' =>
      rw [statusRun_again hrun, length_load]
      exact ih (p + left) s'
    | ok s' p' => rfl
    | error => rfl

end Nginx.Http.Parse
