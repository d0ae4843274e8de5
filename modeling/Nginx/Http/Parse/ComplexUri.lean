/-
  Http/Parse/ComplexUri.lean --- `ngx_http_parse_complex_uri`, as built for a
  system other than Windows.

  The raw URI is the list of bytes between `r->uri_start` and `r->uri_end`.
  The normalised path is written from `r->uri.data` on; the list `u` is what is
  written below the pointer `u`, and a pointer into it is an offset.  Each
  iteration of the loop looks at one byte, and the one iteration that does not
  read the next byte, at the end of an escape, sends the decoded byte through
  the interrupted state at once.
-/
import Nginx.Http.Parse.Char

set_option autoImplicit false

namespace Nginx.Http.Parse

open Foundation
open Foundation.Machine

/-- The states that a byte of the path is dispatched in: `sw_usual`,
`sw_slash`, `sw_dot` and `sw_dot_dot`.  Only these are interrupted by an
escape. -/
inductive PathState where
  | usual
  | slash
  | dot
  | dotDot
  deriving DecidableEq

/-- All states.  `sw_quoted` and `sw_quoted_second` carry the variables that
are live in them, `quoted_state` and `decoded`. -/
inductive UriState where
  | path (state : PathState)
  | quoted (quotedState : PathState)
  | quotedSecond (quotedState : PathState) (decoded : Byte)
  deriving DecidableEq

/-- The local variables and the fields of `r` that the loop writes. -/
structure ComplexUri where
  state : UriState
  /-- what is written from `r->uri.data` on -/
  u : Bytes
  /-- `r->uri_ext`, as an offset from `r->uri.data` -/
  uriExt : Option Nat
  plusInUri : Bool
  quotedUri : Bool
  deriving DecidableEq

/-- How the loop is left. -/
inductive UriExit where
  /-- `r->args_start = p; goto args` -/
  | args (r : ComplexUri)
  /-- `goto done` -/
  | done (r : ComplexUri)
  /-- `return NGX_HTTP_PARSE_INVALID_REQUEST` -/
  | invalid
  deriving DecidableEq

/-- `*u++ = ch; state = state` -/
def ComplexUri.put (r : ComplexUri) (state : PathState) (ch : Byte) : ComplexUri :=
  { r with state := .path state, u := r.u ++ [ch] }

/-- The loop that looks for a slash at the offset `i` and below, and leaves `u`
behind it. -/
def scanSlash (u : Bytes) : Nat → Option Bytes
  | 0 => if u[0]? = some (chr '/') then some (u.take 1) else none
  | i + 1 => if u[i + 1]? = some (chr '/') then some (u.take (i + 2)) else scanSlash u i

/-- `u -= 5` and the loop behind it, which fails below `r->uri.data`. -/
def popSegment (u : Bytes) : Option Bytes :=
  if u.length < 5 then none else scanSlash u (u.length - 5)

/-- The cases that the four `switch` statements have in common. -/
def otherByte (state : PathState) (r : ComplexUri) (ch : Byte) : Step ComplexUri UriExit :=
  if ch = chr '%' then .next { r with state := .quoted state }
  else if ch = chr '?' then .halt (.args r)
  else if ch = chr '#' then .halt (.done r)
  else if ch = chr '+' then .next { r.put .usual ch with plusInUri := true }
  else .next (r.put .usual ch)

/-- `switch (state)` in a state that dispatches a byte of the path. -/
def pathStep (mergeSlashes : Bool) (state : PathState) (r : ComplexUri) (ch : Byte) :
    Step ComplexUri UriExit :=
  if isUsual ch then .next (r.put .usual ch)
  else match state with
  | .usual =>
      if ch = chr '/' then .next { r.put .slash ch with uriExt := none }
      else if ch = chr '.' then .next { r.put .usual ch with uriExt := some (r.u.length + 1) }
      else otherByte state r ch
  | .slash =>
      if ch = chr '/' then
        if mergeSlashes then .next { r with state := .path .slash } else .next (r.put .slash ch)
      else if ch = chr '.' then .next (r.put .dot ch)
      else otherByte state r ch
  | .dot =>
      if ch = chr '/' then .next { r with state := .path .slash, u := r.u.dropLast }
      else if ch = chr '.' then .next (r.put .dotDot ch)
      else otherByte state r ch
  | .dotDot =>
      if ch = chr '/' then
        match popSegment r.u with
        | some u => .next { r with state := .path .slash, u := u }
        | none => .halt .invalid
      else otherByte state r ch

/-- The end of an escape: the decoded byte is taken literally, refused, or
dispatched in the interrupted state. -/
def escapeByte (mergeSlashes : Bool) (quotedState : PathState) (decoded : Byte) (r : ComplexUri)
    (ch : Byte) : Step ComplexUri UriExit :=
  if chr '0' ≤ ch ∧ ch ≤ chr '9' then
    let ch := (decoded <<< 4) + (ch - chr '0')
    if ch = chr '%' ∨ ch = chr '#' then .next (r.put .usual ch)
    else if ch = 0 then .halt .invalid
    else pathStep mergeSlashes quotedState { r with state := .path quotedState } ch
  else
    let c := ch ||| 0x20
    if chr 'a' ≤ c ∧ c ≤ chr 'f' then
      let ch := (decoded <<< 4) + (c - chr 'a') + 10
      if ch = chr '?' then .next (r.put .usual ch)
      else if ch = chr '+' then
        pathStep mergeSlashes quotedState
          { r with state := .path quotedState, plusInUri := true } ch
      else pathStep mergeSlashes quotedState { r with state := .path quotedState } ch
    else .halt .invalid

/-- What the loop does with one byte of the URI. -/
def complexStep (mergeSlashes : Bool) (r : ComplexUri) (ch : Byte) : Step ComplexUri UriExit :=
  match r.state with
  | .path state => pathStep mergeSlashes state r ch
  | .quoted quotedState =>
      let r := { r with quotedUri := true }
      if chr '0' ≤ ch ∧ ch ≤ chr '9' then
        .next { r with state := .quotedSecond quotedState (ch - chr '0') }
      else
        let c := ch ||| 0x20
        if chr 'a' ≤ c ∧ c ≤ chr 'f' then
          .next { r with state := .quotedSecond quotedState (c - chr 'a' + 10) }
        else .halt .invalid
  | .quotedSecond quotedState decoded => escapeByte mergeSlashes quotedState decoded r ch

/-- The fields of `r` that a successful call sets. -/
structure ComplexResult where
  uri : Bytes
  /-- `r->exten`, when the call sets it -/
  exten : Option Bytes
  /-- `r->args`, when the call sets it -/
  args : Option Bytes
  /-- `r->args_start`, as an offset from `r->uri_start` -/
  argsStart : Option Nat
  plusInUri : Bool
  quotedUri : Bool
  deriving DecidableEq

/-- What the labels `done` and `args` have in common. -/
def ComplexUri.finish (r : ComplexUri) (args : Option Bytes) (argsStart : Option Nat) :
    ComplexResult :=
  { uri := r.u
    exten := r.uriExt.map r.u.drop
    args := args
    argsStart := argsStart
    plusInUri := r.plusInUri
    quotedUri := r.quotedUri }

/-- The loop at the label `args`: up to a `#`, the arguments are taken here,
else they are left to the caller, who finds them at `r->args_start`. -/
def ComplexUri.finishArgs (r : ComplexUri) (raw rest : Bytes) : ComplexResult :=
  if chr '#' ∈ rest then r.finish (some (rest.takeWhile (· ≠ chr '#'))) none
  else r.finish none (some (raw.length - rest.length))

/-- The state in which the loop is entered. -/
def ComplexUri.start : ComplexUri := ⟨.path .usual, [], none, false, false⟩

/-- `ngx_http_parse_complex_uri`; `none` is `NGX_HTTP_PARSE_INVALID_REQUEST`. -/
def parseComplexUri (mergeSlashes : Bool) (raw : Bytes) : Option ComplexResult :=
  match feed (complexStep mergeSlashes) .start raw with
  | .running r => some (r.finish none none)
  | .halted (.done r) _ => some (r.finish none none)
  | .halted (.args r) rest => some (r.finishArgs raw rest)
  | .halted .invalid _ => none

end Nginx.Http.Parse
