/-
  Http/RangeParse.lean --- the value of a Range header
  (`ngx_http_range_parse` in `src/http/modules/ngx_http_range_filter_module.c`).

  A string is the list of its bytes before the final `\0`.  Every operation on
  `off_t` is checked: a result that the type does not have is no result at all.
  Memory is always there.
-/
import Nginx.Http.Parse.RequestLine

set_option autoImplicit false

namespace Nginx.Http

open Foundation
open Http.Parse (isDigit)

/-- `NGX_MAX_OFF_T_VALUE` -/
def maxOffT : Int := 9223372036854775807

/-- A value of `off_t`, where there is one. -/
def offT (n : Int) : Option Int := if -maxOffT - 1 ≤ n ∧ n ≤ maxOffT then some n else none

/-- `ngx_http_range_t` -/
structure HttpRange where
  start : Int
  stop : Int
  deriving DecidableEq

/-- What `ngx_http_range_parse` returns, with `ctx->ranges` where it is `NGX_OK`. -/
inductive RangeRc where
  | ok (ranges : List HttpRange)
  /-- `NGX_HTTP_RANGE_NOT_SATISFIABLE` -/
  | notSatisfiable
  | declined
  deriving DecidableEq

/-- The bytes before the first `\0`. -/
def cString (text : Bytes) : Bytes := text.takeWhile (· ≠ 0)

/-- `*p` -/
def peek (p : Bytes) : Byte := p.headD 0

/-- `while (*p == ' ') { p++; }` -/
def skipSpaces (p : Bytes) : Bytes := p.dropWhile (· = chr ' ')

/-- `*p - '0'` -/
def digitValue (ch : Byte) : Nat := (ch - chr '0').toNat

/-- The loops that read `start` and `end`, from the value `n` on. -/
def readOffset (n : Int) : Bytes → Option (Except RangeRc (Int × Bytes))
  | [] => some (.ok (n, []))
  | ch :: p =>
    if isDigit ch then
      if n ≥ maxOffT / 10 ∧ (n > maxOffT / 10 ∨ (digitValue ch : Int) > maxOffT % 10) then
        some (.error .notSatisfiable)
      else
        match offT (n * 10) with
        | none => none
        | some tens =>
          match offT (tens + digitValue ch) with
          | none => none
          | some n => readOffset n p
    else some (.ok (n, ch :: p))

/-- `start` and `end` after the last number. -/
def clipRange (contentLength start stop : Int) (suffix : Bool) : Option (Int × Int) := do
  let (start, stop) ←
    if suffix then do
      let start ← if stop < contentLength then offT (contentLength - stop) else some 0
      let stop ← offT (contentLength - 1)
      pure (start, stop)
    else some (start, stop)
  let stop ← if stop ≥ contentLength then some contentLength else offT (stop + 1)
  pure (start, stop)

/-- The last number of a range. -/
def rangeEnd (contentLength start : Int) (suffix : Bool) (p : Bytes) :
    Option (Except RangeRc (Int × Int × Bytes)) :=
  if ¬ isDigit (peek p) then some (.error .notSatisfiable)
  else
    match readOffset 0 p with
    | none => none
    | some (.error rc) => some (.error rc)
    | some (.ok (stop, p)) =>
      let p := skipSpaces p
      if peek p ≠ chr ',' ∧ peek p ≠ 0 then some (.error .notSatisfiable)
      else (clipRange contentLength start stop suffix).map fun (start, stop) => .ok (start, stop, p)

/-- The body of the loop up to `found`. -/
def rangeBounds (contentLength : Int) (p : Bytes) : Option (Except RangeRc (Int × Int × Bytes)) :=
  let p := skipSpaces p
  if peek p ≠ chr '-' then
    if ¬ isDigit (peek p) then some (.error .notSatisfiable)
    else
      match readOffset 0 p with
      | none => none
      | some (.error rc) => some (.error rc)
      | some (.ok (start, p)) =>
        let p := skipSpaces p
        if peek p ≠ chr '-' then some (.error .notSatisfiable)
        else
          let p := skipSpaces p.tail
          if peek p = chr ',' ∨ peek p = 0 then some (.ok (start, contentLength, p))
          else rangeEnd contentLength start false p
  else rangeEnd contentLength 0 true p.tail

/-- What follows the loop. -/
def rangeFinish (contentLength size : Int) (ranges : List HttpRange) : RangeRc :=
  if ranges = [] then .notSatisfiable
  else if size > contentLength then .declined
  else .ok ranges

/-- The loop; `left` is the variable `ranges`. -/
def rangeLoop (contentLength : Int) : Nat → Bytes → Int → List HttpRange → Nat → Option RangeRc
  | 0, _, _, _, _ => none
  | fuel + 1, p, size, ranges, left =>
    match rangeBounds contentLength p with
    | none => none
    | some (.error rc) => some rc
    | some (.ok (start, stop, p)) =>
      if start < stop then
        let ranges := ranges ++ [⟨start, stop⟩]
        match offT (stop - start) with
        | none => none
        | some length =>
          match offT (maxOffT - length) with
          | none => none
          | some room =>
            if size > room then some .notSatisfiable
            else
              match offT (size + length) with
              | none => none
              | some size =>
                if left = 0 then some .declined
                else if peek p ≠ chr ',' then some (rangeFinish contentLength size ranges)
                else rangeLoop contentLength fuel p.tail size ranges (left - 1)
      else if start = 0 then some .declined
      else if peek p ≠ chr ',' then some (rangeFinish contentLength size ranges)
      else rangeLoop contentLength fuel p.tail size ranges left

/-- `ngx_http_range_parse` for the text after `bytes=`; `mainRanges` are those of the main
request, in a subrequest of one that has ranges. -/
def rangeParse (mainRanges : Option (List HttpRange)) (text : Bytes) (contentLength : Int)
    (ranges : Nat) : Option RangeRc :=
  match mainRanges with
  | some main => some (.ok main)
  | none => rangeLoop contentLength ((cString text).length + 1) (cString text) 0 [] ranges

end Nginx.Http
