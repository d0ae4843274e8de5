/-
  Http/Script.lean --- values that are put together from text, variables and captures
  (`src/http/ngx_http_script.c`).

  A value is compiled to codes that compute its length and to codes that copy it.
  What a variable and a capture are for the request is given: a variable is evaluated
  once and kept, and captures are not escaped.
-/
import Mathlib.Algebra.BigOperators.Group.List.Basic
import Nginx.Foundation.Memory

set_option autoImplicit false

namespace Nginx.Http

open Foundation List

/-- A part of a value, as `ngx_http_script_compile` finds it. -/
inductive ScriptPart where
  | text (value : Bytes)
  | var (index : Nat)
  | capture (n : Nat)
  deriving DecidableEq

/-- What a script reads from the request. -/
structure ScriptRequest where
  /-- `ngx_http_get_indexed_variable`; a variable that is not found is `none` -/
  indexedVariable : Nat → Option Bytes
  /-- `r->captures`; empty from `r->ncaptures` on -/
  capture : Nat → Bytes

/-- A code of the length script; `null` ends a value. -/
inductive LenCode where
  | null
  /-- `ngx_http_script_copy_len_code` -/
  | copy (len : Nat)
  /-- `ngx_http_script_copy_var_len_code` -/
  | copyVar (index : Nat)
  /-- `ngx_http_script_copy_capture_len_code` -/
  | copyCapture (n : Nat)
  deriving DecidableEq

/-- A code of the value script; `null` ends a value. -/
inductive ValueCode where
  | null
  /-- `ngx_http_script_copy_code` -/
  | copy (data : Bytes)
  /-- `ngx_http_script_copy_var_code` -/
  | copyVar (index : Nat)
  /-- `ngx_http_script_copy_capture_code` -/
  | copyCapture (n : Nat)
  deriving DecidableEq

namespace ScriptRequest

variable (r : ScriptRequest)

/-- What a part is for the request. -/
def part : ScriptPart → Bytes
  | .text value => value
  | .var index => (r.indexedVariable index).getD []
  | .capture n => r.capture n

/-- What a value is for the request. -/
def value (parts : List ScriptPart) : Bytes := parts.flatMap r.part

end ScriptRequest

/-- `ngx_http_script_add_copy_code` and its like: the code of a part for the length script. -/
def ScriptPart.lenCode : ScriptPart → LenCode
  | .text value => .copy value.length
  | .var index => .copyVar index
  | .capture n => .copyCapture n

/-- The code of a part for the value script. -/
def ScriptPart.valueCode : ScriptPart → ValueCode
  | .text value => .copy value
  | .var index => .copyVar index
  | .capture n => .copyCapture n

/-! ## The two scripts of a value agree -/

namespace ScriptRequest

variable (r : ScriptRequest)

end ScriptRequest

end Nginx.Http
