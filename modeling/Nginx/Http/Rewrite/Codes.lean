/-
  Http/Rewrite/Codes.lean --- the codes that the directives of the rewrite module
  compile to (`src/http/modules/ngx_http_rewrite_module.c`,
  `ngx_http_script_compile` in `src/http/ngx_http_script.c`).

  All directives of a block go to one array of codes; a replacement and a value
  with variables have a second array, with the codes that compute their length.
  PCRE and the table of variables are given by `Conf`.
-/
import Nginx.Foundation.Memory

set_option autoImplicit false

namespace Nginx.Http.Rewrite

open Foundation

/-! ## Codes -/

/-- `ngx_http_regex_t`: the number of captures is 0 where the expression has none, and
`named` are the named captures with the variables they set. -/
structure Regex where
  pattern : Bytes
  caseless : Bool
  ncaptures : Nat
  named : List (Nat × Nat)
  deriving DecidableEq

/-- A code of a length script. -/
inductive LenCode where
  /-- `ngx_http_script_copy_len_code` -/
  | copy (len : Nat)
  /-- `ngx_http_script_copy_var_len_code` -/
  | copyVar (index : Nat)
  /-- `ngx_http_script_copy_capture_len_code` -/
  | copyCapture (n : Nat)
  /-- `ngx_http_script_mark_args_code` -/
  | markArgs
  deriving DecidableEq

/-- `ngx_http_script_regex_code_t`; `next` counts codes. -/
structure RegexCode where
  regex : Regex
  lengths : Option (List LenCode) := none
  size : Nat := 0
  status : Nat := 0
  next : Nat
  test : Bool := false
  negativeTest : Bool := false
  uri : Bool := false
  breakCycle : Bool := false
  /-- the replacement has its own arguments -/
  args : Bool := false
  /-- the arguments of the request are added to the new ones -/
  addArgs : Bool := false
  redirect : Bool := false
  deriving DecidableEq

/-- `ngx_http_script_regex_end_code_t` -/
structure RegexEndCode where
  uri : Bool
  args : Bool
  addArgs : Bool
  redirect : Bool
  deriving DecidableEq

/-- `ngx_http_script_file_op_e` -/
inductive FileOp where
  | plain
  | notPlain
  | dir
  | notDir
  | «exists»
  | notExists
  | exec
  | notExec
  deriving DecidableEq

/-- A code of the array that the rewrite handler runs; `null` ends the run. -/
inductive Code where
  | null
  | copy (data : Bytes)
  | copyVar (index : Nat)
  | copyCapture (n : Nat)
  | startArgs
  | regexStart (code : RegexCode)
  | regexEnd (code : RegexEndCode)
  | complexValue (lengths : List LenCode)
  | value (text : Bytes)
  | var (index : Nat)
  | setVar (index : Nat)
  | varSetHandler (data : Nat)
  | equal
  | notEqual
  | file (op : FileOp)
  /-- `next` counts codes -/
  | ifCode (locConf : Option Nat) (next : Nat)
  | breakCode
  | returnCode (status : Nat) (text : Option Bytes)
  deriving DecidableEq

/-- What compiling asks of the rest of the configuration. -/
structure Conf where
  /-- `ngx_http_regex_compile` with or without `NGX_REGEX_CASELESS` -/
  regexCompile : Bytes → Bool → Option Regex
  /-- `ngx_http_get_variable_index` -/
  variableIndex : Bytes → Option Nat
  /-- `ngx_http_add_variable`: the variable, with the data of its `set_handler` if it has one -/
  addVariable : Bytes → Option (Option Nat)
  /-- `ngx_http_compile_complex_value` of the text of a `return` -/
  complexValue : Bytes → Bool

/-! ## `ngx_http_script_compile` -/

/-- `ngx_http_script_compile_t`, as far as the rewrite module uses it. -/
structure ScriptCompile where
  lengths : List LenCode := []
  values : List Code := []
  /-- `variables` -/
  variableCount : Nat := 0
  size : Nat := 0
  /-- `captures_mask` -/
  captures : List Nat := []
  dupCapture : Bool := false
  args : Bool := false
  compileArgs : Bool
  deriving DecidableEq

namespace ScriptCompile

/-- `ngx_http_script_add_copy_code` -/
def addCopyCode (sc : ScriptCompile) (value : Bytes) : ScriptCompile :=
  { sc with lengths := sc.lengths ++ [.copy value.length], values := sc.values ++ [.copy value] }

/-- `ngx_http_script_add_var_code` -/
def addVarCode (sc : ScriptCompile) (index : Nat) : ScriptCompile :=
  { sc with lengths := sc.lengths ++ [.copyVar index], values := sc.values ++ [.copyVar index] }

/-- `ngx_http_script_add_args_code` -/
def addArgsCode (sc : ScriptCompile) : ScriptCompile :=
  { sc with lengths := sc.lengths ++ [.markArgs], values := sc.values ++ [.startArgs] }

/-- `ngx_http_script_add_capture_code` -/
def addCaptureCode (sc : ScriptCompile) (n : Nat) : ScriptCompile :=
  { sc with lengths := sc.lengths ++ [.copyCapture n], values := sc.values ++ [.copyCapture n] }

end ScriptCompile

/-- `ngx_http_script_variables_count` -/
def scriptVariablesCount (value : Bytes) : Nat := value.count (chr '$')

def isNameChar (ch : Byte) : Bool :=
  (chr 'A' ≤ ch && ch ≤ chr 'Z') || (chr 'a' ≤ ch && ch ≤ chr 'z') || (chr '0' ≤
    ch && ch ≤ chr '9') || ch == chr '_'

/-- The name of a variable behind its `$`, with the source behind it. -/
def scriptName (source : Bytes) : Option (Bytes × Bytes) :=
  match source with
  | [] => none
  | ch :: rest =>
    if ch = chr '{' then
      match rest.span isNameChar with
      -- the closing bracket is missing where another byte or nothing follows
      | (name, close :: rest') => if close = chr '}' ∧ name ≠ [] then some (name, rest') else none
      | (_, []) => none
    else
      match source.span isNameChar with
      | (name, rest') => if name ≠ [] then some (name, rest') else none

/-- A byte of the text between variables: a `?` is one where arguments are not compiled. -/
def isText (compileArgs : Bool) (ch : Byte) :
    Bool := ch != chr '$' && !(ch == chr '?' && compileArgs)

/-- One turn of the loop of `ngx_http_script_compile`, with the source that is left. -/
def scriptPart (conf : Conf) (sc : ScriptCompile) (ch : Byte) (source : Bytes) :
    Option (ScriptCompile × Bytes) :=
  if ch = chr '$' then
    match source with
    | [] => none
    | digit :: rest =>
      if chr '1' ≤ digit ∧ digit ≤ chr '9' then
        let n := (digit - chr '0').toNat
        let sc := { sc with dupCapture := sc.dupCapture || sc.captures.contains n, captures := n ::
          sc.captures }
        some (sc.addCaptureCode n, rest)
      else do
        let (name, rest) ← scriptName source
        let index ← conf.variableIndex name
        some ({ sc with variableCount := sc.variableCount + 1 }.addVarCode index, rest)
  else if ch = chr '?' ∧ sc.compileArgs then
    some ({ sc with args := true, compileArgs := false }.addArgsCode, source)
  else
    let (text, rest) := (ch :: source).span (isText sc.compileArgs)
    let args := text.contains (chr '?') || rest.head? == some (chr '?')
    some ({ sc with args := sc.args || args, size := sc.size + text.length }.addCopyCode text, rest)

/-- The loop; every turn takes a byte, so that `source.length` turns are enough. -/
def scriptParts (conf : Conf) : Nat → Bytes → ScriptCompile → Option ScriptCompile
  | _, [], sc => some sc
  | 0, _ :: _, _ => none
  | turns + 1, ch :: source, sc => do
    let (sc, rest) ← scriptPart conf sc ch source
    scriptParts conf turns rest sc

def scriptCompile (conf : Conf) (source : Bytes) (compileArgs : Bool) : Option ScriptCompile :=
  scriptParts conf source.length source { compileArgs := compileArgs }

/-! ## Directives -/

/-- The last parameter of a `rewrite` and what the beginning of its replacement says. -/
structure RewriteFlags where
  status : Nat := 0
  redirect : Bool := false
  breakCycle : Bool := false
  last : Bool := false
  deriving DecidableEq

/-- `NGX_HTTP_MOVED_PERMANENTLY` -/
def movedPermanently : Nat := 301

/-- `NGX_HTTP_MOVED_TEMPORARILY` -/
def movedTemporarily : Nat := 302

def rewriteFlags (replacement : Bytes) (flag : Option Bytes) : Option RewriteFlags :=
  let flags : RewriteFlags :=
    if ascii "http://" <+: replacement ∨ ascii "https://" <+: replacement ∨
      ascii "$scheme" <+: replacement then
      { status := movedTemporarily, redirect := true, last := true }
    else {}
  match flag with
  | none => some flags
  | some flag =>
    if flag = ascii "last" then some { flags with last := true }
    else if flag = ascii "break" then some { flags with breakCycle := true, last := true }
    else if flag = ascii "redirect" then some
      { flags with status := movedTemporarily, redirect := true, last := true }
    else if flag = ascii "permanent" then some
      { flags with status := movedPermanently, redirect := true, last := true }
    else none

/-- `ngx_http_rewrite` -/
def rewrite (conf : Conf) (pattern replacement : Bytes) (flag : Option Bytes) :
    Option (List Code) := do
  let regex ← conf.regexCompile pattern false
  -- the last "?" drops the original arguments
  let addArgs := replacement.getLast? != some (chr '?')
  let source := if addArgs then replacement else replacement.dropLast
  let flags ← rewriteFlags replacement flag
  let sc ← scriptCompile conf source (!flags.redirect)
  let lengths := if sc.variableCount = 0 ∧ sc.dupCapture = false then none else some sc.lengths
  let last : List Code := if flags.last then [.null] else []
  let code : RegexCode :=
    { regex := regex, lengths := lengths, size := sc.size, status := flags.status, uri := true,
      breakCycle := flags.breakCycle, args := sc.args, addArgs :=
        addArgs, redirect := flags.redirect,
      next := 1 + sc.values.length + 1 + last.length }
  let endCode : RegexEndCode :=
    { uri := true, args := sc.args, addArgs := addArgs, redirect := flags.redirect }
  some (.regexStart code :: sc.values ++ .regexEnd endCode :: last)

/-- `ngx_http_rewrite_value` -/
def rewriteValue (conf : Conf) (value : Bytes) : Option (List Code) :=
  if scriptVariablesCount value = 0 then
    some [.value value]
  else do
    let sc ← scriptCompile conf value false
    some (.complexValue sc.lengths :: sc.values)

/-- `ngx_http_rewrite_variable` -/
def rewriteVariable (conf : Conf) (value : Bytes) : Option (List Code) := do
  let index ← conf.variableIndex value.tail
  some [.var index]

/-- `ngx_http_rewrite_set` -/
def rewriteSet (conf : Conf) (name value : Bytes) : Option (List Code) :=
  if name.head? ≠ some (chr '$') then
    none
  else do
    let setHandler ← conf.addVariable name.tail
    let index ← conf.variableIndex name.tail
    let codes ← rewriteValue conf value
    match setHandler with
    | some data => some (codes ++ [.varSetHandler data])
    | none => some (codes ++ [.setVar index])

/-- The brackets around a condition; they may stand alone. -/
def conditionArgs (args : List Bytes) : Option (List Bytes) := do
  let args ← match args with
    | (open' :: first) :: rest =>
      if open' ≠ chr '(' then none else some (if first = [] then rest else first :: rest)
    | _ => none
  let last ← args.getLast?
  if last.getLast? ≠ some (chr ')') then
    none
  else
    some (if last.length = 1 then args.dropLast else args.dropLast ++ [last.dropLast])

/-- The letter of a test for a file. -/
def fileOp (not : Bool) (letter : Byte) : Option FileOp :=
  if letter = chr 'f' then some (if not then .notPlain else .plain)
  else if letter = chr 'd' then some (if not then .notDir else .dir)
  else if letter = chr 'e' then some (if not then .notExists else .exists)
  else if letter = chr 'x' then some (if not then .notExec else .exec)
  else none

/-- A test of a variable against a regular expression. -/
def regexTest (conf : Conf) (pattern : Bytes) (caseless negative : Bool) : Option (List Code) := do
  let regex ← conf.regexCompile pattern caseless
  some [.regexStart { regex := regex, next := 1, test := true, negativeTest := negative }]

/-- The comparison behind a variable. -/
def rewriteIfOperator (conf : Conf) (operator operand : Bytes) : Option (List Code) :=
  if operator = ascii "=" then do
    let codes ← rewriteValue conf operand
    some (codes ++ [.equal])
  else if operator = ascii "!=" then do
    let codes ← rewriteValue conf operand
    some (codes ++ [.notEqual])
  else if operator = ascii "~" then regexTest conf operand false false
  else if operator = ascii "~*" then regexTest conf operand true false
  else if operator = ascii "!~" then regexTest conf operand false true
  else if operator = ascii "!~*" then regexTest conf operand true true
  else none

/-- A variable, alone or compared. -/
def rewriteIfVariable (conf : Conf) (variable' : Bytes) (comparison : List Bytes) :
    Option (List Code) :=
  match comparison with
  | [] => rewriteVariable conf variable'
  | [operator, operand] => do
    let var ← rewriteVariable conf variable'
    let codes ← rewriteIfOperator conf operator operand
    some (var ++ codes)
  | _ => none

/-- `ngx_http_rewrite_if_condition` -/
def rewriteIfCondition (conf : Conf) (args : List Bytes) : Option (List Code) := do
  match ← conditionArgs args with
  | [] => none
  | first :: rest =>
    if 1 < first.length ∧ first.head? = some (chr '$') then
      rewriteIfVariable conf first rest
    else
      match first, rest with
      | [minus, letter], [name] => fileTest false minus letter name
      | [bang, minus, letter], [name] =>
        if bang = chr '!' then fileTest true minus letter name else none
      | _, _ => none
where
  /-- The name is tested with its terminating zero. -/
  fileTest (not : Bool) (minus letter : Byte) (name : Bytes) : Option (List Code) :=
    if minus = chr '-' then do
      let codes ← rewriteValue conf (name ++ [0])
      let op ← fileOp not letter
      some (codes ++ [.file op])
    else none

/-- `ngx_http_rewrite_return` -/
def rewriteReturn (conf : Conf) (value : Bytes) (text : Option Bytes) : Option (List Code) :=
  let digits := value ≠ [] ∧ value.all (fun ch => chr '0' ≤ ch ∧ ch ≤ chr '9')
  if digits then
    let status := value.foldl (fun n ch => n * 10 + (ch - chr '0').toNat) 0
    if status ≤ 999 ∧ text.all conf.complexValue then some [.returnCode status text] else none
  else
    let outside :=
      ascii "http://" <+: value ∨ ascii "https://" <+: value ∨ ascii "$scheme" <+: value
    if text = none ∧ outside ∧ conf.complexValue value then
      some [.returnCode movedTemporarily (some value)]
    else none

/-- A directive of the rewrite module with its parameters. -/
inductive Directive where
  | rewrite (pattern replacement : Bytes) (flag : Option Bytes)
  | set (name value : Bytes)
  /-- with the configuration of the location that the block is, none on the level of a server -/
  | «if» (args : List Bytes) (locConf : Option Nat) (block : List Directive)
  | «break»
  | «return» (value : Bytes) (text : Option Bytes)

mutual

/-- The codes of a directive; a block goes to the same array behind its condition. -/
def Directive.codes (conf : Conf) : Directive → Option (List Code)
  | .rewrite pattern replacement flag => Rewrite.rewrite conf pattern replacement flag
  | .set name value => rewriteSet conf name value
  | .if args locConf block => do
    let condition ← rewriteIfCondition conf args
    let codes ← blockCodes conf block
    some (condition ++ .ifCode locConf (1 + codes.length) :: codes)
  | .break => some [.breakCode]
  | .return value text => rewriteReturn conf value text

/-- The codes of the directives of a block in their order. -/
def blockCodes (conf : Conf) : List Directive → Option (List Code)
  | [] => some []
  | directive :: block => do
    let codes ← directive.codes conf
    let rest ← blockCodes conf block
    some (codes ++ rest)

end

/-- `rlcf->codes`: a null is put behind the codes when the block is merged. -/
def compile (conf : Conf) (block : List Directive) : Option (List Code) := do
  let codes ← blockCodes conf block
  some (codes ++ [.null])

end Nginx.Http.Rewrite
