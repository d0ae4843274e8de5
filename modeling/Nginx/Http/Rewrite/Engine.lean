/-
  Http/Rewrite/Engine.lean --- the engine that runs the codes of the rewrite module
  (`src/http/ngx_http_script.c`, `ngx_http_rewrite_handler`).

  Memory of the pool is a `Buffer` with the bytes written so far; the engine goes
  wrong where it would write behind the end of one or read what it has not written.
  PCRE, the handlers of variables, files and the pool are given by `Env`.
-/
import Nginx.Core.EscapeUri
import Nginx.Http.Rewrite.Codes

set_option autoImplicit false

namespace Nginx.Http.Rewrite

open Foundation Nginx.Core

/-! ## The request -/

/-- A part of a string of `n` bytes. -/
structure Range (n : Nat) where
  start : Nat
  stop : Nat
  le : start ≤ stop
  bound : stop ≤ n

/-- `r->captures` with `r->captures_data`; a group that is not set is none. -/
structure Captures where
  data : Bytes
  ranges : List (Option (Range data.length))

namespace Captures

/-- `r->ncaptures = 0` -/
def empty : Captures := ⟨[], []⟩

/-- The bytes from `cap[n]` to `cap[n + 1]`; there are none from `r->ncaptures` on. -/
def get (c : Captures) (n : Nat) : Bytes :=
  match c.ranges[n]? with
  | some (some range) => (c.data.drop range.start).take (range.stop - range.start)
  | _ => []

/-- The lengths of all captures but the whole match. -/
def total (c : Captures) :
    Nat := ((List.range c.ranges.length).tail.map fun n => (c.get n).length).sum

end Captures

/-- `ngx_http_variable_value_t` -/
structure VariableValue where
  data : Bytes := []
  valid : Bool := false
  noCacheable : Bool := false
  notFound : Bool := false
  deriving DecidableEq

/-- `ngx_http_request_t`, as far as the codes use it. -/
structure Request where
  uri : Bytes
  args : Bytes
  quotedUri : Bool
  plusInUri : Bool
  captures : Captures
  /-- `variables` -/
  values : Nat → VariableValue
  internal : Bool
  validUnparsedUri : Bool
  validLocation : Bool
  uriChanged : Bool
  /-- `headers_out.location` -/
  location : Option Bytes
  locConf : Option Nat

/-- `r->quoted_uri || r->plus_in_uri` -/
def Request.decoded (r : Request) : Bool := r.quotedUri || r.plusInUri

def Request.setValue (r : Request) (index : Nat) (v : VariableValue) : Request :=
  { r with values := Function.update r.values index v }

/-! ## What the engine asks of the rest of the server -/

/-- What `pcre_exec` finds in a string of `n` bytes; the groups are ranges of it. -/
inductive ExecResult (n : Nat) where
  | noMatch
  | error
  | matched (ranges : List (Option (Range n)))

/-- What a `get_handler` leaves behind; one that runs a regular expression changes the captures. -/
structure HandlerResult where
  ok : Bool
  values : Nat → VariableValue
  captures : Captures

/-- `ngx_open_file_info_t` after `ngx_open_cached_file`. -/
inductive FileInfo where
  /-- `of.err` is 0 or symbolic links could not be checked -/
  | error
  | failed
  | found (isFile isDir isLink isExec : Bool)
  deriving DecidableEq

structure Env where
  pcreExec : Regex → (s : Bytes) → ExecResult s.length
  getHandler : Nat → Request → HandlerResult
  /-- `NGX_HTTP_VAR_NOCACHEABLE` -/
  noCacheable : Nat → Bool
  setHandler : Nat → Bytes → Request → Request
  openCachedFile : Bytes → FileInfo
  /-- `ngx_http_send_response` -/
  sendResponse : Nat → Option Bytes → Request → Nat
  /-- whether `ngx_pnalloc` has the memory, after a number of calls -/
  pnalloc : Nat → Nat → Bool

section Variables

variable (env : Env)

/-- `ngx_http_get_indexed_variable` of an index that is known, outside of all handlers. -/
def getIndexedVariable (r : Request) (index : Nat) : Option VariableValue × Request :=
  if (r.values index).notFound || (r.values index).valid then
    (some (r.values index), r)
  else
    let result := env.getHandler index r
    let r := { r with values := result.values, captures := result.captures }
    if result.ok then
      let v :=
        { r.values index with noCacheable := (r.values index).noCacheable || env.noCacheable index }
      (some v, r.setValue index v)
    else
      (none, r.setValue index { r.values index with valid := false, notFound := true })

/-- `ngx_http_get_flushed_variable` -/
def getFlushedVariable (r : Request) (index : Nat) : Option VariableValue × Request :=
  let v := r.values index
  if v.valid || v.notFound then
    if v.noCacheable then
      getIndexedVariable env (r.setValue index { v with valid := false, notFound := false }) index
    else (some v, r)
  else getIndexedVariable env r index

/-- The bytes of a value, none `if (value && !value->not_found)` fails. -/
def foundValue (v : Option VariableValue) : Option Bytes :=
  v.bind fun v => if v.notFound then none else some v.data

/-- What a variable is for a code and the request after it was asked. -/
def readVariable (r : Request) (index : Nat) : Bytes × Request :=
  ((foundValue (getFlushedVariable env r index).1).getD [], (getFlushedVariable env r index).2)

/-- `ngx_http_regex_exec`, with the request where it returns `NGX_OK`. -/
inductive RegexOutcome where
  | declined
  | error
  | ok (r : Request)

/-- The captures with their names go to variables. -/
def setNamed (captures : Captures) : List (Nat × Nat) → Request → Request
  | [], r => r
  | (n, index) :: named, r =>
    setNamed captures named (r.setValue index { data := captures.get n, valid := true })

/-- `ngx_http_regex_exec`; where no captures are asked for `rc` is 0. -/
def regexExec (r : Request) (re : Regex) (s : Bytes) : RegexOutcome :=
  match env.pcreExec re s with
  | .noMatch => .declined
  | .error => .error
  | .matched ranges =>
    let captures : Captures := ⟨s, if re.ncaptures = 0 then [] else ranges⟩
    .ok { setNamed captures re.named r with captures := captures }

end Variables

/-! ## Length scripts -/

/-- The bytes a capture takes where it is escaped or not. -/
def captureLength (escape : Bool) (capture : Bytes) : Nat :=
  if escape then capture.length + 2 * countEscapes capture else capture.length

/-- The engine `le` of a length script. -/
structure LengthEngine where
  isArgs : Bool
  quote : Bool
  request : Request

/-- `lcode(&le)` -/
def runLenCode (env : Env) (le : LengthEngine) : LenCode → Nat × LengthEngine
  | .copy len => (len, le)
  | .copyVar index =>
    ((readVariable env le.request index).1.length,
      { le with request := (readVariable env le.request index).2 })
  | .copyCapture n =>
    (captureLength ((le.isArgs || le.quote) && le.request.decoded) (le.request.captures.get n), le)
  | .markArgs => (1, { le with isArgs := true })

/-- `while (*(uintptr_t *) le.ip)` -/
def runLengths (env : Env) : List LenCode → LengthEngine → Nat × LengthEngine
  | [], le => (0, le)
  | code :: ip, le =>
    let rest := runLengths env ip (runLenCode env le code).2
    ((runLenCode env le code).1 + rest.1, rest.2)

/-! ## The engine -/

/-- Memory of the pool with what is written of it from its beginning. -/
structure Buffer where
  len : Nat
  data : Bytes
  fits : data.length ≤ len

namespace Buffer

def new (len : Nat) : Buffer := ⟨len, [], Nat.zero_le len⟩

/-- The buffer with other contents, if they fit. -/
def fill? (b : Buffer) (data : Bytes) : Option Buffer :=
  if h : data.length ≤ b.len then some ⟨b.len, data, h⟩ else none

/-- Everything is written. -/
def full (b : Buffer) : Prop := b.data.length = b.len

instance (b : Buffer) : Decidable b.full := inferInstanceAs (Decidable (_ = _))

end Buffer

/-- A string on the stack: a text of the configuration or the buffer of a complex value. -/
inductive StackValue where
  | text (data : Bytes)
  | buffer (i : Nat)
  deriving DecidableEq

/-- What must not happen. -/
inductive Fault where
  /-- a write behind the end of a buffer -/
  | overrun
  /-- a string is used of which not all bytes are written -/
  | unwritten
  /-- `e->sp` outside of the stack -/
  | stack
  /-- `e->ip` outside of the codes -/
  | code
  deriving DecidableEq

/-- `ngx_http_script_engine_t` -/
structure Engine where
  ip : List Code
  sp : List StackValue
  /-- the buffers before the one in use -/
  buffers : List Buffer
  /-- the memory of `buf`; `pos` is behind its data -/
  buf : Buffer
  line : Bytes
  /-- the offset of `args` in `buf` -/
  args : Option Nat
  quote : Bool
  isArgs : Bool
  /-- none is `NGX_DECLINED` -/
  status : Option Nat
  request : Request

/-- `NGX_HTTP_INTERNAL_SERVER_ERROR` -/
def internalServerError : Nat := 500

/-- `rlcf->stack_size` -/
def stackSize : Nat := 10

namespace Engine

variable (e : Engine)

/-- `e->ip += sizeof(…)` -/
def advance : Engine := { e with ip := e.ip.tail }

/-- `e->ip += code->next` -/
def jump (next : Nat) : Engine := { e with ip := e.ip.drop next }

/-- `e->ip = ngx_http_script_exit` -/
def exit : Engine := { e with ip := [.null] }

def fail : Engine := { e.exit with status := some internalServerError }

/-- What is written from `buf.data` on. -/
def fill (data : Bytes) : Except Fault Engine :=
  match e.buf.fill? data with
  | some b => .ok { e with buf := b }
  | none => .error .overrun

/-- What is written at `e->pos`. -/
def write (data : Bytes) : Except Fault Engine := e.fill (e.buf.data ++ data)

def push (v : StackValue) : Except Fault Engine :=
  if e.sp.length < stackSize then .ok { e with sp := v :: e.sp } else .error .stack

/-- The memory of a buffer; those before the one in use are numbered from 0. -/
def buffer (i : Nat) : Buffer := e.buffers.getD i e.buf

/-- The bytes of a string. -/
def read : StackValue → Except Fault Bytes
  | .text data => .ok data
  | .buffer i => if (e.buffer i).full then .ok (e.buffer i).data else .error .unwritten

/-- `e->sp--` with the string there. -/
def pop : Except Fault (Bytes × Engine) :=
  match e.sp with
  | [] => .error .stack
  | v :: sp =>
    match e.read v with
    | .ok data => .ok (data, { e with sp := sp })
    | .error fault => .error fault

/-- `ngx_pnalloc`, none where there is no memory. -/
def alloc (env : Env) (len : Nat) : Option Engine :=
  if env.pnalloc e.buffers.length len then
    some { e with buffers := e.buffers ++ [e.buf], buf := Buffer.new len }
  else none

/-! ### Codes that write -/

/-- `ngx_http_script_copy_code`; `e->skip` is never set here. -/
def copyCode (data : Bytes) : Except Fault Engine := e.advance.write data

/-- `ngx_http_script_copy_var_code` -/
def copyVarCode (env : Env) (index : Nat) : Except Fault Engine :=
  let (data, r) := readVariable env e.request index
  { e.advance with request := r }.write data

/-- `ngx_http_script_copy_capture_code` -/
def copyCaptureCode (n : Nat) : Except Fault Engine :=
  let capture := e.request.captures.get n
  if (e.isArgs || e.quote) && e.request.decoded then
    e.advance.write (escapeUri capture)
  else e.advance.write capture

/-- `ngx_http_script_start_args_code` -/
def startArgsCode : Engine := { e.advance with isArgs := true, args := some e.buf.data.length }

/-! ### `ngx_http_script_regex_start_code` -/

/-- The memory of a replacement without a length script. -/
def replacementLength (code : RegexCode) (r : Request) : Nat :=
  code.size +
    (if code.uri && !r.captures.ranges.isEmpty && r.decoded then 2 * countEscapes r.uri else 0) +
    r.captures.total

/-- The memory for the arguments that are added to the new ones. -/
def addedArgs (addArgs : Bool) (r : Request) :
    Nat := if addArgs && r.args != [] then r.args.length + 1 else 0

/-- The length of a replacement, by its script or its size. -/
def regexLength (env : Env) (code : RegexCode) (r : Request) : Nat × Request :=
  match code.lengths with
  | none => (replacementLength code r, r)
  | some lengths =>
    let (len, le) :=
      runLengths env lengths { isArgs := false, quote := code.redirect, request := r }
    (len, le.request)

/-- What a rewrite says of the request. -/
def markRewritten (code : RegexCode) (r : Request) : Request :=
  if code.uri then
    if code.breakCycle then
      { r with
        internal := true, validUnparsedUri := false, validLocation := false, uriChanged := false }
    else { r with internal := true, validUnparsedUri := false, uriChanged := true }
  else r

/-- The match of a replacement: the value run starts. -/
def startReplacement (env : Env) (code : RegexCode) (r : Request) : Engine :=
  let e := if code.status ≠ 0 then { e with status := some code.status } else e
  if code.status ≠ 0 ∧ code.redirect = false then
    { e.exit with request := r }
  else
    let (len, r) := regexLength env code (markRewritten code r)
    let e := { e with request := r }
    match e.alloc env (len + addedArgs code.addArgs r) with
    | none => e.fail
    | some e => { e.advance with quote := code.redirect }

/-- What is left of a test on the stack. -/
def testResult (success : Bool) : StackValue := .text (if success then [chr '1'] else [])

def regexStartCode (env : Env) (code : RegexCode) : Except Fault Engine := do
  let (line, e) ← if code.uri then .ok (e.request.uri, e) else e.pop
  let e := { e with line := line }
  match regexExec env e.request code.regex line with
  | .declined =>
    let e := { e with request := { e.request with captures := Captures.empty } }
    if code.test then
      let e ← e.push (testResult code.negativeTest)
      .ok e.advance
    else .ok (e.jump code.next)
  | .error => .ok e.fail
  | .ok r =>
    if code.test then
      let e ← { e with request := r }.push (testResult (!code.negativeTest))
      .ok e.advance
    else .ok (e.startReplacement env code r)

/-! ### `ngx_http_script_regex_end_code` -/

/-- The arguments of the request behind what is written. -/
def addArgsCode (separator : Char) (addArgs : Bool) : Except Fault Engine :=
  if addArgs && e.request.args != [] then e.write (chr separator :: e.request.args) else .ok e

/-- `if (code->redirect)` -/
def endRedirect (code : RegexEndCode) : Except Fault Engine := do
  let e ← e.fill (unescapeUri e.buf.data)
  let e ← e.addArgsCode (if code.args then '&' else '?') code.addArgs
  .ok { e.advance with request := { e.request with location := some e.buf.data } }

/-- The new URI, and what is left of the arguments. -/
def endUri (code : RegexEndCode) (uri args : Bytes) : Engine :=
  let r := { e.request with args := args }
  if code.uri then
    if uri = [] then { e.fail with request := { r with uri := uri } }
    else { e.advance with request := { r with uri := uri } }
  else { e.advance with request := r }

def regexEndCode (code : RegexEndCode) : Except Fault Engine :=
  let e := { e with quote := false }
  if code.redirect then
    e.endRedirect code
  else
    match e.args with
    | some start => do
      let e ← e.addArgsCode '&' code.addArgs
      .ok ({ e with args := none }.endUri code (e.buf.data.take start) (e.buf.data.drop start))
    | none => .ok (e.endUri code e.buf.data (if code.addArgs then e.request.args else []))

/-! ### Values and tests -/

/-- `ngx_http_script_complex_value_code` -/
def complexValueCode (env : Env) (lengths : List LenCode) : Except Fault Engine :=
  let (len, le) :=
    runLengths env lengths { isArgs := false, quote := e.quote, request := e.request }
  let e := { e.advance with request := le.request }
  match e.alloc env len with
  | none => .ok e.fail
  | some e => e.push (.buffer e.buffers.length)

/-- `ngx_http_script_value_code` -/
def valueCode (text : Bytes) : Except Fault Engine := e.advance.push (.text text)

/-- `ngx_http_script_var_code` -/
def varCode (env : Env) (index : Nat) : Except Fault Engine :=
  let (data, r) := readVariable env e.request index
  { e.advance with request := r }.push (.text data)

/-- `ngx_http_script_set_var_code` -/
def setVarCode (index : Nat) : Except Fault Engine := do
  let (data, e) ← e.pop
  .ok { e.advance with request := e.request.setValue index { data := data, valid := true } }

/-- `ngx_http_script_var_set_handler_code` -/
def varSetHandlerCode (env : Env) (data : Nat) : Except Fault Engine := do
  let (value, e) ← e.pop
  .ok { e.advance with request := env.setHandler data value e.request }

/-- `ngx_strncmp(s1, s2, n) == 0` of two strings of `n` bytes. -/
def strncmp : Bytes → Bytes → Bool
  | a :: s₁, b :: s₂ => a == b && (a == 0 || strncmp s₁ s₂)
  | _, _ => true

/-- `ngx_http_script_equal_code` and `ngx_http_script_not_equal_code` -/
def compareCode (equal : Bool) : Except Fault Engine := do
  let (val, e) ← e.pop
  let (res, e) ← e.pop
  let same := val.length == res.length && strncmp val res
  e.advance.push (testResult (same == equal))

/-- `e->sp->len && (e->sp->len != 1 || e->sp->data[0] != '0')` -/
def isTrue (value : Bytes) : Bool := value != [] && value != [chr '0']

/-- `ngx_http_script_if_code` -/
def ifCode (locConf : Option Nat) (next : Nat) : Except Fault Engine := do
  let (value, e) ← e.pop
  if isTrue value then
    .ok { e.advance with request := { e.request with locConf := locConf <|> e.request.locConf } }
  else .ok (e.jump next)

/-- The answer to a test of a file, none where it cannot be made. -/
def fileTest (op : FileOp) : FileInfo → Option Bool
  | .error => none
  | .failed =>
    match op with
    | .plain => some false
    | .dir => some false
    | .exists => some false
    | .exec => some false
    | .notPlain => some true
    | .notDir => some true
    | .notExists => some true
    | .notExec => some true
  | .found isFile isDir isLink isExec =>
    match op with
    | .plain => some isFile
    | .notPlain => some !isFile
    | .dir => some isDir
    | .notDir => some !isDir
    | .exists => some (isFile || isDir || isLink)
    | .notExists => some !(isFile || isDir || isLink)
    | .exec => some isExec
    | .notExec => some !isExec

/-- `ngx_http_script_file_code`; the last byte of the name is its terminating zero. -/
def fileCode (env : Env) (op : FileOp) : Except Fault Engine := do
  let (value, e) ← e.pop
  match fileTest op (env.openCachedFile value.dropLast) with
  | some result => e.advance.push (testResult result)
  | none => .ok e.fail

/-- `ngx_http_script_break_code` -/
def breakCode : Engine := { e.exit with request := { e.request with uriChanged := false } }

/-- `NGX_HTTP_BAD_REQUEST` -/
def badRequest : Nat := 400

/-- `ngx_http_script_return_code` -/
def returnCode (env : Env) (status : Nat) (text : Option Bytes) : Engine :=
  let hasText := text.any fun text => text != []
  { e.exit with
    status := some
      (if status < badRequest ∨ hasText then env.sendResponse status text e.request else status) }

/-! ### The run -/

/-- `code(e)` -/
def runCode (env : Env) : Code → Except Fault Engine
  | .null => .ok e
  | .copy data => e.copyCode data
  | .copyVar index => e.copyVarCode env index
  | .copyCapture n => e.copyCaptureCode n
  | .startArgs => .ok e.startArgsCode
  | .regexStart code => e.regexStartCode env code
  | .regexEnd code => e.regexEndCode code
  | .complexValue lengths => e.complexValueCode env lengths
  | .value text => e.valueCode text
  | .var index => e.varCode env index
  | .setVar index => e.setVarCode index
  | .varSetHandler data => e.varSetHandlerCode env data
  | .equal => e.compareCode true
  | .notEqual => e.compareCode false
  | .file op => e.fileCode env op
  | .ifCode locConf next => e.ifCode locConf next
  | .breakCode => .ok e.breakCode
  | .returnCode status text => .ok (e.returnCode env status text)

end Engine

/-- `while (*(uintptr_t *) e->ip)`: at a null the engine stays. -/
def step (env : Env) (e : Engine) : Except Fault Engine :=
  match e.ip with
  | [] => .error .code
  | code :: _ => e.runCode env code

/-- The loop has ended. -/
def Engine.done (e : Engine) : Prop := e.ip.head? = some .null

instance (e : Engine) : Decidable e.done := inferInstanceAs (Decidable (_ = _))

/-- The engine of `ngx_http_rewrite_handler`. -/
def rewriteEngine (codes : List Code) (r : Request) : Engine :=
  { ip := codes, sp := [], buffers := [], buf := Buffer.new 0, line := [],
    args := none, quote := true,
    isArgs := false, status := none, request := r }

end Nginx.Http.Rewrite
