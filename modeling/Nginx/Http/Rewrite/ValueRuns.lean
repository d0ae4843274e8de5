/-
  Http/Rewrite/ValueRuns.lean --- what the length pass and the value pass of a source see,
  and one value run: its memory, its writes and its end.

  The passes read the same variables and captures, one after the other; the value
  pass escapes more where `e->is_args` is left over from an earlier directive.
  `Fits` is the condition under which the run that a code is about to start stays
  in the memory allocated for it.  `run_parts` makes the writes; the lemmas on
  the ends say what the strings of the stack need.
-/
import Mathlib.Algebra.BigOperators.Group.Finset.Basic
import Mathlib.Data.Finset.Basic
import Nginx.Http.Rewrite.Layout

set_option autoImplicit false

namespace Nginx.Http.Rewrite

open List Foundation Foundation.Stepping Nginx.Core

/-! ## What a pass reads -/

section Reads

variable (env : Env)

/-- The request after a pass. -/
def requestAfter : List LenCode → Request → Request
  | [], r => r
  | .copyVar index :: ip, r => requestAfter ip (readVariable env r index).2
  | _ :: ip, r => requestAfter ip r

/-- The values of the variables that a pass reads. -/
def variablesRead : List LenCode → Request → List Bytes
  | [], _ => []
  | .copyVar index :: ip, r =>
    (readVariable env r index).1 :: variablesRead ip (readVariable env r index).2
  | _ :: ip, r => variablesRead ip r

/-- The captures that a pass reads. -/
def capturesRead : List LenCode → Request → List Bytes
  | [], _ => []
  | .copyVar index :: ip, r => capturesRead ip (readVariable env r index).2
  | .copyCapture n :: ip, r => r.captures.get n :: capturesRead ip r
  | _ :: ip, r => capturesRead ip r

/-- The variables have the same values in both passes. -/
def SameVariables (lengths : List LenCode) (r : Request) : Prop :=
  variablesRead env lengths r = variablesRead env lengths (requestAfter env lengths r)

/-- No variable of the source runs a regular expression between two readings of a capture. -/
def SameCaptures (lengths : List LenCode) (r : Request) : Prop :=
  capturesRead env lengths r = capturesRead env lengths (requestAfter env lengths r)

instance (lengths : List LenCode) (r : Request) : Decidable (SameVariables env lengths r) :=
  inferInstanceAs (Decidable (_ = _))

instance (lengths : List LenCode) (r : Request) : Decidable (SameCaptures env lengths r) :=
  inferInstanceAs (Decidable (_ = _))

end Reads

/-- The bytes to be escaped in all of some captures. -/
def escapesOf (captures : List Bytes) : Nat := (captures.map countEscapes).sum

/-- The codes of a length script before the arguments. -/
def beforeArgs (lengths : List LenCode) : List LenCode := lengths.takeWhile (· != .markArgs)

theorem beforeArgs_copy (len : Nat) (ip : List LenCode) :
    beforeArgs (.copy len :: ip) = .copy len :: beforeArgs ip := rfl

theorem beforeArgs_copyVar (index : Nat) (ip : List LenCode) :
    beforeArgs (.copyVar index :: ip) = .copyVar index :: beforeArgs ip := rfl

theorem beforeArgs_copyCapture (n : Nat) (ip : List LenCode) :
    beforeArgs (.copyCapture n :: ip) = .copyCapture n :: beforeArgs ip := rfl

theorem beforeArgs_markArgs (ip : List LenCode) : beforeArgs (.markArgs :: ip) = [] := rfl

section Compare

variable {env : Env}

theorem readVariable_keeps (env : Env) (r : Request) (index : Nat) :
    ∃ values captures,
      (readVariable env r index).2 = { r with values := values, captures := captures } := by
  have hindexed : ∀ r : Request, ∃ values captures,
      (getIndexedVariable env r index).2 = { r with values := values, captures := captures } := by
    intro r
    unfold getIndexedVariable
    dsimp only
    split
    · exact ⟨r.values, r.captures, rfl⟩
    · split
      · exact ⟨_, _, rfl⟩
      · exact ⟨_, _, rfl⟩
  unfold readVariable getFlushedVariable
  dsimp only
  split
  · split
    · exact hindexed _
    · exact ⟨r.values, r.captures, rfl⟩
  · exact hindexed r

theorem requestAfter_keeps (env : Env) (lengths : List LenCode) (r : Request) :
    ∃ values captures,
      requestAfter env lengths r = { r with values := values, captures := captures } := by
  induction lengths generalizing r with
  | nil => exact ⟨r.values, r.captures, rfl⟩
  | cons code ip ih =>
    cases code with
    | copyVar index =>
      obtain ⟨values, captures, hread⟩ := readVariable_keeps env r index
      obtain ⟨values', captures', hafter⟩ := ih (readVariable env r index).2
      refine ⟨values', captures', ?_⟩
      rw [requestAfter, hafter, hread]
    | copy len => exact ih r
    | copyCapture n => exact ih r
    | markArgs => exact ih r

theorem readVariable_decoded (r : Request) (index : Nat) :
    (readVariable env r index).2.decoded = r.decoded := by
  obtain ⟨values, captures, h⟩ := readVariable_keeps env r index
  rw [h]
  rfl

theorem requestAfter_decoded (lengths : List LenCode) (r : Request) :
    (requestAfter env lengths r).decoded = r.decoded := by
  obtain ⟨values, captures, h⟩ := requestAfter_keeps env lengths r
  rw [h]
  rfl

theorem runLengths_request (env : Env) (lengths : List LenCode) (le : LengthEngine) :
    (runLengths env lengths le).2.request = requestAfter env lengths le.request := by
  induction lengths generalizing le with
  | nil => rfl
  | cons code ip ih =>
    rw [runLengths, ih]
    cases code <;> rfl

theorem runLengths_cons (code : LenCode) (ip : List LenCode) (le : LengthEngine) :
    (runLengths env (code :: ip) le).1 =
      (runLenCode env le code).1 + (runLengths env ip (runLenCode env le code).2).1 :=
  rfl

variable {lengths : List LenCode}

/-- Two passes with the same flags that read the same have the same length. -/
theorem runLengths_congr {isArgs quote : Bool} {r r' : Request}
    (hdecoded : r.decoded = r'.decoded)
    (hvars : variablesRead env lengths r = variablesRead env lengths r')
    (hcaptures : capturesRead env lengths r = capturesRead env lengths r') :
    (runLengths env lengths ⟨isArgs, quote, r⟩).1 =
      (runLengths env lengths ⟨isArgs, quote, r'⟩).1 := by
  induction lengths generalizing r r' isArgs with
  | nil => rfl
  | cons code ip ih =>
    rw [runLengths_cons, runLengths_cons]
    cases code with
    | copy len => exact congrArg (len + ·) (ih hdecoded hvars hcaptures)
    | copyVar index =>
      obtain ⟨hvalue, hvars'⟩ := cons.inj hvars
      have hdecoded' : (readVariable env r index).2.decoded =
        (readVariable env r' index).2.decoded := by
        rw [readVariable_decoded, readVariable_decoded, hdecoded]
      have hrest := @ih isArgs _ _ hdecoded' hvars' hcaptures
      simp only [runLenCode]
      rw [hvalue, hrest]
    | copyCapture n =>
      obtain ⟨hvalue, hcaptures'⟩ := cons.inj hcaptures
      simp only [runLenCode]
      rw [hvalue, hdecoded, ih hdecoded hvars hcaptures']
    | markArgs => exact congrArg (1 + ·) (ih hdecoded hvars hcaptures)

/-- A pass that starts with `is_args` set is longer by the escapes before the arguments. -/
theorem runLengths_args {quote : Bool} {r : Request} :
    (runLengths env lengths ⟨true, quote, r⟩).1 =
      (runLengths env lengths ⟨false, quote, r⟩).1 +
        (if quote = false ∧
          r.decoded =
          true then 2 * escapesOf (capturesRead env (beforeArgs lengths) r) else 0) := by
  induction lengths generalizing r with
  | nil => simp [runLengths, beforeArgs, capturesRead, escapesOf]
  | cons code ip ih =>
    rw [runLengths_cons, runLengths_cons]
    cases code with
    | copy len =>
      have hrest := ih (r := r)
      simp only [runLenCode, beforeArgs_copy, capturesRead]
      omega
    | copyVar index =>
      have hrest := ih (r := (readVariable env r index).2)
      rw [readVariable_decoded] at hrest
      simp only [runLenCode, beforeArgs_copyVar, capturesRead]
      omega
    | copyCapture n =>
      have hrest := ih (r := r)
      simp only [runLenCode, beforeArgs_copyCapture, capturesRead, escapesOf, map_cons, sum_cons]
        at hrest ⊢
      cases quote with
      | true =>
        simp only [Bool.or_true, reduceCtorEq, false_and, if_false, add_zero] at hrest ⊢
        rw [hrest]
      | false =>
        cases hdecoded : r.decoded with
        | true =>
          simp only [hdecoded, true_and, if_true, captureLength, Bool.or_false, Bool.and_true,
            Bool.false_eq_true, if_false] at hrest ⊢
          omega
        | false =>
          simp only [hdecoded, Bool.and_false, Bool.false_eq_true, and_false,
            if_false, add_zero] at hrest ⊢
          rw [hrest]
    | markArgs =>
      simp only [runLenCode, beforeArgs_markArgs, capturesRead, escapesOf,
        map_nil, sum_nil, mul_zero,
        ite_self, add_zero]

theorem valuePass_length (isArgs quote : Bool) {r : Request}
    (hvars : SameVariables env lengths r) (hcaptures : SameCaptures env lengths r) :
    (runLengths env lengths ⟨isArgs, quote, requestAfter env lengths r⟩).1 =
      (runLengths env lengths ⟨false, quote, r⟩).1 +
        (if isArgs = true ∧ quote = false ∧ r.decoded = true then
          2 * escapesOf (capturesRead env (beforeArgs lengths) r) else 0) := by
  have hdecoded : (requestAfter env lengths r).decoded = r.decoded := requestAfter_decoded lengths r
  rw [runLengths_congr hdecoded hvars.symm hcaptures.symm]
  cases isArgs with
  | false => simp only [Bool.false_eq_true, false_and, if_false, add_zero]
  | true =>
    rw [runLengths_args]
    simp only [true_and]

end Compare

/-! ## The condition -/

/-- The codes of a replacement. -/
def replacementCodes (ip : List Code) : List Code :=
  ip.takeWhile fun code => match code with
    | .regexEnd _ => false
    | _ => true

def Code.capture? : Code → Option Nat
  | .copyCapture n => some n
  | _ => none

/-- The captures that a replacement names. -/
def namedCaptures (codes : List Code) : List Nat := codes.filterMap Code.capture?

/-- The captures that a replacement escapes. -/
def escapedCaptures (all : Bool) (codes : List Code) : List Nat :=
  if all then namedCaptures codes else namedCaptures (codes.dropWhile (· != .startArgs))

/-- The lengths of the captures that a replacement does not name. -/
def unnamedTotal (codes : List Code) (c : Captures) : Nat :=
  (((List.range c.ranges.length).tail.filter (· ∉ namedCaptures codes)).map fun n =>
    (c.get n).length).sum

/-- The request of a replacement whose expression matches. -/
def matchedRequest (env : Env) (e : Engine) (code : RegexCode) : Option Request :=
  if code.test then none
  else
    match regexExec env e.request code.regex e.request.uri with
    | .ok r => some (Engine.markRewritten code r)
    | _ => none

/-- What the replacement leaves of the memory for arguments that it does not add itself. -/
def spareArgs (code : RegexCode) (ownArgs : Bool) (r : Request) : Nat :=
  if code.redirect || ownArgs then 0 else Engine.addedArgs code.addArgs r

/-- With a length script: captures are escaped because of an earlier `is_args` only as far
as the `?` of the replacement or the arguments of the request leave room. -/
def ScriptFits (env : Env) (code : RegexCode) (isArgs : Bool)
    (lengths : List LenCode) (r : Request) : Prop :=
  SameCaptures env lengths r ∧
    (isArgs = true → code.redirect = false → r.decoded = true →
      2 * escapesOf (capturesRead env (beforeArgs lengths) r) ≤
        spareArgs code (lengths.contains .markArgs) r + lengths.count .markArgs)

/-- Without one: the escapes of all captures are no more than those of the URI, or than
what the other captures and arguments leave. -/
def SizeFits (code : RegexCode) (isArgs : Bool) (codes : List Code) (r : Request) : Prop :=
  r.decoded = true →
    2 * escapesOf ((escapedCaptures (isArgs || code.redirect) codes).map r.captures.get) ≤
      2 * countEscapes r.uri + unnamedTotal codes r.captures + spareArgs code
        (codes.contains .startArgs) r

def ReplacementFits (env : Env) (code : RegexCode) (isArgs : Bool)
    (codes : List Code) (r : Request) : Prop :=
  match code.lengths with
  | some lengths => ScriptFits env code isArgs lengths r
  | none => SizeFits code isArgs codes r

/-- No capture of a complex value is escaped by the value pass alone. -/
def ValueFits (env : Env) (e : Engine) (lengths : List LenCode) : Prop :=
  SameCaptures env lengths e.request ∧
    (e.isArgs = true → e.quote = false → e.request.decoded = true →
      ∀ capture ∈ capturesRead env lengths e.request, countEscapes capture = 0)

/-- The value run that the next code starts, if it starts one, fits its memory. -/
def Fits (env : Env) (e : Engine) : Prop :=
  match e.ip with
  | .complexValue lengths :: _ => ValueFits env e lengths
  | .regexStart code :: ip =>
    ∀ r ∈ matchedRequest env e code, ReplacementFits env code e.isArgs (replacementCodes ip) r
  | _ => True

/-- The variables of the value that the next code starts are the same in both passes. -/
def SameValues (env : Env) (e : Engine) : Prop :=
  match e.ip with
  | .complexValue lengths :: _ => SameVariables env lengths e.request
  | .regexStart code :: _ =>
    ∀ r ∈ matchedRequest env e code, ∀ lengths ∈ code.lengths, SameVariables env lengths r
  | _ => True

instance (env : Env) (code : RegexCode) (isArgs : Bool) (lengths : List LenCode) (r : Request) :
    Decidable (ScriptFits env code isArgs lengths r) := inferInstanceAs (Decidable (_ ∧ _))

instance (code : RegexCode) (isArgs : Bool) (codes : List Code) (r : Request) :
    Decidable (SizeFits code isArgs codes r) := inferInstanceAs (Decidable (_ → _))

instance (env : Env) (code : RegexCode) (isArgs : Bool) (codes : List Code) (r : Request) :
    Decidable (ReplacementFits env code isArgs codes r) := by
  unfold ReplacementFits
  split <;> infer_instance

instance (env : Env) (e : Engine) (lengths : List LenCode) : Decidable (ValueFits env e lengths) :=
  inferInstanceAs (Decidable (_ ∧ _))

instance (env : Env) : DecidablePred (Fits env) := fun e => by
  unfold Fits
  split <;> infer_instance

instance (env : Env) : DecidablePred (SameValues env) := fun e => by
  unfold SameValues
  split <;> infer_instance

/-! ## The length of a replacement without a length script -/

section Size

variable {env : Env}

theorem captureLength_eq (escape : Bool) (capture : Bytes) :
    captureLength escape capture =
      capture.length + if escape then 2 * countEscapes capture else 0 := by
  cases escape <;> rfl

/-- The bytes of the captures as they are written. -/
def namedTotal (ps : List Part) (c : Captures) : Nat :=
  ((ps.filterMap Part.capture?).map fun n => (c.get n).length).sum

theorem namedCaptures_code (ps : List Part) :
    namedCaptures (ps.map Part.code) = ps.filterMap Part.capture? := by
  rw [namedCaptures, filterMap_map]
  congr 1
  funext p
  cases p <;> rfl

theorem escapedCaptures_cons_args (ps : List Part) :
    escapedCaptures false (Part.args.code :: ps.map Part.code) = ps.filterMap Part.capture? := by
  rw [← namedCaptures_code]
  rfl

/-- What the length codes add up to. -/
theorem runLengths_size {isArgs quote : Bool} {ps : List Part} {r : Request}
    (hvars : ∀ index, Part.var index ∉ ps) :
    (runLengths env (ps.map Part.len) ⟨isArgs, quote, r⟩).1 =
      (ps.map Part.size).sum + ps.count .args + namedTotal ps r.captures +
        (if r.decoded then
          2 * escapesOf
            ((escapedCaptures (isArgs || quote) (ps.map Part.code)).map r.captures.get) else 0) :=
            by
  induction ps generalizing isArgs with
  | nil =>
    have hnone : escapedCaptures (isArgs || quote) [] = [] := by
      unfold escapedCaptures
      split <;> rfl
    simp [runLengths, namedTotal, hnone, escapesOf]
  | cons p ps ih =>
    have hvars' : ∀ index, Part.var index ∉ ps := fun index h => hvars index (mem_cons_of_mem p h)
    rw [map_cons, runLengths_cons]
    cases p with
    | text data =>
      have hrest := @ih isArgs hvars'
      have hescaped : escapedCaptures (isArgs || quote) ((Part.text data :: ps).map Part.code) =
          escapedCaptures (isArgs || quote) (ps.map Part.code) := rfl
      have hcount : (Part.text data :: ps).count .args = ps.count .args := rfl
      have hnamed : namedTotal (Part.text data :: ps) r.captures = namedTotal ps r.captures := rfl
      rw [hescaped, hcount, hnamed, map_cons, sum_cons]
      simp only [Part.len, runLenCode, Part.size]
      omega
    | var index => exact absurd mem_cons_self (hvars index)
    | capture n =>
      have hrest := @ih isArgs hvars'
      have hcount : (Part.capture n :: ps).count .args = ps.count .args := rfl
      have hnamed : namedTotal (Part.capture n :: ps) r.captures =
        (r.captures.get n).length + namedTotal ps r.captures := rfl
      rw [hcount, hnamed, map_cons, sum_cons]
      simp only [Part.len, runLenCode, Part.size, captureLength_eq]
      cases hall : (isArgs || quote) with
      | true =>
        have hescaped : escapedCaptures true ((Part.capture n :: ps).map Part.code) =
            n :: escapedCaptures true (ps.map Part.code) := rfl
        rw [hall] at hrest
        rw [hescaped, map_cons, escapesOf, map_cons, sum_cons]
        cases hdecoded : r.decoded with
        | true =>
          simp only [hdecoded, Bool.and_true, if_true, escapesOf] at hrest ⊢
          omega
        | false =>
          simp only [hdecoded, Bool.and_false, Bool.false_eq_true, if_false] at hrest ⊢
          omega
      | false =>
        have hescaped : escapedCaptures false ((Part.capture n :: ps).map Part.code) =
            escapedCaptures false (ps.map Part.code) := rfl
        rw [hall] at hrest
        rw [hescaped]
        simp only [Bool.false_and, Bool.false_eq_true, if_false] at hrest ⊢
        omega
    | args =>
      have hrest := @ih true hvars'
      have hcount : (Part.args :: ps).count .args = ps.count .args + 1 := count_cons_self
      have hnamed : namedTotal (Part.args :: ps) r.captures = namedTotal ps r.captures := rfl
      have hescaped : escapedCaptures (isArgs || quote) ((Part.args :: ps).map Part.code) =
          escapedCaptures (true || quote) (ps.map Part.code) := by
        cases isArgs || quote with
        | true => rfl
        | false =>
          rw [map_cons, escapedCaptures_cons_args, ← namedCaptures_code]
          rfl
      rw [hescaped, hcount, hnamed, map_cons, sum_cons]
      simp only [Part.len, runLenCode, Part.size]
      omega

theorem get_eq_nil {c : Captures} {n : Nat} (h : c.ranges.length ≤ n) : c.get n = [] := by
  rw [Captures.get, getElem?_eq_none h]

theorem total_eq {ps : List Part} {c : Captures} (hnodup : (ps.filterMap Part.capture?).Nodup)
    (hpos : ∀ n ∈ ps.filterMap Part.capture?, 1 ≤ n) :
    c.total = namedTotal ps c + unnamedTotal (ps.map Part.code) c := by
  have hrange : (List.range c.ranges.length).tail.Nodup := nodup_range.tail
  have hmem : ∀ n, n ∈ (List.range c.ranges.length).tail ↔ 1 ≤ n ∧ n < c.ranges.length := by
    intro n
    rw [tail_range]
    simp only [mem_range'_1]
    omega
  rw [Captures.total, namedTotal, unnamedTotal, namedCaptures_code,
    ← sum_toFinset _ hrange, ← sum_toFinset _ hnodup, ← sum_toFinset _ (hrange.filter _)]
  rw [← Finset.sum_filter_add_sum_filter_not _ (· ∈ ps.filterMap Part.capture?)]
  congr 1
  · -- a capture that is not set or not there has no bytes
    apply Finset.sum_subset
    · intro n hn
      exact mem_toFinset.mpr (Finset.mem_filter.mp hn).2
    intro n hn hout
    have hle : c.ranges.length ≤ n := by
      by_contra hlt
      have hn' := mem_toFinset.mp hn
      exact hout (Finset.mem_filter.mpr
        ⟨mem_toFinset.mpr ((hmem n).mpr ⟨hpos n hn', not_le.mp hlt⟩), hn'⟩)
    rw [get_eq_nil hle, length_nil]
  · apply Finset.sum_congr _ fun _ _ => rfl
    ext n
    simp only [Finset.mem_filter, mem_toFinset, mem_filter, decide_eq_true_eq]

end Size

/-! ## The writes -/

section Writes

variable {env : Env}

variable {e : Engine}

theorem fill_ok {data : Bytes} (h : data.length ≤ e.buf.len) :
    e.fill data = .ok { e with buf := ⟨e.buf.len, data, h⟩ } := by
  unfold Engine.fill Buffer.fill?
  rw [dif_pos h]

theorem write_ok {e : Engine} {data : Bytes} (h : (e.buf.data ++ data).length ≤ e.buf.len) :
    e.write data = .ok { e with buf := ⟨e.buf.len, e.buf.data ++ data, h⟩ } :=
  fill_ok h

/-- What the codes of some parts leave of an engine. -/
structure Wrote (env : Env) (ps : List Part) (codes : List Code) (e e' : Engine) : Prop where
  ip : e'.ip = codes
  len : e'.buf.len = e.buf.len
  written : e'.buf.data.length + ps.count .args =
    e.buf.data.length + (runLengths env (ps.map Part.len) ⟨e.isArgs, e.quote, e.request⟩).1
  request : e'.request = requestAfter env (ps.map Part.len) e.request
  sp : e'.sp = e.sp
  buffers : e'.buffers = e.buffers
  args : Part.args ∉ ps → e'.args = e.args
  ownArgs : Part.args ∈ ps → e'.args.isSome = true

theorem length_capture (escape : Bool) (capture : Bytes) :
    (if escape then escapeUri capture else capture).length = captureLength escape capture := by
  cases escape with
  | true => exact length_escapeUri capture
  | false => rfl

/-- A code of a value run writes what its code of the length script says. -/
theorem step_part (env : Env) {p : Part} {codes : List Code} (hip : e.ip = p.code :: codes)
    (hfits : e.buf.data.length + (runLenCode env ⟨e.isArgs, e.quote, e.request⟩ p.len).1 ≤
      e.buf.len + [p].count .args) :
    ∃ e', step env e = .ok e' ∧ Wrote env [p] codes e e' ∧ e'.quote = e.quote ∧
      e'.isArgs = (runLenCode env ⟨e.isArgs, e.quote, e.request⟩ p.len).2.isArgs := by
  have hadvance : e.ip.tail = codes := by rw [hip, tail_cons]
  cases p with
  | text data =>
    have hroom : (e.buf.data ++ data).length ≤ e.buf.len := by
      rw [length_append]
      exact hfits
    refine ⟨{ e.advance with buf := ⟨e.buf.len, e.buf.data ++ data, hroom⟩ }, ?_, ?_, rfl, rfl⟩
    · rw [step, hip]
      exact write_ok (e := e.advance) hroom
    · refine ⟨hadvance, rfl, ?_, rfl, rfl, rfl, fun _ => rfl, fun h =>
        absurd (mem_singleton.mp h) Part.noConfusion⟩
      simp only [length_append]
      rfl
  | var index =>
    have hroom : (e.buf.data ++ (readVariable env e.request index).1).length ≤ e.buf.len := by
      rw [length_append]
      exact hfits
    refine ⟨{ e.advance with
      buf := ⟨e.buf.len, e.buf.data ++ (readVariable env e.request index).1, hroom⟩,
      request := (readVariable env e.request index).2 }, ?_, ?_, rfl, rfl⟩
    · rw [step, hip]
      exact write_ok (e := { e.advance with request := (readVariable env e.request index).2 }) hroom
    · refine ⟨hadvance, rfl, ?_, rfl, rfl, rfl, fun _ => rfl, fun h =>
        absurd (mem_singleton.mp h) Part.noConfusion⟩
      simp only [length_append]
      rfl
  | capture n =>
    have hlen :=
      length_capture ((e.isArgs || e.quote) && e.request.decoded) (e.request.captures.get n)
    have hroom : (e.buf.data ++ if ((e.isArgs || e.quote) && e.request.decoded) = true then
        escapeUri (e.request.captures.get n) else e.request.captures.get n).length ≤ e.buf.len := by
      rw [length_append, hlen]
      exact hfits
    refine ⟨{ e.advance with
      buf := ⟨e.buf.len, e.buf.data ++ if ((e.isArgs || e.quote) && e.request.decoded) = true then
        escapeUri (e.request.captures.get n) else e.request.captures.get n, hroom⟩ },
          ?_, ?_, rfl, rfl⟩
    · rw [step, hip]
      show e.copyCaptureCode n = _
      unfold Engine.copyCaptureCode
      by_cases hescape : ((e.isArgs || e.quote) && e.request.decoded) = true
      · simp only [if_pos hescape] at hroom ⊢
        exact write_ok (e := e.advance) hroom
      · simp only [if_neg hescape] at hroom ⊢
        exact write_ok (e := e.advance) hroom
    · refine ⟨hadvance, rfl, ?_, rfl, rfl, rfl, fun _ => rfl, fun h =>
        absurd (mem_singleton.mp h) Part.noConfusion⟩
      simp only [length_append, hlen]
      rfl
  | args =>
    refine ⟨e.startArgsCode, ?_, ?_, rfl, rfl⟩
    · rw [step, hip]
      rfl
    · exact ⟨hadvance, rfl, rfl, rfl, rfl, rfl, fun h =>
        absurd (mem_singleton_self _) h, fun _ => rfl⟩

theorem count_args_le (env : Env) (ps : List Part) (le : LengthEngine) :
    ps.count .args ≤ (runLengths env (ps.map Part.len) le).1 := by
  induction ps generalizing le with
  | nil => exact le_refl 0
  | cons p ps ih =>
    have hrest := ih (runLenCode env le p.len).2
    rw [map_cons, runLengths_cons]
    cases p with
    | args =>
      rw [count_cons_self]
      simp only [Part.len, runLenCode] at hrest ⊢
      omega
    | text data => exact hrest.trans (Nat.le_add_left _ _)
    | var index => exact hrest.trans (Nat.le_add_left _ _)
    | capture n => exact hrest.trans (Nat.le_add_left _ _)

/-- The value codes write no more than the length codes have counted. -/
theorem run_parts (env : Env) {ps : List Part} {codes : List Code}
    (hip : e.ip = ps.map Part.code ++ codes)
    (hfits : e.buf.data.length +
      (runLengths env (ps.map Part.len) ⟨e.isArgs, e.quote, e.request⟩).1 ≤
      e.buf.len + ps.count .args) :
    ∃ e', run (step env) ps.length e = .ok e' ∧ Wrote env ps codes e e' := by
  induction ps generalizing e with
  | nil => exact ⟨e, rfl, hip, rfl, rfl, rfl, rfl, rfl, fun _ => rfl, fun h => absurd h not_mem_nil⟩
  | cons p ps ih =>
    have hcount : (p :: ps).count Part.args = [p].count .args + ps.count .args :=
      @count_append _ _ _ [p] _
    rw [map_cons, runLengths_cons, hcount] at hfits
    have hmarks := count_args_le env ps (runLenCode env ⟨e.isArgs, e.quote, e.request⟩ p.len).2
    obtain ⟨m, hstep, hm, hquote, hisArgs⟩ := step_part env hip (by omega)
    have hle : (runLenCode env ⟨e.isArgs, e.quote, e.request⟩ p.len).2 =
      ⟨m.isArgs, m.quote, m.request⟩ := by
      rw [hisArgs, hquote, hm.request]
      cases p <;> rfl
    have hwritten := hm.written
    have hone : (runLengths env ([p].map Part.len) ⟨e.isArgs, e.quote, e.request⟩).1 =
        (runLenCode env ⟨e.isArgs, e.quote, e.request⟩ p.len).1 := rfl
    rw [hone] at hwritten
    obtain ⟨e', hrun, he'⟩ := ih hm.ip (by rw [← hle, hm.len]; omega)
    refine ⟨e', by
      rw [length_cons, run_succ hstep, hrun], he'.ip, he'.len.trans hm.len, ?_,
        ?_, he'.sp.trans hm.sp,
      he'.buffers.trans hm.buffers, ?_, ?_⟩
    · have hwritten' := he'.written
      rw [← hle] at hwritten'
      rw [hcount, map_cons, runLengths_cons]
      omega
    · rw [he'.request, hm.request]
      cases p <;> rfl
    · intro hargs
      rw [he'.args fun h => hargs (mem_cons_of_mem p h), hm.args fun h => hargs (by
        rw [mem_singleton.mp h]
        exact mem_cons_self)]
    · intro hargs
      by_cases hlater : Part.args ∈ ps
      · exact he'.ownArgs hlater
      · rw [he'.args hlater]
        rcases mem_cons.mp hargs with hfirst | hthere
        · exact hm.ownArgs (by rw [hfirst]; exact mem_singleton_self p)
        · exact absurd hthere hlater

end Writes

end Nginx.Http.Rewrite
