/-
  Http/Rewrite/Bounds.lean --- runs of the rewrite handler.

  A run in which every value run fits the memory allocated for it comes to its end
  without a write behind a buffer, without a string that is not written whole and
  without leaving the stack or the codes.  The induction is on the layout of the
  codes; `Ready` is what holds of the engine where a code begins.
-/
import Mathlib.Data.List.GetD
import Mathlib.Data.List.TakeWhile
import Nginx.Http.Rewrite.ValueRuns

set_option autoImplicit false

namespace Nginx.Http.Rewrite

open List Foundation Foundation.Stepping Nginx.Core

/-! ## Between value runs -/

/-- The bytes of a string are all written. -/
def Engine.Whole (e : Engine) : StackValue → Prop
  | .text _ => True
  | .buffer i => i ≤ e.buffers.length ∧ (e.buffer i).full

/-- An engine with `n` strings on its stack that is in no value run. -/
structure Ready (n : Nat) (e : Engine) : Prop where
  depth : e.sp.length = n
  whole : ∀ v ∈ e.sp, e.Whole v
  args : e.args = none

/-- A code has done its part: the run has ended or goes on at `codes`. -/
def GoesOn (n : Nat) (codes : List Code) (e : Engine) : Prop := e.done ∨ e.ip = codes ∧ Ready n e

variable {env : Env} {e : Engine} {n : Nat}

theorem Ready.congr (h : Ready n e) {e' : Engine} (hsp : e'.sp = e.sp)
    (hbuffers : e'.buffers = e.buffers)
    (hbuf : e'.buf = e.buf) (hargs : e'.args = e.args) : Ready n e' := by
  refine ⟨by rw [hsp, h.depth], ?_, hargs.trans h.args⟩
  intro v hv
  rw [hsp] at hv
  have hwhole := h.whole v hv
  cases v with
  | text data => trivial
  | buffer i =>
    simp only [Engine.Whole, Engine.buffer] at hwhole ⊢
    rw [hbuffers, hbuf]
    exact hwhole

theorem Ready.pop (h : Ready (n + 1) e) :
    ∃ data sp, e.pop = .ok (data, { e with sp := sp }) ∧ Ready n { e with sp := sp } := by
  cases hsp : e.sp with
  | nil =>
    have hdepth := h.depth
    rw [hsp] at hdepth
    cases hdepth
  | cons v sp =>
    have hwhole := h.whole v (by rw [hsp]; exact mem_cons_self)
    have hread : ∃ data, e.read v = .ok data := by
      cases v with
      | text data => exact ⟨data, rfl⟩
      | buffer i => exact ⟨(e.buffer i).data, if_pos hwhole.2⟩
    obtain ⟨data, hread⟩ := hread
    refine ⟨data, sp, by simp only [Engine.pop, hsp, hread], ?_, ?_, h.args⟩
    · have hdepth := h.depth
      rw [hsp] at hdepth
      exact Nat.succ.inj hdepth
    · intro w hw
      exact h.whole w (by rw [hsp]; exact mem_cons_of_mem v hw)

theorem Ready.push (h : Ready n e) (hn : n < stackSize) {v : StackValue} (hv : e.Whole v) :
    e.push v = .ok { e with sp := v :: e.sp } ∧ Ready (n + 1) { e with sp := v :: e.sp } := by
  refine ⟨if_pos (by rw [h.depth]; exact hn), by rw [length_cons, h.depth], ?_, h.args⟩
  intro w hw
  rcases mem_cons.mp hw with rfl | hw
  · exact hv
  · exact h.whole w hw

theorem done_exit (e : Engine) : e.exit.done := rfl

theorem done_fail (e : Engine) : e.fail.done := rfl

theorem Ready.alloc (env : Env) (h : Ready n e) (len : Nat) : e.alloc env len = none ∨
    e.alloc env len = some { e with buffers := e.buffers ++ [e.buf], buf := Buffer.new len } ∧
      ∀ b : Buffer, Ready n { e with buffers := e.buffers ++ [e.buf], buf := b } := by
  unfold Engine.alloc
  split
  · refine .inr ⟨rfl, fun b => ⟨h.depth, ?_, h.args⟩⟩
    intro v hv
    have hwhole := h.whole v hv
    cases v with
    | text data => trivial
    | buffer i =>
      obtain ⟨hle, hfull⟩ := hwhole
      refine ⟨by rw [length_append]; exact Nat.le_add_right_of_le hle, ?_⟩
      have hsame : ({ e with buffers := e.buffers ++ [e.buf], buf := b } : Engine).buffer i =
        e.buffer i := by
        simp only [Engine.buffer]
        rcases lt_or_eq_of_le hle with hlt | rfl
        · rw [getD_append _ _ _ _ hlt, getD_eq_getElem _ _ hlt, getD_eq_getElem _ _ hlt]
        · rw [getD_append_right _ _ _ _ (le_rfl), Nat.sub_self, getD_cons_zero,
            getD_eq_default _ _ (le_rfl)]
      rw [hsame]
      exact hfull
  · exact .inl rfl

/-! ## Codes on the stack -/

section Codes

variable {codes : List Code}

theorem step_cons {code : Code} (hip : e.ip = code :: codes) : step env e = e.runCode env code := by
  rw [step, hip]

theorem step_value {text : Bytes} (hip : e.ip = .value text :: codes)
    (hready : Ready n e) (hn : n < stackSize) :
    ∃ e', step env e = .ok e' ∧ GoesOn (n + 1) codes e' := by
  have hadvance : Ready n e.advance := hready.congr rfl rfl rfl rfl
  obtain ⟨hpush, hready'⟩ := hadvance.push hn (v := .text text) trivial
  refine ⟨_, ?_, .inr ⟨?_, hready'⟩⟩
  · rw [step_cons hip]
    exact hpush
  · simp only [Engine.advance, hip, tail_cons]

theorem step_var {index : Nat} (hip : e.ip = .var index :: codes)
    (hready : Ready n e) (hn : n < stackSize) :
    ∃ e', step env e = .ok e' ∧ GoesOn (n + 1) codes e' := by
  have hread : Ready n { e.advance with request := (readVariable env e.request index).2 } :=
    hready.congr rfl rfl rfl rfl
  obtain ⟨hpush, hready'⟩ := hread.push hn (v := .text (readVariable env e.request index).1) trivial
  refine ⟨_, ?_, .inr ⟨?_, hready'⟩⟩
  · rw [step_cons hip]
    exact hpush
  · simp only [Engine.advance, hip, tail_cons]

theorem step_setVar {index : Nat} (hip : e.ip = .setVar index :: codes) (hready : Ready (n + 1) e) :
    ∃ e', step env e = .ok e' ∧ GoesOn n codes e' := by
  obtain ⟨data, sp, hpop, hready'⟩ := hready.pop
  refine ⟨{ e.advance with
    sp := sp, request := e.request.setValue index { data := data, valid := true } }, ?_,
    .inr ⟨congrArg List.tail hip, hready'.congr rfl rfl rfl rfl⟩⟩
  rw [step_cons hip]
  show e.setVarCode index = _
  rw [Engine.setVarCode, hpop]
  rfl

theorem step_varSetHandler {data : Nat} (hip : e.ip = .varSetHandler data :: codes)
    (hready : Ready (n + 1) e) :
    ∃ e', step env e = .ok e' ∧ GoesOn n codes e' := by
  obtain ⟨value, sp, hpop, hready'⟩ := hready.pop
  refine ⟨{ e.advance with sp := sp, request := env.setHandler data value e.request }, ?_,
    .inr ⟨congrArg List.tail hip, hready'.congr rfl rfl rfl rfl⟩⟩
  rw [step_cons hip]
  show e.varSetHandlerCode env data = _
  rw [Engine.varSetHandlerCode, hpop]
  rfl

theorem push_testResult {sp : List StackValue} (hip : e.ip.tail = codes)
    (hready : Ready n { e with sp := sp })
    (hn : n < stackSize) (success : Bool) :
    ∃ e', ({ e with sp := sp } : Engine).advance.push (Engine.testResult success) = .ok e' ∧
      GoesOn (n + 1) codes e' := by
  have hadvance : Ready n ({ e with sp := sp } : Engine).advance := hready.congr rfl rfl rfl rfl
  obtain ⟨hpush, hready'⟩ := hadvance.push hn (v := Engine.testResult success) trivial
  exact ⟨_, hpush, .inr ⟨hip, hready'⟩⟩

theorem compareCode_comes {equal : Bool} (hip : e.ip.tail = codes)
    (hready : Ready (n + 2) e) (hn : n < stackSize) :
    ∃ e', e.compareCode equal = .ok e' ∧ GoesOn (n + 1) codes e' := by
  obtain ⟨val, sp, hpop, hready'⟩ := hready.pop
  obtain ⟨res, sp', hpop', hready''⟩ := hready'.pop
  obtain ⟨e', hpush, he'⟩ :=
    push_testResult (e := e) hip hready'' hn
      ((val.length == res.length && Engine.strncmp val res) == equal)
  refine ⟨e', ?_, he'⟩
  simp only [Engine.compareCode, hpop, hpop', bind, Except.bind]
  exact hpush

theorem step_equal (hip : e.ip = .equal :: codes) (hready : Ready (n + 2) e) (hn : n < stackSize) :
    ∃ e', step env e = .ok e' ∧ GoesOn (n + 1) codes e' := by
  obtain ⟨e', hcompare, he'⟩ := compareCode_comes (congrArg List.tail hip) hready hn
  exact ⟨e', by rw [step_cons hip]; exact hcompare, he'⟩

theorem step_notEqual (hip : e.ip = .notEqual :: codes) (hready : Ready (n + 2) e)
    (hn : n < stackSize) :
    ∃ e', step env e = .ok e' ∧ GoesOn (n + 1) codes e' := by
  obtain ⟨e', hcompare, he'⟩ := compareCode_comes (congrArg List.tail hip) hready hn
  exact ⟨e', by rw [step_cons hip]; exact hcompare, he'⟩

theorem step_file {op : FileOp} (hip : e.ip = .file op :: codes)
    (hready : Ready (n + 1) e) (hn : n < stackSize) :
    ∃ e', step env e = .ok e' ∧ GoesOn (n + 1) codes e' := by
  obtain ⟨value, sp, hpop, hready'⟩ := hready.pop
  cases htest : Engine.fileTest op (env.openCachedFile value.dropLast) with
  | none =>
    refine ⟨({ e with sp := sp } : Engine).fail, ?_, .inl rfl⟩
    rw [step_cons hip]
    simp only [Engine.runCode, Engine.fileCode, hpop, bind, Except.bind, htest]
  | some result =>
    obtain ⟨e', hpush, he'⟩ := push_testResult (congrArg List.tail hip) hready' hn result
    refine ⟨e', ?_, he'⟩
    rw [step_cons hip]
    simp only [Engine.runCode, Engine.fileCode, hpop, bind, Except.bind, htest]
    exact hpush

theorem step_ifCode (env : Env) {locConf : Option Nat} {next : Nat}
    (hip : e.ip = .ifCode locConf next :: codes)
    (hready : Ready (n + 1) e) :
    ∃ e', step env e = .ok e' ∧
      (GoesOn n codes e' ∨ GoesOn n ((.ifCode locConf next :: codes).drop next) e') := by
  obtain ⟨value, sp, hpop, hready'⟩ := hready.pop
  by_cases htrue : Engine.isTrue value = true
  · refine ⟨{ e.advance with
      sp := sp, request := { e.request with locConf := locConf <|> e.request.locConf } }, ?_,
      .inl (.inr ⟨congrArg List.tail hip, hready'.congr rfl rfl rfl rfl⟩)⟩
    rw [step_cons hip]
    simp only [Engine.runCode, Engine.ifCode, hpop, bind, Except.bind, if_pos htrue]
    rfl
  · refine ⟨({ e with sp := sp } : Engine).jump next, ?_,
      .inr (.inr ⟨congrArg (List.drop next) hip, hready'.congr rfl rfl rfl rfl⟩)⟩
    rw [step_cons hip]
    simp only [Engine.runCode, Engine.ifCode, hpop, bind, Except.bind, if_neg htrue]

theorem step_test {code : RegexCode} (hip : e.ip = .regexStart code :: codes)
    (htest : code.test = true)
    (huri : code.uri = false) (hready : Ready (n + 1) e) (hn : n < stackSize) :
    ∃ e', step env e = .ok e' ∧ GoesOn (n + 1) codes e' := by
  obtain ⟨line, sp, hpop, hready'⟩ := hready.pop
  rw [step_cons hip]
  show ∃ e', e.regexStartCode env code = .ok e' ∧ _
  simp only [Engine.regexStartCode, huri, Bool.false_eq_true, if_false,
    hpop, bind, Except.bind, htest, if_true]
  -- the answer goes on the stack of an engine that differs in its line and request only
  have hanswer : ∀ r success, ∃ e', ({ e with sp := sp, line := line, request := r } : Engine).push
      (Engine.testResult success) = .ok e' ∧ GoesOn (n + 1) codes e'.advance := by
    intro r success
    have hready'' : Ready n { e with sp := sp, line := line, request := r } :=
      hready'.congr rfl rfl rfl rfl
    obtain ⟨hpush, hpushed⟩ := hready''.push hn (v := Engine.testResult success) trivial
    exact ⟨_, hpush, .inr ⟨congrArg List.tail hip, hpushed.congr rfl rfl rfl rfl⟩⟩
  cases regexExec env e.request code.regex line with
  | error => exact ⟨_, rfl, .inl rfl⟩
  | declined =>
    obtain ⟨e', hpush, he'⟩ :=
      hanswer { e.request with captures := Captures.empty } code.negativeTest
    exact ⟨e'.advance, by simp only [hpush], he'⟩
  | ok r =>
    obtain ⟨e', hpush, he'⟩ := hanswer r (!code.negativeTest)
    exact ⟨e'.advance, by simp only [hpush], he'⟩

end Codes

/-! ## Value runs -/

theorem run_done (hdone : e.done) (k : Nat) : run (step env) k e = .ok e := by
  have hstep : step env e = .ok e := by
    cases hip : e.ip with
    | nil =>
      rw [Engine.done, hip] at hdone
      cases hdone
    | cons code ip =>
      rw [Engine.done, hip] at hdone
      obtain rfl := Option.some.inj hdone
      rw [step_cons hip]
      rfl
  induction k with
  | zero => rfl
  | succ k ih => rw [run_succ hstep, ih]

variable {ps : List Part}

theorem beforeArgs_eq (hargs : Part.args ∉ ps) :
    beforeArgs (ps.map Part.len) = ps.map Part.len := by
  unfold beforeArgs
  rw [takeWhile_eq_self_iff]
  intro code hcode
  obtain ⟨p, hp, rfl⟩ := mem_map.mp hcode
  cases p with
  | args => exact absurd hp hargs
  | text data => rfl
  | var index => rfl
  | capture n => rfl

theorem escapesOf_eq_zero {captures : List Bytes}
    (h : ∀ capture ∈ captures, countEscapes capture = 0) :
    escapesOf captures = 0 := by
  apply sum_eq_zero
  intro n hn
  obtain ⟨capture, hcapture, rfl⟩ := mem_map.mp hn
  exact h capture hcapture

/-- A complex value is written in exactly the length that its string has. -/
theorem run_complexValue {codes : List Code}
    (hip : e.ip = .complexValue (ps.map Part.len) :: (ps.map Part.code ++ codes))
    (hready : Ready n e)
    (hn : n < stackSize) (hargs : Part.args ∉ ps) (hsame : SameValues env e) (hfits : Fits env e) :
    ∃ e', run (step env) (ps.length + 1) e = .ok e' ∧ GoesOn (n + 1) codes e' := by
  simp only [SameValues, Fits, hip] at hsame hfits
  obtain ⟨hcaptures, hescapes⟩ := hfits
  have hpass := valuePass_length e.isArgs e.quote hsame hcaptures
  rw [beforeArgs_eq hargs] at hpass
  have hlen :
    (runLengths env
    (ps.map Part.len) ⟨e.isArgs, e.quote, requestAfter env (ps.map Part.len) e.request⟩).1 =
      (runLengths env (ps.map Part.len) ⟨false, e.quote, e.request⟩).1 := by
    rw [hpass]
    split
    next hall =>
      rw [escapesOf_eq_zero (hescapes hall.1 hall.2.1 hall.2.2), mul_zero, add_zero]
    next => exact add_zero _
  have hadvance : Ready n
    { e.advance with request := requestAfter env (ps.map Part.len) e.request } :=
    hready.congr rfl rfl rfl rfl
  have hrequest := runLengths_request env (ps.map Part.len) ⟨false, e.quote, e.request⟩
  rcases hadvance.alloc env (runLengths env (ps.map Part.len) ⟨false, e.quote, e.request⟩).1 with
    hnone | ⟨halloc, hafter⟩
  · -- no memory
    have hstep : step env e =
      .ok ({ e.advance with request := requestAfter env (ps.map Part.len) e.request } :
      Engine).fail := by
      rw [step_cons hip]
      simp only [Engine.runCode, Engine.complexValueCode, hrequest, hnone]
    exact ⟨_, (run_succ hstep ps.length).trans (run_done (done_fail _) ps.length),
      .inl (done_fail _)⟩
  · -- the buffer is the newest one until the next value run starts
    let m : Engine := { e.advance with
      request := requestAfter env (ps.map Part.len) e.request, buffers := e.buffers ++ [e.buf],
      buf := Buffer.new (runLengths env (ps.map Part.len) ⟨false, e.quote, e.request⟩).1,
      sp := .buffer (e.buffers ++ [e.buf]).length :: e.sp }
    have hdepth : (e.sp.length < stackSize) := by rw [hready.depth]; exact hn
    have hstep : step env e = .ok m := by
      rw [step_cons hip]
      simp only [Engine.runCode, Engine.complexValueCode, hrequest, halloc]
      exact if_pos hdepth
    obtain ⟨e', hrun, he'⟩ := run_parts env (e := m) (congrArg List.tail hip) (by
      show 0 +
        (runLengths env
        (ps.map Part.len) ⟨e.isArgs, e.quote, requestAfter env (ps.map Part.len) e.request⟩).1 ≤ _
      rw [hlen, zero_add]
      exact Nat.le_add_right _ _)
    refine ⟨e', by rw [run_succ hstep, hrun], .inr ⟨he'.ip, ?_⟩⟩
    have hwritten := he'.written
    rw [count_eq_zero.mpr hargs, add_zero] at hwritten
    have hfull : e'.buf.full := by
      unfold Buffer.full
      rw [hwritten, he'.len]
      show 0 +
        (runLengths env
        (ps.map Part.len) ⟨e.isArgs, e.quote, requestAfter env (ps.map Part.len) e.request⟩).1 = _
      rw [hlen, zero_add]
      rfl
    have hbuffers : e'.buffers = e.buffers ++ [e.buf] := he'.buffers
    have hbelow := hafter e'.buf
    refine ⟨by rw [he'.sp, length_cons, hready.depth], ?_, (he'.args hargs).trans hready.args⟩
    intro v hv
    rw [he'.sp] at hv
    rcases mem_cons.mp hv with rfl | hv
    · refine ⟨by rw [hbuffers], ?_⟩
      unfold Engine.buffer
      rw [hbuffers, getD_eq_default _ _ (le_rfl)]
      exact hfull
    · have hwhole := hbelow.whole v hv
      cases v with
      | text data => trivial
      | buffer i =>
        simp only [Engine.Whole, Engine.buffer] at hwhole ⊢
        rw [hbuffers]
        exact hwhole

/-! ## Replacements -/

theorem requestAfter_of_no_vars (env : Env) (hvars : ∀ index, Part.var index ∉ ps) (r : Request) :
    requestAfter env (ps.map Part.len) r = r := by
  induction ps with
  | nil => rfl
  | cons p ps ih =>
    have hrest := ih fun index h => hvars index (mem_cons_of_mem p h)
    cases p with
    | var index => exact absurd mem_cons_self (hvars index)
    | text data => exact hrest
    | capture n => exact hrest
    | args => exact hrest

theorem mem_markArgs : LenCode.markArgs ∈ ps.map Part.len ↔ Part.args ∈ ps := by
  rw [mem_map]
  constructor
  · rintro ⟨p, hp, hlen⟩
    cases p with
    | args => exact hp
    | text data => cases hlen
    | var index => cases hlen
    | capture n => cases hlen
  · intro h
    exact ⟨.args, h, rfl⟩

theorem mem_startArgs : Code.startArgs ∈ ps.map Part.code ↔ Part.args ∈ ps := by
  rw [mem_map]
  constructor
  · rintro ⟨p, hp, hcode⟩
    cases p with
    | args => exact hp
    | text data => cases hcode
    | var index => cases hcode
    | capture n => cases hcode
  · intro h
    exact ⟨.args, h, rfl⟩

theorem count_markArgs (ps : List Part) : (ps.map Part.len).count .markArgs = ps.count .args := by
  induction ps with
  | nil => rfl
  | cons p ps ih =>
    rw [map_cons]
    cases p with
    | args => rw [count_cons_self, ← ih]; exact count_cons_self
    | text data => exact ih
    | var index => exact ih
    | capture n => exact ih

variable {endCode : RegexEndCode}

theorem replacementCodes_eq {codes : List Code} :
    replacementCodes (ps.map Part.code ++ .regexEnd endCode :: codes) = ps.map Part.code := by
  unfold replacementCodes
  rw [takeWhile_append_of_pos, takeWhile_cons_of_neg Bool.false_ne_true, append_nil]
  intro code hcode
  obtain ⟨p, hp, rfl⟩ := mem_map.mp hcode
  cases p <;> rfl

/-- What is allocated for a replacement is enough for its parts. -/
theorem replacement_room {code : RegexCode} {isArgs : Bool} {r : Request}
    (hps : Replaces code endCode ps) (hsame : ∀ lengths ∈ code.lengths, SameVariables env lengths r)
    (hfits : ReplacementFits env code isArgs (ps.map Part.code) r) :
    (Engine.regexLength env code r).2 = requestAfter env (ps.map Part.len) r ∧
      (runLengths env (ps.map Part.len)
        ⟨isArgs, code.redirect, requestAfter env (ps.map Part.len) r⟩).1 ≤
        (Engine.regexLength env code r).1 + spareArgs code
          (decide (Part.args ∈ ps)) r + ps.count .args := by
  unfold Engine.regexLength
  rcases hps.lengths with hscript | ⟨hsize, hvars, hnodup⟩
  · rw [hscript]
    refine ⟨runLengths_request env _ _, ?_⟩
    dsimp only
    simp only [ReplacementFits, hscript] at hfits
    obtain ⟨hcaptures, hroom⟩ := hfits
    have hcontains : (ps.map Part.len).contains .markArgs = decide (Part.args ∈ ps) := by
      rw [contains_eq_mem]
      exact decide_eq_decide.mpr mem_markArgs
    rw [valuePass_length isArgs code.redirect (hsame _ hscript) hcaptures]
    rw [count_markArgs, hcontains] at hroom
    split
    next hall =>
      have hle := hroom hall.1 hall.2.1 hall.2.2
      omega
    next => omega
  · rw [hsize]
    have hafter := requestAfter_of_no_vars env hvars r
    refine ⟨hafter.symm, ?_⟩
    simp only [ReplacementFits, hsize] at hfits
    have hcontains : (ps.map Part.code).contains .startArgs = decide (Part.args ∈ ps) := by
      rw [contains_eq_mem]
      exact decide_eq_decide.mpr mem_startArgs
    rw [hafter, runLengths_size hvars]
    simp only [Engine.replacementLength, hps.uri, hps.size, Bool.true_and,
      total_eq hnodup hps.numbered]
    simp only [SizeFits, hcontains] at hfits
    cases hdecoded : r.decoded with
    | false =>
      simp only [Bool.and_false, Bool.false_eq_true, if_false]
      omega
    | true =>
      have hle := hfits hdecoded
      cases hranges : r.captures.ranges.isEmpty with
      | false =>
        simp only [Bool.not_false, Bool.and_true, if_true]
        omega
      | true =>
        -- without captures there is nothing to escape
        have hget : ∀ n, r.captures.get n = [] := fun n =>
          get_eq_nil (by rw [isEmpty_iff.mp hranges]; exact Nat.zero_le n)
        have hnone : escapesOf
          ((escapedCaptures (isArgs || code.redirect) (ps.map Part.code)).map r.captures.get) =
          0 := by
          apply escapesOf_eq_zero
          intro capture hcapture
          obtain ⟨n, -, rfl⟩ := mem_map.mp hcapture
          rw [hget]
          rfl
        simp only [Bool.not_true, Bool.false_and, Bool.false_eq_true, if_false, if_true, hnone]
        omega

theorem addArgsCode_ok {addArgs : Bool} (separator : Char)
    (h : e.buf.data.length + Engine.addedArgs addArgs e.request ≤ e.buf.len) :
    ∃ b, e.addArgsCode separator addArgs = .ok { e with buf := b } := by
  unfold Engine.addArgsCode
  unfold Engine.addedArgs at h
  split
  next hadded =>
    rw [if_pos hadded] at h
    have hfits : (e.buf.data ++ chr separator :: e.request.args).length ≤ e.buf.len := by
      rw [length_append, length_cons]
      exact h
    exact ⟨_, write_ok hfits⟩
  next => exact ⟨e.buf, rfl⟩

theorem step_regexEnd (env : Env) {codes : List Code} (hip : e.ip = .regexEnd endCode :: codes)
    (hsp : e.sp = []) (hargs : endCode.redirect = true → e.args = none)
    (hroom : endCode.redirect = true ∨ e.args.isSome = true →
      e.buf.data.length + Engine.addedArgs endCode.addArgs e.request ≤ e.buf.len) :
    ∃ e', step env e = .ok e' ∧ GoesOn 0 codes e' := by
  have hready : ∀ e' : Engine, e'.sp = [] → e'.args = none → Ready 0 e' := by
    intro e' hsp' hargs'
    refine ⟨by rw [hsp']; rfl, ?_, hargs'⟩
    intro v hv
    rw [hsp'] at hv
    exact absurd hv not_mem_nil
  have hend : ∀ (e' : Engine) uri args, e'.ip = e.ip → e'.sp = [] → e'.args = none →
      GoesOn 0 codes (e'.endUri endCode uri args) := by
    intro e' uri args hip' hsp' hargs'
    have htail : e'.ip.tail = codes := by rw [hip', hip]; rfl
    unfold Engine.endUri
    dsimp only
    split
    · split
      · exact .inl rfl
      · exact .inr ⟨htail, hready _ hsp' hargs'⟩
    · exact .inr ⟨htail, hready _ hsp' hargs'⟩
  rw [step_cons hip]
  show ∃ e', e.regexEndCode endCode = .ok e' ∧ _
  unfold Engine.regexEndCode
  dsimp only
  split
  next hredirect =>
    have hle := length_unescapeUri e.buf.data
    have hroom' := hroom (.inl hredirect)
    let filled : Engine := { e with
      quote := false, buf := ⟨e.buf.len, unescapeUri e.buf.data, hle.trans e.buf.fits⟩ }
    have hfill : ({ e with quote := false } : Engine).fill (unescapeUri e.buf.data) = .ok filled :=
      fill_ok (e := { e with quote := false }) (hle.trans e.buf.fits)
    obtain ⟨b, hadded⟩ := addArgsCode_ok (e := filled) (if endCode.args then '&' else '?')
      (show (unescapeUri e.buf.data).length + Engine.addedArgs endCode.addArgs e.request ≤
        e.buf.len by omega)
    refine ⟨{ ({ filled with buf := b } : Engine).advance with
      request := { e.request with location := some b.data } }, ?_,
      .inr ⟨congrArg List.tail hip, hready _ hsp (hargs hredirect)⟩⟩
    simp only [Engine.endRedirect, hfill, bind, Except.bind, hadded]
    rfl
  next hredirect =>
    cases hown : e.args with
    | none => exact ⟨_, rfl, hend _ _ _ rfl hsp rfl⟩
    | some start =>
      obtain ⟨b, hadded⟩ :=
        addArgsCode_ok (e := { e with quote := false }) '&' (hroom (.inr (by rw [hown]; rfl)))
      refine ⟨({ e with quote := false, buf := b, args := none } : Engine).endUri endCode
        (b.data.take start)
        (b.data.drop start), ?_, hend _ _ _ rfl hsp rfl⟩
      rw [hown] at hadded
      simp only [hadded, bind, Except.bind]

theorem spareArgs_le (code : RegexCode) (ownArgs : Bool) (r : Request) :
    spareArgs code ownArgs r ≤ Engine.addedArgs code.addArgs r := by
  unfold spareArgs
  split
  · exact Nat.zero_le _
  · exact le_rfl

theorem addedArgs_after (env : Env) (addArgs : Bool) (lengths : List LenCode) (r : Request) :
    Engine.addedArgs addArgs (requestAfter env lengths r) = Engine.addedArgs addArgs r := by
  obtain ⟨values, captures, hafter⟩ := requestAfter_keeps env lengths r
  rw [hafter]
  rfl

/-- The engine at the first code of a replacement. -/
structure Started (env : Env) (code : RegexCode) (r : Request) (e m : Engine) : Prop where
  ip : m.ip = e.ip.tail
  sp : m.sp = e.sp
  args : m.args = e.args
  isArgs : m.isArgs = e.isArgs
  quote : m.quote = code.redirect
  request : m.request = (Engine.regexLength env code r).2
  buf : m.buf =
    Buffer.new ((Engine.regexLength env code r).1 + Engine.addedArgs code.addArgs m.request)

theorem startReplacement_cases (env : Env) (e : Engine) (code : RegexCode) (r : Request) :
    (e.startReplacement env code r).done ∨
      Started env code (Engine.markRewritten code r) e (e.startReplacement env code r) := by
  unfold Engine.startReplacement
  dsimp only
  split
  · exact .inl rfl
  -- the status is set or not, which changes nothing else
  have hstatus : ∃ status, (if code.status ≠ 0 then { e with status := some code.status } else e) =
      { e with status := status } := by
    split
    · exact ⟨_, rfl⟩
    · exact ⟨e.status, rfl⟩
  obtain ⟨status, hstatus⟩ := hstatus
  rw [hstatus]
  unfold Engine.alloc
  split
  next hnone => exact .inl rfl
  next m hsome =>
    split at hsome
    · obtain rfl := Option.some.inj hsome
      exact .inr ⟨rfl, rfl, rfl, rfl, rfl, rfl, rfl⟩
    · cases hsome

/-- A replacement ends behind its codes, or the run goes on where its jump leads. -/
theorem run_replacement {code : RegexCode} {codes : List Code}
    (hip : e.ip = .regexStart code :: (ps.map Part.code ++ .regexEnd endCode :: codes))
    (hready : Ready 0 e)
    (hps : Replaces code endCode ps) (hsame : SameValues env e) (hfits : Fits env e) :
    (∃ e', step env e = .ok e' ∧ GoesOn 0 (e.ip.drop code.next) e') ∨
      ∃ e', run (step env) (ps.length + 2) e = .ok e' ∧ GoesOn 0 codes e' := by
  have hsp : e.sp = [] := eq_nil_of_length_eq_zero hready.depth
  simp only [SameValues, Fits, hip, matchedRequest, hps.test, Bool.false_eq_true, if_false]
    at hsame hfits
  cases hexec : regexExec env e.request code.regex e.request.uri with
  | declined =>
    refine .inl
      ⟨({ e with line := e.request.uri, request := { e.request with captures := Captures.empty } } :
      Engine).jump
      code.next, ?_, .inr ⟨rfl, hready.congr rfl rfl rfl rfl⟩⟩
    rw [step_cons hip]
    simp only [Engine.runCode, Engine.regexStartCode, hps.uri, if_true,
      bind, Except.bind, hexec, hps.test,
      Bool.false_eq_true, if_false]
  | error =>
    refine .inl ⟨({ e with line := e.request.uri } : Engine).fail, ?_, .inl (done_fail _)⟩
    rw [step_cons hip]
    simp only [Engine.runCode, Engine.regexStartCode, hps.uri, if_true, bind, Except.bind, hexec]
  | ok r =>
    simp only [hexec, Option.mem_some_iff, forall_eq', replacementCodes_eq] at hsame hfits
    have hstep : step env e =
      .ok (({ e with line := e.request.uri } : Engine).startReplacement env code r) := by
      rw [step_cons hip]
      simp only [Engine.runCode, Engine.regexStartCode, hps.uri, if_true,
        bind, Except.bind, hexec, hps.test,
      Bool.false_eq_true, if_false]
    obtain ⟨hrequest, hroom⟩ := replacement_room hps hsame hfits
    rcases startReplacement_cases env { e with line := e.request.uri } code r with hdone | hm
    · exact .inl ⟨_, hstep, .inl hdone⟩
    refine .inr ?_
    generalize ({ e with line := e.request.uri } : Engine).startReplacement env code r =
      m at hstep hm
    have hrequest' : m.request = requestAfter env (ps.map Part.len) (Engine.markRewritten code r) :=
      hm.request.trans hrequest
    have hadded : Engine.addedArgs code.addArgs m.request =
      Engine.addedArgs code.addArgs (Engine.markRewritten code r) := by
      rw [hrequest', addedArgs_after]
    have hlen : m.buf.len = (Engine.regexLength env code (Engine.markRewritten code r)).1 +
        Engine.addedArgs code.addArgs (Engine.markRewritten code r) := by
      rw [hm.buf, ← hadded]
      rfl
    have hempty : m.buf.data.length = 0 := by
      rw [hm.buf]
      rfl
    have hspare := spareArgs_le code (decide (Part.args ∈ ps)) (Engine.markRewritten code r)
    have hip' : m.ip = ps.map Part.code ++ .regexEnd endCode :: codes := by
      rw [hm.ip]
      exact congrArg List.tail hip
    have hpass : (runLengths env (ps.map Part.len) ⟨m.isArgs, m.quote, m.request⟩).1 =
        (runLengths env (ps.map Part.len) ⟨e.isArgs, code.redirect,
          requestAfter env (ps.map Part.len) (Engine.markRewritten code r)⟩).1 := by
      rw [hm.isArgs, hm.quote, hrequest']
    obtain ⟨e', hrun, he'⟩ := run_parts env hip' (by omega)
    have hwritten := he'.written
    have hargs : Part.args ∉ ps → e'.args = none := fun hnot =>
      (he'.args hnot).trans (hm.args.trans hready.args)
    obtain ⟨e'', hstep', he''⟩ := step_regexEnd env he'.ip (he'.sp.trans (hm.sp.trans hsp))
      (fun hredirect => hargs (hps.args (hps.redirect.symm.trans hredirect))) (by
        intro hown
        have hnone : spareArgs code (decide (Part.args ∈ ps)) (Engine.markRewritten code r) =
          0 := by
          apply if_pos
          rw [Bool.or_eq_true, decide_eq_true_eq]
          rcases hown with hredirect | hsome
          · exact .inl (hps.redirect.symm.trans hredirect)
          · by_contra hnot
            rw [hargs fun h => hnot (.inr h)] at hsome
            cases hsome
        rw [he'.request, addedArgs_after, hps.addArgs, hadded, he'.len]
        omega)
    refine ⟨e'', ?_, he''⟩
    rw [show ps.length + 2 = (ps.length + 1) + 1 from rfl, run_succ hstep,
      run_add hrun, run_succ hstep']
    rfl

/-! ## Whole runs -/

/-- What is shown of codes at which a run goes on. -/
def RunsFrom (env : Env) (n : Nat) (codes : List Code) : Prop :=
  ∀ (e : Engine) (m : Nat), e.ip = codes → Ready n e → codes.length ≤ m →
    All (step env) (SameValues env) m e →
    All (step env) (Fits env) m e → Comes (step env) Engine.done m e

theorem comes_onward {codes : List Code} {e' : Engine} {k m : Nat}
    (hrun : run (step env) k e = .ok e')
    (hcomes : GoesOn n codes e') (hm : k + codes.length ≤ m)
    (hsame : All (step env) (SameValues env) m e)
    (hfits : All (step env) (Fits env) m e) (hrest : RunsFrom env n codes) :
    Comes (step env) Engine.done m e := by
  obtain ⟨m, rfl⟩ : ∃ m', m = k + m' := ⟨m - k, by omega⟩
  apply Comes.of_after hrun
  rcases hcomes with hdone | ⟨hip, hready⟩
  · exact ⟨e', run_done hdone m, hdone⟩
  · exact hrest e' m hip hready (by omega) (hsame.after hrun) (hfits.after hrun)

variable {code : Code}

theorem runsFrom_step {n' : Nat} {codes codes' : List Code} (hle : codes'.length ≤ codes.length)
    (hrest : RunsFrom env n' codes')
    (hstep : ∀ e : Engine, e.ip = code :: codes → Ready n e →
      ∃ e', step env e = .ok e' ∧ GoesOn n' codes' e') :
    RunsFrom env n (code :: codes) := by
  intro e m hip hready hm hsame hfits
  obtain ⟨e', hstep', he'⟩ := hstep e hip hready
  have hrun : run (step env) 1 e = .ok e' := run_succ hstep' 0
  rw [length_cons] at hm
  exact comes_onward hrun he' (by omega) hsame hfits hrest

theorem runsFrom_end {codes : List Code}
    (hstep : ∀ e : Engine, e.ip = code :: codes → ∃ e', step env e = .ok e' ∧ e'.done) :
    RunsFrom env n (code :: codes) := by
  intro e m hip hready hm hsame hfits
  obtain ⟨e', hstep', hdone⟩ := hstep e hip
  obtain ⟨m, rfl⟩ : ∃ m', m = 1 + m' := ⟨m - 1, by rw [length_cons] at hm; omega⟩
  have hrun : run (step env) 1 e = .ok e' := run_succ hstep' 0
  exact Comes.of_after hrun ⟨e', run_done hdone m, hdone⟩

theorem length_jump_le {codes codes' : List Code} {next : Nat} (hpos : 0 < next)
    (hjump : (code :: codes).drop next = codes') : codes'.length ≤ codes.length := by
  rw [← hjump, length_drop, length_cons]
  omega

/-- The run from codes that are laid, as long as every value run in it fits: the
induction is on the layout, and what follows a code has fewer steps left. -/
theorem laid_runs {codes : List Code} (hlaid : Laid n codes) : RunsFrom env n codes := by
  induction hlaid with
  | null n codes =>
    intro e m hip hready hm hsame hfits
    have hdone : e.done := by rw [Engine.done, hip]; rfl
    exact ⟨e, run_done hdone m, hdone⟩
  | breakCode n codes => exact runsFrom_end fun e hip => ⟨e.breakCode, step_cons hip, done_exit e⟩
  | returnCode n codes status text =>
    exact runsFrom_end fun e hip => ⟨e.returnCode env status text, step_cons hip, done_exit e⟩
  | value text hn hnext ih =>
    exact runsFrom_step le_rfl ih fun e hip hready => step_value hip hready hn
  | var index hn hnext ih =>
    exact runsFrom_step le_rfl ih fun e hip hready => step_var hip hready hn
  | setVar index hnext ih =>
    exact runsFrom_step le_rfl ih fun e hip hready => step_setVar hip hready
  | varSetHandler data hnext ih =>
    exact runsFrom_step le_rfl ih fun e hip hready => step_varSetHandler hip hready
  | equal hn hnext ih =>
    exact runsFrom_step le_rfl ih fun e hip hready => step_equal hip hready hn
  | notEqual hn hnext ih =>
    exact runsFrom_step le_rfl ih fun e hip hready => step_notEqual hip hready hn
  | file op hn hnext ih =>
    exact runsFrom_step le_rfl ih fun e hip hready => step_file hip hready hn
  | test htest huri hn hnext ih =>
    exact runsFrom_step le_rfl ih fun e hip hready => step_test hip htest huri hready hn
  | ifCode hpos hjump hnext hother ih ihOther =>
    intro e m hip hready hm hsame hfits
    obtain ⟨e', hstep, he'⟩ := step_ifCode env hip hready
    have hrun : run (step env) 1 e = .ok e' := run_succ hstep 0
    rw [length_cons] at hm
    rcases he' with hblock | hbehind
    · exact comes_onward hrun hblock (by omega) hsame hfits ih
    · rw [hjump] at hbehind
      have hle := length_jump_le hpos hjump
      exact comes_onward hrun hbehind (by omega) hsame hfits ihOther
  | complexValue hn hargs hnext ih =>
    intro e m hip hready hm hsame hfits
    obtain ⟨e', hrun, he'⟩ := run_complexValue hip hready hn hargs hsame.here hfits.here
    rw [length_cons, length_append, length_map] at hm
    exact comes_onward hrun he' (by omega) hsame hfits ih
  | replacement hps hpos hjump hnext hother ih ihOther =>
    intro e m hip hready hm hsame hfits
    rcases run_replacement hip hready hps hsame.here hfits.here
      with ⟨e', hstep, he'⟩ | ⟨e', hrun, he'⟩
    · have hrun : run (step env) 1 e = .ok e' := run_succ hstep 0
      rw [hip, hjump] at he'
      have hle := length_jump_le hpos hjump
      rw [length_cons] at hm
      exact comes_onward hrun he' (by omega) hsame hfits ihOther
    · rw [length_cons, length_append, length_map, length_cons] at hm
      exact comes_onward hrun he' (by omega) hsame hfits ih

/-! ## A configuration -/

/-- A configuration in which everything compiles. -/
def plainConf : Conf where
  regexCompile pattern caseless :=
    some { pattern := pattern, caseless := caseless, ncaptures := 9, named := [] }
  variableIndex _ := some 0
  addVariable _ := some none
  complexValue _ := true

/-- What `^/((.*))$` finds in a string that begins with a slash. -/
def nestedMatch (s : Bytes) : ExecResult s.length :=
  if h : 1 ≤ s.length then
    .matched [some ⟨0, s.length, Nat.zero_le _, le_rfl⟩,
      some ⟨1, s.length, h, le_rfl⟩,
      some ⟨1, s.length, h, le_rfl⟩]
  else .noMatch

def plainEnv : Env where
  pcreExec _ := nestedMatch
  getHandler _ r := { ok := false, values := r.values, captures := r.captures }
  noCacheable _ := false
  setHandler _ _ r := r
  openCachedFile _ := .failed
  sendResponse status _ _ := status
  pnalloc _ _ := true

/-- A request of `/%25%25%25`. -/
def quotedRequest : Request where
  uri := ascii "/%%%"
  args := []
  quotedUri := true
  plusInUri := false
  captures := Captures.empty
  values _ := {}
  internal := false
  validUnparsedUri := true
  validLocation := true
  uriChanged := false
  location := none
  locConf := none

/-- A value and a replacement in which every capture is escaped once. -/
def onceBlock : List Directive :=
  [.set (ascii "$y") (ascii "v$1"), .rewrite (ascii "^/((.*))$") (ascii "/x?a=$1") none]

/-! ## The handler -/

/-- In every run of a block whose value runs all fit, nothing goes wrong: no write is
behind the memory allocated for it, every string is written in exactly its length. -/
theorem rewriteHandler_fits {conf : Conf} {block : List Directive} {codes : List Code}
    (hcompile : compile conf block = some codes) (env : Env) (r : Request)
    (hsame : All (step env) (SameValues env) codes.length (rewriteEngine codes r))
    (hfits : All (step env) (Fits env) codes.length (rewriteEngine codes r)) :
    Comes (step env) Engine.done codes.length (rewriteEngine codes r) := by
  have hready : Ready 0 (rewriteEngine codes r) := ⟨rfl, fun v hv => absurd hv not_mem_nil, rfl⟩
  exact laid_runs (compile_laid hcompile) _ _ rfl hready (le_rfl) hsame hfits

theorem rewriteHandler_fits_once : ∃ codes, compile plainConf onceBlock = some codes ∧
    Comes (step plainEnv) Engine.done codes.length (rewriteEngine codes quotedRequest) := by
  refine ⟨_, rfl, ?_⟩
  exact rewriteHandler_fits
    (show compile plainConf onceBlock = some _ from rfl) plainEnv quotedRequest
    (by decide +kernel) (by decide +kernel)

/-- A run in which the variables are the same in both passes writes behind its memory. -/
def Overruns (conf : Conf) (env : Env) (block : List Directive) (r : Request) : Prop :=
  ∃ codes, compile conf block = some codes ∧
    All (step env) (SameValues env) codes.length (rewriteEngine codes r) ∧
    run (step env) codes.length (rewriteEngine codes r) = .error .overrun

/-- `rewrite ^/((.*))$ /x?a=$1&b=$2` and `rewrite ^/((.*))$ /x?c=1; set $y $1` with `/%25%25%25`. -/
theorem rewriteHandler_overrun :
    Overruns plainConf plainEnv [.rewrite (ascii "^/((.*))$") (ascii "/x?a=$1&b=$2") none]
      quotedRequest ∧
      Overruns plainConf plainEnv
        [.rewrite (ascii "^/((.*))$") (ascii "/x?c=1") none,
          .set (ascii "$y") (ascii "$1")] quotedRequest :=
  ⟨⟨_, rfl, by decide +kernel, rfl⟩, ⟨_, rfl, by decide +kernel, rfl⟩⟩

end Nginx.Http.Rewrite
