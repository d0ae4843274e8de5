/-
  Http/Rewrite/Layout.lean --- how the codes of a block lie in their array.

  A source is a list of parts, and both of its scripts are that list (`Of`).
  `Laid n codes` says that an engine with `n` strings on its stack can run `codes`:
  every value run is whole, every jump leads to a code of its level, and every
  code finds its operands.
-/
import Nginx.Http.Rewrite.Engine

set_option autoImplicit false

namespace Nginx.Http.Rewrite

open List Foundation Option

/-! ## Sources -/

/-- A part of a source. -/
inductive Part where
  | text (data : Bytes)
  | var (index : Nat)
  | capture (n : Nat)
  /-- the `?` before arguments -/
  | args
  deriving DecidableEq

namespace Part

/-- The code of the length script. -/
def len : Part → LenCode
  | text data => .copy data.length
  | var index => .copyVar index
  | capture n => .copyCapture n
  | args => .markArgs

/-- The code of the value script. -/
def code : Part → Code
  | text data => .copy data
  | var index => .copyVar index
  | capture n => .copyCapture n
  | args => .startArgs

/-- What a part adds to `sc->size`. -/
def size : Part → Nat
  | text data => data.length
  | _ => 0

def capture? : Part → Option Nat
  | capture n => some n
  | _ => none

end Part

/-- The scripts of a list of parts, and what is known of the parts. -/
structure ScriptCompile.Of (sc : ScriptCompile) (ps : List Part) : Prop where
  lengths : sc.lengths = ps.map Part.len
  values : sc.values = ps.map Part.code
  size : sc.size = (ps.map Part.size).sum
  vars : sc.variableCount = 0 → ∀ index, Part.var index ∉ ps
  captures : ∀ n ∈ ps.filterMap Part.capture?, n ∈ sc.captures
  distinct : sc.dupCapture = false → (ps.filterMap Part.capture?).Nodup
  numbered : ∀ n ∈ ps.filterMap Part.capture?, 1 ≤ n
  args : Part.args ∈ ps → sc.compileArgs = false
  single : ps.count Part.args ≤ 1

namespace ScriptCompile

variable {sc : ScriptCompile} {ps : List Part}

theorem of_start (compileArgs : Bool) : ({ compileArgs := compileArgs } : ScriptCompile).Of [] where
  lengths := rfl
  values := rfl
  size := rfl
  vars := fun _ _ => not_mem_nil
  captures := fun _ h => absurd h not_mem_nil
  distinct := fun _ => nodup_nil
  numbered := fun _ h => absurd h not_mem_nil
  args := fun h => absurd h not_mem_nil
  single := Nat.zero_le 1

theorem Of.append_part (h : sc.Of ps) {sc' : ScriptCompile} {p : Part}
    (hlengths : sc'.lengths = sc.lengths ++ [p.len]) (hvalues : sc'.values = sc.values ++ [p.code])
    (hsize : sc'.size = sc.size + p.size)
    (hvars : sc'.variableCount = 0 → sc.variableCount = 0 ∧ ∀ index, p ≠ .var index)
    (hcaptures : ∀ n, n ∈ sc.captures ∨ p = .capture n → n ∈ sc'.captures)
    (hdup : sc'.dupCapture = false → sc.dupCapture = false ∧ ∀ n, p = .capture n → n ∉ sc.captures)
    (hnumbered : ∀ n, p = .capture n → 1 ≤ n)
    (hargs : sc.compileArgs = false ∨ p = .args → sc'.compileArgs = false)
    (hsingle : p = .args → sc.compileArgs = true) : sc'.Of (ps ++ [p]) := by
  have hfilter : (ps ++ [p]).filterMap Part.capture? = ps.filterMap Part.capture? ++
    p.capture?.toList := by
    rw [filterMap_append]
    cases p <;> rfl
  have hcapture : ∀ n ∈ p.capture?.toList, p = .capture n := by
    intro n hn
    cases p with
    | capture m =>
      obtain rfl := mem_singleton.mp hn
      rfl
    | text data => exact absurd hn not_mem_nil
    | var index => exact absurd hn not_mem_nil
    | args => exact absurd hn not_mem_nil
  constructor
  · rw [hlengths, h.lengths, map_append, map_singleton]
  · rw [hvalues, h.values, map_append, map_singleton]
  · rw [hsize, h.size, map_append, map_singleton, sum_append, sum_singleton]
  · intro hzero index hmem
    obtain ⟨hbefore, hnew⟩ := hvars hzero
    rcases mem_append.mp hmem with hold | hold
    · exact h.vars hbefore index hold
    · exact hnew index (mem_singleton.mp hold).symm
  · intro n hn
    rw [hfilter] at hn
    rcases mem_append.mp hn with hold | hold
    · exact hcaptures n (.inl (h.captures n hold))
    · exact hcaptures n (.inr (hcapture n hold))
  · intro hfalse
    obtain ⟨hbefore, hnew⟩ := hdup hfalse
    rw [hfilter]
    refine nodup_append.mpr ⟨h.distinct hbefore, ?_, ?_⟩
    · cases p with
      | capture m => exact pairwise_singleton _ m
      | text data => exact nodup_nil
      | var index => exact nodup_nil
      | args => exact nodup_nil
    · rintro n hold m hnew' rfl
      exact hnew n (hcapture n hnew') (h.captures n hold)
  · intro n hn
    rw [hfilter] at hn
    rcases mem_append.mp hn with hold | hold
    · exact h.numbered n hold
    · exact hnumbered n (hcapture n hold)
  · intro hmem
    rcases mem_append.mp hmem with hold | hold
    · exact hargs (.inl (h.args hold))
    · exact hargs (.inr (mem_singleton.mp hold).symm)
  · rw [count_append]
    have hsingle' := h.single
    by_cases hp : p = .args
    · have hnone : ps.count Part.args = 0 := by
        apply count_eq_zero.mpr
        intro hmem
        exact absurd (h.args hmem) (by rw [hsingle hp]; exact Bool.noConfusion)
      rw [hnone, hp, count_singleton_self]
    · rw [count_eq_zero.mpr (fun hmem => hp (mem_singleton.mp hmem).symm)]
      exact hsingle'

end ScriptCompile

theorem span_snd_length {α : Type} (f : α → Bool) (l : List α) :
    (l.span f).2.length ≤ l.length := by
  rw [span_eq_takeWhile_dropWhile]
  exact (dropWhile_sublist f).length_le

variable {source : Bytes}

theorem scriptName_length {name rest : Bytes} (h : scriptName source = some (name, rest)) :
    rest.length ≤ source.length := by
  unfold scriptName at h
  split at h
  · cases h
  next ch tail =>
    split at h
    · split at h
      next name' close rest' hspan =>
        split at h
        · cases h
          have hlen := span_snd_length isNameChar tail
          rw [hspan] at hlen
          simp only [length_cons] at hlen ⊢
          omega
        · cases h
      · cases h
    · split at h
      next name' rest' hspan =>
        split at h
        · cases h
          have hlen := span_snd_length isNameChar (ch :: tail)
          rw [hspan] at hlen
          exact hlen
        · cases h

set_option maxRecDepth 4000 in
theorem digit_pos {digit : Byte} (h : chr '1' ≤ digit ∧ digit ≤ chr '9') :
    1 ≤ (digit - chr '0').toNat := by
  have hall : ∀ digit : Byte, chr '1' ≤ digit ∧ digit ≤ chr '9' → 1 ≤ (digit - chr '0').toNat := by
    apply forall_byte
    decide
  exact hall digit h

/-- A part that is compiled appends its codes to those of the parts before it. -/
theorem scriptPart_of {conf : Conf} {sc sc' : ScriptCompile} {ch : Byte}
    {rest : Bytes} {ps : List Part}
    (h : scriptPart conf sc ch source = some (sc', rest)) (hof : sc.Of ps) :
    ∃ p, sc'.Of (ps ++ [p]) ∧ rest.length ≤ source.length ∧
      (sc.compileArgs = false → p ≠ .args ∧ sc'.compileArgs = false) := by
  unfold scriptPart at h
  split at h
  · split at h
    · cases h
    next digit tail =>
      split at h
      next hdigit =>
        -- a capture
        cases h
        refine ⟨.capture (digit - chr '0').toNat, ?_, Nat.le_succ _, fun hargs =>
          ⟨Part.noConfusion, hargs⟩⟩
        refine hof.append_part rfl rfl rfl (fun hzero =>
          ⟨hzero, fun _ => Part.noConfusion⟩) ?_ ?_ ?_ ?_ Part.noConfusion
        · rintro n (hold | hnew)
          · exact mem_cons_of_mem _ hold
          · cases hnew
            exact mem_cons_self
        · intro hdup
          obtain ⟨hbefore, hnew⟩ := Bool.or_eq_false_iff.mp hdup
          refine ⟨hbefore, ?_⟩
          rintro n hn hmem
          cases hn
          rw [contains_iff_mem.mpr hmem] at hnew
          cases hnew
        · rintro n hn
          cases hn
          exact digit_pos hdigit
        · rintro (hold | hnew)
          · exact hold
          · cases hnew
      · -- a variable
        obtain ⟨⟨name, rest'⟩, hname, h⟩ := bind_eq_some_iff.mp h
        obtain ⟨index, hindex, h⟩ := bind_eq_some_iff.mp h
        cases h
        refine ⟨.var index, ?_, scriptName_length hname, fun hargs => ⟨Part.noConfusion, hargs⟩⟩
        refine hof.append_part rfl rfl rfl (fun hzero => absurd hzero (Nat.succ_ne_zero _)) ?_
          (fun hdup => ⟨hdup, fun _ => Part.noConfusion⟩) (fun _ =>
            Part.noConfusion) ?_ Part.noConfusion
        · rintro n (hold | hnew)
          · exact hold
          · cases hnew
        · rintro (hold | hnew)
          · exact hold
          · cases hnew
  next hdollar =>
    split at h
    next hargs =>
      -- the arguments
      cases h
      refine ⟨.args, ?_, le_rfl, fun hfalse =>
        absurd hargs.2 (by rw [hfalse]; exact Bool.noConfusion)⟩
      refine hof.append_part rfl rfl rfl (fun hzero => ⟨hzero, fun _ => Part.noConfusion⟩) ?_
        (fun hdup => ⟨hdup, fun _ => Part.noConfusion⟩) (fun _ =>
          Part.noConfusion) (fun _ => rfl) (fun _ => hargs.2)
      rintro n (hold | hnew)
      · exact hold
      · cases hnew
    next hargs =>
      -- a text, which has the byte at least
      have htext : isText sc.compileArgs ch = true := by
        unfold isText
        rw [Bool.and_eq_true, bne_iff_ne, Bool.not_eq_true', Bool.and_eq_false_iff]
        refine ⟨hdollar, ?_⟩
        by_cases hquestion : ch = chr '?'
        · exact .inr (Bool.eq_false_iff.mpr fun htrue => hargs ⟨hquestion, htrue⟩)
        · exact .inl (beq_eq_false_iff_ne.mpr hquestion)
      cases hspan : (ch :: source).span (isText sc.compileArgs) with
      | mk text rest' =>
        rw [hspan] at h
        cases h
        refine ⟨.text text, ?_, ?_, fun hfalse => ⟨Part.noConfusion, hfalse⟩⟩
        · refine hof.append_part rfl rfl rfl (fun hzero => ⟨hzero, fun _ => Part.noConfusion⟩) ?_
            (fun hdup => ⟨hdup, fun _ => Part.noConfusion⟩) (fun _ =>
              Part.noConfusion) ?_ Part.noConfusion
          · rintro n (hold | hnew)
            · exact hold
            · cases hnew
          · rintro (hold | hnew)
            · exact hold
            · cases hnew
        · rw [span_eq_takeWhile_dropWhile] at hspan
          cases hspan
          rw [dropWhile_cons_of_pos htext]
          exact (dropWhile_sublist _).length_le

theorem scriptParts_of {conf : Conf} {turns : Nat} {sc sc' : ScriptCompile} {ps : List Part}
    (h : scriptParts conf turns source sc = some sc') (hof : sc.Of ps) :
    ∃ ps', sc'.Of (ps ++ ps') ∧ (sc.compileArgs = false → Part.args ∉ ps') := by
  induction turns generalizing source sc ps with
  | zero =>
    cases source with
    | nil =>
      cases h
      exact ⟨[], by rwa [append_nil], fun _ => not_mem_nil⟩
    | cons ch source => cases h
  | succ turns ih =>
    cases source with
    | nil =>
      cases h
      exact ⟨[], by rwa [append_nil], fun _ => not_mem_nil⟩
    | cons ch source =>
      obtain ⟨⟨mid, rest⟩, hpart, hparts⟩ := bind_eq_some_iff.mp h
      obtain ⟨p, hmid, -, hargs⟩ := scriptPart_of hpart hof
      obtain ⟨ps', hsc', hargs'⟩ := ih hparts hmid
      refine ⟨p :: ps', by rwa [append_assoc] at hsc', fun hfalse hmem => ?_⟩
      obtain ⟨hp, hmid'⟩ := hargs hfalse
      rcases mem_cons.mp hmem with hhead | htail
      · exact hp hhead.symm
      · exact hargs' hmid' htail

theorem scriptCompile_of {conf : Conf} {compileArgs : Bool} {sc : ScriptCompile}
    (h : scriptCompile conf source compileArgs = some sc) :
    ∃ ps, sc.Of ps ∧ (compileArgs = false → Part.args ∉ ps) := by
  obtain ⟨ps, hof, hargs⟩ := scriptParts_of h (ScriptCompile.of_start compileArgs)
  exact ⟨ps, hof, hargs⟩

/-! ## Codes -/

/-- The codes of a `rewrite` fit the parts of its replacement. -/
structure Replaces (code : RegexCode) (endCode : RegexEndCode) (ps : List Part) : Prop where
  test : code.test = false
  uri : code.uri = true
  redirect : endCode.redirect = code.redirect
  addArgs : endCode.addArgs = code.addArgs
  /-- without a length script there are no variables, and every capture occurs once -/
  lengths : code.lengths = some (ps.map Part.len) ∨
    code.lengths = none ∧ (∀ index, Part.var index ∉ ps) ∧ (ps.filterMap Part.capture?).Nodup
  size : code.size = (ps.map Part.size).sum
  numbered : ∀ n ∈ ps.filterMap Part.capture?, 1 ≤ n
  single : ps.count Part.args ≤ 1
  args : code.redirect = true → Part.args ∉ ps

/-- An engine with `n` strings on its stack can run the codes. -/
inductive Laid : Nat → List Code → Prop where
  | null (n : Nat) (codes : List Code) : Laid n (.null :: codes)
  | value {n : Nat} {codes : List Code} (text : Bytes) (h : n < stackSize)
    (hnext : Laid (n + 1) codes) :
      Laid n (.value text :: codes)
  | var {n : Nat} {codes : List Code} (index : Nat) (h : n < stackSize)
    (hnext : Laid (n + 1) codes) :
      Laid n (.var index :: codes)
  | complexValue {n : Nat} {codes : List Code} {ps : List Part}
    (h : n < stackSize) (hargs : Part.args ∉ ps)
      (hnext : Laid (n + 1) codes) : Laid n
        (.complexValue (ps.map Part.len) :: (ps.map Part.code ++ codes))
  | setVar {n : Nat} {codes : List Code} (index : Nat)
    (hnext : Laid n codes) : Laid (n + 1) (.setVar index :: codes)
  | varSetHandler {n : Nat} {codes : List Code} (data : Nat) (hnext : Laid n codes) :
      Laid (n + 1) (.varSetHandler data :: codes)
  | equal {n : Nat} {codes : List Code} (h : n < stackSize)
    (hnext : Laid (n + 1) codes) : Laid (n + 2) (.equal :: codes)
  | notEqual {n : Nat} {codes : List Code} (h : n < stackSize) (hnext : Laid (n + 1) codes) :
      Laid (n + 2) (.notEqual :: codes)
  | file {n : Nat} {codes : List Code} (op : FileOp) (h : n < stackSize)
    (hnext : Laid (n + 1) codes) :
      Laid (n + 1) (.file op :: codes)
  | test {n : Nat} {codes : List Code} {code : RegexCode} (htest : code.test = true)
    (huri : code.uri = false)
      (h : n < stackSize) (hnext : Laid (n + 1) codes) : Laid (n + 1) (.regexStart code :: codes)
  | replacement {codes codes' : List Code} {code : RegexCode}
    {endCode : RegexEndCode} {ps : List Part}
      (hps : Replaces code endCode ps) (hpos : 0 < code.next)
      (hjump :
        (.regexStart code :: (ps.map Part.code ++ .regexEnd endCode :: codes)).drop code.next =
        codes')
      (hnext : Laid 0 codes) (hother : Laid 0 codes') :
      Laid 0 (.regexStart code :: (ps.map Part.code ++ .regexEnd endCode :: codes))
  | ifCode {codes codes' : List Code} {locConf : Option Nat} {next : Nat} (hpos : 0 < next)
      (hjump : (.ifCode locConf next :: codes).drop next = codes')
        (hnext : Laid 0 codes) (hother : Laid 0 codes') :
      Laid 1 (.ifCode locConf next :: codes)
  | breakCode (n : Nat) (codes : List Code) : Laid n (.breakCode :: codes)
  | returnCode (n : Nat) (codes : List Code) (status : Nat) (text : Option Bytes) :
      Laid n (.returnCode status text :: codes)

variable {codes rest : List Code}

theorem drop_over {c : Code} {next : Nat} (hrest : rest <:+ codes)
    (h : next + rest.length = 1 + codes.length) : (c :: codes).drop next = rest := by
  have heq := suffix_iff_eq_drop.mp (hrest.trans (suffix_cons c codes))
  have hnext : (c :: codes).length - rest.length = next := by
    rw [length_cons]
    omega
  rw [hnext] at heq
  exact heq.symm

variable {conf : Conf}

variable {value : Bytes}

theorem rewriteValue_laid {n : Nat} (h : rewriteValue conf value = some codes)
    (hn : n < stackSize) (hrest : Laid (n + 1) rest) : Laid n (codes ++ rest) := by
  unfold rewriteValue at h
  split at h
  · cases h
    exact .value value hn hrest
  obtain ⟨sc, hsc, h⟩ := bind_eq_some_iff.mp h
  cases h
  obtain ⟨ps, hof, hargs⟩ := scriptCompile_of hsc
  rw [hof.lengths, hof.values]
  exact .complexValue hn (hargs rfl) hrest

theorem rewrite_laid {pattern replacement : Bytes} {flag : Option Bytes}
    (h : rewrite conf pattern replacement flag = some codes) (hrest : Laid 0 rest) :
    Laid 0 (codes ++ rest) := by
  obtain ⟨regex, hregex, h⟩ := bind_eq_some_iff.mp h
  obtain ⟨flags, hflags, h⟩ := bind_eq_some_iff.mp h
  obtain ⟨sc, hsc, h⟩ := bind_eq_some_iff.mp h
  obtain ⟨ps, hof, hargs⟩ := scriptCompile_of hsc
  obtain rfl := some.inj h
  rw [hof.values, append_assoc, cons_append, cons_append]
  refine .replacement ?_ (pos_of_ne_zero (by simp only; omega)) ?_ ?_ hrest
  · constructor
    · rfl
    · rfl
    · rfl
    · rfl
    · show (if _ then none else some sc.lengths) = _ ∨
        (if _ then none else some sc.lengths) = none ∧ _
      split
      next hnone => exact .inr ⟨rfl, hof.vars hnone.1, hof.distinct hnone.2⟩
      next hsome => exact .inl (by rw [hof.lengths])
    · exact hof.size
    · exact hof.numbered
    · exact hof.single
    · intro hredirect
      exact hargs (by rw [Bool.not_eq_false']; exact hredirect)
  · -- the jump passes the replacement, its end and the null of a last one
    refine drop_over (((suffix_append _ rest).trans (suffix_cons _ _)).trans (suffix_append _ _)) ?_
    simp only [length_map, length_cons, length_append]
    omega
  · split
    · exact .null 0 _
    · exact hrest

theorem rewriteVariable_laid {n : Nat}
    (h : rewriteVariable conf value = some codes) (hn : n < stackSize) (hrest : Laid (n + 1) rest) :
    Laid n (codes ++ rest) := by
  obtain ⟨index, -, h⟩ := bind_eq_some_iff.mp h
  obtain rfl := some.inj h
  exact .var index hn hrest

theorem rewriteSet_laid {name : Bytes} (h : rewriteSet conf name value = some codes)
    (hrest : Laid 0 rest) : Laid 0 (codes ++ rest) := by
  have hdepth : 0 < stackSize := by decide
  unfold rewriteSet at h
  split at h
  · cases h
  obtain ⟨setHandler, -, h⟩ := bind_eq_some_iff.mp h
  obtain ⟨index, -, h⟩ := bind_eq_some_iff.mp h
  obtain ⟨value', hvalue, h⟩ := bind_eq_some_iff.mp h
  cases setHandler with
  | some data =>
    obtain rfl := some.inj h
    rw [append_assoc]
    exact rewriteValue_laid hvalue hdepth (.varSetHandler data hrest)
  | none =>
    obtain rfl := some.inj h
    rw [append_assoc]
    exact rewriteValue_laid hvalue hdepth (.setVar index hrest)

theorem regexTest_laid {n : Nat} {pattern : Bytes} {caseless negative : Bool}
    (h : regexTest conf pattern caseless negative = some codes)
    (hn : n < stackSize) (hrest : Laid (n + 1) rest) :
    Laid (n + 1) (codes ++ rest) := by
  obtain ⟨regex, -, h⟩ := bind_eq_some_iff.mp h
  obtain rfl := some.inj h
  exact .test rfl rfl hn hrest

theorem rewriteIfOperator_laid {operator operand : Bytes}
    (h : rewriteIfOperator conf operator operand = some codes) (hrest : Laid 1 rest) :
    Laid 1 (codes ++ rest) := by
  have hdepth : 0 < stackSize := by decide
  have hdepth' : 1 < stackSize := by decide
  unfold rewriteIfOperator at h
  split at h
  · obtain ⟨value, hvalue, h⟩ := bind_eq_some_iff.mp h
    obtain rfl := some.inj h
    rw [append_assoc]
    exact rewriteValue_laid hvalue hdepth' (.equal hdepth hrest)
  split at h
  · obtain ⟨value, hvalue, h⟩ := bind_eq_some_iff.mp h
    obtain rfl := some.inj h
    rw [append_assoc]
    exact rewriteValue_laid hvalue hdepth' (.notEqual hdepth hrest)
  split at h
  · exact regexTest_laid h hdepth hrest
  split at h
  · exact regexTest_laid h hdepth hrest
  split at h
  · exact regexTest_laid h hdepth hrest
  · split at h
    · exact regexTest_laid h hdepth hrest
    · cases h

theorem fileTest_laid {not : Bool} {minus letter : Byte} {name : Bytes}
    (h : rewriteIfCondition.fileTest conf not minus letter name = some codes)
    (hrest : Laid 1 rest) :
    Laid 0 (codes ++ rest) := by
  have hdepth : 0 < stackSize := by decide
  unfold rewriteIfCondition.fileTest at h
  split at h
  · obtain ⟨value, hvalue, h⟩ := bind_eq_some_iff.mp h
    obtain ⟨op, -, h⟩ := bind_eq_some_iff.mp h
    obtain rfl := some.inj h
    rw [append_assoc]
    exact rewriteValue_laid hvalue hdepth (.file op hdepth hrest)
  · cases h

theorem rewriteIfVariable_laid {variable' : Bytes} {comparison : List Bytes}
    (h : rewriteIfVariable conf variable' comparison = some codes) (hrest : Laid 1 rest) :
    Laid 0 (codes ++ rest) := by
  have hdepth : 0 < stackSize := by decide
  unfold rewriteIfVariable at h
  split at h
  · exact rewriteVariable_laid h hdepth hrest
  · obtain ⟨var, hvar, h⟩ := bind_eq_some_iff.mp h
    obtain ⟨operator, hoperator, h⟩ := bind_eq_some_iff.mp h
    obtain rfl := some.inj h
    rw [append_assoc]
    exact rewriteVariable_laid hvar hdepth (rewriteIfOperator_laid hoperator hrest)
  · cases h

theorem rewriteIfCondition_laid {args : List Bytes}
    (h : rewriteIfCondition conf args = some codes) (hrest : Laid 1 rest) :
    Laid 0 (codes ++ rest) := by
  obtain ⟨words, -, h⟩ := bind_eq_some_iff.mp h
  cases words with
  | nil => cases h
  | cons first words =>
    dsimp only at h
    split at h
    · exact rewriteIfVariable_laid h hrest
    split at h
    · exact fileTest_laid h hrest
    · split at h
      · exact fileTest_laid h hrest
      · cases h
    · cases h

theorem rewriteReturn_laid {text : Option Bytes}
    (h : rewriteReturn conf value text = some codes) : Laid 0 (codes ++ rest) := by
  simp only [rewriteReturn] at h
  split at h
  · split at h
    · obtain rfl := some.inj h
      exact .returnCode 0 rest _ text
    · cases h
  · split at h
    · obtain rfl := some.inj h
      exact .returnCode 0 rest _ _
    · cases h

mutual

theorem Directive.codes_laid {codes rest : List Code} (hrest : Laid 0 rest) :
    ∀ d : Directive, d.codes conf = some codes → Laid 0 (codes ++ rest)
  | .rewrite pattern replacement flag, h => rewrite_laid (Directive.codes.eq_1 .. ▸ h) hrest
  | .set name value, h => rewriteSet_laid (Directive.codes.eq_2 .. ▸ h) hrest
  | .if args locConf block, h => by
    rw [Directive.codes] at h
    obtain ⟨condition, hcondition, h⟩ := bind_eq_some_iff.mp h
    obtain ⟨inner, hinner, h⟩ := bind_eq_some_iff.mp h
    obtain rfl := some.inj h
    rw [append_assoc, cons_append]
    apply rewriteIfCondition_laid hcondition
    refine .ifCode (pos_of_ne_zero (by omega)) ?_ (blockCodes_laid hrest block hinner) hrest
    -- the jump passes the block
    refine drop_over (suffix_append inner rest) ?_
    rw [length_append]
    omega
  | .break, h => by
    rw [Directive.codes] at h
    obtain rfl := some.inj h
    exact .breakCode 0 rest
  | .return value text, h => rewriteReturn_laid (Directive.codes.eq_5 .. ▸ h)

theorem blockCodes_laid {codes rest : List Code} (hrest : Laid 0 rest) :
    ∀ block : List Directive, blockCodes conf block = some codes → Laid 0 (codes ++ rest)
  | [], h => by
    rw [blockCodes] at h
    obtain rfl := some.inj h
    exact hrest
  | directive :: block, h => by
    rw [blockCodes] at h
    obtain ⟨first, hfirst, h⟩ := bind_eq_some_iff.mp h
    obtain ⟨others, hothers, h⟩ := bind_eq_some_iff.mp h
    obtain rfl := some.inj h
    rw [append_assoc]
    exact Directive.codes_laid (blockCodes_laid hrest block hothers) directive hfirst

end

theorem compile_laid {block : List Directive} (h : compile conf block = some codes) :
    Laid 0 codes := by
  obtain ⟨inner, hinner, h⟩ := bind_eq_some_iff.mp h
  obtain rfl := some.inj h
  exact blockCodes_laid (.null 0 []) block hinner

end Nginx.Http.Rewrite
