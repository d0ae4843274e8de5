/-
  Http/Charset/Runs.lean --- a response recoded over many buffers and calls.

  Where every buffer fits behind what the buffers before it leave unfinished, the
  response comes out recoded; where one does not, it does not.
-/
import Nginx.Http.Charset.Recode

set_option autoImplicit false

namespace Nginx.Http.Charset

open List Foundation Nginx.Core

/-- The bytes of buffers. -/
def bytesOf (bufs : List Buf) : Bytes := bufs.flatMap Buf.bytes

/-- Every buffer fits, from what is unfinished on. -/
def AllFit : Bytes → List Buf → Prop
  | _, [] => True
  | left, b :: rest =>
    (left = [] ∨ Fits left b.bytes (rest ≠ [])) ∧ AllFit (unfinished (left ++ b.bytes)) rest

/-- What is saved where `left` is unfinished.  A sequence that is complete is saved, too,
until the next buffer comes. -/
inductive Holding (saved left : Bytes) (rest : List Buf) : Prop where
  | same (h : saved = left)
  | complete (hleft : left = []) (hstarted : Started saved) (hcomplete : Utf8Complete saved)
      (hpassed : (utf8Decode saved).2 = saved.length) (hrest : rest ≠ [])

/-- Buffers in memory that are not empty, of which only the last one may have `last_buf`. -/
structure Wellformed (bufs : List Buf) : Prop where
  memory : ∀ b ∈ bufs, b.memory = true ∧ b.bytes ≠ []
  last : ∀ pre b post, bufs = pre ++ b :: post → post ≠ [] → b.flags.lastBuf = false

theorem Wellformed.tail {b : Buf} {rest : List Buf} (h : Wellformed (b :: rest)) :
    Wellformed rest where
  memory x hx := h.memory x (mem_cons_of_mem _ hx)
  last pre x post heq hpost := h.last (b :: pre) x post (by rw [heq, cons_append]) hpost

theorem Wellformed.head {b : Buf} {rest : List Buf} (h : Wellformed (b :: rest)) :
    b.memory = true ∧ b.bytes ≠ [] ∧ (rest ≠ [] → b.flags.lastBuf = false) :=
  ⟨(h.memory b mem_cons_self).1, (h.memory b mem_cons_self).2, h.last [] b rest rfl⟩

theorem started_unfinished {src : Bytes} (h : unfinished src ≠ []) :
    Started (unfinished src) ∧ (unfinished src).length < sequenceLength (unfinished src) := by
  obtain ⟨c, rest, heq, hc, hincomplete⟩ := (unfinished_incomplete src).resolve_left h
  have hlong := utf8Length_le c
  rw [heq]
  rw [Utf8Complete] at hincomplete
  refine ⟨⟨⟨c, rest, rfl, hc⟩, ?_⟩, ?_⟩
  · rw [utfLen]
    omega
  · exact not_le.mp hincomplete

variable {held : Bytes}

theorem Started.append (h : Started held) {bytes : Bytes}
    (hle : held.length + bytes.length ≤ utfLen) :
    Started (held ++ bytes) ∧ sequenceLength (held ++ bytes) = sequenceLength held := by
  obtain ⟨c, rest, rfl, hc⟩ := h.head
  refine ⟨⟨⟨c, rest ++ bytes, rfl, hc⟩, ?_⟩, rfl⟩
  rw [length_append]
  exact hle

theorem Started.complete_iff (h : Started held) :
    Utf8Complete held ↔ sequenceLength held ≤ held.length := by
  obtain ⟨c, rest, rfl, -⟩ := h.head
  exact Iff.rfl

theorem Started.unfinished_eq (h : Started held) :
    (¬ Utf8Complete held → unfinished held = held) ∧
      (Utf8Complete held → (utf8Decode held).2 = held.length → unfinished held = []) := by
  obtain ⟨c, rest, rfl, hc⟩ := h.head
  refine ⟨fun hincomplete => (codePoints_incomplete hc hincomplete).2, fun hcomplete hpassed => ?_⟩
  rw [(codePoints_complete hc hcomplete).2, hpassed, drop_length]
  rfl

section Step

variable {table : Table} {ctx : Ctx} {left src : Bytes} {b : Buf} {rest : List Buf}

/-- One buffer of a run that fits: its text, and what is saved for the next. -/
theorem recode_fits (hclean : Clean ctx) (hleft : left = unfinished src)
    (hholding : Holding ctx.saved left (b :: rest))
    (hwell : Wellformed (b :: rest)) (hfits : left = [] ∨ Fits left b.bytes (rest ≠ []))
    (hend : rest = [] → unfinished (left ++ b.bytes) = []) :
    ∃ text saved,
      Recoded ctx (recodeFromUtf8 table ctx b) text saved (if b.flags.lastBuf then 1 else 0) ∧
      Holding saved (unfinished (left ++ b.bytes)) rest ∧
      ∀ more, recoded table (ctx.saved ++ b.bytes ++ more) = text ++
        recoded table (saved ++ more) := by
  obtain ⟨hmemory, hne, hlast⟩ := hwell.head
  have hgo : ∀ more, recoded table (ctx.saved ++ b.bytes ++ more) =
      recoded table (ctx.saved ++ b.bytes) ++
        recoded table (unfinished (ctx.saved ++ b.bytes) ++ more) :=
    recoded_append table (ctx.saved ++ b.bytes)
  cases hholding with
  | complete hnil hstarted hcomplete hpassed _ =>
    have hbeyond : sequenceLength ctx.saved < ctx.saved.length + b.bytes.length :=
      Nat.lt_of_le_of_lt
        (hstarted.complete_iff.mp hcomplete) (Nat.lt_add_of_pos_right (length_pos_iff.mpr hne))
    have hall : (utf8Decode (ctx.saved ++ b.bytes)).2 = ctx.saved.length := by
      rw [utf8Decode_append hcomplete, hpassed]
    have hrecoded := (@recodeSaved_beyond table _ _ hclean hstarted hne hbeyond).2 hall.ge
    refine ⟨recoded table (ctx.saved ++ b.bytes), unfinished (ctx.saved ++ b.bytes),
      ?_, .same ?_, hgo⟩
    · rw [recodeFromUtf8, if_neg hstarted.pos.ne']
      exact hrecoded
    · rw [hnil, (codePoints_append ctx.saved b.bytes).2, hstarted.unfinished_eq.2 hcomplete hpassed]
  | same hsaved =>
    by_cases hnil : left = []
    · rw [hnil] at hsaved
      have hrecoded := recodeFresh_spec table hclean hsaved hmemory fun h => by
        have hrest : rest = [] := by
          by_contra hne
          rw [hlast hne] at h
          cases h
        have hfinished := hend hrest
        rwa [hnil, nil_append] at hfinished
      rw [hsaved, nil_append] at hgo
      refine ⟨recoded table b.bytes, unfinished b.bytes, ?_,
        .same (by rw [hnil, nil_append]), fun more => ?_⟩
      · rw [recodeFromUtf8, if_pos (by rw [hsaved]; rfl)]
        exact hrecoded
      · rw [hsaved, nil_append]
        exact hgo more
    · have hstarted : Started ctx.saved ∧ ctx.saved.length < sequenceLength ctx.saved := by
        rw [hsaved, hleft]
        exact started_unfinished (hleft ▸ hnil)
      obtain ⟨hstarted, hshort⟩ := hstarted
      have hsequence := hstarted.sequenceLength_le
      have hgoes : recodeFromUtf8 table ctx b = recodeSaved table ctx b := by
        rw [recodeFromUtf8, if_neg hstarted.pos.ne']
      rw [← hsaved] at hfits hend ⊢
      rcases hfits.resolve_left (length_pos_iff.mp hstarted.pos) with
        ⟨hbeyond, hpassed⟩ | ⟨hone, hmore, hwithin, hcomplete⟩
      · refine ⟨recoded table (ctx.saved ++ b.bytes), unfinished (ctx.saved ++ b.bytes),
          ?_, .same rfl, hgo⟩
        rw [hgoes]
        exact (recodeSaved_beyond hclean hstarted hne hbeyond).2 hpassed
      have hrecoded := (@recodeSaved_within table _ _ hclean hstarted hne hwithin).2 hone
      obtain ⟨hstarted', hsequence'⟩ := hstarted.append (hwithin.trans hsequence)
      refine ⟨[], ctx.saved ++ b.bytes, ?_, ?_, fun more => rfl⟩
      · rw [hgoes, hlast hmore]
        exact hrecoded
      by_cases hfull : ctx.saved.length + b.bytes.length = sequenceLength ctx.saved
      · have hpassed := hcomplete hfull
        have hcomplete' : Utf8Complete (ctx.saved ++ b.bytes) := by
          rw [hstarted'.complete_iff, hsequence', length_append, hfull]
        rw [← length_append] at hpassed
        exact .complete
          (hstarted'.unfinished_eq.2 hcomplete' hpassed) hstarted' hcomplete' hpassed hmore
      · refine .same (hstarted'.unfinished_eq.1 ?_).symm
        rw [hstarted'.complete_iff, hsequence', length_append]
        omega

/-- Nothing good can come of the buffers `rest`. -/
inductive Doomed (ctx : Ctx) (rest : List Buf) : Prop where
  /-- the response is over without its end -/
  | lost (h : rest = [])
  /-- a byte of the sequence that is saved is text of its own -/
  | stuck (hclean : Clean ctx) (hstarted : Started ctx.saved) (hcomplete : Utf8Complete ctx.saved)
      (hpassed : (utf8Decode ctx.saved).2 < ctx.saved.length)
  /-- a buffer does not fit -/
  | misfit (hclean : Clean ctx) (left src : Bytes) (hleft : left = unfinished src)
      (hholding : Holding ctx.saved left rest) (hfits : ¬ AllFit left rest)

/-- A doomed response fails at the next buffer, or does not end with it. -/
theorem Doomed.step (h : Doomed ctx (b :: rest)) (hwell : Wellformed (b :: rest)) :
    (∃ fault, recodeFromUtf8 table ctx b = .error fault) ∨
      ∃ out ctx', recodeFromUtf8 table ctx b = .ok (out, ctx') ∧ lasts out = 0 ∧
        Doomed ctx' rest := by
  obtain ⟨hmemory, hne, hlast⟩ := hwell.head
  have hgoes : Started ctx.saved → recodeFromUtf8 table ctx b = recodeSaved table ctx b :=
    fun hstarted => by
    rw [recodeFromUtf8, if_neg hstarted.pos.ne']
  cases h with
  | lost h => exact absurd h (cons_ne_nil _ _)
  | stuck hclean hstarted hcomplete hpassed =>
    have hbeyond : sequenceLength ctx.saved < ctx.saved.length + b.bytes.length :=
      Nat.lt_of_le_of_lt
        (hstarted.complete_iff.mp hcomplete) (Nat.lt_add_of_pos_right (length_pos_iff.mpr hne))
    refine .inl
      ⟨.read, (hgoes hstarted).trans ((recodeSaved_beyond hclean hstarted hne hbeyond).1 ?_)⟩
    rw [utf8Decode_append hcomplete]
    exact hpassed
  | misfit hclean left src hleft hholding hfits =>
    rw [AllFit] at hfits
    by_cases hhead : left = [] ∨ Fits left b.bytes (rest ≠ [])
    · -- a later one does not fit
      have hlater : ¬ AllFit (unfinished (left ++ b.bytes)) rest := fun h => hfits ⟨hhead, h⟩
      have hrest : rest ≠ [] := by
        rintro rfl
        exact hlater trivial
      obtain ⟨text, saved, hrecoded, hholding', -⟩ :=
        @recode_fits table _ _ _ _ _ hclean hleft hholding hwell hhead fun h => absurd h hrest
      obtain ⟨out, ctx', hok, -, hlasts, hsaved, hclean', -⟩ := hrecoded.ok
      rw [hlast hrest] at hlasts
      rw [← hsaved] at hholding'
      exact .inr ⟨out, ctx', hok, hlasts, .misfit hclean' _ _ rfl hholding' hlater⟩
    · rw [not_or] at hhead
      obtain ⟨hnonempty, hmisfit⟩ := hhead
      have hsaved : ctx.saved = left := by
        cases hholding with
        | same h => exact h
        | complete hnil _ _ _ _ => exact absurd hnil hnonempty
      have hstarted : Started ctx.saved ∧ ctx.saved.length < sequenceLength ctx.saved := by
        rw [hsaved, hleft]
        exact started_unfinished (hleft ▸ hnonempty)
      obtain ⟨hstarted, hshort⟩ := hstarted
      have hsequence := hstarted.sequenceLength_le
      rw [hgoes hstarted]
      rw [← hsaved, Fits, not_or] at hmisfit
      obtain ⟨hnotBeyond, hnotWithin⟩ := hmisfit
      by_cases hbeyond : sequenceLength ctx.saved < ctx.saved.length + b.bytes.length
      · have hpassed : ¬ ctx.saved.length ≤ (utf8Decode (ctx.saved ++ b.bytes)).2 :=
          fun h => hnotBeyond ⟨hbeyond, h⟩
        exact .inl
          ⟨.read, (recodeSaved_beyond hclean hstarted hne hbeyond).1 (not_le.mp hpassed)⟩
      have hwithin := not_lt.mp hbeyond
      obtain ⟨hread, hheld⟩ := @recodeSaved_within table _ _ hclean hstarted hne hwithin
      by_cases hone : ctx.saved.length = 1
      · obtain ⟨out, ctx', hok, -, hlasts, hsaved', hclean', -⟩ := (hheld hone).ok
        refine .inr ⟨out, ctx', hok, hlasts, ?_⟩
        by_cases hrest : rest = []
        · exact .lost hrest
        -- the sequence is full, and one of its bytes is text
        have hfull : ¬ (ctx.saved.length + b.bytes.length = sequenceLength ctx.saved →
            (utf8Decode (ctx.saved ++ b.bytes)).2 = ctx.saved.length + b.bytes.length) := fun h =>
          hnotWithin ⟨hone, hrest, hwithin, h⟩
        rw [Classical.not_imp] at hfull
        obtain ⟨hstarted', hsequence'⟩ := hstarted.append (hwithin.trans hsequence)
        have hcomplete' : Utf8Complete (ctx.saved ++ b.bytes) := by
          rw [hstarted'.complete_iff, hsequence', length_append, hfull.1]
        have hle := (utf8Decode_passed hcomplete').2.1
        rw [length_append] at hle
        refine .stuck hclean' (hsaved' ▸ hstarted') (hsaved' ▸ hcomplete') ?_
        rw [hsaved', length_append]
        exact lt_of_le_of_ne hle hfull.2
      · exact .inl ⟨.read, hread hone⟩

end Step

/-! ## Chains -/

section Chain

variable {table : Table} {ctx : Ctx} {left src : Bytes} {chain post : List Buf}

theorem bytesOf_cons (b : Buf) (rest : List Buf) :
    bytesOf (b :: rest) = b.bytes ++ bytesOf rest := flatMap_cons

theorem recodeChain_cons (ctx : Ctx) {b : Buf} (rest : List Buf)
    (hmemory : b.memory = true) (hne : b.bytes ≠ []) :
    recodeChain table ctx (b :: rest) = (recodeFromUtf8 table ctx b).bind fun head =>
      (recodeChain table head.2 rest).bind fun more => .ok (head.1 ++ more.1, more.2) := by
  have hsize : b.size ≠ 0 := by
    rw [Buf.size, Buf.text, if_pos hmemory]
    exact (length_pos_iff.mpr hne).ne'
  rw [recodeChain, if_neg hsize]
  rfl

theorem recodeChain_fits (hclean : Clean ctx) (hleft : left = unfinished src)
    (hholding : Holding ctx.saved left (chain ++ post)) (hwell : Wellformed (chain ++ post))
    (hfits : AllFit left (chain ++ post))
    (hend : unfinished (left ++ bytesOf (chain ++ post)) = []) :
    ∃ out ctx' src', recodeChain table ctx chain = .ok (out, ctx') ∧ Clean ctx' ∧
      Holding ctx'.saved (unfinished src') post ∧ AllFit (unfinished src') post ∧
      unfinished (unfinished src' ++ bytesOf post) = [] ∧ lasts out = lasts chain ∧
      recoded table (ctx.saved ++ bytesOf (chain ++ post)) = texts out ++
        recoded table (ctx'.saved ++ bytesOf post) := by
  induction chain generalizing ctx left src with
  | nil =>
    subst hleft
    exact ⟨[], ctx, src, rfl, hclean, hholding, hfits, hend, rfl, rfl⟩
  | cons b rest ih =>
    obtain ⟨hmemory, hne, -⟩ := hwell.head
    rw [cons_append] at hfits hholding hwell hend
    rw [bytesOf_cons, ← append_assoc, (codePoints_append (left ++ b.bytes) _).2] at hend
    obtain ⟨text, saved, hrecoded, hholding', htext⟩ :=
      @recode_fits table _ _ _ _ _ hclean hleft hholding hwell hfits.1 fun hnil => by
        rw [hnil, bytesOf, flatMap_nil, append_nil, unfinished_unfinished] at hend
        exact hend
    obtain ⟨head, ctx', hok, htexts, hlasts, hsaved, hclean', -⟩ := hrecoded.ok
    rw [← hsaved] at hholding' htext
    obtain ⟨out, ctx'', src', hmore, hclean'', hholding'', hfits', hend', hlasts', htext'⟩ :=
      ih hclean' rfl hholding' hwell.tail hfits.2 hend
    refine ⟨head ++ out, ctx'', src', ?_, hclean'', hholding'', hfits', hend', ?_, ?_⟩
    · rw [recodeChain_cons ctx rest hmemory hne, hok]
      simp only [Except.bind, hmore]
    · have hcons : lasts (b :: rest) = lasts [b] + lasts rest := lasts_append [b] rest
      rw [lasts_append, hlasts, hlasts', hcons, lasts_singleton]
    · rw [cons_append, bytesOf_cons, ← append_assoc, htext, htext',
        texts_append, htexts, append_assoc]

theorem Doomed.throughChain (h : Doomed ctx (chain ++ post)) (hwell : Wellformed (chain ++ post)) :
    (∃ fault, recodeChain table ctx chain = .error fault) ∨
      ∃ out ctx', recodeChain table ctx chain = .ok (out, ctx') ∧
        lasts out = 0 ∧ Doomed ctx' post := by
  induction chain generalizing ctx with
  | nil => exact .inr ⟨[], ctx, rfl, rfl, h⟩
  | cons b rest ih =>
    obtain ⟨hmemory, hne, -⟩ := hwell.head
    rw [recodeChain_cons ctx rest hmemory hne]
    rcases @Doomed.step table _ _ _ h hwell
      with ⟨fault, hfault⟩ | ⟨head, ctx', hok, hlasts, hdoomed⟩
    · exact .inl ⟨fault, by rw [hfault]; rfl⟩
    · rcases ih hdoomed hwell.tail with ⟨fault, hfault⟩ | ⟨out, ctx'', hmore, hlasts', hdoomed'⟩
      · exact .inl ⟨fault, by simp only [hok, Except.bind, hfault]⟩
      · refine .inr ⟨head ++ out, ctx'', by simp only [hok, Except.bind, hmore], ?_, hdoomed'⟩
        rw [lasts_append, hlasts, hlasts']

end Chain

/-! ## Calls -/

theorem taken_plain {n : Nat} {busy : List Buf} (h : ∀ b ∈ busy, Plain b) :
    ∀ b ∈ taken n busy, Plain b := by
  induction busy generalizing n with
  | nil => exact h
  | cons b rest ih =>
    intro x hx
    rw [taken, mem_cons] at hx
    rcases hx with rfl | hx
    · exact h b mem_cons_self
    · exact ih (fun y hy => h y (mem_cons_of_mem _ hy)) x hx

theorem release_plain {freeBuffers busy : List Buf} (hfree : ∀ b ∈ freeBuffers, Plain b)
    (hbusy : ∀ b ∈ busy, Plain b) :
    (∀ b ∈ (release freeBuffers busy).1, Plain b) ∧
      ∀ b ∈ (release freeBuffers busy).2, Plain b := by
  induction busy generalizing freeBuffers with
  | nil => exact ⟨hfree, hbusy⟩
  | cons b busy ih =>
    rw [release]
    split
    · exact ⟨hfree, hbusy⟩
    refine ih ?_ fun x hx => hbusy x (mem_cons_of_mem _ hx)
    split
    · intro x hx
      rcases mem_cons.mp hx with rfl | hx
      · exact hbusy x mem_cons_self
      · exact hfree x hx
    · exact hfree

/-- The context after a call. -/
def afterCall (ctx : Ctx) (call : Call) (out : List Buf) : Ctx :=
  { ctx with
    freeBuffers := (release ctx.freeBuffers (taken call.taken (ctx.busy ++ out))).1
    busy := (release ctx.freeBuffers (taken call.taken (ctx.busy ++ out))).2 }

theorem run_cons (table : Table) (ctx : Ctx) (call : Call) (calls : List Call) :
    run table ctx (call :: calls) = (recodeChain table ctx call.chain).bind fun head =>
      (run table (afterCall head.2 call head.1) calls).bind fun more =>
        .ok (head.1 ++ more.1, more.2) := by
  rw [run, bodyFilter]
  cases recodeChain table ctx call.chain with
  | error fault => rfl
  | ok head => rfl

theorem Clean.afterCall {ctx : Ctx} (h : Clean ctx) (call : Call)
    {out : List Buf} (hout : lasts out = 0) :
    Clean (afterCall ctx call out) := by
  have hbusy : ∀ b ∈ ctx.busy ++ out, Plain b := fun b hb =>
    (mem_append.mp hb).elim (h.busy b) (plain_of_lasts hout b)
  obtain ⟨hfree', hbusy'⟩ := release_plain h.free (taken_plain (n := call.taken) hbusy)
  exact ⟨hfree', hbusy'⟩

/-- The buffers of a response. -/
def buffers (calls : List Call) : List Buf := calls.flatMap Call.chain

theorem buffers_cons (call : Call) (calls : List Call) :
    buffers (call :: calls) = call.chain ++ buffers calls :=
  flatMap_cons

theorem run_of_buffers_nil (table : Table) (ctx : Ctx) {calls : List Call}
    (h : buffers calls = []) :
    ∃ ctx', run table ctx calls = .ok ([], ctx') := by
  induction calls generalizing ctx with
  | nil => exact ⟨ctx, rfl⟩
  | cons call calls ih =>
    rw [buffers_cons, append_eq_nil_iff] at h
    obtain ⟨ctx', hrest⟩ := ih (afterCall ctx call []) h.2
    refine ⟨ctx', ?_⟩
    rw [run_cons, h.1, recodeChain]
    simp only [Except.bind, hrest, append_nil]

section Run

variable {table : Table} {ctx : Ctx} {left src : Bytes} {calls : List Call}

theorem Doomed.afterCall (h : Doomed ctx (buffers calls)) (call : Call)
    {out : List Buf} (hout : lasts out = 0) :
    Doomed (afterCall ctx call out) (buffers calls) := by
  cases h with
  | lost h => exact .lost h
  | stuck hclean hstarted hcomplete hpassed =>
    exact .stuck (hclean.afterCall call hout) hstarted hcomplete hpassed
  | misfit hclean left src hleft hholding hfits =>
    exact .misfit (hclean.afterCall call hout) left src hleft hholding hfits

theorem Wellformed.post {chain post : List Buf} (h : Wellformed (chain ++ post)) :
    Wellformed post := by
  induction chain with
  | nil => exact h
  | cons b rest ih => exact ih h.tail

theorem Wellformed.lasts_eq_zero {chain post : List Buf}
    (h : Wellformed (chain ++ post)) (hpost : post ≠ []) :
    lasts chain = 0 := by
  refine countP_eq_zero.mpr fun b hb => ?_
  obtain ⟨pre, mid, rfl⟩ := append_of_mem hb
  have hplain := h.last pre b (mid ++ post) (by rw [append_assoc, cons_append]) fun hnil =>
    hpost (append_eq_nil_iff.mp hnil).2
  rw [hplain]
  exact Bool.false_ne_true

/-- By induction on the calls, with the saved bytes as the invariant. -/
theorem run_fits (hclean : Clean ctx) (hleft : left = unfinished src)
    (hholding : Holding ctx.saved left (buffers calls))
    (hwell : Wellformed (buffers calls)) (hfits : AllFit left (buffers calls))
    (hend : unfinished (left ++ bytesOf (buffers calls)) = []) :
    ∃ out ctx', run table ctx calls = .ok (out, ctx') ∧ lasts out = lasts (buffers calls) ∧
      texts out = recoded table (ctx.saved ++ bytesOf (buffers calls)) := by
  induction calls generalizing ctx left src with
  | nil =>
    refine ⟨[], ctx, rfl, rfl, ?_⟩
    have hnil : left = [] := by
      have hfinished : unfinished (left ++ []) = [] := hend
      rwa [append_nil, hleft, unfinished_unfinished, ← hleft] at hfinished
    cases hholding with
    | same hsaved => rw [hsaved, hnil]; rfl
    | complete _ _ _ _ hrest => exact absurd rfl hrest
  | cons call calls ih =>
    rw [buffers_cons] at hholding hwell hfits hend ⊢
    obtain ⟨head, ctx', src', hok, hclean', hholding', hfits', hend', hlasts, htext⟩ :=
      @recodeChain_fits table _ _ _ _ _ hclean hleft hholding hwell hfits hend
    rw [run_cons, hok]
    simp only [Except.bind]
    by_cases hpost : buffers calls = []
    · obtain ⟨ctx'', hrest⟩ := run_of_buffers_nil table (afterCall ctx' call head) hpost
      have hsaved : ctx'.saved = [] := by
        rw [hpost, bytesOf, flatMap_nil, append_nil, unfinished_unfinished] at hend'
        cases hholding' with
        | same hsaved => rw [hsaved, hend']
        | complete _ _ _ _ hrest => exact absurd hpost hrest
      rw [hrest]
      refine ⟨head ++ [], ctx'', rfl, ?_, ?_⟩
      · rw [lasts_append, hlasts, hpost, lasts_append]
      · rw [htext, append_nil, hsaved, hpost]
        exact (append_nil _).symm
    · have hquiet : lasts head = 0 := hlasts.trans (hwell.lasts_eq_zero hpost)
      obtain ⟨out, ctx'', hrest, hlasts', htext'⟩ :=
        ih (hclean'.afterCall call hquiet) rfl hholding' hwell.post hfits' hend'
      rw [hrest]
      refine ⟨head ++ out, ctx'', rfl, ?_, ?_⟩
      · rw [lasts_append, lasts_append, hlasts, hlasts']
      · rw [htext, texts_append, htext']
        rfl

theorem Doomed.run (h : Doomed ctx (buffers calls)) (hwell : Wellformed (buffers calls)) :
    (∃ fault, run table ctx calls = .error fault) ∨
      ∃ out ctx', run table ctx calls = .ok (out, ctx') ∧ lasts out = 0 := by
  induction calls generalizing ctx with
  | nil => exact .inr ⟨[], ctx, rfl, rfl⟩
  | cons call calls ih =>
    rw [buffers_cons] at h hwell
    rw [run_cons]
    rcases @Doomed.throughChain table _ _ _ h hwell
      with ⟨fault, hfault⟩ | ⟨head, ctx', hok, hlasts, hdoomed⟩
    · exact .inl ⟨fault, by rw [hfault]; rfl⟩
    · rcases ih
        (hdoomed.afterCall call hlasts) hwell.post with ⟨fault, hfault⟩ | ⟨out,
        ctx'', hmore, hlasts'⟩
      · exact .inl ⟨fault, by simp only [hok, Except.bind, hfault]⟩
      · refine .inr ⟨head ++ out, ctx'', by simp only [hok, Except.bind, hmore], ?_⟩
        rw [lasts_append, hlasts, hlasts']

end Run

/-! ## Responses -/

/-- A response: buffers in memory that are not empty, of which the last one and no other
has `last_buf`, and a text that ends with a character. -/
structure Response (calls : List Call) : Prop where
  memory : ∀ b ∈ buffers calls, b.memory = true ∧ b.bytes ≠ []
  last : ∃ init b, buffers calls = init ++ [b] ∧ b.flags.lastBuf = true ∧
    ∀ x ∈ init, x.flags.lastBuf = false
  ends : unfinished (bytesOf (buffers calls)) = []

/-- The text is passed on recoded, and the end of the response once, and nothing is read or
written outside of the buffers and of `ctx->saved`. -/
def Recodes (table : Table) (calls : List Call) : Prop :=
  ∃ out ctx, run table {} calls = .ok (out, ctx) ∧
    texts out = recoded table (bytesOf (buffers calls)) ∧
    lasts out = 1

theorem Response.wellformed {calls : List Call} (h : Response calls) :
    Wellformed (buffers calls) := by
  obtain ⟨init, b, heq, -, hinit⟩ := h.last
  refine ⟨h.memory, fun pre x post hsplit hpost => ?_⟩
  obtain ⟨front, y, rfl⟩ := eq_nil_or_concat post |>.resolve_left hpost
  rw [heq, concat_eq_append, ← cons_append, ← append_assoc] at hsplit
  have hinit' := (append_inj' hsplit rfl).1
  exact hinit x (by rw [hinit']; exact mem_append_right _ mem_cons_self)

/-- That every buffer fits, said of the buffers before each. -/
theorem allFit_iff {left src : Bytes} (hleft : left = unfinished src) (bufs : List Buf) :
    AllFit left bufs ↔ ∀ pre b post, bufs = pre ++ b :: post →
      unfinished (src ++ bytesOf pre) = [] ∨
        Fits (unfinished (src ++ bytesOf pre)) b.bytes (post ≠ []) := by
  induction bufs generalizing left src with
  | nil =>
    refine iff_of_true trivial fun pre b post heq => ?_
    exact absurd heq.symm (append_ne_nil_of_right_ne_nil _ (cons_ne_nil _ _))
  | cons x rest ih =>
    have hnext : unfinished (left ++ x.bytes) = unfinished (src ++ x.bytes) := by
      rw [hleft, ← (codePoints_append src x.bytes).2]
    have hnil : src ++ bytesOf [] = src := append_nil src
    have hcons : ∀ pre, src ++ bytesOf (x :: pre) = src ++ x.bytes ++ bytesOf pre := fun pre => by
      rw [bytesOf_cons, append_assoc]
    rw [AllFit, ih hnext]
    constructor
    · rintro ⟨hhead, hrest⟩ pre b post heq
      cases pre with
      | nil =>
        rw [nil_append, cons.injEq] at heq
        obtain ⟨rfl, rfl⟩ := heq
        rw [hnil, ← hleft]
        exact hhead
      | cons y pre =>
        rw [cons_append, cons.injEq] at heq
        obtain ⟨rfl, rfl⟩ := heq
        rw [hcons]
        exact hrest pre b post rfl
    · intro h
      refine ⟨?_, fun pre b post heq => ?_⟩
      · have hhead := h [] x rest rfl
        rwa [hnil, ← hleft] at hhead
      · have hlater := h (x :: pre) b post (by rw [heq, cons_append])
        rwa [hcons] at hlater

theorem recodes_whole (table : Table) {b : Buf} (hmemory : b.memory = true)
    (hlast : b.flags.lastBuf = true)
    (hne : b.bytes ≠ []) (hends : unfinished b.bytes = []) (n : Nat) :
    Recodes table [⟨[b], n⟩] := by
  have hbuffers : buffers [⟨[b], n⟩] = [b] := rfl
  have hwell : Wellformed [b] := by
    refine ⟨fun x hx => ?_, fun pre x post heq hpost => ?_⟩
    · rw [mem_singleton.mp hx]
      exact ⟨hmemory, hne⟩
    · have hlength := congrArg List.length heq
      have hpos := length_pos_iff.mpr hpost
      simp only [length_nil, length_append, length_cons] at hlength
      omega
  have hbytes : bytesOf [b] = b.bytes := append_nil _
  obtain ⟨out, ctx, hrun, hlasts, htexts⟩ := @run_fits table {} [] [] [⟨[b], n⟩]
    ⟨fun x hx => absurd hx not_mem_nil, fun x hx =>
      absurd hx not_mem_nil⟩ rfl (.same rfl) hwell ⟨.inl rfl, trivial⟩
        (by rw [hbuffers, hbytes]; exact hends)
  refine ⟨out, ctx, hrun, htexts, ?_⟩
  rw [hlasts, hbuffers, lasts_singleton, if_pos hlast]

/-- The whole text of a response in one buffer. -/
def joined (calls : List Call) : Buf :=
  { bytes := bytesOf (buffers calls), capacity := (bytesOf (buffers calls)).length, memory := true,
    flags := { lastBuf := true }, own := false }

theorem Response.recodes_joined {calls : List Call} (h : Response calls) (table : Table) (n : Nat) :
    Recodes table [⟨[joined calls], n⟩] := by
  refine recodes_whole table rfl rfl (fun hnil => ?_) h.ends n
  obtain ⟨init, b, heq, -, -⟩ := h.last
  have hb : b ∈ buffers calls := by rw [heq]; exact mem_append_right _ (mem_singleton_self b)
  exact (h.memory b hb).2 (flatMap_eq_nil_iff.mp hnil b hb)

/-- A response is recoded like its whole text exactly where every buffer fits behind the
sequence that the buffers before it leave unfinished. -/
theorem recodes_iff (table : Table) (calls : List Call) (h : Response calls) :
    (∀ n, Recodes table [⟨[joined calls], n⟩]) ∧
      (Recodes table calls ↔ ∀ pre b post, buffers calls = pre ++ b :: post →
        unfinished (bytesOf pre) = [] ∨ Fits (unfinished (bytesOf pre)) b.bytes (post ≠ [])) := by
  refine ⟨h.recodes_joined table, ?_⟩
  have hclean : Clean {} := ⟨fun x hx => absurd hx not_mem_nil, fun x hx => absurd hx not_mem_nil⟩
  have hwell := h.wellformed
  obtain ⟨init, b, heq, hlast, hinit⟩ := h.last
  refine Iff.trans ?_ (@allFit_iff [] [] rfl (buffers calls))
  constructor
  · rintro ⟨out, ctx, hrun, -, hlasts⟩
    by_contra hnot
    have hdoomed : Doomed {} (buffers calls) := .misfit hclean [] [] rfl (.same rfl) hnot
    rcases @Doomed.run table _ _ hdoomed hwell with ⟨fault, hfault⟩ | ⟨out', ctx', hrun', hlasts'⟩
    · rw [hrun] at hfault
      cases hfault
    · rw [hrun, Except.ok.injEq, Prod.mk.injEq] at hrun'
      rw [hrun'.1, hlasts'] at hlasts
      cases hlasts
  · intro hfits
    obtain ⟨out, ctx, hrun, hlasts, htexts⟩ :=
      @run_fits table _ [] [] _ hclean rfl (.same rfl) hwell hfits h.ends
    refine ⟨out, ctx, hrun, htexts, ?_⟩
    have hnone : lasts init = 0 := countP_eq_zero.mpr fun x hx => by
      rw [hinit x hx]
      exact Bool.false_ne_true
    rw [hlasts, heq, lasts_append, hnone, lasts_singleton, if_pos hlast]

/-- `e2 82` and `ac 41`: the second buffer goes on behind the character. -/
def cutWithin : List Call :=
  [⟨[{ bytes := [0xe2, 0x82], capacity := 2, memory := true, own := false }], 0⟩,
    ⟨[{ bytes := [0xac, 0x41], capacity := 2, memory := true,
        flags := { lastBuf := true }, own := false }], 4⟩]

theorem recodes_cutWithin : Response cutWithin ∧ Recodes (fun _ => none) cutWithin := by
  have hresponse : Response cutWithin := ⟨by decide, ⟨[_], _, rfl, rfl, by decide⟩, by decide⟩
  refine ⟨hresponse, (recodes_iff (fun _ => none) cutWithin hresponse).2.mpr ?_⟩
  exact (@allFit_iff [] [] rfl (buffers cutWithin)).mp
    ⟨.inl rfl, .inr (.inl ⟨by decide, by decide⟩), trivial⟩

/-- `e2` and `82 ac`: the character and the response end with the second buffer. -/
def cutBefore : List Call :=
  [⟨[{ bytes := [0xe2], capacity := 1, memory := true, own := false }], 0⟩,
    ⟨[{ bytes := [0x82, 0xac], capacity := 2, memory := true,
        flags := { lastBuf := true }, own := false }], 4⟩]

/-- Neither the character nor the end of the response is passed on. -/
theorem not_recodes_cutBefore : Response cutBefore ∧ ¬ Recodes (fun _ => none) cutBefore := by
  refine ⟨⟨by decide, ⟨[_], _, rfl, rfl, by decide⟩, by decide⟩, ?_⟩
  rintro ⟨out, ctx, hrun, -, hlasts⟩
  have hlost : (run (fun _ => none) {} cutBefore).toOption.map (fun result =>
      lasts result.1) = some 0 := by decide
  rw [hrun] at hlost
  have hnone : lasts out = 0 := Option.some.inj hlost
  rw [hnone] at hlasts
  cases hlasts

end Nginx.Http.Charset
