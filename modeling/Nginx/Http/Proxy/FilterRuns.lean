/-
  Http/Proxy/FilterRuns.lean --- the filters over all pieces of a response.

  A call of a chunked filter passes on the data that the byte machine of the parser
  collects from its piece (`callResult_turns`).  What a stream decodes to, `decoded`,
  does not depend on how it is cut.  The copy filters count down to zero, in whichever
  field (`Counted.run`).  The chunked filters do what the byte machine does on the whole
  stream, up to the piece in which it is done (`inputFilters_chunked`); what they do on
  the pieces after that is told by `Quiet` (`inputFilters_after`).
-/
import Nginx.Http.Parse.ChunkedBody
import Nginx.Http.Parse.ChunkedLength
import Nginx.Http.Proxy.Filters

set_option autoImplicit false

namespace Nginx.Http.Proxy

open List Foundation
open Foundation.Machine
open Nginx.Core (Rc)
open Http.Parse

/-- The data that the machine collects from a stream, up to where it halts. -/
def decoded : ByteState → Bytes → Bytes
  | s, [] => s.data
  | s, ch :: stream =>
      match byteStep s ch with
      | .next s => decoded s stream
      | .halt _ => s.data

theorem decoded_cons_next {s s' : ByteState} {ch : Byte} (h : byteStep s ch = .next s')
    (stream : Bytes) : decoded s (ch :: stream) = decoded s' stream := by
  simp only [decoded, h]

theorem decoded_cons_halt {s : ByteState} {ch : Byte} {r : ByteHalt} (h : byteStep s ch = .halt r)
    (stream : Bytes) : decoded s (ch :: stream) = s.data := by
  simp only [decoded, h]

theorem byteStep_data_le {s s' : ByteState} {ch : Byte} (h : byteStep s ch = .next s') :
    s.data <+: s'.data := by
  rw [byteStep] at h
  split at h
  · cases h
    exact prefix_append _ _
  · split at h
    all_goals cases h
    exact prefix_refl _

/-! ## Where a call has read to -/

/-- Having read what stands before `post` in `piece`, the machine is in `s'`. -/
def ReadTo (s : ByteState) (piece post : Bytes) (s' : ByteState) : Prop :=
  ∃ pre, piece = pre ++ post ∧ feed byteStep s pre = .running s'

namespace ReadTo

variable {s s' s'' : ByteState} {piece post post' : Bytes}

theorem refl (s : ByteState) (piece : Bytes) : ReadTo s piece piece s :=
  ⟨[], rfl, rfl⟩

theorem cons {ch : Byte} (hstep : byteStep s ch = .next s') (h : ReadTo s' piece post s'') :
    ReadTo s (ch :: piece) post s'' := by
  obtain ⟨pre, rfl, hfeed⟩ := h
  refine ⟨ch :: pre, rfl, ?_⟩
  rw [feed_cons_next hstep]
  exact hfeed

theorem trans (h : ReadTo s piece post s') (h' : ReadTo s' post post' s'') :
    ReadTo s piece post' s'' := by
  obtain ⟨pre, rfl, hfeed⟩ := h
  obtain ⟨pre', rfl, hfeed'⟩ := h'
  refine ⟨pre ++ pre', (append_assoc ..).symm, ?_⟩
  rw [feed_append, hfeed]
  exact hfeed'

theorem feed (h : ReadTo s piece post s') (more : Bytes) :
    feed byteStep s (piece ++ more) = feed byteStep s' (post ++ more) := by
  obtain ⟨pre, rfl, hfeed⟩ := h
  rw [append_assoc, feed_append, hfeed]
  rfl

theorem decoded (h : ReadTo s piece post s') (more : Bytes) :
    decoded s (piece ++ more) = decoded s' (post ++ more) := by
  obtain ⟨pre, rfl, hfeed⟩ := h
  induction pre generalizing s with
  | nil =>
    cases hfeed
    rfl
  | cons ch pre ih =>
    cases hstep : byteStep s ch with
    | next s₁ =>
      rw [feed_cons_next hstep] at hfeed
      rw [cons_append, cons_append, decoded_cons_next hstep]
      exact ih hfeed
    | halt r =>
      rw [feed_cons_halt hstep] at hfeed
      cases hfeed

theorem data_le (h : ReadTo s piece post s') : s.data <+: s'.data := by
  obtain ⟨pre, rfl, hfeed⟩ := h
  induction pre generalizing s with
  | nil =>
    cases hfeed
    exact prefix_refl _
  | cons ch pre ih =>
    cases hstep : byteStep s ch with
    | next s₁ =>
      rw [feed_cons_next hstep] at hfeed
      exact (byteStep_data_le hstep).trans (ih hfeed)
    | halt r =>
      rw [feed_cons_halt hstep] at hfeed
      cases hfeed

end ReadTo

/-- The machine refuses what comes next, or the size it is reading is already
one that the parser refuses. -/
def Broken (s : ByteState) (post : Bytes) : Prop :=
  (∃ ch rest, post = ch :: rest ∧ byteStep s ch = .halt .invalid) ∨
    post = [] ∧ StateOk s.state s.size ∧ s.size > ngxMaxOffTValue - 5

theorem byteStep_of_large {s : ByteState} (h : StateOk s.state s.size)
    (hlarge : s.size > ngxMaxOffTValue - 5) (ch : Byte) : byteStep s ch = .halt .invalid := by
  have hguard : ngxMaxOffTValue / 16 < s.size := by
    simp only [ngxMaxOffTValue] at hlarge ⊢
    omega
  have hstate : s.state = .chunkSize := by
    refine Decidable.byContradiction fun hne => ?_
    exact absurd (h.bounded hne) (Nat.not_le_of_lt hguard)
  obtain ⟨state, size, data, junk⟩ := s
  subst hstate
  exact byteStep_large hguard ch

namespace Broken

variable {s : ByteState} {post : Bytes}

theorem report (h : Broken s post) (more : Bytes) :
    report (feed byteStep s (post ++ more)) = .error := by
  obtain ⟨ch, rest, rfl, hstep⟩ | ⟨rfl, hok, hlarge⟩ := h
  · rw [cons_append, feed_cons_halt hstep]
    rfl
  · exact report_feed_of_large hok hlarge s.data s.junk more

theorem decoded (h : Broken s post) (more : Bytes) : decoded s (post ++ more) = s.data := by
  obtain ⟨ch, rest, rfl, hstep⟩ | ⟨rfl, hok, hlarge⟩ := h
  · exact decoded_cons_halt hstep _
  · cases more with
    | nil => rfl
    | cons ch more => exact decoded_cons_halt (byteStep_of_large hok hlarge ch) _

end Broken

/-! ## One call -/

theorem readTo_chunkLoop (data : Bytes) : ∀ (b : Bytes) (state : ChunkState) (size : Nat)
    (junk : Bytes), StateOk state size →
    match chunkLoop state size b with
    | .data rc state' size' pos => StateOk state' size' ∧
        (rc = .again ∧ pos = [] ∨ rc = .ok ∧ state' = .chunkData ∧ pos ≠ []) ∧
        ∃ junk', ReadTo ⟨state, size, data, junk⟩ b pos ⟨state', size', data, junk'⟩
    | .done size' pos => ∃ state' ch junk', state' ≠ .chunkSize ∧ StateOk state' size' ∧
        ReadTo ⟨state, size, data, junk⟩ b (ch :: pos) ⟨state', size', data, junk'⟩ ∧
        byteStep ⟨state', size', data, junk'⟩ ch = .halt (.done data junk')
    | .invalid => ∃ state' size' ch pos junk',
        ReadTo ⟨state, size, data, junk⟩ b (ch :: pos) ⟨state', size', data, junk'⟩ ∧
        byteStep ⟨state', size', data, junk'⟩ ch = .halt .invalid := by
  intro b
  induction b with
  | nil => exact fun state size junk h => ⟨h, Or.inl ⟨rfl, rfl⟩, junk, ReadTo.refl _ _⟩
  | cons ch b ih =>
    intro state size junk h
    by_cases hdata : state = .chunkData
    · subst hdata
      exact ⟨h, Or.inr ⟨rfl, rfl, cons_ne_nil _ _⟩, junk, ReadTo.refl _ _⟩
    have hbyte := byteStep_of_ne hdata size data junk ch
    rw [chunkLoop]
    cases hstep : chunkStep state size ch with
    | next state₁ size₁ =>
      rw [hstep] at hbyte
      have hrest := ih state₁ size₁ (if state = .afterData ∧ state₁ = .afterData
        then junk ++ [ch] else junk) (h.step hstep)
      cases hloop : chunkLoop state₁ size₁ b with
      | data rc state' size' pos =>
        simp only [hloop] at hrest ⊢
        obtain ⟨hok, hrc, junk', hread⟩ := hrest
        exact ⟨hok, hrc, junk', hread.cons hbyte⟩
      | done size' pos =>
        simp only [hloop] at hrest ⊢
        obtain ⟨state', ch', junk', hne, hok, hread, hhalt⟩ := hrest
        exact ⟨state', ch', junk', hne, hok, hread.cons hbyte, hhalt⟩
      | invalid =>
        simp only [hloop] at hrest ⊢
        obtain ⟨state', size', ch', pos, junk', hread, hhalt⟩ := hrest
        exact ⟨state', size', ch', pos, junk', hread.cons hbyte, hhalt⟩
    | data => exact absurd (state_of_chunkStep_data hstep) hdata
    | done =>
      rw [hstep] at hbyte
      refine ⟨state, ch, junk, ?_, h, ReadTo.refl _ _, hbyte⟩
      -- no byte ends the body while a size is being read
      rintro rfl
      simp only [chunkStep] at hstep
      repeat' split at hstep
      all_goals cases hstep
    | invalid =>
      rw [hstep] at hbyte
      exact ⟨state, size, ch, b, junk, ReadTo.refl _ _, hbyte⟩

/-- What a call on `piece` returns, from where the machine is in `s`. -/
inductive CallResult (s : ByteState) (piece : Bytes) : Rc × Chunked × Bytes → Prop where
  | done {ctx : Chunked} {s' : ByteState} {ch : Byte} {rest junk : Bytes} (hctx : CtxOk ctx)
      (hstart : ctx.state = .chunkStart) (hread : ReadTo s piece (ch :: rest) s')
      (hhalt : byteStep s' ch = .halt (.done s'.data junk)) :
      CallResult s piece (.done, ctx, s'.data)
  | again {ctx : Chunked} {data junk : Bytes} (hctx : CtxOk ctx) (hlength : 0 < ctx.length)
      (hread : ReadTo s piece [] (ctx.byteState data junk)) :
      CallResult s piece (.again, ctx, data)
  | broken {ctx : Chunked} {s' : ByteState} {post : Bytes} (hread : ReadTo s piece post s')
      (hbroken : Broken s' post) : CallResult s piece (.error, ctx, s'.data)

theorem CallResult.of_readTo {s s' : ByteState} {piece post : Bytes} {r : Rc × Chunked × Bytes}
    (hread : ReadTo s piece post s') (h : CallResult s' post r) : CallResult s piece r := by
  cases h with
  | done hctx hstart hread' hhalt => exact .done hctx hstart (hread.trans hread') hhalt
  | again hctx hlength hread' => exact .again hctx hlength (hread.trans hread')
  | broken hread' hbroken => exact .broken (hread.trans hread') hbroken

theorem readTo_data {size : Nat} {l : Bytes} (data junk rest : Bytes) (hlen : l.length ≤ size)
    (hsize : size ≠ 0) (hne : l ≠ []) (length : Nat) :
    ReadTo ⟨.chunkData, size, data, junk⟩ (l ++ rest) rest
      (Chunked.byteState ⟨.chunkData, size - l.length, length⟩ (data ++ l) junk) := by
  have hfeed := feed_data data junk [] l size hlen hsize hne
  refine ⟨l, rfl, ?_⟩
  rw [append_nil, feed_nil] at hfeed
  rw [hfeed, Chunked.byteState, entryState_chunkData]
  congr 2
  exact if_congr (by omega) rfl rfl

/-- One call: the turns of its loop, by induction on them. -/
theorem callResult_turns : ∀ (turns : Nat) (ctx : Chunked) (data junk piece : Bytes),
    CtxOk ctx → piece.length < turns →
    CallResult (ctx.byteState data junk) piece (chunkedTurns turns ctx data piece) := by
  intro turns
  induction turns with
  | zero => exact fun _ _ _ piece _ hlt => absurd hlt (Nat.not_lt_zero _)
  | succ turns ih =>
    intro ctx data junk piece hctx hturns
    have hloop := readTo_chunkLoop data piece ctx.entryState ctx.size junk hctx.state
    rw [chunkedTurns, parseChunked]
    cases hexit : chunkLoop ctx.entryState ctx.size piece with
    | invalid =>
      simp only [hexit] at hloop
      obtain ⟨state, size, ch, pos, junk', hread, hhalt⟩ := hloop
      exact CallResult.broken hread (Or.inl ⟨ch, pos, rfl, hhalt⟩)
    | done size pos =>
      simp only [hexit] at hloop
      obtain ⟨state, ch, junk', hne, hok, hread, hhalt⟩ := hloop
      have hsize : size ≤ ngxMaxOffTValue / 16 := hok.bounded hne
      have hctx' : CtxOk { ctx with state := .chunkStart, size := size } :=
        ⟨⟨fun hann => Bool.noConfusion hann, fun _ => hsize⟩, le_trans hsize (by decide)⟩
      exact CallResult.done hctx' rfl hread hhalt
    | data rc state size pos =>
      simp only [hexit] at hloop
      obtain ⟨hok, hrc, junk', hread⟩ := hloop
      have hshort : pos.length ≤ piece.length := length_chunkLoop_le hexit
      by_cases hlarge : size > ngxMaxOffTValue - 5
      · -- only a size that is still being read is so large
        have hpos : pos = [] := by
          rcases hrc with ⟨-, hpos⟩ | ⟨-, hstate, -⟩
          · exact hpos
          · have hbound := hok.bounded (by rw [hstate]; exact ChunkState.noConfusion)
            exact absurd (lt_of_lt_of_le hlarge hbound) (by decide)
        simp only [hlarge, if_true]
        exact CallResult.broken hread (Or.inr ⟨hpos, hok, hlarge⟩)
      · simp only [hlarge, if_false]
        rcases hrc with ⟨rfl, rfl⟩ | ⟨rfl, rfl, hpos⟩
        · have hentry : (Chunked.mk state size (chunkLength state size)).entryState = state :=
            entryState_of_size hok
          have hctx' : CtxOk ⟨state, size, chunkLength state size⟩ :=
            ⟨by rw [hentry]; exact hok, not_lt.mp hlarge⟩
          have hread' : ReadTo (ctx.byteState data junk) piece []
              (Chunked.byteState ⟨state, size, chunkLength state size⟩ data junk') := by
            rw [Chunked.byteState, Chunked.byteState, hentry]
            exact hread
          exact CallResult.again hctx' (chunkLength_pos state size) hread'
        · have hsize : size ≠ 0 := hok.announced rfl
          have hbound : size ≤ ngxMaxOffTValue / 16 := hok.bounded ChunkState.noConfusion
          have hposlen : 0 < pos.length := length_pos_of_ne_nil hpos
          by_cases hmore : pos.length ≥ size
          · -- the rest of the chunk is there
            have htake : (pos.take size).length = size := by
              rw [length_take]
              omega
            have htaken := readTo_data data junk' (pos.drop size) (le_of_eq htake) hsize
              (ne_nil_of_length_pos (by omega)) (chunkLength .chunkData size)
            rw [take_append_drop, htake, Nat.sub_self] at htaken
            have hnext := ih ⟨.chunkData, 0, chunkLength .chunkData size⟩ (data ++ pos.take size)
              junk' (pos.drop size) (ctxOk_chunkData (Nat.zero_le _))
              (by rw [length_drop]; omega)
            simp only [hmore, if_true]
            exact hnext.of_readTo (hread.trans htaken)
          · have hle : pos.length ≤ size := Nat.le_of_not_le hmore
            have htaken := readTo_data data junk' [] hle hsize hpos (chunkLength .chunkData size)
            rw [append_nil] at htaken
            have hnext := ih ⟨.chunkData, size - pos.length, chunkLength .chunkData size⟩
              (data ++ pos) junk' [] (ctxOk_chunkData (by omega)) (by rw [length_nil]; omega)
            simp only [hmore, if_false]
            exact hnext.of_readTo (hread.trans htaken)

variable {mode : Mode} {h : HeadersIn}

/-! ## The copy filters -/

/-- The length that the mode counts in. -/
def Upstream.counter (u : Upstream) : Mode → Int
  | .buffered => u.pipeLength
  | .nonBuffered => u.length

variable {u : Upstream}

theorem inputFilter_eq_copyFilter (hu : u.inputFilter = .copy) (h : HeadersIn)
    (piece : Bytes) : inputFilter .buffered h u piece = copyFilter h u piece := by
  simp only [inputFilter, hu]

theorem inputFilter_eq_nonBufferedCopyFilter (hu : u.inputFilter = .copy)
    (h : HeadersIn) (piece : Bytes) :
    inputFilter .nonBuffered h u piece = nonBufferedCopyFilter h u piece := by
  simp only [inputFilter, hu]

theorem inputFilter_copy (hu : u.inputFilter = .copy) (mode : Mode) (h : HeadersIn)
    (piece : Bytes) :
    (inputFilter mode h u piece).1 = .ok ∧
      (inputFilter mode h u piece).2.inputFilter = .copy ∧
      (inputFilter mode h u piece).2.passed = u.passed ++ piece := by
  cases mode with
  | buffered =>
    simp only [inputFilter_eq_copyFilter hu, copyFilter]
    split
    · next hnil =>
      rw [hnil, append_nil]
      exact ⟨rfl, hu, rfl⟩
    · repeat' split
      all_goals exact ⟨rfl, hu, rfl⟩
  | nonBuffered =>
    simp only [inputFilter_eq_nonBufferedCopyFilter hu, nonBufferedCopyFilter]
    repeat' split
    all_goals exact ⟨rfl, hu, rfl⟩

theorem inputFilters_cons {u' : Upstream} {piece : Bytes}
    (hstep : inputFilter mode h u piece = (.ok, u')) (pieces : List Bytes) :
    inputFilters mode h u (piece :: pieces) = inputFilters mode h u' pieces := by
  simp only [inputFilters, hstep]

theorem passed_copy (mode : Mode) (h : HeadersIn) (pieces : List Bytes) : ∀ {u : Upstream},
    u.inputFilter = .copy →
    (inputFilters mode h u pieces).2.passed = u.passed ++ pieces.flatten := by
  induction pieces with
  | nil => exact fun _ => (append_nil _).symm
  | cons piece pieces ih =>
    intro u hu
    obtain ⟨hok, hfilter, hpassed⟩ := inputFilter_copy hu mode h piece
    rw [inputFilters_cons (Prod.ext hok rfl), ih hfilter, hpassed, flatten_cons,
      append_assoc]

/-- So many bytes of the body are still to come. -/
structure Counted (mode : Mode) (h : HeadersIn) (u : Upstream) (left : Nat) : Prop where
  filter : u.inputFilter = .copy
  counter : u.counter mode = left
  done : mode = .buffered → u.upstreamDone = true → left = 0
  keepalive : u.keepalive = (decide (left = 0) && !h.connectionClose)

/-- A call on a body of known length takes its bytes off the count. -/
theorem Counted.step {u : Upstream} {left : Nat} (hu : Counted mode h u left) {piece : Bytes}
    (hle : piece.length ≤ left) :
    Counted mode h (inputFilter mode h u piece).2 (left - piece.length) := by
  obtain ⟨hfilter, hcounter, hdone, hkeep⟩ := hu
  cases mode with
  | buffered =>
    simp only [Upstream.counter] at hcounter
    simp only [inputFilter_eq_copyFilter hfilter, copyFilter]
    by_cases hnil : piece = []
    · subst hnil
      exact ⟨hfilter, hcounter, hdone, hkeep⟩
    have hpos : 0 < piece.length := length_pos_of_ne_nil hnil
    have hsent : u.pipeLength ≠ -1 := by omega
    have hnot : ¬ u.pipeLength - (piece.length : Int) < 0 := by omega
    simp only [hnil, if_false, hsent, hnot]
    by_cases hlast : u.pipeLength - (piece.length : Int) = 0
    · have hzero : left - piece.length = 0 := by omega
      simp only [hlast, if_true, hzero]
      exact ⟨hfilter, rfl, fun _ _ => rfl, by simp⟩
    have hmore : left - piece.length ≠ 0 := by omega
    have hleft : left ≠ 0 := by omega
    simp only [hlast, if_false]
    refine ⟨hfilter, ?_, fun _ hd => absurd (hdone rfl hd) hleft, ?_⟩
    · show u.pipeLength - (piece.length : Int) = ((left - piece.length : Nat) : Int)
      omega
    · simp [hkeep, hleft, hmore]
  | nonBuffered =>
    simp only [Upstream.counter] at hcounter
    have hsent : u.length ≠ -1 := by omega
    simp only [inputFilter_eq_nonBufferedCopyFilter hfilter, nonBufferedCopyFilter, hsent, if_false]
    by_cases hlast : u.length - (piece.length : Int) = 0
    · have hzero : left - piece.length = 0 := by omega
      simp only [hlast, if_true, hzero]
      exact ⟨hfilter, rfl, fun hm => Mode.noConfusion hm, by simp⟩
    have hmore : left - piece.length ≠ 0 := by omega
    have hleft : left ≠ 0 := by omega
    simp only [hlast, if_false]
    refine ⟨hfilter, ?_, fun hm => Mode.noConfusion hm, ?_⟩
    · show u.length - (piece.length : Int) = ((left - piece.length : Nat) : Int)
      omega
    · simp [hkeep, hleft, hmore]

theorem Counted.run (pieces : List Bytes) : ∀ {u : Upstream} {left : Nat}, Counted mode h u left →
    pieces.flatten.length ≤ left →
    (inputFilters mode h u pieces).1 = .ok ∧
      Counted mode h (inputFilters mode h u pieces).2 (left - pieces.flatten.length) := by
  induction pieces with
  | nil => exact fun hu _ => ⟨rfl, hu⟩
  | cons piece pieces ih =>
    intro u left hu hle
    rw [flatten_cons, length_append] at hle ⊢
    obtain ⟨hok, -, -⟩ := inputFilter_copy hu.filter mode h piece
    have hstep : Counted mode h (inputFilter mode h u piece).2 (left - piece.length) :=
      hu.step (by omega)
    have hnext := ih hstep (by omega)
    rwa [Nat.sub_sub, ← inputFilters_cons (Prod.ext hok rfl)] at hnext

theorem Counted.ended_iff {left : Nat} (hu : Counted mode h u left) :
    u.ended mode ↔ left = 0 := by
  have hcounter := hu.counter
  cases mode with
  | buffered =>
    simp only [Upstream.counter] at hcounter
    constructor
    · rintro (hdone | hzero)
      · exact hu.done rfl hdone
      · omega
    · exact fun hzero => Or.inr (by omega)
  | nonBuffered =>
    simp only [Upstream.counter] at hcounter
    simp only [Upstream.ended]
    omega

/-- Without a length nothing is counted. -/
structure Uncounted (mode : Mode) (u : Upstream) : Prop where
  filter : u.inputFilter = .copy
  counter : u.counter mode = -1
  done : mode = .buffered → u.upstreamDone = false
  keepalive : u.keepalive = false

theorem Uncounted.run (h : HeadersIn) (pieces : List Bytes) : ∀ {u : Upstream}, Uncounted mode u →
    (inputFilters mode h u pieces).1 = .ok ∧ Uncounted mode (inputFilters mode h u pieces).2 := by
  induction pieces with
  | nil => exact fun hu => ⟨rfl, hu⟩
  | cons piece pieces ih =>
    intro u hu
    obtain ⟨hok, -, -⟩ := inputFilter_copy hu.filter mode h piece
    rw [inputFilters_cons (Prod.ext hok rfl)]
    refine ih ?_
    obtain ⟨hfilter, hcounter, hdone, hkeep⟩ := hu
    cases mode with
    | buffered =>
      simp only [Upstream.counter] at hcounter
      simp only [inputFilter_eq_copyFilter hfilter, copyFilter, hcounter, if_true]
      split
      · exact ⟨hfilter, hcounter, hdone, hkeep⟩
      · exact ⟨hfilter, rfl, hdone, hkeep⟩
    | nonBuffered =>
      simp only [Upstream.counter] at hcounter
      simp only [inputFilter_eq_nonBufferedCopyFilter hfilter,
        nonBufferedCopyFilter, hcounter, if_true]
      exact ⟨hfilter, rfl, hdone, hkeep⟩

theorem Uncounted.not_ended (hu : Uncounted mode u) : ¬ u.ended mode := by
  have hcounter := hu.counter
  cases mode with
  | buffered =>
    simp only [Upstream.counter] at hcounter
    rintro (hdone | hzero)
    · exact Bool.false_ne_true ((hu.done rfl).symm.trans hdone)
    · omega
  | nonBuffered =>
    simp only [Upstream.counter] at hcounter
    simp only [Upstream.ended]
    omega

/-! ## The chunked filters -/

/-- Between two calls of a chunked filter. -/
structure Reading (u : Upstream) : Prop where
  filter : u.inputFilter = .chunked
  ctx : CtxOk u.chunked
  length : u.pipeLength ≠ 0

/-- Where the machine is between two calls. -/
def Upstream.byteState (u : Upstream) (junk : Bytes) : ByteState :=
  u.chunked.byteState u.passed junk

/-- What a chunked filter does with a piece, from where the machine is in
`s`. -/
inductive FilterStep (mode : Mode) (h : HeadersIn) (u : Upstream) (s : ByteState)
    (piece : Bytes) : Rc × Upstream → Prop where
  | done {u' : Upstream} {s' : ByteState} {ch : Byte} {rest junk : Bytes} (hnext : Reading u')
      (hstart : u'.chunked.state = .chunkStart) (hread : ReadTo s piece (ch :: rest) s')
      (hhalt : byteStep s' ch = .halt (.done s'.data junk)) (hpassed : u'.passed = s'.data)
      (hended : u'.ended mode) (hkeep : u'.keepalive = !h.connectionClose) :
      FilterStep mode h u s piece (.ok, u')
  | again {u' : Upstream} {junk : Bytes} (hnext : Reading u')
      (hread : ReadTo s piece [] (u'.byteState junk)) (hended : u'.ended mode ↔ u.ended mode)
      (hkeep : u'.keepalive = u.keepalive) : FilterStep mode h u s piece (.ok, u')
  | broken {u' : Upstream} {s' : ByteState} {post : Bytes} (hread : ReadTo s piece post s')
      (hbroken : Broken s' post) (hpassed : u'.passed = s'.data)
      (hended : u'.ended mode ↔ u.ended mode) (hkeep : u'.keepalive = u.keepalive) :
      FilterStep mode h u s piece (.error, u')

theorem filterStep (mode : Mode) (h : HeadersIn) (hu : Reading u)
    (junk piece : Bytes) :
    FilterStep mode h u (u.byteState junk) piece (inputFilter mode h u piece) := by
  obtain ⟨hfilter, hctx, hlength⟩ := hu
  have hcall := callResult_turns (piece.length + 1) u.chunked u.passed junk piece hctx
    (Nat.lt_succ_self _)
  cases mode with
  | buffered =>
    have heq : inputFilter .buffered h u piece = chunkedFilter h u piece := by
      simp only [inputFilter, hfilter]
    rw [heq, chunkedFilter]
    by_cases hnil : piece = []
    · rw [if_pos hnil, hnil]
      exact .again ⟨hfilter, hctx, hlength⟩ (ReadTo.refl _ _) Iff.rfl rfl
    rw [if_neg hnil]
    generalize hturns : chunkedTurns (piece.length + 1) u.chunked u.passed piece = r at hcall
    cases hcall with
    | done hctx' hstart hread hhalt =>
      exact .done ⟨hfilter, hctx', hlength⟩ hstart hread hhalt rfl (Or.inl rfl) rfl
    | @again ctx' data junk' hctx' hpos hread =>
      have hwanted : (ctx'.length : Int) ≠ 0 := by omega
      refine .again ⟨hfilter, hctx', hwanted⟩ hread ?_ rfl
      simp only [Upstream.ended, hlength, hwanted, or_false]
    | broken hread hbroken => exact .broken hread hbroken rfl Iff.rfl rfl
  | nonBuffered =>
    have heq : inputFilter .nonBuffered h u piece = nonBufferedChunkedFilter h u piece := by
      simp only [inputFilter, hfilter]
    rw [heq, nonBufferedChunkedFilter]
    generalize hturns : chunkedTurns (piece.length + 1) u.chunked u.passed piece = r at hcall
    cases hcall with
    | done hctx' hstart hread hhalt =>
      exact .done ⟨hfilter, hctx', hlength⟩ hstart hread hhalt rfl rfl rfl
    | again hctx' hpos hread => exact .again ⟨hfilter, hctx', hlength⟩ hread Iff.rfl rfl
    | broken hread hbroken => exact .broken hread hbroken rfl Iff.rfl rfl

/-- The pieces handed over after the one in which the first `n` bytes end. -/
def afterBytes : Nat → List Bytes → List Bytes
  | _, [] => []
  | n, piece :: pieces => if n = 0 then piece :: pieces else afterBytes (n - piece.length) pieces

/-- The filter over the pieces, against the machine over the stream.  After the
piece in which the machine is done, the filter goes on with the pieces that are
left. -/
inductive FilterRun (mode : Mode) (h : HeadersIn) (u : Upstream) (s : ByteState)
    (pieces : List Bytes) : ChunkResult → Prop where
  | done {u' : Upstream} {data rest : Bytes} (hnext : Reading u')
      (hstart : u'.chunked.state = .chunkStart) (hpassed : u'.passed = data)
      (hdata : decoded s pieces.flatten = data) (hended : u'.ended mode)
      (hkeep : u'.keepalive = !h.connectionClose) (hrest : rest.length < pieces.flatten.length)
      (hgo : inputFilters mode h u pieces =
        inputFilters mode h u' (afterBytes (pieces.flatten.length - rest.length) pieces)) :
      FilterRun mode h u s pieces (.done data rest)
  | again {u' : Upstream} {data : Bytes} (hgo : inputFilters mode h u pieces = (.ok, u'))
      (hpassed : u'.passed = data) (hdata : decoded s pieces.flatten = data)
      (hended : u'.ended mode ↔ u.ended mode)
      (hkeep : u'.keepalive = u.keepalive) : FilterRun mode h u s pieces (.again data)
  | error {u' : Upstream} (hgo : inputFilters mode h u pieces = (.error, u'))
      (hpassed : u'.passed = decoded s pieces.flatten) (hended : u'.ended mode ↔ u.ended mode)
      (hkeep : u'.keepalive = u.keepalive) : FilterRun mode h u s pieces .error

/-- A run of the filter is the byte machine fed with all pieces. -/
theorem filterRun (mode : Mode) (h : HeadersIn) (pieces : List Bytes) : ∀ {u : Upstream}
    (junk : Bytes), Reading u →
    FilterRun mode h u (u.byteState junk) pieces
      (report (feed byteStep (u.byteState junk) pieces.flatten)) := by
  induction pieces with
  | nil =>
    intro u junk hu
    have hsize : ¬ u.chunked.size > ngxMaxOffTValue - 5 := Nat.not_lt_of_le hu.ctx.size
    rw [flatten_nil, feed_nil, report, Upstream.byteState, Chunked.byteState, if_neg hsize]
    exact .again rfl rfl rfl Iff.rfl rfl
  | cons piece pieces ih =>
    intro u junk hu
    have hstep := filterStep mode h hu junk piece
    generalize hcall : inputFilter mode h u piece = r at hstep
    rw [flatten_cons]
    cases hstep with
    | @done u' s' ch rest junk' hnext hstart hread hhalt hpassed hended hkeep =>
      have hlen : (ch :: rest).length ≤ piece.length := by
        obtain ⟨pre, hpre, -⟩ := hread
        rw [hpre, length_append]
        exact Nat.le_add_left _ _
      rw [length_cons] at hlen
      rw [hread.feed, cons_append, feed_cons_halt hhalt, report]
      refine .done hnext hstart hpassed ?_ hended hkeep ?_ ?_
      · rw [flatten_cons, hread.decoded, cons_append, decoded_cons_halt hhalt]
      · rw [flatten_cons, length_append, length_append]
        omega
      have hne : (piece :: pieces).flatten.length - (rest ++ pieces.flatten).length ≠ 0 := by
        rw [flatten_cons, length_append, length_append]
        omega
      have hle : (piece :: pieces).flatten.length - (rest ++ pieces.flatten).length -
          piece.length = 0 := by
        rw [flatten_cons, length_append, length_append]
        omega
      rw [inputFilters_cons hcall, afterBytes, if_neg hne, hle]
      cases pieces with
      | nil => rfl
      | cons piece' pieces => rw [afterBytes, if_pos rfl]
    | @again u' junk' hnext hread hended hkeep =>
      have hfeed := hread.feed pieces.flatten
      rw [nil_append] at hfeed
      have hdecoded := hread.decoded pieces.flatten
      rw [nil_append] at hdecoded
      have hrun := ih junk' hnext
      rw [hfeed]
      generalize report (feed byteStep (u'.byteState junk') pieces.flatten) = result at hrun
      cases hrun with
      | @done u'' data rest hnext' hstart hpassed hdata hended' hkeep' hrest hgo =>
        refine .done hnext' hstart hpassed ?_ hended' hkeep' ?_ ?_
        · rw [flatten_cons, hdecoded, hdata]
        · rw [flatten_cons, length_append]
          omega
        have hne : (piece :: pieces).flatten.length - rest.length ≠ 0 := by
          rw [flatten_cons, length_append]
          omega
        have hsub : (piece :: pieces).flatten.length - rest.length - piece.length =
            pieces.flatten.length - rest.length := by
          rw [flatten_cons, length_append]
          omega
        rw [inputFilters_cons hcall, hgo, afterBytes, if_neg hne, hsub]
      | @again u'' data hgo hpassed hdata hended' hkeep' =>
        refine .again ?_ hpassed ?_ (hended'.trans hended) (hkeep'.trans hkeep)
        · rw [inputFilters_cons hcall, hgo]
        · rw [flatten_cons, hdecoded, hdata]
      | @error u'' hgo hpassed hended' hkeep' =>
        refine .error ?_ ?_ (hended'.trans hended) (hkeep'.trans hkeep)
        · rw [inputFilters_cons hcall, hgo]
        · rw [flatten_cons, hdecoded, hpassed]
    | @broken u' s' post hread hbroken hpassed hended hkeep =>
      rw [hread.feed, hbroken.report]
      refine .error ?_ ?_ hended hkeep
      · simp only [inputFilters, hcall]
      · rw [flatten_cons, hread.decoded, hbroken.decoded, hpassed]

/-! ## After the end -/

/-- No chunk data and nothing invalid in these pieces.  Where a chunked body
ends in a piece, the rest of the piece is left alone. -/
def Quiet : ByteState → List Bytes → Prop
  | _, [] => True
  | s, piece :: pieces =>
      match feed byteStep s piece with
      | .running s' => s'.size ≤ ngxMaxOffTValue - 5 ∧ s'.data = s.data ∧ Quiet s' pieces
      | .halted (.done data _) _ => data = s.data ∧ Quiet ⟨.chunkStart, 0, s.data, []⟩ pieces
      | .halted .invalid _ => False

theorem quiet_chunkStart {size : Nat} (hsize : size ≤ ngxMaxOffTValue - 5) (data : Bytes)
    (pieces : List Bytes) :
    Quiet ⟨.chunkStart, size, data, []⟩ pieces ↔ Quiet ⟨.chunkStart, 0, data, []⟩ pieces := by
  induction pieces with
  | nil => exact Iff.rfl
  | cons piece pieces ih =>
    cases piece with
    | nil =>
      simp only [Quiet, feed_nil, hsize, zero_le, true_and]
      exact ih
    | cons ch piece =>
      have hstep : byteStep ⟨.chunkStart, size, data, []⟩ ch =
          byteStep ⟨.chunkStart, 0, data, []⟩ ch := by
        rw [byteStep_of_ne ChunkState.noConfusion, byteStep_of_ne ChunkState.noConfusion]
        rfl
      simp only [Quiet, feed, hstep]

theorem byteState_of_chunkStart (hstart : u.chunked.state = .chunkStart)
    (junk : Bytes) : u.byteState junk = ⟨.chunkStart, u.chunked.size, u.passed, junk⟩ := by
  have hentry : u.chunked.entryState = .chunkStart := by
    rw [Chunked.entryState, hstart]
    rfl
  rw [Upstream.byteState, Chunked.byteState, hentry]

/-- What stays as it is once the message has ended. -/
structure StaysEnded (mode : Mode) (h : HeadersIn) (u : Upstream) (r : Rc × Upstream) : Prop where
  passed : u.passed <+: r.2.passed
  ended : r.2.ended mode
  keepalive : r.2.keepalive = !h.connectionClose

/-- Behind the end nothing changes but the count of surplus bytes. -/
theorem inputFilters_after (mode : Mode) (h : HeadersIn) (pieces : List Bytes) : ∀ {u : Upstream}
    (junk : Bytes), Reading u → u.ended mode → (u.keepalive = !h.connectionClose) →
    StaysEnded mode h u (inputFilters mode h u pieces) ∧
      ((inputFilters mode h u pieces).1 = .ok ∧
        (inputFilters mode h u pieces).2.passed = u.passed ↔ Quiet (u.byteState junk) pieces) := by
  induction pieces with
  | nil =>
    intro u junk _ hended hkeep
    exact ⟨⟨prefix_refl _, hended, hkeep⟩, fun _ => trivial, fun _ => ⟨rfl, rfl⟩⟩
  | cons piece pieces ih =>
    intro u junk hu hended hkeep
    have hstep := filterStep mode h hu junk piece
    generalize hcall : inputFilter mode h u piece = r at hstep
    cases hstep with
    | @done u' s' ch rest junk' hnext hstart hread hhalt hpassed hended' hkeep' =>
      have hfeed : feed byteStep (u.byteState junk) piece =
        .halted (.done u'.passed junk') rest := by
        have hread' := hread.feed []
        rwa [append_nil, append_nil, feed_cons_halt hhalt, ← hpassed] at hread'
      have hgrown : u.passed <+: u'.passed := hpassed ▸ hread.data_le
      obtain ⟨⟨hmore, hends, hkeeps⟩, hquiet⟩ := ih [] hnext hended' hkeep'
      rw [byteState_of_chunkStart hstart, quiet_chunkStart hnext.ctx.size] at hquiet
      rw [inputFilters_cons hcall]
      refine ⟨⟨hgrown.trans hmore, hends, hkeeps⟩, ?_⟩
      simp only [Quiet, hfeed]
      constructor
      · rintro ⟨hok, hsame⟩
        have hsame' : u'.passed = u.passed :=
          (hgrown.eq_of_length_le (hsame ▸ hmore.length_le)).symm
        rw [← hsame'] at hsame
        refine ⟨hsame', ?_⟩
        show Quiet ⟨.chunkStart, 0, u.passed, []⟩ pieces
        rw [← hsame']
        exact hquiet.mp ⟨hok, hsame⟩
      · rintro ⟨hsame', hq⟩
        have hq' : Quiet ⟨.chunkStart, 0, u'.passed, []⟩ pieces := by
          rw [hsame']
          exact hq
        obtain ⟨hok, hsame⟩ := hquiet.mpr hq'
        exact ⟨hok, hsame.trans hsame'⟩
    | @again u' junk' hnext hread hended' hkeep' =>
      have hfeed : feed byteStep (u.byteState junk) piece = .running (u'.byteState junk') := by
        have hread' := hread.feed []
        rwa [append_nil, append_nil, feed_nil] at hread'
      have hgrown : u.passed <+: u'.passed := hread.data_le
      obtain ⟨⟨hmore, hends, hkeeps⟩, hquiet⟩ :=
        ih junk' hnext (hended'.mpr hended) (hkeep'.trans hkeep)
      rw [inputFilters_cons hcall]
      refine ⟨⟨hgrown.trans hmore, hends, hkeeps⟩, ?_⟩
      have hsize : (u'.byteState junk').size ≤ ngxMaxOffTValue - 5 := hnext.ctx.size
      simp only [Quiet, hfeed, hsize, true_and]
      constructor
      · rintro ⟨hok, hsame⟩
        have hsame' : u'.passed = u.passed :=
          (hgrown.eq_of_length_le (hsame ▸ hmore.length_le)).symm
        exact ⟨hsame', hquiet.mp ⟨hok, hsame.trans hsame'.symm⟩⟩
      · rintro ⟨hsame', hq⟩
        obtain ⟨hok, hsame⟩ := hquiet.mpr hq
        exact ⟨hok, hsame.trans hsame'⟩
    | @broken u' s' post hread hbroken hpassed hended' hkeep' =>
      have hrun : inputFilters mode h u (piece :: pieces) = (.error, u') := by
        simp only [inputFilters, hcall]
      rw [hrun]
      refine ⟨⟨hpassed ▸ hread.data_le, hended'.mpr hended, hkeep'.trans hkeep⟩, ?_⟩
      refine ⟨fun hok => Rc.noConfusion hok.1, fun hq => ?_⟩
      have hreport := hbroken.report []
      rw [← hread.feed, append_nil] at hreport
      rw [Quiet] at hq
      cases hfeed : feed byteStep (u.byteState junk) piece with
      | running s₁ =>
        rw [hfeed] at hq hreport
        rw [report, if_neg (Nat.not_lt_of_le hq.1)] at hreport
        cases hreport
      | halted halt rest =>
        rw [hfeed] at hq hreport
        cases halt with
        | done data junk' => cases hreport
        | invalid => exact hq.elim

theorem quiet_of_flatten_nil {pieces : List Bytes} : ∀ {s : ByteState},
    s.size ≤ ngxMaxOffTValue - 5 → pieces.flatten = [] → Quiet s pieces := by
  induction pieces with
  | nil => exact fun _ _ => trivial
  | cons piece pieces ih =>
    intro s hsize hnil
    rw [flatten_cons, append_eq_nil_iff] at hnil
    rw [Quiet, hnil.1, feed_nil]
    exact ⟨hsize, rfl, ih hsize hnil.2⟩

theorem flatten_afterBytes_nil {pieces : List Bytes} : ∀ {n : Nat}, pieces.flatten.length ≤ n →
    (afterBytes n pieces).flatten = [] := by
  induction pieces with
  | nil => exact fun _ => rfl
  | cons piece pieces ih =>
    intro n hle
    rw [afterBytes]
    split
    · next hzero =>
      rw [hzero] at hle
      exact length_eq_zero_iff.mp (Nat.le_zero.mp hle)
    · rw [flatten_cons, length_append] at hle
      exact ih (by omega)

end Nginx.Http.Proxy
