/-
  Http/Parse/ChunkedStream.lean --- the chunked parser as a machine on the byte
  stream.

  The machine `byteStep` reads one byte of the stream at a time; in the data of
  a chunk a step is one byte of data.  It also collects the bytes that the
  state `afterData` passes over, which the program neither reports nor keeps.
  Driving the parser buffer by buffer is the same as running this machine on
  the concatenation, whatever the buffers are (`driveChunked_eq_feed`).
-/
import Nginx.Http.Parse.Chunked

set_option autoImplicit false

namespace Nginx.Http.Parse

open List Foundation
open Foundation.Machine
open Nginx.Core (Rc)

/-! ## The byte machine -/

/-- The machine's state: the parser's, the data so far, and the bytes passed
over between the data of a chunk and the line end behind them. -/
structure ByteState where
  state : ChunkState
  size : Nat
  data : Bytes
  junk : Bytes
  deriving DecidableEq

/-- How the machine stops. -/
inductive ByteHalt where
  | done (data junk : Bytes)
  | invalid
  deriving DecidableEq

/-- One byte of the stream. -/
def byteStep (s : ByteState) (ch : Byte) : Step ByteState ByteHalt :=
  if s.state = .chunkData then
    .next { s with
      state := if s.size = 1 then .afterData else .chunkData
      size := s.size - 1
      data := s.data ++ [ch] }
  else match chunkStep s.state s.size ch with
    | .next state size =>
        let junk := if s.state = .afterData ∧ state = .afterData then s.junk ++ [ch] else s.junk
        .next ⟨state, size, s.data, junk⟩
    | .done => .halt (.done s.data s.junk)
    | _ => .halt .invalid

variable {state : ChunkState}

theorem byteStep_of_ne (h : state ≠ .chunkData) (size : Nat)
    (data junk : Bytes) (ch : Byte) :
    byteStep ⟨state, size, data, junk⟩ ch =
      match chunkStep state size ch with
      | .next state' size' =>
          .next ⟨state', size', data,
            if state = .afterData ∧ state' = .afterData then junk ++ [ch] else junk⟩
      | .done => .halt (.done data junk)
      | _ => .halt .invalid := by
  simp only [byteStep, h, if_false]

/-- The states in which a chunk that is not empty has been announced. -/
def ChunkState.announced : ChunkState → Bool
  | .chunkExtension | .chunkExtensionAlmostDone | .chunkData => true
  | _ => false

/-- What every state between two bytes satisfies: a chunk announced and not
empty has a size, and only while its size is being read is the size beyond the
guard. -/
structure StateOk (state : ChunkState) (size : Nat) : Prop where
  announced : state.announced = true → size ≠ 0
  bounded : state ≠ .chunkSize → size ≤ ngxMaxOffTValue / 16

theorem stateOk_zeroed : StateOk .chunkStart 0 :=
  ⟨fun h => Bool.noConfusion h, fun _ => Nat.zero_le _⟩

theorem StateOk.step {state state' : ChunkState} {size size' : Nat} {ch : Byte}
    (h : StateOk state size) (hstep : chunkStep state size ch = .next state' size') :
    StateOk state' size' := by
  obtain ⟨hann, hbound⟩ := h
  cases state with
  | chunkStart =>
    simp only [chunkStep] at hstep
    split at hstep
    · cases hstep
      exact ⟨fun h => Bool.noConfusion h, fun h => absurd rfl h⟩
    · cases hstep
  | chunkSize =>
    simp only [chunkStep] at hstep
    split at hstep
    · cases hstep
    rename_i hguard
    split at hstep
    · cases hstep
      exact ⟨fun h => Bool.noConfusion h, fun h => absurd rfl h⟩
    -- the bytes behind the digits: the size is kept, and it is within the guard
    repeat' split at hstep
    all_goals cases hstep
    all_goals
      refine ⟨fun h => ?_, fun _ => not_lt.mp hguard⟩
      first
        | exact Bool.noConfusion h
        | assumption
  | chunkData => cases hstep
  | chunkExtension | chunkExtensionAlmostDone =>
    simp only [chunkStep] at hstep
    repeat' split at hstep
    all_goals cases hstep
    all_goals exact ⟨fun _ => hann rfl, fun _ => hbound ChunkState.noConfusion⟩
  | afterData | afterDataAlmostDone | lastChunkExtension | lastChunkExtensionAlmostDone
  | trailer | trailerAlmostDone | trailerHeader | trailerHeaderAlmostDone =>
    simp only [chunkStep] at hstep
    repeat' split at hstep
    all_goals cases hstep
    all_goals exact ⟨fun h => Bool.noConfusion h, fun _ => hbound ChunkState.noConfusion⟩

theorem state_of_chunkStep_data {size : Nat} {ch : Byte}
    (h : chunkStep state size ch = .data) : state = .chunkData := by
  cases state with
  | chunkData => rfl
  | _ =>
    simp only [chunkStep] at h
    repeat' split at h
    all_goals cases h

/-! ## One call of the parser -/

theorem feed_chunkLoop (data : Bytes) : ∀ (b : Bytes) (state : ChunkState) (size : Nat)
    (junk : Bytes), StateOk state size →
    match chunkLoop state size b with
    | .data rc state' size' pos => StateOk state' size' ∧
        (rc = .again ∧ pos = [] ∨ rc = .ok ∧ state' = .chunkData ∧ pos ≠ []) ∧
        ∃ junk', feed byteStep ⟨state, size, data, junk⟩ b =
          feed byteStep ⟨state', size', data, junk'⟩ pos
    | .done _ pos => ∃ junk', feed byteStep ⟨state, size, data, junk⟩ b =
        .halted (.done data junk') pos
    | .invalid => ∃ rest, feed byteStep ⟨state, size, data, junk⟩ b = .halted .invalid rest := by
  intro b
  induction b with
  | nil => exact fun state size junk h => ⟨h, Or.inl ⟨rfl, rfl⟩, junk, rfl⟩
  | cons ch b ih =>
    intro state size junk h
    by_cases hdata : state = .chunkData
    · subst hdata
      exact ⟨h, Or.inr ⟨rfl, rfl, cons_ne_nil _ _⟩, junk, rfl⟩
    have hbyte := byteStep_of_ne hdata size data junk ch
    rw [chunkLoop]
    cases hstep : chunkStep state size ch with
    | next state' size' =>
      rw [hstep] at hbyte
      rw [feed_cons_next hbyte]
      exact ih state' size' _ (h.step hstep)
    | data => exact absurd (state_of_chunkStep_data hstep) hdata
    | done =>
      rw [hstep] at hbyte
      exact ⟨junk, feed_cons_halt hbyte b⟩
    | invalid =>
      rw [hstep] at hbyte
      exact ⟨b, feed_cons_halt hbyte b⟩

theorem length_chunkLoop_le {state' : ChunkState} {size' : Nat} {rc : Rc} {pos : Bytes} :
    ∀ {b : Bytes} {state : ChunkState} {size : Nat},
    chunkLoop state size b = .data rc state' size' pos → pos.length ≤ b.length := by
  intro b
  induction b with
  | nil =>
    intro state size h
    cases h
    exact le_rfl
  | cons ch b ih =>
    intro state size h
    rw [chunkLoop] at h
    split at h
    · exact Nat.le_succ_of_le (ih h)
    · cases h
      exact le_rfl
    · cases h
    · cases h

theorem feed_data (data junk rest : Bytes) : ∀ (l : Bytes) (size : Nat), l.length ≤ size →
    size ≠ 0 → l ≠ [] →
    feed byteStep ⟨.chunkData, size, data, junk⟩ (l ++ rest) =
      feed byteStep ⟨if l.length = size then .afterData else .chunkData, size - l.length,
        data ++ l, junk⟩ rest := by
  intro l
  induction l generalizing data with
  | nil => exact fun _ _ _ hne => absurd rfl hne
  | cons ch l ih =>
    intro size hlen hsize _
    rw [length_cons] at hlen
    have hbyte : byteStep ⟨.chunkData, size, data, junk⟩ ch =
        .next ⟨if size = 1 then .afterData else .chunkData, size - 1, data ++ [ch], junk⟩ := rfl
    rw [cons_append, feed_cons_next hbyte]
    cases l with
    | nil => simp only [length_singleton, eq_comm, nil_append]
    | cons ch₂ l =>
      rw [length_cons] at hlen
      rw [if_neg (by omega), ih (data ++ [ch]) (size - 1) (by rw [length_cons]; omega)
        (by omega) (cons_ne_nil _ _)]
      simp only [length_cons, append_assoc, singleton_append]
      congr 2
      · congr 1
        exact propext (by omega)
      · omega

/-! ## Whole buffers -/

/-- The machine's state where the parser's context is `ctx`. -/
def Chunked.byteState (ctx : Chunked) (data junk : Bytes) : ByteState :=
  ⟨ctx.entryState, ctx.size, data, junk⟩

/-- A context between two calls. -/
structure CtxOk (ctx : Chunked) : Prop where
  state : StateOk ctx.entryState ctx.size
  size : ctx.size ≤ ngxMaxOffTValue - 5

/-- What is to be reported when the machine stands so at the end of input. -/
def report : Outcome ByteState ByteHalt Byte → ChunkResult
  | .running s => if s.size > ngxMaxOffTValue - 5 then .error else .again s.data
  | .halted (.done data _) rest => .done data rest
  | .halted .invalid _ => .error

theorem report_feed_of_large {size : Nat} (h : StateOk state size)
    (hlarge : size > ngxMaxOffTValue - 5) (data junk bs : Bytes) :
    report (feed byteStep ⟨state, size, data, junk⟩ bs) = .error := by
  have hguard : size > ngxMaxOffTValue / 16 := by
    simp only [ngxMaxOffTValue] at hlarge ⊢
    omega
  have hstate : state = .chunkSize := by
    refine Decidable.byContradiction fun hne => ?_
    exact absurd (h.bounded hne) (Nat.not_le_of_lt hguard)
  subst hstate
  cases bs with
  | nil => exact if_pos hlarge
  | cons ch bs =>
    have hbyte : byteStep ⟨.chunkSize, size, data, junk⟩ ch = .halt .invalid := by
      rw [byteStep_of_ne ChunkState.noConfusion]
      simp only [chunkStep, hguard, if_true]
    rw [feed_cons_halt hbyte]
    rfl

theorem entryState_of_size {state : ChunkState} {size length : Nat} (h : StateOk state size) :
    (Chunked.mk state size length).entryState = state := by
  refine if_neg ?_
  rintro ⟨hstate, hsize⟩
  have hstate' : state = .chunkData := hstate
  exact h.announced (hstate' ▸ rfl) hsize

theorem entryState_chunkData (size length : Nat) :
    (Chunked.mk .chunkData size length).entryState =
      if size = 0 then .afterData else .chunkData := by
  simp [Chunked.entryState]

theorem ctxOk_chunkData {size length : Nat} (h : size ≤ ngxMaxOffTValue / 16) :
    CtxOk ⟨.chunkData, size, length⟩ := by
  refine ⟨⟨fun hann => ?_, fun _ => h⟩, le_trans h (by decide)⟩
  show size ≠ 0
  rintro rfl
  exact Bool.noConfusion hann

/-- The calls on one buffer are the byte machine fed with it, by induction on the turns. -/
theorem feed_driveBuffer : ∀ (turns : Nat) (ctx : Chunked) (data junk b : Bytes),
    CtxOk ctx → b.length < turns →
    match driveBuffer turns ctx data b with
    | .done data' rest => ∃ junk',
        feed byteStep (ctx.byteState data junk) b = .halted (.done data' junk') rest
    | .again ctx' data' => CtxOk ctx' ∧ ∃ junk',
        feed byteStep (ctx.byteState data junk) b = .running (ctx'.byteState data' junk')
    | .error => ∀ more, report (feed byteStep (ctx.byteState data junk) (b ++ more)) = .error := by
  intro turns
  induction turns with
  | zero => exact fun _ _ _ b _ hlt => absurd hlt (Nat.not_lt_zero _)
  | succ turns ih =>
    intro ctx data junk b hctx hturns
    have hloop := feed_chunkLoop data b ctx.entryState ctx.size junk hctx.state
    rw [driveBuffer, parseChunked]
    cases hexit : chunkLoop ctx.entryState ctx.size b with
    | invalid =>
      rw [hexit] at hloop
      obtain ⟨rest, hfeed⟩ := hloop
      intro more
      rw [feed_append, Chunked.byteState, hfeed]
      rfl
    | done size pos =>
      rw [hexit] at hloop
      exact hloop
    | data rc state size pos =>
      rw [hexit] at hloop
      obtain ⟨hok, hrc, junk', hfeed⟩ := hloop
      by_cases hlarge : size > ngxMaxOffTValue - 5
      · simp only [hlarge, if_true]
        intro more
        rw [feed_append, Chunked.byteState, hfeed, ← feed_append]
        exact report_feed_of_large hok hlarge data junk' (pos ++ more)
      simp only [hlarge, if_false]
      rcases hrc with ⟨rfl, rfl⟩ | ⟨rfl, rfl, hpos⟩
      · -- the buffer is exhausted
        have hentry : (Chunked.mk state size (chunkLength state size)).entryState = state :=
          entryState_of_size hok
        refine ⟨⟨?_, not_lt.mp hlarge⟩, junk', ?_⟩
        · rw [hentry]
          exact hok
        · rw [Chunked.byteState, hfeed, feed_nil, Chunked.byteState, hentry]
      · -- the caller takes the data that are there
        have hsize : size ≠ 0 := hok.announced rfl
        have hbound : size ≤ ngxMaxOffTValue / 16 := hok.bounded ChunkState.noConfusion
        have hposlen := length_chunkLoop_le hexit
        have hposne : 0 < pos.length := length_pos_of_ne_nil hpos
        by_cases hmore : pos.length > size
        · have htake : (pos.take size).length = size := by
            rw [length_take]
            omega
          have hmove : ∀ more, feed byteStep (ctx.byteState data junk) (b ++ more) =
              feed byteStep (Chunked.byteState ⟨.chunkData, 0, chunkLength .chunkData size⟩
                (data ++ pos.take size) junk') (pos.drop size ++ more) := by
            intro more
            rw [feed_append, Chunked.byteState, hfeed, ← feed_append,
              ← take_append_drop size pos, append_assoc,
              feed_data data junk' _ (pos.take size) size (Nat.le_of_eq htake) hsize
                (ne_nil_of_length_pos (by omega)), htake, if_pos rfl, Nat.sub_self,
              take_append_drop]
            rfl
          have hmove₀ := hmove []
          rw [append_nil, append_nil] at hmove₀
          have hnext := ih ⟨.chunkData, 0, chunkLength .chunkData size⟩ (data ++ pos.take size)
            junk' (pos.drop size) (ctxOk_chunkData (Nat.zero_le _)) (by rw [length_drop]; omega)
          simp only [hmore, if_true, hmove, hmove₀]
          exact hnext
        · have hle : pos.length ≤ size := not_lt.mp hmore
          have hmove : ∀ more, feed byteStep (ctx.byteState data junk) (b ++ more) =
              feed byteStep (Chunked.byteState
                ⟨.chunkData, size - pos.length, chunkLength .chunkData size⟩
                (data ++ pos) junk') more := by
            intro more
            rw [feed_append, Chunked.byteState, hfeed, ← feed_append,
              feed_data data junk' more pos size hle hsize hpos, Chunked.byteState,
              entryState_chunkData]
            congr 2
            exact if_congr (by omega) rfl rfl
          have hmove₀ := hmove []
          rw [append_nil] at hmove₀
          have hnext := ih ⟨.chunkData, size - pos.length, chunkLength .chunkData size⟩
            (data ++ pos) junk' [] (ctxOk_chunkData (by omega)) (by rw [length_nil]; omega)
          simp only [hmore, if_false, hmove, hmove₀]
          exact hnext

theorem driveChunked_eq_feed : ∀ (bufs : List Bytes) (ctx : Chunked) (data junk : Bytes),
    CtxOk ctx →
    driveChunked ctx data bufs =
      report (feed byteStep (ctx.byteState data junk) bufs.flatten) := by
  intro bufs
  induction bufs with
  | nil =>
    intro ctx data junk hctx
    exact (if_neg (Nat.not_lt_of_le hctx.size)).symm
  | cons b bufs ih =>
    intro ctx data junk hctx
    have hbuf := feed_driveBuffer (b.length + 1) ctx data junk b hctx (Nat.lt_succ_self _)
    rw [driveChunked, flatten_cons]
    cases hdrive : driveBuffer (b.length + 1) ctx data b with
    | done data' rest =>
      rw [hdrive] at hbuf
      obtain ⟨junk', hfeed⟩ := hbuf
      rw [feed_append, hfeed]
      rfl
    | again ctx' data' =>
      rw [hdrive] at hbuf
      obtain ⟨hctx', junk', hfeed⟩ := hbuf
      rw [feed_append, hfeed]
      exact ih ctx' data' junk' hctx'
    | error =>
      rw [hdrive] at hbuf
      exact (hbuf bufs.flatten).symm

theorem driveChunked_zeroed (bufs : List Bytes) :
    driveChunked .zeroed [] bufs =
      report (feed byteStep ⟨.chunkStart, 0, [], []⟩ bufs.flatten) :=
  driveChunked_eq_feed bufs .zeroed [] [] ⟨stateOk_zeroed, Nat.zero_le _⟩

theorem driveChunked_append_done {bufs : List Bytes} {ctx : Chunked} {data data' rest : Bytes}
    (h : driveChunked ctx data bufs = .done data' rest) (more : List Bytes) :
    driveChunked ctx data (bufs ++ more) = .done data' (rest ++ more.flatten) := by
  induction bufs generalizing ctx data with
  | nil => cases h
  | cons b bufs ih =>
    rw [cons_append]
    unfold driveChunked at h ⊢
    cases hdrive : driveBuffer (b.length + 1) ctx data b with
    | done data'' rest' =>
      rw [hdrive] at h
      cases h
      simp only [flatten_append, append_assoc]
    | again ctx' data'' =>
      rw [hdrive] at h
      exact ih h
    | error =>
      rw [hdrive] at h
      cases h

theorem driveChunked_append_error {bufs : List Bytes} {ctx : Chunked} {data : Bytes}
    (h : driveChunked ctx data bufs = .error) (more : List Bytes) :
    driveChunked ctx data (bufs ++ more) = .error := by
  induction bufs generalizing ctx data with
  | nil => cases h
  | cons b bufs ih =>
    rw [cons_append]
    unfold driveChunked at h ⊢
    cases hdrive : driveBuffer (b.length + 1) ctx data b with
    | done data'' rest' =>
      rw [hdrive] at h
      cases h
    | again ctx' data'' =>
      rw [hdrive] at h
      exact ih h
    | error => rfl

end Nginx.Http.Parse
