/-
  Http/Parse/ChunkedLength.lean --- `ctx->length` as a bound of what is still
  to come.

  Each byte lowers the number that goes with the state by at most one, so that
  no run to `NGX_DONE` is shorter.  The continuation that leaves out all that
  may be left out has exactly that many bytes.  A chunk size beyond the guard
  of `sw_chunk_size` has no continuation: the next byte is refused whatever it
  is.
-/
import Nginx.Http.Parse.ChunkedGrammar

set_option autoImplicit false

namespace Nginx.Http.Parse

open Foundation List
open Foundation.Machine
open Nginx.Core (Rc)

/-! ## The bound -/

theorem chunkLength_pos (state : ChunkState) (size : Nat) : 0 < chunkLength state size := by
  cases state <;> simp only [chunkLength] <;> omega

theorem chunkLength_le (state : ChunkState) (size : Nat) : chunkLength state size ≤ size + 5 := by
  cases state <;> simp only [chunkLength] <;> (try split) <;> omega

variable {state : ChunkState} {size : Nat}

theorem chunkLength_step {state' : ChunkState} {size' : Nat} {ch : Byte}
    (hstep : chunkStep state size ch = .next state' size') :
    chunkLength state size ≤ 1 + chunkLength state' size' := by
  cases state with
  | chunkStart =>
    simp only [chunkStep] at hstep
    split at hstep
    · cases hstep
      simp only [chunkLength]
      split <;> omega
    · cases hstep
  | chunkSize =>
    simp only [chunkStep] at hstep
    repeat' split at hstep
    all_goals cases hstep
    all_goals
      simp only [chunkLength]
      repeat' split
    all_goals omega
  | chunkData => cases hstep
  | _ =>
    simp only [chunkStep] at hstep
    repeat' split at hstep
    all_goals cases hstep
    all_goals
      simp only [chunkLength]
      omega

theorem chunkLength_of_done {ch : Byte} (hstep : chunkStep state size ch = .done) :
    chunkLength state size = 1 := by
  cases state with
  | trailer | trailerAlmostDone => rfl
  | _ =>
    simp only [chunkStep] at hstep
    repeat' split at hstep
    all_goals cases hstep

/-- The result of a run that reaches `NGX_DONE`. -/
def ByteHalt.IsDone : ByteHalt → Prop
  | .done _ _ => True
  | .invalid => False

theorem chunkLength_byteStep (s : ByteState) (ch : Byte) (s' : ByteState)
    (hstep : byteStep s ch = .next s') :
    chunkLength s.state s.size ≤ 1 + chunkLength s'.state s'.size := by
  rw [byteStep] at hstep
  by_cases hdata : s.state = .chunkData
  · rw [if_pos hdata] at hstep
    cases hstep
    rw [hdata]
    by_cases hone : s.size = 1
    · simp only [if_pos hone, chunkLength]
      omega
    · simp only [if_neg hone, chunkLength]
      omega
  · rw [if_neg hdata] at hstep
    split at hstep
    · next state size hnext =>
      cases hstep
      exact chunkLength_step hnext
    · cases hstep
    · cases hstep

theorem chunkLength_byteHalt (s : ByteState) (ch : Byte) (r : ByteHalt)
    (hstep : byteStep s ch = .halt r) (hr : r.IsDone) :
    chunkLength s.state s.size ≤ 1 := by
  rw [byteStep] at hstep
  split at hstep
  · cases hstep
  split at hstep
  · cases hstep
  · next hdone => exact le_of_eq (chunkLength_of_done hdone)
  · cases hstep
    exact hr.elim

theorem chunkLength_le_of_feed {s : ByteState} {input data junk rest : Bytes}
    (hrun : feed byteStep s input = .halted (.done data junk) rest) :
    chunkLength s.state s.size + rest.length ≤ input.length :=
  @add_length_le_of_feed _ _ _ _ (fun s =>
    chunkLength s.state s.size) _ chunkLength_byteStep chunkLength_byteHalt _ _ _ _ hrun trivial

/-! ## The shortest continuation -/

/-- The data of the chunk, a line end, and the last chunk with nothing else. -/
def finishData (size : Nat) : Bytes := List.replicate size 0 ++ [lf, chr '0', lf, lf]

/-- What ends the body from here on with the fewest bytes. -/
def shortest (state : ChunkState) (size : Nat) : Bytes :=
  match state with
  | .chunkStart => [chr '0', lf, lf]
  | .chunkSize => if size ≠ 0 then lf :: finishData size else [lf, lf]
  | .chunkExtension | .chunkExtensionAlmostDone => lf :: finishData size
  | .chunkData => finishData size
  | .afterData | .afterDataAlmostDone => [lf, chr '0', lf, lf]
  | .lastChunkExtension | .lastChunkExtensionAlmostDone => [lf, lf]
  | .trailer | .trailerAlmostDone => [lf]
  | .trailerHeader | .trailerHeaderAlmostDone => [lf, lf]

theorem length_finishData (size : Nat) : (finishData size).length = size + 4 := by
  rw [finishData, length_append, length_replicate]
  rfl

theorem length_shortest (state : ChunkState) (size : Nat) :
    (shortest state size).length = chunkLength state size := by
  cases state with
  | chunkSize =>
    simp only [shortest, chunkLength]
    split
    · rw [length_cons, length_finishData, add_comm]
    · rfl
  | chunkExtension | chunkExtensionAlmostDone =>
    rw [shortest, length_cons, length_finishData, chunkLength]
    omega
  | chunkData => exact length_finishData size
  | _ => rfl

theorem feed_finishData (hsize : size ≠ 0) (data junk : Bytes) :
    feed byteStep ⟨.chunkData, size, data, junk⟩ (finishData size) =
      .halted (.done (data ++ List.replicate size 0) junk) [] := by
  have hne : List.replicate size (0 : Byte) ≠ [] := fun h => hsize (replicate_eq_nil_iff 0 |>.mp h)
  rw [finishData, feed_chunkData junk length_replicate.symm hne]
  rfl

theorem feed_shortest (hok : StateOk state size)
    (hguard : state = .chunkSize → size ≤ ngxMaxOffTValue / 16) (data junk : Bytes) :
    ∃ data',
      feed byteStep ⟨state, size, data, junk⟩ (shortest state size) =
      .halted (.done data' junk) [] := by
  cases state with
  | chunkSize =>
    have hlf := byteStep_behind_digits data junk (hguard rfl) hexDigit?_lf
    rw [if_neg (by decide), if_pos rfl, afterSizeLine] at hlf
    by_cases hzero : size = 0
    · subst hzero
      exact ⟨data, rfl⟩
    · rw [if_neg hzero] at hlf
      rw [shortest, if_pos hzero, feed_cons_next hlf, feed_finishData hzero]
      exact ⟨_, rfl⟩
  | chunkExtension | chunkExtensionAlmostDone =>
    refine ⟨data ++ List.replicate size 0, ?_⟩
    exact feed_finishData (hok.announced rfl) data junk
  | chunkData => exact ⟨_, feed_finishData (hok.announced rfl) data junk⟩
  | _ => exact ⟨data, rfl⟩

/-! ## Contexts -/

/-- The contexts that a caller passes: zeroed, or as the call before left it, after the caller has
taken some of the data that are there. -/
inductive CtxReached : Chunked → Prop where
  | zeroed : CtxReached .zeroed
  | again {ctx ctx' : Chunked} {b pos : Bytes} (hctx : CtxReached ctx)
    (hcall : parseChunked ctx b = (.again, ctx', pos)) :
      CtxReached ctx'
  | ok {ctx ctx' : Chunked} {b pos : Bytes} {n : Nat} (hctx : CtxReached ctx)
      (hcall : parseChunked ctx b = (.ok, ctx', pos)) (hn : n ≤ min ctx'.size pos.length) :
      CtxReached { ctx' with size := ctx'.size - n }

theorem parseChunked_spec {ctx ctx' : Chunked} {b pos : Bytes} {rc : Rc} (hctx : CtxOk ctx)
    (hcall : parseChunked ctx b = (rc, ctx', pos)) (hrc : rc = .again ∨ rc = .ok) :
    StateOk ctx'.state ctx'.size ∧ ctx'.size ≤ ngxMaxOffTValue - 5 ∧
      ctx'.length = chunkLength ctx'.state ctx'.size ∧
      (rc = .ok → ctx'.state = .chunkData) := by
  have hloop := feed_chunkLoop [] b ctx.entryState ctx.size [] hctx.state
  rw [parseChunked] at hcall
  cases hexit : chunkLoop ctx.entryState ctx.size b with
  | invalid =>
    rw [hexit] at hcall
    cases hcall
    rcases hrc with h | h <;> cases h
  | done size pos =>
    rw [hexit] at hcall
    cases hcall
    rcases hrc with h | h <;> cases h
  | data rc' state size pos' =>
    rw [hexit] at hcall hloop
    obtain ⟨hok, hrc', -⟩ := hloop
    dsimp only at hcall
    split at hcall
    · cases hcall
      rcases hrc with h | h <;> cases h
    next hlarge =>
    cases hcall
    refine ⟨hok, not_lt.mp hlarge, rfl, ?_⟩
    rintro rfl
    rcases hrc' with ⟨h, -⟩ | ⟨-, h, -⟩
    · cases h
    · exact h

theorem CtxReached.ctxOk {ctx : Chunked} (h : CtxReached ctx) : CtxOk ctx := by
  induction h with
  | zeroed => exact ⟨stateOk_zeroed, Nat.zero_le _⟩
  | again _ hcall ih =>
    obtain ⟨hok, hsize, -, -⟩ := parseChunked_spec ih hcall (.inl rfl)
    refine ⟨?_, hsize⟩
    rw [entryState_of_size hok]
    exact hok
  | @ok ctx ctx' b pos n _ hcall _ ih =>
    obtain ⟨hok, -, -, hdata⟩ := parseChunked_spec ih hcall (.inr rfl)
    obtain ⟨state, size, length⟩ := ctx'
    cases hdata rfl
    exact ctxOk_chunkData (Nat.le_trans (Nat.sub_le _ _) (hok.bounded ChunkState.noConfusion))

/-! ## What the bound promises -/

/-- `ctx->length` is positive, within `off_t` as `ctx->size` is, and a lower bound of every
continuation that leads to `NGX_DONE`, whatever its buffers are. -/
structure IsLowerBound (ctx : Chunked) : Prop where
  pos : 0 < ctx.length
  size_le : ctx.size ≤ ngxMaxOffTValue
  length_le : ctx.length ≤ ngxMaxOffTValue
  least : ∀ (bufs : List Bytes) (data data' rest : Bytes),
    driveChunked ctx data bufs = .done data' rest →
    ctx.length + rest.length ≤ bufs.flatten.length

/-- Some continuation to `NGX_DONE` has exactly so many bytes. -/
def IsTight (ctx : Chunked) : Prop :=
  ∀ data, ∃ bufs data', driveChunked ctx data bufs = .done data' [] ∧
    bufs.flatten.length = ctx.length

/-- No continuation leads to `NGX_DONE`. -/
def IsRefused (ctx : Chunked) :
    Prop := ∀ bufs data data' rest, driveChunked ctx data bufs ≠ .done data' rest

/-- The size that is being read is beyond the guard. -/
def IsGuarded (ctx : Chunked) : Prop := ctx.state = .chunkSize ∧ ngxMaxOffTValue / 16 < ctx.size

instance (ctx : Chunked) : Decidable (IsGuarded ctx) := inferInstanceAs (Decidable (_ ∧ _))

section Promise

variable {ctx : Chunked}

theorem report_eq_done {o : Outcome ByteState ByteHalt Byte} {data rest : Bytes}
    (h : report o = .done data rest) :
    ∃ junk, o = .halted (.done data junk) rest := by
  cases o with
  | running s =>
    rw [report] at h
    split at h <;> cases h
  | halted r rest' =>
    cases r with
    | invalid => cases h
    | done data' junk' =>
      cases h
      exact ⟨junk', rfl⟩

theorem isLowerBound_of_spec (hok : StateOk ctx.state ctx.size)
    (hsize : ctx.size ≤ ngxMaxOffTValue - 5)
    (hlength : ctx.length = chunkLength ctx.state ctx.size) : IsLowerBound ctx := by
  have hentry : ctx.entryState = ctx.state := @entryState_of_size _ _ ctx.length hok
  have hctx : CtxOk ctx := ⟨hentry.symm ▸ hok, hsize⟩
  have hmax : 5 ≤ ngxMaxOffTValue := by decide
  refine ⟨hlength ▸ chunkLength_pos _ _, by omega, ?_, ?_⟩
  · have hle := chunkLength_le ctx.state ctx.size
    omega
  intro bufs data data' rest hdone
  rw [driveChunked_eq_feed bufs ctx data [] hctx] at hdone
  obtain ⟨junk, hrun⟩ := report_eq_done hdone
  have hle := chunkLength_le_of_feed hrun
  rw [Chunked.byteState, hentry] at hle
  rw [hlength]
  exact hle

theorem isTight_of_not_guarded (hok : StateOk ctx.state ctx.size)
    (hsize : ctx.size ≤ ngxMaxOffTValue - 5)
    (hlength : ctx.length = chunkLength ctx.state ctx.size) (hguard : ¬ IsGuarded ctx) :
    IsTight ctx := by
  have hentry : ctx.entryState = ctx.state := @entryState_of_size _ _ ctx.length hok
  have hctx : CtxOk ctx := ⟨hentry.symm ▸ hok, hsize⟩
  intro data
  obtain ⟨data', hrun⟩ :=
    feed_shortest hok (fun h => not_lt.mp fun hlarge => hguard ⟨h, hlarge⟩) data []
  refine ⟨[shortest ctx.state ctx.size], data', ?_, ?_⟩
  · rw [driveChunked_eq_feed _ ctx data [] hctx, Chunked.byteState, hentry, flatten_singleton, hrun]
    rfl
  · rw [flatten_singleton, length_shortest, hlength]

theorem isRefused_of_guarded (hok : StateOk ctx.state ctx.size)
    (hsize : ctx.size ≤ ngxMaxOffTValue - 5)
    (hguard : IsGuarded ctx) : IsRefused ctx := by
  have hentry : ctx.entryState = ctx.state := @entryState_of_size _ _ ctx.length hok
  have hctx : CtxOk ctx := ⟨hentry.symm ▸ hok, hsize⟩
  intro bufs data data' rest hdone
  rw [driveChunked_eq_feed bufs ctx data [] hctx, Chunked.byteState, hentry, hguard.1] at hdone
  obtain ⟨junk, hrun⟩ := report_eq_done hdone
  cases hinput : bufs.flatten with
  | nil =>
    rw [hinput] at hrun
    cases hrun
  | cons ch input =>
    rw [hinput, feed_cons_halt (byteStep_large hguard.2 ch)] at hrun
    cases hrun

end Promise

/-- **The lower bound of a chunked body.**  After `NGX_AGAIN` and `NGX_OK` the length is a lower
bound, and it is tight, but where a size beyond the guard has been read: then the body can only be
refused.
-/
theorem chunkLength_isLowerBound {ctx ctx' : Chunked} {b pos : Bytes}
    {rc : Rc} (hctx : CtxReached ctx)
    (hcall : parseChunked ctx b = (rc, ctx', pos)) (hrc : rc = .again ∨ rc = .ok) :
    IsLowerBound ctx' ∧ (IsGuarded ctx' → IsRefused ctx') ∧ (¬ IsGuarded ctx' → IsTight ctx') := by
  obtain ⟨hok, hsize, hlength, -⟩ := parseChunked_spec hctx.ctxOk hcall hrc
  exact ⟨isLowerBound_of_spec hok hsize hlength, isRefused_of_guarded hok hsize,
    isTight_of_not_guarded hok hsize hlength⟩

/-- A size of 16 left open: 21 bytes are still to come, and they can. -/
theorem chunkLength_isLowerBound_sixteen :
    IsLowerBound ⟨.chunkSize, 16, 21⟩ ∧ IsTight ⟨.chunkSize, 16, 21⟩ := by
  have hcall : parseChunked .zeroed (ascii "10") = (.again, ⟨.chunkSize, 16, 21⟩, []) := by decide
  have hboth := chunkLength_isLowerBound .zeroed hcall (.inl rfl)
  exact ⟨hboth.1, hboth.2.2 (by decide)⟩

/-- The smallest size beyond the guard. -/
theorem chunkLength_refused : ¬ ∀ (ctx ctx' : Chunked) (b pos : Bytes) (rc : Rc), CtxReached ctx →
    parseChunked ctx b = (rc, ctx', pos) → rc = .again ∨ rc = .ok →
      IsLowerBound ctx' ∧ IsTight ctx' := by
  intro hall
  have hcall : parseChunked .zeroed (ascii "800000000000000") =
    (.again, ⟨.chunkSize, 2 ^ 59, 2 ^ 59 + 5⟩, []) := by decide
  have hok : StateOk .chunkSize (2 ^ 59) := ⟨fun h => Bool.noConfusion h, fun h => absurd rfl h⟩
  obtain ⟨bufs, data', hdone, -⟩ := (hall _ _ _ _ _ .zeroed hcall (.inl rfl)).2 []
  exact @isRefused_of_guarded ⟨.chunkSize, 2 ^ 59, 2 ^ 59 + 5⟩ hok (by decide)
    (by decide) bufs [] data' [] hdone

end Nginx.Http.Parse
