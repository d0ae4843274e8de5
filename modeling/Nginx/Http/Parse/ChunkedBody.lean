/-
  Http/Parse/ChunkedBody.lean --- when driving the chunked parser recognises
  exactly the chunked bodies.

  Every accepted stream has a derivation in the wider grammar with every chunk
  within the parser's overflow guard.  Such a derivation may contain junk, and
  the grammar proper knows no guard: these are the two ways in which the parser
  and the grammar differ, and there is no third.
-/
import Nginx.Http.Parse.ChunkedGrammar

set_option autoImplicit false

namespace Nginx.Http.Parse

open List Foundation
open Foundation.Machine

variable {data junk : Bytes}

/-! ## Accepted streams have a derivation -/

theorem exists_chunkData {input : Bytes} {data' junk' rest : Bytes} :
    ∀ {size : Nat} {data : Bytes}, size ≠ 0 →
    feed byteStep ⟨.chunkData, size, data, junk⟩ input = .halted (.done data' junk') rest →
    ∃ l input', l.length = size ∧ input = l ++ input' ∧
      feed byteStep ⟨.afterData, 0, data ++ l, junk⟩ input' = .halted (.done data' junk') rest := by
  induction input with
  | nil => exact fun _ hrun => absurd hrun (by simp)
  | cons ch input ih =>
    intro size data hsize hrun
    have hstep : byteStep ⟨.chunkData, size, data, junk⟩ ch =
        .next ⟨if size = 1 then .afterData else .chunkData, size - 1, data ++ [ch], junk⟩ := rfl
    rw [feed_cons_next hstep] at hrun
    by_cases hlast : size = 1
    · rw [if_pos hlast, hlast] at hrun
      exact ⟨[ch], input, hlast.symm, rfl, hrun⟩
    · rw [if_neg hlast] at hrun
      obtain ⟨l, input', hlen, rfl, hrest⟩ := ih (by omega) hrun
      refine ⟨ch :: l, input', by rw [length_cons]; omega, rfl, ?_⟩
      rwa [append_assoc, singleton_append] at hrest

theorem exists_chunk {size : Nat} {input : Bytes} {data' junk' rest : Bytes}
    (hrun : feed byteStep ⟨.chunkStart, size, data, junk⟩ input =
      .halted (.done data' junk') rest) :
    (∃ c input', c.Wf ∧ c.data.length ≤ ngxMaxOffTValue / 16 ∧ input = Chunk.text c ++ input' ∧
      feed byteStep ⟨.chunkStart, 0, data ++ c.data, junk ++ c.junk⟩ input' =
        .halted (.done data' junk') rest) ∨
    ∃ zero ext eol input', IsSize zero ∧ hexValue 0 zero = 0 ∧ IsExt ext ∧ IsEol eol ∧
      input = zero ++ (ext ++ (eol ++ input')) ∧
      feed byteStep ⟨.trailer, 0, data, junk⟩ input' = .halted (.done data' junk') rest := by
  cases input with
  | nil => exact absurd hrun (by simp)
  | cons ch input =>
    cases hch : hexDigit? ch with
    | none =>
      have hstep : byteStep ⟨.chunkStart, size, data, junk⟩ ch = .halt .invalid := by
        rw [byteStep_of_ne ChunkState.noConfusion]
        simp only [chunkStep, hch]
      rw [feed_cons_halt hstep] at hrun
      cases hrun
    | some v =>
      rw [feed_cons_next (byteStep_chunkStart hch)] at hrun
      obtain ⟨digits, ext, eol, input₁, hhex, hext, heol, rfl, hvalue, hrun₁⟩ := exists_size hrun
      have hsize : IsSize (ch :: digits) :=
        ⟨cons_ne_nil _ _, allHex_cons.mpr ⟨by rw [hch]; rfl, hhex⟩⟩
      have hnum : hexValue 0 (ch :: digits) = hexValue v digits := by
        rw [hexValue_cons, hch, Option.getD_some, zero_mul, zero_add]
      by_cases hzero : hexValue v digits = 0
      · rw [afterSizeLine, if_pos hzero, hzero] at hrun₁
        exact Or.inr ⟨ch :: digits, ext, eol, input₁, hsize, hnum.trans hzero, hext, heol, rfl,
          hrun₁⟩
      rw [afterSizeLine, if_neg hzero] at hrun₁
      obtain ⟨l, input₂, hlen, rfl, hrun₂⟩ := exists_chunkData hzero hrun₁
      have hskip : feed byteStep ⟨.afterData, 0, data ++ l, junk ++ []⟩ input₂ =
          .halted (.done data' junk') rest := by rwa [append_nil]
      obtain ⟨j, dataEol, input₃, hj, hdataEol, rfl, hrun₃⟩ :=
        (skips_afterData 0 (data ++ l) junk).exists_line ByteHalt.noConfusion [] hskip
      refine Or.inl ⟨⟨ch :: digits, ext, eol, l, j, dataEol⟩, input₃,
        ⟨hsize, hnum.trans hlen.symm, ?_, hext, heol, hj, hdataEol⟩, ?_, ?_, ?_⟩
      · exact ne_nil_of_length_pos (hlen ▸ pos_of_ne_zero hzero)
      · exact hlen ▸ hvalue
      · simp only [Chunk.text, append_assoc, cons_append]
      · simpa using hrun₃

theorem exists_trailers {size : Nat} {data' junk' rest : Bytes} : ∀ (n : Nat) (input : Bytes),
    input.length ≤ n →
    feed byteStep ⟨.trailer, size, data, junk⟩ input = .halted (.done data' junk') rest →
    ∃ (ts : List TrailerLine) (eol : Bytes), (∀ t ∈ ts, t.Wf) ∧ IsEol eol ∧
      input = ts.flatMap TrailerLine.text ++ (eol ++ rest) ∧ data' = data ∧ junk' = junk := by
  intro n
  induction n with
  | zero =>
    intro input hlen hrun
    rw [length_eq_zero_iff.mp (Nat.le_zero.mp hlen)] at hrun
    exact absurd hrun (by simp)
  | succ n ih =>
    intro input hlen hrun
    cases input with
    | nil => exact absurd hrun (by simp)
    | cons ch input =>
      by_cases hlf : ch = lf
      · rw [hlf] at hrun ⊢
        have hhalt : byteStep ⟨.trailer, size, data, junk⟩ lf = .halt (.done data junk) := rfl
        rw [feed_cons_halt hhalt] at hrun
        cases hrun
        exact ⟨[], [lf], fun t ht => absurd ht not_mem_nil, Or.inr rfl, rfl, rfl, rfl⟩
      by_cases hcr : ch = cr
      · rw [hcr] at hrun ⊢
        have hnext : byteStep ⟨.trailer, size, data, junk⟩ cr =
            .next ⟨.trailerAlmostDone, size, data, junk⟩ := rfl
        rw [feed_cons_next hnext] at hrun
        cases input with
        | nil => exact absurd hrun (by simp)
        | cons ch₂ input =>
          have hstep : byteStep ⟨.trailerAlmostDone, size, data, junk⟩ ch₂ =
              if ch₂ = lf then .halt (.done data junk) else .halt .invalid := by
            rw [byteStep_of_ne ChunkState.noConfusion]
            by_cases hlf₂ : ch₂ = lf <;> simp [chunkStep, hlf₂]
          by_cases hlf₂ : ch₂ = lf
          · rw [if_pos hlf₂] at hstep
            rw [feed_cons_halt hstep] at hrun
            cases hrun
            refine ⟨[], [cr, lf], fun t ht => absurd ht not_mem_nil, Or.inl rfl, ?_, rfl, rfl⟩
            rw [hlf₂]
            rfl
          · rw [if_neg hlf₂] at hstep
            rw [feed_cons_halt hstep] at hrun
            cases hrun
      · have hnext : byteStep ⟨.trailer, size, data, junk⟩ ch =
            .next ⟨.trailerHeader, size, data, junk⟩ := by
          rw [byteStep_of_ne ChunkState.noConfusion]
          simp [chunkStep, hcr, hlf]
        rw [feed_cons_next hnext] at hrun
        obtain ⟨line, eol, input', hline, heol, rfl, hrest⟩ :=
          (skips_trailerHeader size data junk).exists_line (by simp) [] hrun
        have hshort : input'.length ≤ n := by
          simp only [length_cons, length_append] at hlen
          omega
        obtain ⟨ts, lastEol, hts, hlast, rfl, hdata, hjunk⟩ := ih input' hshort hrest
        refine ⟨⟨ch :: line, eol⟩ :: ts, lastEol, ?_, hlast, ?_, hdata, hjunk⟩
        · intro t ht
          rcases mem_cons.mp ht with rfl | ht
          · exact ⟨cons_ne_nil _ _, noEol_cons.mpr ⟨⟨hcr, hlf⟩, hline⟩, heol⟩
          · exact hts t ht
        · simp [TrailerLine.text, append_assoc]

/-- An accepted body is a message of the grammar, by induction on its length. -/
theorem exists_message {data' junk' rest : Bytes} : ∀ (n : Nat) (input : Bytes) (size : Nat)
    (data junk : Bytes), input.length ≤ n →
    feed byteStep ⟨.chunkStart, size, data, junk⟩ input = .halted (.done data' junk') rest →
    ∃ m : Message, m.Wf ∧ ¬ m.Oversize ∧ input = m.text ++ rest ∧ data' = data ++ m.data ∧
      junk' = junk ++ m.junk := by
  intro n
  induction n with
  | zero =>
    intro input size data junk hlen hrun
    rw [length_eq_zero_iff.mp (Nat.le_zero.mp hlen)] at hrun
    exact absurd hrun (by simp)
  | succ n ih =>
    intro input size data junk hlen hrun
    rcases exists_chunk hrun with ⟨c, input', hc, hfit, rfl, hrest⟩ |
        ⟨zero, ext, eol, input', hzero, hvalue, hext, heol, rfl, hrest⟩
    · have hshort : input'.length ≤ n := by
        have hne : 0 < c.data.length := length_pos_of_ne_nil hc.data
        simp only [Chunk.text, length_append] at hlen
        omega
      obtain ⟨m, hm, hmfit, rfl, rfl, rfl⟩ := ih input' 0 _ _ hshort hrest
      refine ⟨{ m with chunks := c :: m.chunks }, ?_, ?_, ?_, ?_, ?_⟩
      · exact { hm with
          chunks := fun c' hc' => by
            rcases mem_cons.mp hc' with rfl | hmem
            · exact hc
            · exact hm.chunks c' hmem }
      · rintro ⟨c', hc', hlarge⟩
        rcases mem_cons.mp hc' with rfl | hmem
        · exact absurd hfit (Nat.not_le_of_lt hlarge)
        · exact hmfit ⟨c', hmem, hlarge⟩
      · simp [Message.text, Message.trailerText, append_assoc]
      · simp [Message.data, append_assoc]
      · simp [Message.junk, append_assoc]
    · obtain ⟨ts, lastEol, hts, hlast, rfl, rfl, rfl⟩ :=
        exists_trailers _ input' (le_rfl) hrest
      refine ⟨⟨[], zero, ext, eol, ts, lastEol⟩, ⟨fun c hc => absurd hc not_mem_nil, hzero,
        hvalue, hext, heol, hts, hlast⟩, ?_, ?_, ?_, ?_⟩
      · rintro ⟨c, hc, -⟩
        exact absurd hc not_mem_nil
      · simp [Message.text, Message.trailerText, append_assoc]
      · simp [Message.data]
      · simp [Message.junk]

/-! ## Driving the parser -/

/-- `NGX_DONE` is reached exactly where a derivation within the guard ends. -/
theorem driveChunked_done_iff {bufs : List Bytes} {data rest : Bytes} :
    driveChunked .zeroed [] bufs = .done data rest ↔
      ∃ m : Message, m.Wf ∧ ¬ m.Oversize ∧ bufs.flatten = m.text ++ rest ∧ data = m.data := by
  rw [driveChunked_zeroed]
  constructor
  · intro h
    cases hrun : feed byteStep ⟨.chunkStart, 0, [], []⟩ bufs.flatten with
    | running s =>
      rw [hrun, report] at h
      split at h <;> cases h
    | halted r rest' =>
      rw [hrun] at h
      cases r with
      | invalid => cases h
      | done data' junk' =>
        cases h
        obtain ⟨m, hm, hfit, hsplit, hdata, -⟩ := exists_message _ _ _ _ _ (le_rfl) hrun
        exact ⟨m, hm, hfit, hsplit, hdata⟩
  · rintro ⟨m, hm, hfit, hsplit, rfl⟩
    rw [hsplit, feed_message hm hfit]
    rfl

/-- Driving the parser over these buffers does what the grammar says: it
reaches `NGX_DONE` if and only if a prefix of the stream is a chunked body,
then with the concatenated chunk bodies and right behind that prefix, and the
same buffers cut otherwise give the same. -/
structure DrivenRight (bufs : List Bytes) : Prop where
  done_iff : (∃ data rest, driveChunked .zeroed [] bufs = .done data rest) ↔
    ∃ (m : Message) (rest : Bytes), m.Wf ∧ m.junk = [] ∧ bufs.flatten = m.text ++ rest
  data : ∀ data rest, driveChunked .zeroed [] bufs = .done data rest →
    ∃ m : Message, m.Wf ∧ m.junk = [] ∧ data = m.data ∧ bufs.flatten = m.text ++ rest
  split : ∀ bufs' : List Bytes, bufs'.flatten = bufs.flatten →
    driveChunked .zeroed [] bufs' = driveChunked .zeroed [] bufs

/-- **Chunked bodies.**  The parser does what the grammar says on every stream
but two kinds: those with a prefix that would be a chunked body if junk were
allowed behind chunk data, and those with a prefix that is one with a chunk
larger than the overflow guard. -/
theorem driveChunked_right_iff (bufs : List Bytes) :
    DrivenRight bufs ↔ ¬ ∃ (m : Message) (rest : Bytes), m.Wf ∧ bufs.flatten = m.text ++ rest ∧
      (m.junk ≠ [] ∧ ¬ m.Oversize ∨ m.junk = [] ∧ m.Oversize) := by
  constructor
  · rintro ⟨hdone, -, -⟩ ⟨m, rest, hm, hsplit, hkind⟩
    rcases hkind with ⟨hjunk, hfit⟩ | ⟨hjunk, hlarge⟩
    · obtain ⟨m', rest', hm', hjunk', hsplit'⟩ :=
        hdone.mp ⟨m.data, rest, driveChunked_done_iff.mpr ⟨m, hm, hfit, hsplit, rfl⟩⟩
      -- the byte machine is deterministic, and its junk is that of `m`
      have hrun := feed_message hm hfit rest
      rw [← hsplit, hsplit'] at hrun
      by_cases hlarge' : m'.Oversize
      · obtain ⟨rest'', hrun'⟩ := feed_message_large hm' hlarge' rest'
        exact absurd (hrun.symm.trans hrun') (by simp)
      · have hrun' := feed_message hm' hlarge' rest'
        have hsame := hrun.symm.trans hrun'
        simp only [Outcome.halted.injEq, ByteHalt.done.injEq] at hsame
        exact hjunk (hsame.1.2.trans hjunk')
    · obtain ⟨data, rest', hdrive⟩ := hdone.mpr ⟨m, rest, hm, hjunk, hsplit⟩
      obtain ⟨rest'', hrun⟩ := feed_message_large hm hlarge rest
      rw [driveChunked_zeroed, hsplit, hrun] at hdrive
      cases hdrive
  · intro hnone
    have hsound : ∀ data rest, driveChunked .zeroed [] bufs = .done data rest →
        ∃ m : Message, m.Wf ∧ m.junk = [] ∧ data = m.data ∧ bufs.flatten = m.text ++ rest := by
      intro data rest hdrive
      obtain ⟨m, hm, hfit, hsplit, hdata⟩ := driveChunked_done_iff.mp hdrive
      refine ⟨m, hm, ?_, hdata, hsplit⟩
      exact Decidable.byContradiction fun hjunk =>
        hnone ⟨m, rest, hm, hsplit, Or.inl ⟨hjunk, hfit⟩⟩
    refine ⟨⟨?_, ?_⟩, hsound, ?_⟩
    · rintro ⟨data, rest, hdrive⟩
      obtain ⟨m, hm, hjunk, -, hsplit⟩ := hsound data rest hdrive
      exact ⟨m, rest, hm, hjunk, hsplit⟩
    · rintro ⟨m, rest, hm, hjunk, hsplit⟩
      have hfit : ¬ m.Oversize := fun hlarge =>
        hnone ⟨m, rest, hm, hsplit, Or.inr ⟨hjunk, hlarge⟩⟩
      exact ⟨m.data, rest, driveChunked_done_iff.mpr ⟨m, hm, hfit, hsplit, rfl⟩⟩
    · intro bufs' hsame
      rw [driveChunked_zeroed, driveChunked_zeroed, hsame]

/-- Three bytes behind the data of the only chunk go unnoticed: the parser
accepts, and no prefix is a chunked body. -/
theorem driveChunked_skips_junk :
    driveChunked .zeroed [] [ascii "3\r\nabcXYZ\r\n0\r\n\r\n"] = .done (ascii "abc") [] ∧
      ¬ DrivenRight [ascii "3\r\nabcXYZ\r\n0\r\n\r\n"] := by
  have hrun : feed byteStep ⟨.chunkStart, 0, [], []⟩ (ascii "3\r\nabcXYZ\r\n0\r\n\r\n") =
      .halted (.done (ascii "abc") (ascii "XYZ")) [] := by decide
  have hdone : driveChunked .zeroed [] [ascii "3\r\nabcXYZ\r\n0\r\n\r\n"] =
      .done (ascii "abc") [] := by
    rw [driveChunked_zeroed, flatten_singleton, hrun]
    rfl
  refine ⟨hdone, fun hright => ?_⟩
  obtain ⟨m, rest, hm, hjunk, hsplit⟩ := hright.done_iff.mp ⟨_, _, hdone⟩
  rw [flatten_singleton] at hsplit
  rw [hsplit] at hrun
  by_cases hlarge : m.Oversize
  · obtain ⟨rest', hrun'⟩ := feed_message_large hm hlarge rest
    exact absurd (hrun.symm.trans hrun') (by simp)
  · have hsame := hrun.symm.trans (feed_message hm hlarge rest)
    simp only [Outcome.halted.injEq, ByteHalt.done.injEq] at hsame
    rw [hjunk] at hsame
    exact absurd hsame.1.2 (by decide)

end Nginx.Http.Parse
