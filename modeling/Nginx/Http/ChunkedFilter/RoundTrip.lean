/-
  Http/ChunkedFilter/RoundTrip.lean --- what the filter makes of a response is read back by
  the parser of chunked bodies.
-/
import Nginx.Http.ChunkedFilter.Filter
import Nginx.Http.Parse.ChunkedBody

set_option autoImplicit false

namespace Nginx.Http.ChunkedFilter

open List Foundation
open Foundation.Machine
open Http.Parse

/-! ## The size of a chunk -/

theorem hexDigit?_hexDigits {v : Nat} (hv : v < 16) : hexDigit? (hexDigits.getD v 0) = some v := by
  have hall : ∀ v < 16, hexDigit? (hexDigits.getD v 0) = some v := by decide
  exact hall v hv

theorem exists_hexLoop_eq {digits n : Nat} (hn : n < 16 ^ digits)
    (hdigits : 0 < digits) (text : Bytes) :
    ∃ size, hexLoop digits n text = size ++ text ∧ IsSize size ∧ hexValue 0 size = n := by
  induction digits generalizing n text with
  | zero => exact absurd hdigits (lt_irrefl 0)
  | succ digits ih =>
    have hdigit := hexDigit?_hexDigits (Nat.mod_lt n (by decide : 0 < 16))
    have hhex : AllHex [hexDigits.getD (n % 16) 0] :=
      forall_mem_singleton.mpr (Option.isSome_iff_exists.mpr ⟨_, hdigit⟩)
    unfold hexLoop
    split
    next hzero =>
      refine ⟨[hexDigits.getD (n % 16) 0], rfl, ⟨cons_ne_nil _ _, hhex⟩, ?_⟩
      unfold hexValue
      rw [foldl_cons, foldl_nil, hdigit, Option.getD_some]
      omega
    next hmore =>
      have hless : n / 16 < 16 ^ digits := by
        rw [pow_succ] at hn
        omega
      have hpos : 0 < digits := by
        apply pos_of_ne_zero
        rintro rfl
        rw [pow_zero] at hless
        omega
      obtain ⟨size, hsize, ⟨hne, hall⟩, hvalue⟩ := ih hless hpos (hexDigits.getD (n % 16) 0 :: text)
      refine ⟨size ++ [hexDigits.getD (n % 16) 0], ?_, ⟨append_ne_nil_of_left_ne_nil hne _, ?_⟩, ?_⟩
      · rw [hsize, append_assoc]
        rfl
      · exact forall_mem_append.mpr ⟨hall, hhex⟩
      · unfold hexValue at hvalue ⊢
        rw [foldl_append, hvalue, foldl_cons, foldl_nil, hdigit, Option.getD_some]
        omega

/-! ## The response -/

/-- A chunk of the response. -/
def chunkText (data : Bytes) : Bytes := chunkHead data.length ++ data ++ crlf

/-- One chunk for every call with data. -/
def chunksOf (calls : List (List InBuf × Nat)) : List Bytes :=
  (calls.map fun call => chainBytes call.1).filter fun data => data ≠ []

/-- The body that the calls bring. -/
def bodyOf (calls : List (List InBuf × Nat)) : Bytes := calls.flatMap fun call => chainBytes call.1

/-- What comes after the last chunk with data. -/
def endText (trailers : List Trailer) :
    Bytes := ascii "0" ++ (crlf ++ (trailersText trailers ++ crlf))

theorem flatten_chunksOf (calls : List (List InBuf × Nat)) :
    (chunksOf calls).flatten = bodyOf calls := by
  induction calls with
  | nil => rfl
  | cons call calls ih =>
    unfold chunksOf bodyOf at ih ⊢
    rw [map_cons, filter_cons, flatMap_cons, ← ih]
    split
    next => rfl
    next hnil => rw [show chainBytes call.1 = [] by simpa using hnil, nil_append]

variable {trailers : List Trailer}

variable {chain : List InBuf}

theorem callText_of_not_last (h : isLast chain = false) :
    callText trailers chain =
      ([chainBytes chain].filter fun data => data ≠ []).flatMap chunkText := by
  unfold callText headText tailText
  rw [h]
  simp only [Bool.false_eq_true, if_false]
  by_cases hnil : chainBytes chain = []
  · rw [hnil]
    rfl
  · have hpos := length_pos_of_ne_nil hnil
    rw [if_pos (ne_of_gt hpos), if_pos hpos, filter_cons,
      if_pos (decide_eq_true hnil), flatMap_cons,
      filter_nil, flatMap_nil, append_nil]
    rfl

theorem callText_of_last (h : isLast chain = true) :
    callText trailers chain =
      ([chainBytes chain].filter fun data => data ≠ []).flatMap chunkText ++ endText trailers := by
  unfold callText headText tailText lastPart
  rw [h, lastText_eq]
  simp only [if_true]
  by_cases hnil : chainBytes chain = []
  · rw [hnil]
    simp only [append_assoc]
    rfl
  have hpos := length_pos_of_ne_nil hnil
  rw [if_pos (ne_of_gt hpos), if_neg (ne_of_gt hpos), filter_cons,
    if_pos (decide_eq_true hnil),
    flatMap_cons, filter_nil, flatMap_nil, append_nil, drop_zero]
  unfold chunkText endText
  simp only [append_assoc]

theorem runFilter_passed (trailers : List Trailer) (calls : List (List InBuf × Nat)) :
    (runFilter trailers calls).passed = calls.flatMap fun call => callText trailers call.1 := by
  have hrun : ∀ (calls : List (List InBuf × Nat)) (s : FilterState), s.Recycled →
      (calls.foldl (fun s call => bodyFilter trailers call.1 call.2 s) s).passed =
        s.passed ++ calls.flatMap fun call => callText trailers call.1 := by
    intro calls
    induction calls with
    | nil => exact fun s _ => (append_nil _).symm
    | cons call calls ih =>
      intro s hs
      obtain ⟨hrecycled, hpassed⟩ := bodyFilter_spec hs trailers call.1 call.2
      rw [foldl_cons, ih _ hrecycled, hpassed, flatMap_cons, append_assoc]
  exact hrun calls .init (Core.Recycled.init chunkedTag _)

theorem isLast_of_forall (h : ∀ b ∈ chain, b.buf.lastBuf = false) : isLast chain = false := by
  unfold isLast
  cases hlast : chain.getLast? with
  | none => rfl
  | some b => exact h b (mem_of_getLast? hlast)

theorem isLast_append_singleton {front : List InBuf} {final : InBuf}
    (h : final.buf.lastBuf = true) :
    isLast (front ++ [final]) = true := by
  unfold isLast
  rw [getLast?_concat]
  exact h

theorem chunksOf_cons (call : List InBuf × Nat) (calls : List (List InBuf × Nat)) :
    chunksOf (call :: calls) = ([chainBytes call.1].filter fun data => data ≠ []) ++
      chunksOf calls := by
  unfold chunksOf
  rw [map_cons, ← singleton_append, filter_append]

theorem text_of_no_chains {trailers : List Trailer} {calls : List (List InBuf × Nat)}
    (hcalls : calls.flatMap Prod.fst = []) :
    (calls.flatMap fun call => callText trailers call.1) = [] ∧ chunksOf calls = [] := by
  induction calls with
  | nil => exact ⟨rfl, rfl⟩
  | cons call calls ih =>
    rw [flatMap_cons] at hcalls
    obtain ⟨hcall, hcalls⟩ := append_eq_nil_iff.mp hcalls
    obtain ⟨htext, hchunks⟩ := ih hcalls
    refine ⟨?_, ?_⟩
    · rw [flatMap_cons, htext, hcall, callText_nil]
      rfl
    · rw [chunksOf_cons, hchunks, hcall]
      rfl

variable {calls : List (List InBuf × Nat)}

theorem text_of_calls {front : List InBuf} {final : InBuf}
    (hcalls : calls.flatMap Prod.fst = front ++ [final])
    (hfront : ∀ b ∈ front, b.buf.lastBuf = false)
    (hfinal : final.buf.lastBuf = true) :
    (calls.flatMap fun call => callText trailers call.1) =
      (chunksOf calls).flatMap chunkText ++ endText trailers := by
  induction calls generalizing front with
  | nil => exact absurd hcalls.symm (append_ne_nil_of_right_ne_nil front (cons_ne_nil final []))
  | cons call calls ih =>
    rw [flatMap_cons, chunksOf_cons, flatMap_append]
    rw [flatMap_cons] at hcalls
    rcases eq_nil_or_concat' (calls.flatMap Prod.fst) with hnil | ⟨later, last, hlater⟩
    · obtain ⟨htext, hchunks⟩ := @text_of_no_chains trailers calls hnil
      rw [hnil, append_nil] at hcalls
      have hlast : isLast call.1 = true := hcalls ▸ isLast_append_singleton hfinal
      rw [htext, hchunks, callText_of_last hlast, flatMap_nil, append_nil, append_nil]
    · rw [hlater, ← append_assoc] at hcalls
      obtain ⟨rfl, hsame⟩ := append_inj' hcalls rfl
      obtain rfl := singleton_inj.mp hsame
      have hlast : isLast call.1 = false := isLast_of_forall fun b hb =>
        hfront b (mem_append_left _ hb)
      rw [ih hlater fun b hb =>
        hfront b (mem_append_right _ hb), callText_of_not_last hlast, append_assoc]

/-! ## Reading it -/

theorem exists_chunk_of_data {data : Bytes} (hne : data ≠ [])
    (hsize : data.length ≤ ngxMaxOffTValue) :
    ∃ c : Chunk, c.Wf ∧ c.text = chunkText data ∧ c.data = data ∧ c.junk = [] := by
  have hbound : data.length < 16 ^ 16 := lt_of_le_of_lt hsize (by decide)
  obtain ⟨size, htext, hsize, hvalue⟩ := exists_hexLoop_eq hbound (by decide) []
  refine ⟨⟨size, [], crlf, data, [], crlf⟩, ⟨hsize, hvalue, hne, .inl rfl, .inl rfl, ?_, .inl rfl⟩,
    ?_, rfl, rfl⟩
  · exact fun ch hch => absurd hch not_mem_nil
  · unfold chunkText chunkHead Chunk.text
    rw [htext]
    simp only [append_assoc, nil_append, append_nil]

theorem exists_chunks_of_data {datas : List Bytes} (hne : ∀ data ∈ datas, data ≠ [])
    (hsize : ∀ data ∈ datas, data.length ≤ ngxMaxOffTValue) :
    ∃ chunks : List Chunk, (∀ c ∈ chunks, c.Wf) ∧
      chunks.flatMap Chunk.text = datas.flatMap chunkText ∧
      chunks.map Chunk.data = datas ∧ chunks.flatMap Chunk.junk = [] := by
  induction datas with
  | nil => exact ⟨[], fun c hc => absurd hc not_mem_nil, rfl, rfl, rfl⟩
  | cons data datas ih =>
    obtain ⟨hdata, hne⟩ := forall_mem_cons.mp hne
    obtain ⟨hfit, hsize⟩ := forall_mem_cons.mp hsize
    obtain ⟨c, hc, htext, hcdata, hjunk⟩ := exists_chunk_of_data hdata hfit
    obtain ⟨chunks, hchunks, htexts, hdatas, hjunks⟩ := ih hne hsize
    refine ⟨c :: chunks, forall_mem_cons.mpr ⟨hc, hchunks⟩, ?_, ?_, ?_⟩
    · rw [flatMap_cons, flatMap_cons, htext, htexts]
    · rw [map_cons, hcdata, hdatas]
    · rw [flatMap_cons, hjunk, hjunks]
      rfl

/-- The trailers are lines: none of them is empty, and `CR` and `LF` stand at the ends only. -/
def Lines (text : Bytes) : Prop := ∃ lines :
    List TrailerLine, (∀ t ∈ lines, t.Wf) ∧ text = lines.flatMap TrailerLine.text

theorem lines_of_noEol (h : ∀ t ∈ trailers, NoEol t.key ∧ NoEol t.value) :
    Lines (trailersText trailers) := by
  induction trailers with
  | nil => exact ⟨[], fun t ht => absurd ht not_mem_nil, rfl⟩
  | cons t trailers ih =>
    obtain ⟨⟨hkey, hvalue⟩, htrailers⟩ := forall_mem_cons.mp h
    obtain ⟨lines, hlines, htext⟩ := ih htrailers
    unfold trailersText at htext ⊢
    rw [flatMap_cons, htext]
    unfold Trailer.text
    split
    next => exact ⟨lines, hlines, rfl⟩
    have hcolon : NoEol (ascii ": ") := noEol_of_all (by decide)
    refine ⟨⟨t.key ++ ascii ": " ++ t.value, crlf⟩ :: lines,
      forall_mem_cons.mpr ⟨⟨?_, ?_, .inl rfl⟩, hlines⟩, rfl⟩
    · exact append_ne_nil_of_left_ne_nil (append_ne_nil_of_right_ne_nil _ (cons_ne_nil _ _)) _
    · exact forall_mem_append.mpr ⟨forall_mem_append.mpr ⟨hkey, hcolon⟩, hvalue⟩

theorem getLast?_lines {lines : List TrailerLine} (h : ∀ t ∈ lines, t.Wf) :
    (lines.flatMap TrailerLine.text).getLast? = none ∨
      (lines.flatMap TrailerLine.text).getLast? = some lf := by
  induction lines with
  | nil => exact .inl rfl
  | cons t lines ih =>
    obtain ⟨ht, hlines⟩ := forall_mem_cons.mp h
    have hlast : t.text.getLast? = some lf := by
      unfold TrailerLine.text
      rcases ht.eol with heol | heol
      · rw [heol, getLast?_append]
        rfl
      · rw [heol, getLast?_append]
        rfl
    rw [flatMap_cons, getLast?_append, hlast]
    rcases ih hlines with hnone | hsome
    · rw [hnone]
      exact .inr rfl
    · rw [hsome]
      exact .inr rfl

/-- The parser reads the trailers to the end of the text just when they are lines. -/
theorem report_trailers_iff {data data' junk text : Bytes} :
    report (feed byteStep ⟨.trailer, 0, data, junk⟩ (text ++ crlf)) = .done data' [] ↔
      data' = data ∧ Lines text := by
  constructor
  · intro h
    cases hrun : feed byteStep ⟨.trailer, 0, data, junk⟩ (text ++ crlf) with
    | running s =>
      rw [hrun, report] at h
      split at h <;> cases h
    | halted r rest =>
      rw [hrun] at h
      cases r with
      | invalid => cases h
      | done data'' junk'' =>
        cases h
        obtain ⟨lines, eol, hlines, heol, hsplit, rfl, -⟩ :=
          exists_trailers _ _ (le_rfl) hrun
        refine ⟨rfl, lines, hlines, ?_⟩
        rw [append_nil] at hsplit
        rcases heol with rfl | rfl
        · exact append_cancel_right hsplit
        -- a line does not end with `CR`
        exfalso
        have hcut : text ++ [cr] = lines.flatMap TrailerLine.text := by
          have hlong : (text ++ [cr]) ++ [lf] = lines.flatMap TrailerLine.text ++ [lf] := by
            rw [append_assoc]
            exact hsplit
          exact append_cancel_right hlong
        have hend := getLast?_lines hlines
        rw [← hcut, getLast?_concat] at hend
        exact absurd hend (by decide)
  · rintro ⟨rfl, lines, hlines, rfl⟩
    have heol : IsEol crlf := .inl rfl
    rw [← append_nil crlf, feed_trailers hlines heol]
    rfl

/-- Each call's data pass the guard that the parser has against overflow. -/
def Fits (calls : List (List InBuf × Nat)) :
    Prop := ∀ call ∈ calls, (chainBytes call.1).length ≤ ngxMaxOffTValue / 16

theorem fits_iff :
    Fits calls ↔ ∀ data ∈ chunksOf calls, data.length ≤ ngxMaxOffTValue / 16 := by
  constructor
  · intro h data hdata
    obtain ⟨call, hcall, rfl⟩ := mem_map.mp (mem_of_mem_filter hdata)
    exact h call hcall
  intro h call hcall
  by_cases hnil : chainBytes call.1 = []
  · rw [hnil]
    exact Nat.zero_le _
  · exact h _ (mem_filter.mpr ⟨mem_map.mpr ⟨call, hcall, rfl⟩, decide_eq_true hnil⟩)

theorem report_text_iff
    (hsize : ∀ call ∈ calls, (chainBytes call.1).length ≤ ngxMaxOffTValue) :
    report (feed byteStep ⟨.chunkStart, 0, [], []⟩
      ((chunksOf calls).flatMap chunkText ++ endText trailers)) =
      .done (bodyOf calls) [] ↔ Fits calls ∧ Lines (trailersText trailers) := by
  have hmem : ∀ data ∈ chunksOf calls, data ≠ [] ∧ data.length ≤ ngxMaxOffTValue := by
    intro data hdata
    obtain ⟨hdata, hne⟩ := mem_filter.mp hdata
    obtain ⟨call, hcall, rfl⟩ := mem_map.mp hdata
    exact ⟨of_decide_eq_true hne, hsize call hcall⟩
  obtain ⟨chunks, hchunks, htext, hdatas, hjunk⟩ :=
    exists_chunks_of_data (fun data hdata => (hmem data hdata).1) fun data hdata =>
      (hmem data hdata).2
  have hbody : chunks.flatMap Chunk.data = bodyOf calls := by
    rw [← flatten_chunksOf, ← hdatas, flatMap_def]
  have hfits : Fits calls ↔ ∀ c ∈ chunks, c.data.length ≤ ngxMaxOffTValue / 16 := by
    rw [fits_iff, ← hdatas, forall_mem_map]
  rw [← htext, hfits]
  have heol : IsEol crlf := .inl rfl
  have hzero : IsSize (ascii "0") := ⟨cons_ne_nil _ _, forall_mem_singleton.mpr rfl⟩
  by_cases hfit : ∀ c ∈ chunks, c.data.length ≤ ngxMaxOffTValue / 16
  · have hread :=
      @feed_zero (ascii "0") [] crlf hzero rfl (.inl rfl) heol (bodyOf calls) []
        (trailersText trailers ++ crlf)
    unfold endText
    rw [feed_chunks hchunks hfit, hjunk, hbody]
    rw [nil_append, nil_append] at *
    rw [hread, report_trailers_iff]
    exact ⟨fun h => ⟨hfit, h.2⟩, fun h => ⟨rfl, h.2⟩⟩
  · obtain ⟨c, hc⟩ := not_forall.mp hfit
    obtain ⟨hmem, hlarge⟩ := Classical.not_imp.mp hc
    obtain ⟨rest, hinvalid⟩ :=
      @feed_chunks_large chunks hchunks ⟨c, hmem, not_le.mp hlarge⟩ [] [] (endText trailers)
    rw [hinvalid]
    exact iff_of_false ChunkResult.noConfusion fun h => hfit h.1

/-- The parser gives the body and stops at the end of the text, however the text is cut, and not
before. -/
structure ReadBack (text body : Bytes) : Prop where
  done : ∀ bufs : List Bytes, bufs.flatten = text → driveChunked .zeroed [] bufs = .done body []
  notBefore : ∀ (bufs : List Bytes) (more : Bytes), bufs.flatten ++ more = text → more ≠ [] →
    ∃ data, driveChunked .zeroed [] bufs = .again data

theorem readBack_iff {text body : Bytes} :
    ReadBack text body ↔ report (feed byteStep ⟨.chunkStart, 0, [], []⟩ text) = .done body [] := by
  constructor
  · intro h
    have hdone := h.done [text] (flatten_singleton)
    rw [driveChunked_zeroed, flatten_singleton] at hdone
    exact hdone
  intro h
  have hdone : ∀ bufs : List Bytes, bufs.flatten = text →
    driveChunked .zeroed [] bufs = .done body [] := by
    intro bufs hbufs
    rw [driveChunked_zeroed, hbufs]
    exact h
  refine ⟨hdone, fun bufs more hbufs hmore => ?_⟩
  have hall := hdone (bufs ++ [more]) (by rw [flatten_append, flatten_singleton, hbufs])
  cases hdrive : driveChunked .zeroed [] bufs with
  | again data => exact ⟨data, rfl⟩
  | error =>
    rw [driveChunked_append_error hdrive] at hall
    cases hall
  | done data rest =>
    -- the bytes behind would be left over
    rw [driveChunked_append_done hdrive, flatten_singleton] at hall
    have hrest : rest ++ more = [] := (ChunkResult.done.inj hall).2
    exact absurd (append_eq_nil_iff.mp hrest).2 hmore

/-- **Chunked responses.**  What the filter passes on is one chunk for every call with data, and the
last chunk; it is read back just when the chunks fit and the trailers are lines. -/
theorem runFilter_readBack_iff {trailers : List Trailer}
    {calls : List (List InBuf × Nat)} {front : List InBuf}
    {final : InBuf} (hcalls : calls.flatMap Prod.fst = front ++ [final])
    (hfront : ∀ b ∈ front, b.buf.lastBuf = false)
    (hfinal : final.buf.lastBuf = true)
    (hsize : ∀ call ∈ calls, (chainBytes call.1).length ≤ ngxMaxOffTValue) :
    (runFilter trailers calls).passed = (chunksOf calls).flatMap chunkText ++ endText trailers ∧
      (ReadBack (runFilter trailers calls).passed (bodyOf calls) ↔
        Fits calls ∧ Lines (trailersText trailers)) := by
  have hpassed := runFilter_passed trailers calls
  rw [text_of_calls hcalls hfront hfinal] at hpassed
  rw [hpassed]
  exact ⟨rfl, readBack_iff.trans (report_text_iff hsize)⟩

/-- Two calls, a buffer of the first one being used again in the second. -/
theorem runFilter_readBack_twoCalls :
    ReadBack (runFilter [⟨1, ascii "a", ascii "b"⟩]
      [([.memory (ascii "hello") false], 10), ([.memory (ascii ", world") true], 3)]).passed
        (ascii "hello, world") := by
  have hiff := (@runFilter_readBack_iff [⟨1, ascii "a", ascii "b"⟩]
    [([.memory (ascii "hello") false], 10), ([.memory (ascii ", world") true], 3)]
      [.memory (ascii "hello") false]
    (.memory (ascii ", world") true) rfl (forall_mem_singleton.mpr rfl) rfl (by decide)).2
  refine hiff.mpr ⟨?_, ?_⟩
  · unfold Fits
    decide
  · exact lines_of_noEol
      (forall_mem_singleton.mpr ⟨noEol_of_all (by decide), noEol_of_all (by decide)⟩)

/-- The value of a trailer ends the response. -/
theorem runFilter_trailer_ends :
    (runFilter [⟨1, ascii "a", ascii "\r\n\r\nb"⟩] [([.memory (ascii "hello") true], 0)]).passed =
        ascii "5\r\nhello\r\n0\r\na: \r\n\r\nb\r\n\r\n" ∧
      driveChunked .zeroed [] [ascii "5\r\nhello\r\n0\r\na: \r\n\r\nb\r\n\r\n"] =
        .done (ascii "hello") (ascii "b\r\n\r\n") ∧
      ¬ReadBack (ascii "5\r\nhello\r\n0\r\na: \r\n\r\nb\r\n\r\n") (ascii "hello") := by
  have hdrive : driveChunked .zeroed [] [ascii "5\r\nhello\r\n0\r\na: \r\n\r\nb\r\n\r\n"] =
      .done (ascii "hello") (ascii "b\r\n\r\n") := by decide
  refine ⟨by decide, hdrive, fun h => ?_⟩
  have hdone := h.done _ flatten_singleton
  rw [hdrive] at hdone
  exact absurd hdone (by decide)

end Nginx.Http.ChunkedFilter
