/-
  Http/Proxy/Framing.lean --- where a proxied response ends and what of it is
  passed on.

  The header frames what follows it: a number of bytes, a chunked body, or all
  until the upstream closes.  The filters are right about it (`FramedRight`)
  except on streams with a surplus: the copy filters pass the surplus bytes on,
  and the chunked filters set `u->keepalive` with bytes left over.  The exact
  condition is `Exactly`, and `framedRight_iff` is for every header, every
  stream, every cutting and both modes.
-/
import Nginx.Http.ChunkedFilter.RoundTrip
import Nginx.Http.Proxy.FilterRuns

set_option autoImplicit false

namespace Nginx.Http.Proxy

open Foundation List
open Foundation.Machine
open Http.Parse
open Http.ChunkedFilter

/-! ## What the header says -/

/-- Where the body of a response ends. -/
inductive Framing where
  /-- after so many bytes -/
  | length (n : Nat)
  /-- with the last chunk and its trailer -/
  | chunked
  /-- where the upstream closes -/
  | untilClose
  deriving DecidableEq

/-- The message length, as the header has it. -/
def HeadersIn.framing (h : HeadersIn) (head : Bool) : Framing :=
  if h.noBody head then .length 0
  else if h.chunked then .chunked
  else if h.contentLengthN = -1 then .untilClose
  else .length h.contentLengthN.toNat

namespace Framing

/-- A stream begins with a whole chunked body. -/
def Whole (stream : Bytes) : Prop :=
  ∃ (m : Message) (rest : Bytes), m.Wf ∧ m.junk = [] ∧ stream = m.text ++ rest

/-- The framed body of what has been received. -/
def body : Framing → Bytes → Bytes
  | .length n, stream => stream.take n
  | .chunked, stream => decoded ⟨.chunkStart, 0, [], []⟩ stream
  | .untilClose, stream => stream

/-- The message has ended in what has been received. -/
def Ended : Framing → Bytes → Prop
  | .length n, stream => n ≤ stream.length
  | .chunked, stream => Whole stream
  | .untilClose, _ => False

/-- What has been received ends exactly at the end of the message. -/
def EndsAt : Framing → Bytes → Prop
  | .length n, stream => stream.length = n
  | .chunked, stream => ∃ m : Message, m.Wf ∧ m.junk = [] ∧ stream = m.text
  | .untilClose, _ => False

end Framing

/-- The filters do what the framing says: the body is passed on, the end of the
message is reported where it is and without an error, and the connection is to
be kept only if nothing else has come and the upstream does not close. -/
structure FramedRight (mode : Mode) (h : HeadersIn) (head : Bool) (pieces : List Bytes) : Prop where
  body : (response mode h head pieces).2.passed = (h.framing head).body pieces.flatten
  ended : (response mode h head pieces).2.ended mode ↔ (h.framing head).Ended pieces.flatten
  ok : (h.framing head).Ended pieces.flatten → (response mode h head pieces).1 = .ok
  keepalive : (response mode h head pieces).2.keepalive = true →
    (h.framing head).EndsAt pieces.flatten ∧ h.connectionClose = false

/-! ## When they do -/

/-- The streams on which the filters are right.  Of a counted body no more than
its length comes.  A chunked one is none of those that the parser takes for
what they are not; and where something follows it, the upstream closes, and the
later pieces are quiet. -/
def Exactly (framing : Framing) (close : Bool) (pieces : List Bytes) : Prop :=
  match framing with
  | .length n => pieces.flatten.length ≤ n
  | .chunked =>
      (¬ ∃ (m : Message) (rest : Bytes), m.Wf ∧ pieces.flatten = m.text ++ rest ∧
        (m.junk ≠ [] ∧ ¬ m.Oversize ∨ m.junk = [] ∧ m.Oversize)) ∧
      ∀ (m : Message) (rest : Bytes), m.Wf → m.junk = [] → pieces.flatten = m.text ++ rest →
        rest ≠ [] → close = true ∧
          Quiet ⟨.chunkStart, 0, m.data, []⟩ (afterBytes m.text.length pieces)
  | .untilClose => True

/-! ## The start -/

/-- What the filters start from. -/
def started (close : Bool) : Framing → Upstream
  | .length n => { Upstream.initial with
      pipeLength := n
      length := n
      keepalive := decide (n = 0) && !close }
  | .chunked => { Upstream.initial with inputFilter := .chunked, pipeLength := 3, length := 1 }
  | .untilClose => .initial

theorem response_eq (mode : Mode) (h : HeadersIn) (head : Bool) (pieces : List Bytes) :
    ∃ h' : HeadersIn, h'.connectionClose = h.connectionClose ∧
      response mode h head pieces =
        inputFilters mode h' (started h.connectionClose (h.framing head)) pieces := by
  obtain ⟨status, chunked, n, close, hn⟩ := h
  cases hbody : (HeadersIn.mk status chunked n close hn).noBody head with
  | true =>
    have hbody' : ∀ c m hm, (HeadersIn.mk status c m close hm).noBody head = true :=
      fun _ _ _ => hbody
    cases chunked with
    | true =>
      refine ⟨⟨status, true, -1, close, Int.le_refl _⟩, rfl, ?_⟩
      simp [response, processHeader, inputFilterInit, HeadersIn.framing, hbody', started,
        Upstream.initial, apply_ite]
    | false =>
      refine ⟨⟨status, false, n, close, hn⟩, rfl, ?_⟩
      simp [response, processHeader, inputFilterInit, HeadersIn.framing, hbody', started,
        Upstream.initial, apply_ite]
  | false =>
    have hbody' : ∀ c m hm, (HeadersIn.mk status c m close hm).noBody head = false :=
      fun _ _ _ => hbody
    cases chunked with
    | true =>
      refine ⟨⟨status, true, -1, close, Int.le_refl _⟩, rfl, ?_⟩
      simp [response, processHeader, inputFilterInit, HeadersIn.framing, hbody', started,
        Upstream.initial]
    | false =>
      refine ⟨⟨status, false, n, close, hn⟩, rfl, ?_⟩
      by_cases hzero : n = 0
      · simp [response, processHeader, inputFilterInit, HeadersIn.framing, hbody', started,
          Upstream.initial, hzero, apply_ite]
      by_cases hnone : n = -1
      · simp [response, processHeader, inputFilterInit, HeadersIn.framing, hbody', started,
          Upstream.initial, hnone]
      · have hpos : 0 ≤ n := by omega
        have hnat : n.toNat ≠ 0 := by omega
        simp [response, processHeader, inputFilterInit, HeadersIn.framing, hbody', started,
          Upstream.initial, hzero, hnone, hnat, Int.toNat_of_nonneg hpos]

/-! ## The counted framings -/

variable {mode : Mode} {h : HeadersIn} {head : Bool}

theorem framedRight_length {n : Nat}
    (hframing : h.framing head = .length n) (pieces : List Bytes) :
    FramedRight mode h head pieces ↔ pieces.flatten.length ≤ n := by
  obtain ⟨h', hclose, hresponse⟩ := response_eq mode h head pieces
  rw [hframing] at hresponse
  have hstart : Counted mode h' (started h.connectionClose (.length n)) n :=
    ⟨rfl, by cases mode <;> rfl, fun _ hdone => Bool.noConfusion hdone, by rw [hclose]; rfl⟩
  have hpassed := passed_copy mode h' pieces hstart.filter
  constructor
  · intro hright
    have hbody := hright.body
    rw [hresponse, hpassed, hframing] at hbody
    have hsame : pieces.flatten = pieces.flatten.take n := hbody
    rw [hsame]
    exact length_take_le ..
  intro hle
  obtain ⟨hok, hcounted⟩ := hstart.run pieces hle
  have hended := hcounted.ended_iff
  have hkeep := hcounted.keepalive
  rw [← hresponse] at hok hended hpassed hkeep
  refine ⟨?_, ?_, fun _ => hok, fun hkept => ?_⟩
  · rw [hpassed, hframing]
    exact (take_of_length_le hle).symm
  · rw [hended, hframing, Framing.Ended]
    omega
  · rw [hkeep, hclose, Bool.and_eq_true, decide_eq_true_eq, Bool.not_eq_true'] at hkept
    rw [hframing, Framing.EndsAt]
    exact ⟨by omega, hkept.2⟩

theorem framedRight_untilClose (hframing : h.framing head = .untilClose) (pieces : List Bytes) :
    FramedRight mode h head pieces := by
  obtain ⟨h', hclose, hresponse⟩ := response_eq mode h head pieces
  rw [hframing] at hresponse
  have hstart : Uncounted mode (started h.connectionClose .untilClose) :=
    ⟨rfl, by cases mode <;> rfl, fun _ => rfl, rfl⟩
  have hpassed := passed_copy mode h' pieces hstart.filter
  obtain ⟨hok, huncounted⟩ := hstart.run h' pieces
  rw [← hresponse] at hok huncounted hpassed
  refine ⟨?_, ?_, fun _ => hok, fun hkept => ?_⟩
  · rw [hpassed, hframing]
    rfl
  · rw [hframing]
    exact iff_of_false huncounted.not_ended id
  · exact absurd (huncounted.keepalive.symm.trans hkept) Bool.false_ne_true

/-! ## Chunked bodies -/

theorem message_of_done {stream : Bytes} {data junk rest : Bytes}
    (hrun : feed byteStep ⟨.chunkStart, 0, [], []⟩ stream = .halted (.done data junk) rest)
    {m : Message} {rest' : Bytes} (hm : m.Wf) (hsplit : stream = m.text ++ rest') :
    ¬ m.Oversize ∧ m.data = data ∧ m.junk = junk ∧ rest' = rest := by
  rw [hsplit] at hrun
  by_cases hlarge : m.Oversize
  · obtain ⟨rest'', hrun'⟩ := feed_message_large hm hlarge rest'
    exact absurd (hrun.symm.trans hrun') (by simp)
  · have hsame := (feed_message hm hlarge rest').symm.trans hrun
    simp only [Outcome.halted.injEq, ByteHalt.done.injEq] at hsame
    exact ⟨hlarge, hsame.1.1, hsame.1.2, hsame.2⟩

theorem oversize_of_not_done {stream : Bytes}
    (hrun : ∀ data rest, report (feed byteStep ⟨.chunkStart, 0, [], []⟩ stream) ≠ .done data rest)
    {m : Message} {rest : Bytes} (hm : m.Wf) (hsplit : stream = m.text ++ rest) : m.Oversize := by
  refine Classical.byContradiction fun hfit => hrun m.data rest ?_
  rw [hsplit, feed_message hm hfit]
  rfl

theorem reading_started (close : Bool) : Reading (started close .chunked) where
  filter := rfl
  ctx := ⟨stateOk_zeroed, Nat.zero_le _⟩
  length := fun hzero => absurd (show (3 : Int) = 0 from hzero) (by decide)

theorem not_ended_started (mode : Mode) (close : Bool) : ¬ (started close .chunked).ended mode := by
  cases mode with
  | buffered =>
    rintro (hdone | hzero)
    · exact Bool.false_ne_true hdone
    · exact (reading_started close).length hzero
  | nonBuffered => exact fun hone => absurd (show (1 : Int) = 0 from hone) (by decide)

theorem framedRight_not_done (hframing : h.framing head = .chunked) {pieces : List Bytes}
    (hdone : ∀ data rest,
      report (feed byteStep ⟨.chunkStart, 0, [], []⟩ pieces.flatten) ≠ .done data rest)
    (hpassed : (response mode h head pieces).2.passed =
      decoded ⟨.chunkStart, 0, [], []⟩ pieces.flatten)
    (hended : ¬ (response mode h head pieces).2.ended mode)
    (hkeep : (response mode h head pieces).2.keepalive = false) :
    FramedRight mode h head pieces ↔ Exactly .chunked h.connectionClose pieces := by
  constructor
  · intro hright
    have hwhole : ¬ Framing.Whole pieces.flatten := by
      have hends := hright.ended
      rw [hframing] at hends
      exact fun hwhole => hended (hends.mpr hwhole)
    refine ⟨?_, fun m rest hm hjunk hsplit => absurd ⟨m, rest, hm, hjunk, hsplit⟩ hwhole⟩
    rintro ⟨m, rest, hm, hsplit, ⟨-, hfit⟩ | ⟨hjunk, -⟩⟩
    · exact hfit (oversize_of_not_done hdone hm hsplit)
    · exact hwhole ⟨m, rest, hm, hjunk, hsplit⟩
  · rintro ⟨hkinds, -⟩
    have hwhole : ¬ Framing.Whole pieces.flatten := by
      rintro ⟨m, rest, hm, hjunk, hsplit⟩
      exact hkinds ⟨m, rest, hm, hsplit, Or.inr ⟨hjunk, oversize_of_not_done hdone hm hsplit⟩⟩
    refine ⟨?_, ?_, ?_, fun hkept => absurd (hkeep.symm.trans hkept) Bool.false_ne_true⟩
    · rw [hpassed, hframing]
      rfl
    · rw [hframing]
      exact iff_of_false hended hwhole
    · rw [hframing]
      exact fun hends => absurd hends hwhole

theorem framedRight_done (hframing : h.framing head = .chunked) {pieces : List Bytes}
    {data junk rest : Bytes}
    (hrun : feed byteStep ⟨.chunkStart, 0, [], []⟩ pieces.flatten = .halted (.done data junk) rest)
    (hdata : decoded ⟨.chunkStart, 0, [], []⟩ pieces.flatten = data)
    (hended : (response mode h head pieces).2.ended mode)
    (hkeep : (response mode h head pieces).2.keepalive = !h.connectionClose)
    (hafter : (response mode h head pieces).1 = .ok ∧
        (response mode h head pieces).2.passed = data ↔
      Quiet ⟨.chunkStart, 0, data, []⟩ (afterBytes (pieces.flatten.length - rest.length) pieces)) :
    FramedRight mode h head pieces ↔ Exactly .chunked h.connectionClose pieces := by
  have hlength : ∀ {m : Message} {rest' : Bytes}, pieces.flatten = m.text ++ rest' →
      rest' = rest → pieces.flatten.length - rest.length = m.text.length := by
    intro m rest' hsplit hrest
    rw [hsplit, hrest, length_append, Nat.add_sub_cancel]
  constructor
  · intro hright
    obtain ⟨hbody, hends, hok, hkeeps⟩ := hright
    rw [hframing] at hbody hends hok hkeeps
    have hwhole : Framing.Whole pieces.flatten := hends.mp hended
    have hquiet := hafter.mp ⟨hok hwhole, hbody.trans hdata⟩
    obtain ⟨m₀, rest₀, hm₀, hjunk₀, hsplit₀⟩ := hwhole
    have hmachine := message_of_done hrun hm₀ hsplit₀
    constructor
    · rintro ⟨m, rest', hm, hsplit, hkind⟩
      obtain ⟨hfit, -, hjunk, -⟩ := message_of_done hrun hm hsplit
      rcases hkind with ⟨hjunky, -⟩ | ⟨-, hlarge⟩
      · exact hjunky (hjunk.trans (hmachine.2.2.1.symm.trans hjunk₀))
      · exact hfit hlarge
    intro m rest' hm hjunk hsplit hne
    obtain ⟨-, hmdata, -, hrest⟩ := message_of_done hrun hm hsplit
    rw [hlength hsplit hrest] at hquiet
    rw [hmdata]
    refine ⟨?_, hquiet⟩
    cases hclose : h.connectionClose with
    | true => rfl
    | false =>
      -- the connection is to be kept, so the stream ends with some chunked body
      rw [hclose] at hkeep
      obtain ⟨⟨m₁, hm₁, -, hsplit₁⟩, -⟩ := hkeeps hkeep
      rw [← append_nil m₁.text] at hsplit₁
      obtain ⟨-, -, -, hrest₁⟩ := message_of_done hrun hm₁ hsplit₁
      exact absurd (hrest.trans hrest₁.symm) hne
  · rintro ⟨hkinds, hsurplus⟩
    obtain ⟨m, hm, hfit, hsplit, hmdata, hmjunk⟩ := exists_message _ _ _ _ _ (le_rfl) hrun
    rw [nil_append] at hmdata
    have hjunk : m.junk = [] := by
      refine Decidable.byContradiction fun hjunk =>
        hkinds ⟨m, rest, hm, hsplit, Or.inl ⟨hjunk, hfit⟩⟩
    have hwhole : Framing.Whole pieces.flatten := ⟨m, rest, hm, hjunk, hsplit⟩
    have hquiet : Quiet ⟨.chunkStart, 0, data, []⟩
        (afterBytes (pieces.flatten.length - rest.length) pieces) := by
      by_cases hrest : rest = []
      · refine quiet_of_flatten_nil (Nat.zero_le _) (flatten_afterBytes_nil ?_)
        rw [hrest]
        exact le_rfl
      · rw [hlength hsplit rfl, hmdata]
        exact (hsurplus m rest hm hjunk hsplit hrest).2
    obtain ⟨hok, hpassed⟩ := hafter.mpr hquiet
    refine ⟨?_, ?_, fun _ => hok, fun hkept => ?_⟩
    · rw [hpassed, hframing]
      exact hdata.symm
    · rw [hframing]
      exact iff_of_true hended hwhole
    rw [hkeep, Bool.not_eq_true'] at hkept
    rw [hframing]
    refine ⟨⟨m, hm, hjunk, ?_⟩, hkept⟩
    have hrest : rest = [] := by
      refine Decidable.byContradiction fun hne => ?_
      exact Bool.false_ne_true (hkept.symm.trans (hsurplus m rest hm hjunk hsplit hne).1)
    rw [hsplit, hrest, append_nil]

/-- A chunked response, by where its end is found. -/
theorem framedRight_chunked (hframing : h.framing head = .chunked) (pieces : List Bytes) :
    FramedRight mode h head pieces ↔ Exactly .chunked h.connectionClose pieces := by
  obtain ⟨h', hclose, hresponse⟩ := response_eq mode h head pieces
  rw [hframing] at hresponse
  have hbegin := not_ended_started mode h.connectionClose
  have hrun := filterRun mode h' pieces [] (reading_started h.connectionClose)
  have hzero : (started h.connectionClose .chunked).byteState [] = ⟨.chunkStart, 0, [], []⟩ := rfl
  rw [hzero] at hrun
  generalize hreport : report (feed byteStep ⟨.chunkStart, 0, [], []⟩ pieces.flatten) = result
    at hrun
  cases hrun with
  | again hgo hpassed hdata hended hkeep =>
    rw [← hresponse] at hgo
    refine framedRight_not_done hframing ?_ ?_ ?_ ?_
    · rw [hreport]
      exact fun _ _ => ChunkResult.noConfusion
    · rw [hgo, hdata, hpassed]
    · rw [hgo, hended]
      exact hbegin
    · rw [hgo]
      exact hkeep
  | error hgo hpassed hended hkeep =>
    rw [← hresponse] at hgo
    refine framedRight_not_done hframing ?_ ?_ ?_ ?_
    · rw [hreport]
      exact fun _ _ => ChunkResult.noConfusion
    · rw [hgo, hpassed]
    · rw [hgo, hended]
      exact hbegin
    · rw [hgo]
      exact hkeep
  | @done u' data rest hnext hbegins hpassed hdata hended hkeep hshort hgo =>
    obtain ⟨hstays, hafter⟩ := inputFilters_after mode h'
      (afterBytes (pieces.flatten.length - rest.length) pieces) [] hnext hended hkeep
    rw [byteState_of_chunkStart hbegins, quiet_chunkStart hnext.ctx.size, hpassed, ← hgo,
      ← hresponse] at hafter
    rw [← hgo, ← hresponse] at hstays
    obtain ⟨junk, hfeed⟩ := report_eq_done hreport
    exact framedRight_done hframing hfeed hdata hstays.ended (hclose ▸ hstays.keepalive) hafter

/-- **Proxied responses.**  For every header, every stream after it and every
cutting, in both modes: the filters are right exactly as long as no more than
the length comes of a counted body; of a chunked one, as long as the parser
reads it rightly and what follows it adds nothing and the upstream closes; and
always without a length. -/
theorem framedRight_iff (mode : Mode) (h : HeadersIn) (head : Bool) (pieces : List Bytes) :
    FramedRight mode h head pieces ↔ Exactly (h.framing head) h.connectionClose pieces := by
  cases hframing : h.framing head with
  | length n => exact framedRight_length hframing pieces
  | chunked => exact framedRight_chunked hframing pieces
  | untilClose => exact iff_of_true (framedRight_untilClose hframing pieces) trivial

/-- A byte more than `Content-Length` is passed on to the client, in both
modes, and a byte behind a chunked body does not keep the connection from being
reused. -/
theorem framedRight_surplus :
    (∀ mode, (response mode ⟨200, false, 3, false, by decide⟩ false [ascii "abcd"]).2.passed =
        ascii "abcd" ∧
      ¬ FramedRight mode ⟨200, false, 3, false, by decide⟩ false [ascii "abcd"]) ∧
    ∀ mode, (response mode ⟨200, true, -1, false, by decide⟩ false
        [ascii "0\r\n\r\nX"]).2.keepalive = true ∧
      ¬ FramedRight mode ⟨200, true, -1, false, by decide⟩ false [ascii "0\r\n\r\nX"] := by
  constructor
  · intro mode
    have hpassed : (response mode ⟨200, false, 3, false, by decide⟩ false [ascii "abcd"]).2.passed =
        ascii "abcd" := by
      cases mode <;> decide
    refine ⟨hpassed, fun hright => ?_⟩
    have hbody := hright.body
    rw [hpassed] at hbody
    exact absurd hbody (by decide)
  · intro mode
    have hkept : (response mode ⟨200, true, -1, false, by decide⟩ false
        [ascii "0\r\n\r\nX"]).2.keepalive = true := by
      cases mode <;> decide
    refine ⟨hkept, fun hright => ?_⟩
    obtain ⟨⟨m, hm, -, hsplit⟩, -⟩ := hright.keepalive hkept
    have hrun : feed byteStep ⟨.chunkStart, 0, [], []⟩ [ascii "0\r\n\r\nX"].flatten =
        .halted (.done [] []) (ascii "X") := by decide
    rw [← append_nil m.text] at hsplit
    obtain ⟨-, -, -, hrest⟩ := message_of_done hrun hm hsplit
    exact absurd hrest (by decide)

/-! ## A response of another server -/

/-- **Relayed responses.**  What the chunked filter makes of a response comes through the filters
of a proxy as the body that it was made of, in both modes and however it is cut; the end is found,
and the connection is kept unless it is to be closed. -/
theorem response_relays {trailers : List Trailer} {calls : List (List InBuf × Nat)}
    {front : List InBuf} {final : InBuf} {pieces : List Bytes}
    (hframing : h.framing head = .chunked)
    (hcalls : calls.flatMap Prod.fst = front ++ [final])
    (hfront : ∀ b ∈ front, b.buf.lastBuf = false)
    (hfinal : final.buf.lastBuf = true) (hfits : Fits calls)
    (hlines : Lines (trailersText trailers))
    (hpieces : pieces.flatten = (runFilter trailers calls).passed) :
    (response mode h head pieces).1 = .ok ∧
      (response mode h head pieces).2.passed = bodyOf calls ∧
      (response mode h head pieces).2.ended mode ∧
      (response mode h head pieces).2.keepalive = !h.connectionClose := by
  obtain ⟨h', hclose, hresponse⟩ := response_eq mode h head pieces
  rw [hframing] at hresponse
  have hsize : ∀ call ∈ calls, (chainBytes call.1).length ≤ ngxMaxOffTValue := fun call hcall =>
    (hfits call hcall).trans (Nat.div_le_self ..)
  have hrun := filterRun mode h' pieces [] (reading_started h.connectionClose)
  have hzero : (started h.connectionClose .chunked).byteState [] = ⟨.chunkStart, 0, [], []⟩ := rfl
  have hreport : report (feed byteStep ⟨.chunkStart, 0, [], []⟩ pieces.flatten) =
    .done (bodyOf calls) [] := by
    rw [hpieces, runFilter_passed, text_of_calls hcalls hfront hfinal]
    exact (report_text_iff hsize).mpr ⟨hfits, hlines⟩
  rw [hzero, hreport] at hrun
  cases hrun with
  | done hnext hbegins hpassed hdata hended hkeep hshort hgo =>
    obtain ⟨hstays, hafter⟩ :=
      inputFilters_after mode h' (afterBytes pieces.flatten.length pieces) []
      hnext hended hkeep
    rw [byteState_of_chunkStart hbegins, quiet_chunkStart hnext.ctx.size, hpassed] at hafter
    -- nothing comes behind the text
    have hquiet : Quiet ⟨.chunkStart, 0, bodyOf calls, []⟩
      (afterBytes pieces.flatten.length pieces) :=
      quiet_of_flatten_nil (Nat.zero_le _) (flatten_afterBytes_nil (le_rfl))
    obtain ⟨hok, hbody⟩ := hafter.mpr hquiet
    rw [hresponse, hgo]
    exact ⟨hok, hbody, hstays.ended, hclose ▸ hstays.keepalive⟩

theorem response_relays_hello : (response .buffered ⟨200, true, -1, false, by decide⟩ false
    [ascii "5\r\nhel", ascii "lo\r\n0\r\n\r\n"]).2.passed = ascii "hello" :=
  (@response_relays .buffered
    ⟨200, true, -1, false, by decide⟩ false [] [([.memory (ascii "hello") true], 0)]
    [] (.memory (ascii "hello") true) _ rfl rfl (by decide) rfl (by unfold Fits; decide)
    ⟨[], by simp, rfl⟩ (by decide)).2.1

end Nginx.Http.Proxy
