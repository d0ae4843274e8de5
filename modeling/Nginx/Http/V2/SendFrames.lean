/-
  Http/V2/SendFrames.lean --- the bytes of a body are in the DATA frames and in the
  chain that is returned, in order.

  There is a lemma for the inner loop, one for a turn of the outer loop, and one
  for the whole of it by induction on the turns.
-/
import Nginx.Http.V2.SendChain

set_option autoImplicit false

namespace Nginx.Http.V2

open List Foundation

variable {m : Media} {b : SendBuf} {link : ChainLink} {chain : List ChainLink} {out : List SendBuf}
  {offset size rest : Nat} {hasTrailers : Bool} {s s' : SendLoop}

/-! ## Buffers -/

theorem load_part (mem : Nat → Byte) (r : Region) (h : offset + size ≤ r.size) :
    load mem (r.part offset size).pos (r.part offset size).size =
      ((load mem r.pos r.size).drop offset).take size := by
  have hsize : (r.part offset size).size = size := Nat.add_sub_cancel_left ..
  rw [hsize]
  apply ext_getElem
  · rw [length_load, length_take, length_drop, length_load]
    omega
  · intro j h₁ h₂
    rw [getElem_load, getElem_take, getElem_drop, getElem_load, ← add_assoc]
    rfl

namespace SendBuf

@[simp] theorem length_bytes (m : Media) (b : SendBuf) : (b.bytes m).length = b.size := by
  unfold bytes size
  cases b.memory <;> cases b.file <;> simp

theorem bytes_getShadow (m : Media) (h : offset + size ≤ b.size) :
    (b.getShadow offset size).bytes m = ((b.bytes m).drop offset).take size := by
  unfold SendBuf.size at h
  unfold bytes getShadow
  cases hm : b.memory with
  | some r =>
    rw [hm] at h
    exact load_part m.memory r h
  | none =>
    cases hf : b.file with
    | some r =>
      rw [hm, hf] at h
      exact load_part (m.file b.fd) r h
    | none => simp

theorem size_getShadow (h : offset + size ≤ b.size) : (b.getShadow offset size).size = size := by
  have hlength := congrArg List.length (@bytes_getShadow b offset size ⟨fun _ => 0, fun _ _ => 0⟩ h)
  rw [length_bytes, length_take, length_drop, length_bytes] at hlength
  omega

theorem offsetIn_getShadow (h : offset + size = b.size) :
    (b.getShadow offset size).offsetIn b = offset := by
  unfold SendBuf.size at h
  unfold offsetIn getShadow
  cases hm : b.memory with
  | some r => exact Nat.add_sub_cancel_left ..
  | none =>
    cases hf : b.file with
    | some r => exact Nat.add_sub_cancel_left ..
    | none =>
      rw [hm, hf] at h
      exact (Nat.eq_zero_of_add_eq_zero_right h).symm

end SendBuf

/-- The bytes of the buffers of a frame. -/
def bufsBytes (m : Media) (out : List SendBuf) : Bytes := (out.map fun b => b.bytes m).flatten

/-- The bytes of a chain from `offset` on. -/
def restBytes (m : Media) (offset : Nat) : List ChainLink → Bytes
  | [] => []
  | link :: chain => (link.buf.bytes m).drop offset ++ chainBytes m chain

@[simp] theorem bufsBytes_append (m : Media) (out out' : List SendBuf) :
    bufsBytes m (out ++ out') = bufsBytes m out ++ bufsBytes m out' := by
  simp [bufsBytes]

theorem bufsBytes_singleton (m : Media) (b : SendBuf) : bufsBytes m [b] = b.bytes m := by
  simp [bufsBytes]

theorem restBytes_zero (m : Media) (chain : List ChainLink) :
    restBytes m 0 chain = chainBytes m chain := by
  cases chain <;> simp [restBytes, chainBytes]

theorem eq_of_getLast? {b : SendBuf} (h : out.getLast? = some b) : out.dropLast ++ [b] = out := by
  obtain ⟨init, rfl⟩ := getLast?_eq_some_iff.mp h
  simp

theorem bufsBytes_setLast (m : Media) {f : SendBuf → SendBuf} (hf : ∀ b, (f b).bytes m = b.bytes m)
    (out : List SendBuf) : bufsBytes m (setLast f out) = bufsBytes m out := by
  rw [setLast]
  cases hlast : out.getLast? with
  | none =>
    rw [getLast?_eq_none_iff.mp hlast]
    rfl
  | some b =>
    conv => rhs; rw [← eq_of_getLast? hlast]
    simp [bufsBytes, hf]

/-! ## The inner loop -/

/-- `offset` and `size` are those of the rest of the first buffer. -/
def Remains (size offset : Nat) (chain : List ChainLink) : Prop :=
  chain ≠ [] → offset + size = (headBuf chain).size

/-- What the inner loop does: the buffers in front are put in the frame, the first one
without the part before `offset`. -/
theorem fillFrame_spec (m : Media) (hrem : Remains size offset chain) :
    ∃ used new, chain = used ++ (fillFrame out rest size offset chain).chain ∧
      (fillFrame out rest size offset chain).out = out ++ new ∧
      new.map SendBuf.lastBuf = used.map (fun link => link.buf.lastBuf) ∧
      bufsBytes m new ++ restBytes m (fillFrame out rest size offset chain).offset
        (fillFrame out rest size offset chain).chain = restBytes m offset chain ∧
      (bufsBytes m new).length + (fillFrame out rest size offset chain).rest = rest ∧
      ((fillFrame out rest size offset chain).chain ≠ [] →
        (fillFrame out rest size offset chain).rest < (fillFrame out rest size offset chain).size) ∧
      Remains (fillFrame out rest size offset chain).size
        (fillFrame out rest size offset chain).offset
        (fillFrame out rest size offset chain).chain := by
  induction chain generalizing out rest size offset with
  | nil => exact ⟨[], [], rfl, by simp [fillFrame], rfl, rfl, by simp [bufsBytes, fillFrame],
      fun h => absurd rfl h, fun h => absurd rfl h⟩
  | cons link chain ih =>
    have hsize : offset + size = link.buf.size := hrem (cons_ne_nil _ _)
    rw [fillFrame]
    split
    swap
    next hmore =>
      exact ⟨[], [], rfl, by simp, rfl, rfl, by simp [bufsBytes], fun _ => not_le.mp hmore,
        fun _ => hsize⟩
    next hfit =>
      set piece := if offset ≠ 0 then link.buf.getShadow offset size else link.buf with hpiece
      have hbytes : piece.bytes m = (link.buf.bytes m).drop offset := by
        rw [hpiece]
        split
        next =>
          rw [SendBuf.bytes_getShadow m hsize.le, take_of_length_le]
          rw [length_drop, SendBuf.length_bytes]
          omega
        next hzero => rw [not_not.mp hzero, drop_zero]
      have hlast : piece.lastBuf = link.buf.lastBuf := by
        rw [hpiece]
        split <;> rfl
      have hlength : (piece.bytes m).length = size := by
        rw [hbytes, length_drop, SendBuf.length_bytes]
        omega
      cases chain with
      | nil =>
        refine ⟨[link], [piece], rfl, rfl, by simp [hlast], ?_, ?_, fun h => absurd rfl h,
          fun h => absurd rfl h⟩
        · rw [bufsBytes_singleton, hbytes]
          rfl
        · rw [bufsBytes_singleton, hlength]
          exact Nat.add_sub_cancel' hfit
      | cons next chain =>
        obtain ⟨used, new, hused, hnew, hflags, hrest, hsum, hlt, hrem'⟩ :=
          @ih (out ++ [piece]) 0 next.buf.size (rest - size) fun _ => zero_add _
        refine ⟨link :: used, piece :: new, congrArg (link :: ·) hused, ?_, ?_, ?_, ?_, hlt, hrem'⟩
        · rw [hnew, append_assoc]
          rfl
        · rw [map_cons, map_cons, hlast, hflags]
        · have hcons : bufsBytes m (piece :: new) = piece.bytes m ++ bufsBytes m new := rfl
          rw [hcons, append_assoc, hrest, restBytes_zero, hbytes]
          rfl
        · have hcons : bufsBytes m (piece :: new) = piece.bytes m ++ bufsBytes m new := rfl
          change _ +
            (fillFrame (out ++ [piece]) (rest - size) next.buf.size 0 (next :: chain)).rest = rest
          rw [hcons, length_append, hlength]
          omega

/-! ## One turn -/

/-- Only the last buffer can have `last_buf`. -/
def LastOnly (chain : List ChainLink) : Prop := ∀ link ∈ chain.dropLast, link.buf.lastBuf = false

/-- The last buffer of a chain has `last_buf`. -/
def EndsBody (chain : List ChainLink) :
    Prop := (chain.getLast?.map fun link => link.buf.lastBuf) = some true

namespace OutFrame

/-- The bytes of a DATA frame. -/
def payload (m : Media) : OutFrame → Bytes
  | .data _ bufs _ => bufsBytes m bufs
  | .trailers => []

/-- `END_STREAM` is set on a DATA frame. -/
def Fin : OutFrame → Prop
  | .data _ _ fin => fin = true
  | .trailers => False

/-- The length field is right, and at most `bound`. -/
def LengthOk (m : Media) (bound : Nat) : OutFrame → Prop
  | .data length bufs _ => length = (bufsBytes m bufs).length ∧ length ≤ bound
  | .trailers => True

end OutFrame

/-- The bytes of frames. -/
def payloads (m : Media) (frames : List OutFrame) :
    Bytes := (frames.map (OutFrame.payload m)).flatten

/-- What the outer loop does to its variables: it queues `new`. -/
structure Sent (m : Media) (hasTrailers : Bool) (s s' : SendLoop) (new : List OutFrame) : Prop where
  frames : s'.frames = s.frames ++ new
  bytes : payloads m new ++ restBytes m s'.offset s'.chain = restBytes m s.offset s.chain
  lengths : ∀ frame ∈ new, frame.LengthOk m s.frameSize
  limit : (payloads m new).length ≤ s.limit
  sendWindow : s'.sendWindow + (payloads m new).length = s.sendWindow
  stream : s'.stream.sendWindow + (payloads m new).length = s.stream.sendWindow
  remains : Remains s'.size s'.offset s'.chain
  suffix : ∃ used, s.chain = used ++ s'.chain ∧
    ((∃ frame ∈ new, frame.Fin) → hasTrailers = false ∧ ∃ link ∈ used, link.buf.lastBuf = true)
  first : LastOnly s.chain → s.trailers = false → ∀ frame ∈ new.dropLast, ¬ frame.Fin
  fin : LastOnly s.chain → s.trailers = false →
    ((∃ frame ∈ new, frame.Fin) ↔ s'.chain = [] ∧ EndsBody s.chain ∧ hasTrailers = false)

@[simp] theorem payloads_append (m : Media) (new more : List OutFrame) :
    payloads m (new ++ more) = payloads m new ++ payloads m more := by
  simp [payloads]

theorem endsStream_eq (out : List SendBuf) :
    endsStream out = ((out.map SendBuf.lastBuf).getLast?).getD false := by
  rw [endsStream, getLast?_map]

theorem endsBody_iff (chain : List ChainLink) :
    EndsBody chain ↔ ((chain.map fun link => link.buf.lastBuf).getLast?).getD false = true := by
  rw [EndsBody, getLast?_map]
  cases chain.getLast?.map fun link => link.buf.lastBuf <;> simp

theorem endsStream_concat (out : List SendBuf) (b : SendBuf) :
    endsStream (out ++ [b]) = b.lastBuf := by
  simp [endsStream]

variable {used : List ChainLink}

theorem LastOnly.endsStream (hl : LastOnly (used ++ chain)) (hne : chain ≠ [])
    (hflags : out.map SendBuf.lastBuf = used.map fun link => link.buf.lastBuf) :
    endsStream out = false := by
  rw [endsStream_eq, hflags, getLast?_map]
  cases hlast : used.getLast? with
  | none => rfl
  | some link =>
    refine hl link ?_
    rw [dropLast_append_of_ne_nil hne]
    exact mem_append_left _ (mem_of_getLast? hlast)

theorem exists_last_of_endsStream
    (hflags : out.map SendBuf.lastBuf = used.map fun link => link.buf.lastBuf)
    (h : endsStream out = true) : ∃ link ∈ used, link.buf.lastBuf = true := by
  rw [endsStream_eq, hflags, getLast?_map] at h
  cases hlast : used.getLast? with
  | none =>
    rw [hlast] at h
    exact absurd h Bool.false_ne_true
  | some link =>
    rw [hlast] at h
    exact ⟨link, mem_of_getLast? hlast, h⟩

/-- The bytes of the next frame, and what remains. -/
theorem nextFrame_spec (m : Media) (hrem : Remains s.size s.offset s.chain) :
    bufsBytes m s.nextFrame.2.out ++ restBytes m s.nextFrame.2.offset s.nextFrame.2.chain =
        restBytes m s.offset s.chain ∧
      (bufsBytes m s.nextFrame.2.out).length = s.nextFrame.1 ∧
      s.nextFrame.1 ≤ min s.frameSize s.limit ∧
      (s.nextFrame.2.chain ≠ [] → s.nextFrame.1 = min s.frameSize s.limit) ∧
      Remains s.nextFrame.2.size s.nextFrame.2.offset s.nextFrame.2.chain ∧
      (∃ used, s.chain = used ++ s.nextFrame.2.chain ∧
        (endsStream s.nextFrame.2.out = true → ∃ link ∈ used, link.buf.lastBuf = true)) ∧
      (LastOnly s.chain →
        (endsStream s.nextFrame.2.out = true ↔ s.nextFrame.2.chain = [] ∧ EndsBody s.chain)) := by
  obtain ⟨used, new, hused, hnew, hflags, hbytes, hsum, hlt, hrem'⟩ :=
    @fillFrame_spec s.chain [] s.offset s.size (min s.frameSize s.limit) m hrem
  have hmin : (if s.frameSize > s.limit then s.limit else s.frameSize) =
    min s.frameSize s.limit := by
    split <;> omega
  rw [SendLoop.nextFrame, hmin]
  set f := fillFrame [] (min s.frameSize s.limit) s.size s.offset s.chain
  rw [nil_append] at hnew
  by_cases hend : f.chain = []
  · rw [if_pos hend]
    refine ⟨by rw [hnew]; exact hbytes, by rw [hnew]; omega, by omega, fun h =>
      absurd hend h, hrem',
      ⟨used, hused, exists_last_of_endsStream (hnew ▸ hflags)⟩, fun _ => ?_⟩
    rw [hend, append_nil] at hused
    rw [endsStream_eq, hnew, hflags, ← hused, endsBody_iff]
    exact (and_iff_right hend).symm
  · rw [if_neg hend, splitBuf]
    have hsize := hrem' hend
    have hrest := hlt hend
    split
    next hpart =>
      set piece := (headBuf f.chain).getShadow f.offset f.rest
      obtain ⟨link, chain', hchain⟩ := exists_cons_of_ne_nil hend
      have hhead : headBuf f.chain = link.buf := by rw [hchain]; rfl
      have hpiece : piece.bytes m = ((link.buf.bytes m).drop f.offset).take f.rest := by
        rw [← hhead]
        exact SendBuf.bytes_getShadow m (by omega)
      have hlength : (piece.bytes m).length = f.rest := by
        rw [hpiece, length_take, length_drop, SendBuf.length_bytes, ← hhead]
        omega
      have hmore : bufsBytes m (f.out ++ [{ piece with flush := false, lastBuf := false }]) =
          bufsBytes m f.out ++ piece.bytes m := by
        rw [bufsBytes_append, bufsBytes_singleton]
        rfl
      refine ⟨?_, ?_, le_rfl, fun _ => rfl, fun _ =>
        ?_, ⟨used, hused, fun hends => ?_⟩, fun _ => ?_⟩
      · simp only [hmore]
        rw [← hbytes, hnew, hchain, restBytes, restBytes, hpiece, append_assoc,
          ← append_assoc (List.take _ _), ← drop_drop, take_append_drop]
      · simp only [hmore]
        rw [length_append, hlength, hnew, hsum]
      · simp only
        omega
      · rw [endsStream_concat] at hends
        exact absurd hends Bool.false_ne_true
      · rw [endsStream_concat]
        exact iff_of_false Bool.false_ne_true fun hand => hend hand.1
    next hfull =>
      refine ⟨by rw [hnew]; exact hbytes, by rw [hnew]; omega, le_rfl, fun _ => rfl, hrem',
        ⟨used, hused, exists_last_of_endsStream (hnew ▸ hflags)⟩, fun hl => ?_⟩
      rw [hused] at hl
      rw [hl.endsStream hend (hnew ▸ hflags)]
      exact iff_of_false Bool.false_ne_true fun hand => hend hand.1

/-- `new` is queued, and its bytes are taken from the windows. -/
def SendLoop.put (s : SendLoop) (new : List OutFrame) : SendLoop :=
  { s with
    sendWindow := s.sendWindow - s.frameSize
    stream := { s.stream with
      sendWindow := s.stream.sendWindow - s.frameSize, queued := s.stream.queued + new.length }
    frames := s.frames ++ new }

/-- The DATA frame that a turn makes, or none. -/
def SendLoop.dataFrames (s : SendLoop) (out : List SendBuf) : List OutFrame :=
  if s.frameSize ≠ 0 ∨ endsStream out = true then [getDataFrame s.frameSize out] else []

theorem SendLoop.putFrame_eq (hle : s.frameSize ≤ s.sendWindow) (hword : s.sendWindow < 2 ^ 64) :
    s.putFrame out = s.put (s.dataFrames out) := by
  unfold SendLoop.putFrame SendLoop.dataFrames
  split
  next => simp only [SendLoop.queueFrame, SendLoop.put, subWord_of_le hle hword, length_singleton]
  next hnone =>
    have hzero : s.frameSize = 0 := not_not.mp (not_or.mp hnone).1
    simp only [SendLoop.put, hzero, Nat.sub_zero, Int.natCast_zero, Int.sub_zero, length_nil,
      add_zero, append_nil]
    rw [← hzero]

theorem payloads_dataFrames (m : Media) (hlength : (bufsBytes m out).length = s.frameSize) :
    payloads m (s.dataFrames out) = bufsBytes m out := by
  unfold SendLoop.dataFrames
  split
  next =>
    have hbytes := @bufsBytes_setLast m (fun b => { b with flush := true }) (fun _ => rfl) out
    simp only [payloads, map_cons, map_nil, flatten_cons, flatten_nil,
      append_nil]
    exact hbytes
  next hnone =>
    have hzero : s.frameSize = 0 := not_not.mp (not_or.mp hnone).1
    exact (eq_nil_of_length_eq_zero (hlength.trans hzero)).symm

theorem mem_dataFrames {frame : OutFrame} (h : frame ∈ s.dataFrames out) :
    frame = getDataFrame s.frameSize out := by
  unfold SendLoop.dataFrames at h
  split at h
  next => exact mem_singleton.mp h
  next => exact absurd h not_mem_nil

theorem fin_dataFrames : (∃ frame ∈ s.dataFrames out, frame.Fin) ↔ endsStream out = true := by
  constructor
  · rintro ⟨frame, hmem, hfin⟩
    rw [mem_dataFrames hmem] at hfin
    exact hfin
  · intro hends
    refine ⟨getDataFrame s.frameSize out, ?_, hends⟩
    rw [SendLoop.dataFrames, if_pos (.inr hends)]
    exact mem_singleton_self _

theorem dropLast_dataFrames (s : SendLoop) (out : List SendBuf) :
    (s.dataFrames out).dropLast = [] := by
  unfold SendLoop.dataFrames
  split <;> rfl

/-- What else is true of a turn when there is another one. -/
structure Again (s s' : SendLoop) (sent : Nat) : Prop where
  chain : s'.chain ≠ []
  frameSize : s'.frameSize = s.frameSize
  full : sent = s.frameSize
  limit : s'.limit + sent = s.limit
  pos : 0 < s'.limit
  trailers : LastOnly s.chain → s'.trailers = s.trailers

theorem endsStream_setLast_false (out : List SendBuf) :
    endsStream (setLast (fun b => { b with lastBuf := false }) out) = false := by
  rw [setLast]
  cases hlast : out.getLast? with
  | none =>
    rw [getLast?_eq_none_iff.mp hlast]
    rfl
  | some b => exact endsStream_concat _ _

theorem Sent.queue_trailers {new : List OutFrame} (h : Sent m hasTrailers s s' new)
    (hopen : LastOnly s.chain → s.trailers = false → ¬ ∃ frame ∈ new, frame.Fin) :
    Sent m hasTrailers s (s'.queueFrame .trailers) (new ++ [.trailers]) := by
  have hpayload : payloads m (new ++ [.trailers]) = payloads m new := by
    rw [payloads_append]
    exact append_nil _
  have hfin : (∃ frame ∈ new ++ [.trailers], frame.Fin) → ∃ frame ∈ new, frame.Fin := by
    rintro ⟨frame, hmem, hfin⟩
    rcases mem_append.mp hmem with hdata | htrailer
    · exact ⟨frame, hdata, hfin⟩
    · rw [mem_singleton.mp htrailer] at hfin
      exact absurd hfin id
  obtain ⟨used, hused, hends⟩ := h.suffix
  refine ⟨?_, ?_, ?_, ?_, ?_, ?_, h.remains, ⟨used, hused, fun hex => hends (hfin hex)⟩, ?_, ?_⟩
  · rw [SendLoop.queueFrame, h.frames, append_assoc]
  · rw [hpayload]
    exact h.bytes
  · intro frame hmem
    rcases mem_append.mp hmem with hdata | htrailer
    · exact h.lengths frame hdata
    · rw [mem_singleton.mp htrailer]
      trivial
  · rw [hpayload]
    exact h.limit
  · rw [hpayload]
    exact h.sendWindow
  · rw [hpayload]
    exact h.stream
  · intro hl hfalse frame hmem hfin
    rw [dropLast_concat] at hmem
    exact hopen hl hfalse ⟨frame, hmem, hfin⟩
  · intro hl hfalse
    refine Iff.trans ⟨hfin, ?_⟩ (h.fin hl hfalse)
    rintro ⟨frame, hmem, hframe⟩
    exact ⟨frame, mem_append_left _ hmem, hframe⟩

/-- A turn of the loop queues one frame. -/
theorem sendTurn_spec (m : Media) (hasTrailers : Bool) (hrem : Remains s.size s.offset s.chain)
    (hle : s.limit ≤ s.sendWindow) (hword : s.sendWindow < 2 ^ 64) :
    ∃ new, Sent m hasTrailers s (sendTurn hasTrailers s).1 new ∧
      ((sendTurn hasTrailers s).2 = true →
        Again s (sendTurn hasTrailers s).1 (payloads m new).length) := by
  obtain ⟨hbytes, hlength, hmin, hfull, hrem', hsuffix, hends⟩ := nextFrame_spec m hrem
  rcases hnext : s.nextFrame with ⟨n, f⟩
  simp only [hnext] at hbytes hlength hmin hfull hrem' hsuffix hends
  set made := endsStream f.out && hasTrailers with hmade
  set out := if made then setLast (fun b => { b with lastBuf := false }) f.out else f.out with hout
  have hbufs : bufsBytes m out = bufsBytes m f.out := by
    rw [hout]
    split
    next => exact @bufsBytes_setLast m (fun b => { b with lastBuf := false }) (fun _ => rfl) f.out
    next => rfl
  have hfin : endsStream out = (endsStream f.out && !hasTrailers) := by
    rw [hout, hmade]
    split
    next hboth =>
      rw [Bool.and_eq_true] at hboth
      rw [endsStream_setLast_false, hboth.2, Bool.not_true, Bool.and_false]
    next hnot =>
      cases hasTrailers <;> simp_all
  set t : SendLoop := { s with
    size := f.size, offset := f.offset, chain := f.chain, frameSize := n
    trailers := s.trailers || made } with ht
  have hput : t.putFrame out = t.put (t.dataFrames out) :=
    SendLoop.putFrame_eq (show n ≤ s.sendWindow by omega) hword
  have hpayload : payloads m (t.dataFrames out) = bufsBytes m f.out :=
    (payloads_dataFrames m ((congrArg List.length hbufs).trans hlength)).trans hbufs
  unfold sendTurn
  simp only [hnext]
  rw [← hmade, ← hout, ← ht, hput]
  -- the DATA frame of this turn
  have hsent : (payloads m (t.dataFrames out)).length = n := by rw [hpayload, hlength]
  have hlengths : ∀ frame ∈ t.dataFrames out, frame.LengthOk m s.frameSize := fun frame hmem => by
    rw [mem_dataFrames hmem]
    refine ⟨?_, show n ≤ s.frameSize by omega⟩
    exact (hlength.symm.trans (congrArg List.length hbufs.symm)).trans
      (congrArg List.length (@bufsBytes_setLast m (fun b => { b with flush := true })
        (fun _ => rfl) out).symm)
  have hclosed : LastOnly s.chain →
      ((∃ frame ∈ t.dataFrames out, frame.Fin) ↔
        f.chain = [] ∧ EndsBody s.chain ∧ hasTrailers = false) := fun hl => by
    rw [fin_dataFrames, hfin, Bool.and_eq_true, hends hl, Bool.not_eq_true', and_assoc]
  have hbase : Sent m hasTrailers s (t.put (t.dataFrames out)) (t.dataFrames out) := by
    obtain ⟨used, hused, hlast⟩ := hsuffix
    refine ⟨rfl, ?_, hlengths, ?_, ?_, ?_, hrem', ⟨used, hused, fun hex => ?_⟩,
      fun _ _ frame hmem => ?_, fun hl _ => hclosed hl⟩
    · rw [hpayload]
      exact hbytes
    · rw [hsent]
      omega
    · rw [hsent]
      exact Nat.sub_add_cancel (show n ≤ s.sendWindow by omega)
    · rw [hsent]
      exact Int.sub_add_cancel _ _
    · rw [fin_dataFrames, hfin, Bool.and_eq_true, Bool.not_eq_true'] at hex
      exact ⟨hex.2, hlast hex.1⟩
    · rw [dropLast_dataFrames] at hmem
      exact absurd hmem not_mem_nil
  by_cases hend : f.chain = []
  · rw [if_pos (show (t.put (t.dataFrames out)).chain = [] from hend)]
    simp only [Bool.false_eq_true, false_implies, and_true]
    split
    next htrailers =>
      refine ⟨_, hbase.queue_trailers fun _ hfalse => ?_⟩
      have hboth : made = true := by
        have hor : (s.trailers || made) = true := htrailers
        rwa [hfalse, Bool.false_or] at hor
      rw [hmade, Bool.and_eq_true] at hboth
      rw [fin_dataFrames, hfin, hboth.2, Bool.not_true, Bool.and_false]
      exact Bool.false_ne_true
    next => exact ⟨_, hbase⟩
  · rw [if_neg (show ¬ (t.put (t.dataFrames out)).chain = [] from hend)]
    have hn := hfull hend
    refine ⟨_, ⟨rfl, hbase.bytes, hlengths, hbase.limit, hbase.sendWindow, hbase.stream, hrem',
      hbase.suffix, hbase.first, hbase.fin⟩, fun hagain => ?_⟩
    have hmore : s.limit - n ≠ 0 := of_decide_eq_true hagain
    refine ⟨hend, show n = s.frameSize by omega, by omega, ?_, pos_of_ne_zero hmore, fun hl =>
      ?_⟩
    · rw [hsent]
      exact Nat.sub_add_cancel (show n ≤ s.limit by omega)
    · have hopen : endsStream f.out = false :=
        eq_false_of_ne_true fun h => hend ((hends hl).mp h).1
      exact (congrArg (s.trailers || ·) (hmade.trans (by rw [hopen, Bool.false_and]))).trans
        (Bool.or_false _)

theorem LastOnly.suffix {used : List ChainLink} (h : LastOnly (used ++ chain)) :
    LastOnly chain := by
  intro link hmem
  refine h link ?_
  rw [dropLast_append_of_ne_nil (ne_nil_of_mem (dropLast_subset _ hmem))]
  exact mem_append_right _ hmem

theorem endsBody_append (hne : chain ≠ []) :
    EndsBody (used ++ chain) ↔ EndsBody chain := by
  rw [EndsBody, EndsBody, getLast?_append_of_ne_nil _ hne]

theorem LastOnly.of_flags {chain' : List ChainLink} (h : LastOnly chain)
    (hflags : chain.map (fun link => link.buf.lastBuf) = chain'.map fun link => link.buf.lastBuf) :
    LastOnly chain' := by
  intro link hmem
  have hflag : link.buf.lastBuf ∈ (chain'.map fun link => link.buf.lastBuf).dropLast := by
    rw [← map_dropLast]
    exact mem_map_of_mem hmem
  rw [← hflags, ← map_dropLast] at hflag
  obtain ⟨other, hother, heq⟩ := mem_map.mp hflag
  rw [← heq]
  exact h other hother

theorem endsBody_of_flags {chain' : List ChainLink}
    (hflags : chain.map (fun link => link.buf.lastBuf) = chain'.map fun link => link.buf.lastBuf) :
    EndsBody chain ↔ EndsBody chain' := by
  rw [endsBody_iff, endsBody_iff, hflags]

theorem Sent.trans {s₁ s₂ s₃ : SendLoop} {new more : List OutFrame}
    (h : Sent m hasTrailers s₁ s₂ new)
    (hagain : Again s₁ s₂ (payloads m new).length) (h' : Sent m hasTrailers s₂ s₃ more) :
    Sent m hasTrailers s₁ s₃ (new ++ more) := by
  obtain ⟨used, hused, hends⟩ := h.suffix
  obtain ⟨used', hused', hends'⟩ := h'.suffix
  have hlast : LastOnly s₁.chain → LastOnly s₂.chain := fun hl => (hused ▸ hl).suffix
  have hopen : LastOnly s₁.chain → s₁.trailers = false → ¬ ∃ frame ∈ new, frame.Fin :=
    fun hl hfalse hex => hagain.chain ((h.fin hl hfalse).mp hex).1
  have hlimit := hagain.limit
  have hlimit' := h'.limit
  have hwindow := h.sendWindow
  have hwindow' := h'.sendWindow
  have hstream := h.stream
  have hstream' := h'.stream
  have hlength : (payloads m (new ++ more)).length =
    (payloads m new).length + (payloads m more).length := by
    rw [payloads_append, length_append]
  refine ⟨?_, ?_, ?_, by omega, by omega, by omega, h'.remains, ⟨used ++ used', ?_, ?_⟩, ?_, ?_⟩
  · rw [h'.frames, h.frames, append_assoc]
  · rw [payloads_append, append_assoc, h'.bytes, h.bytes]
  · intro frame hmem
    rcases mem_append.mp hmem with hnew | hmore
    · exact h.lengths frame hnew
    · exact hagain.frameSize ▸ h'.lengths frame hmore
  · rw [append_assoc, ← hused', hused]
  · rintro ⟨frame, hmem, hfin⟩
    rcases mem_append.mp hmem with hnew | hmore
    · obtain ⟨hnone, link, hlink, hlast⟩ := hends ⟨frame, hnew, hfin⟩
      exact ⟨hnone, link, mem_append_left _ hlink, hlast⟩
    · obtain ⟨hnone, link, hlink, hlast⟩ := hends' ⟨frame, hmore, hfin⟩
      exact ⟨hnone, link, mem_append_right _ hlink, hlast⟩
  · intro hl hfalse frame hmem hfin
    have hfalse' := (hagain.trailers hl).trans hfalse
    cases more with
    | nil =>
      rw [append_nil] at hmem
      exact hopen hl hfalse ⟨frame, dropLast_subset _ hmem, hfin⟩
    | cons first more =>
      rw [dropLast_append_of_ne_nil (cons_ne_nil _ _)] at hmem
      rcases mem_append.mp hmem with hnew | hmore
      · exact hopen hl hfalse ⟨frame, hnew, hfin⟩
      · exact h'.first (hlast hl) hfalse' frame hmore hfin
  · intro hl hfalse
    have hfalse' := (hagain.trailers hl).trans hfalse
    have hends : EndsBody s₁.chain ↔ EndsBody s₂.chain := by
      rw [hused]
      exact endsBody_append hagain.chain
    rw [hends, ← h'.fin (hlast hl) hfalse']
    constructor
    · rintro ⟨frame, hmem, hfin⟩
      rcases mem_append.mp hmem with hnew | hmore
      · exact absurd ⟨frame, hnew, hfin⟩ (hopen hl hfalse)
      · exact ⟨frame, hmore, hfin⟩
    · rintro ⟨frame, hmem, hfin⟩
      exact ⟨frame, mem_append_right _ hmem, hfin⟩

theorem sendLoop_spec (m : Media) (hasTrailers : Bool) {fuel : Nat}
    (hrem : Remains s.size s.offset s.chain) (hle : s.limit ≤ s.sendWindow)
    (hword : s.sendWindow < 2 ^ 64) (hframe : 0 < s.frameSize) (hfuel : s.limit < fuel) :
    ∃ s' new, sendLoop hasTrailers fuel s = some s' ∧ Sent m hasTrailers s s' new := by
  induction fuel generalizing s with
  | zero => omega
  | succ fuel ih =>
    obtain ⟨new, hsent, hagain⟩ := sendTurn_spec m hasTrailers hrem hle hword
    rw [sendLoop]
    rcases hturn : sendTurn hasTrailers s with ⟨t, _ | _⟩
    all_goals
      simp only [hturn] at hsent hagain
    · exact ⟨t, new, rfl, hsent⟩
    have hag := hagain trivial
    have hwindow := hsent.sendWindow
    have hlimit := hag.limit
    have hfull := hag.full
    have hsize := hag.frameSize
    obtain ⟨s', more, hloop, hmore⟩ :=
      @ih t hsent.remains (by omega) (by omega) (by omega) (by omega)
    exact ⟨s', new ++ more, hloop, hsent.trans hag hmore⟩

/-! ## The function -/

theorem skipEmpty_spec (m : Media) (chain : List ChainLink) :
    ∃ skipped, chain = skipped ++ skipEmpty chain ∧
      (∀ link ∈ skipped, link.buf.lastBuf = false) ∧
        chainBytes m (skipEmpty chain) = chainBytes m chain := by
  induction chain with
  | nil => exact ⟨[], rfl, nofun, rfl⟩
  | cons link chain ih =>
    rw [skipEmpty]
    split
    next => exact ⟨[], rfl, nofun, rfl⟩
    next hempty =>
      obtain ⟨hsize, hlast⟩ := not_or.mp hempty
      obtain ⟨skipped, hchain, hflags, hbytes⟩ := ih
      have hnil : link.buf.bytes m = [] :=
        eq_nil_of_length_eq_zero ((SendBuf.length_bytes m _).trans (not_not.mp hsize))
      refine ⟨link :: skipped, congrArg (link :: ·) hchain, ?_, ?_⟩
      · intro other hmem
        rcases mem_cons.mp hmem with rfl | hmem
        · exact eq_false_of_ne_true hlast
        · exact hflags other hmem
      · rw [hbytes]
        simp [chainBytes, hnil]

theorem LastOnly.skipEmpty (h : LastOnly chain) : LastOnly (skipEmpty chain) := by
  obtain ⟨skipped, hchain, -, -⟩ := skipEmpty_spec ⟨fun _ => 0, fun _ _ => 0⟩ chain
  exact (hchain ▸ h).suffix

theorem endsBody_skipEmpty (chain : List ChainLink) :
    EndsBody (skipEmpty chain) ↔ EndsBody chain := by
  obtain ⟨skipped, hchain, hflags, -⟩ := skipEmpty_spec ⟨fun _ => 0, fun _ _ => 0⟩ chain
  by_cases hnil : skipEmpty chain = []
  · rw [hnil, append_nil] at hchain
    rw [hnil]
    refine iff_of_false nofun fun h => ?_
    rw [EndsBody, Option.map_eq_some_iff] at h
    obtain ⟨link, hlast, hends⟩ := h
    rw [hflags link (hchain ▸ mem_of_getLast? hlast)] at hends
    exact Bool.false_ne_true hends
  · conv => rhs; rw [hchain]
    exact (endsBody_append hnil).symm

theorem ChainLink.enter_spec (m : Media) (link : ChainLink) (chain : List ChainLink) :
    Remains link.buf.size link.enter.2 (.whole link.enter.1 :: chain) ∧
      restBytes m link.enter.2 (.whole link.enter.1 :: chain) = chainBytes m (link :: chain) ∧
      link.enter.1.lastBuf = link.buf.lastBuf := by
  cases link with
  | whole b => exact ⟨fun _ => zero_add _, restBytes_zero m _, rfl⟩
  | shadow original offset size rest =>
    have hoffset := SendBuf.offsetIn_getShadow rest
    have hsize : (original.getShadow offset size).size = size := SendBuf.size_getShadow rest.le
    refine ⟨fun _ => ?_, ?_, rfl⟩
    · simp only [buf, enter, headBuf, hoffset, hsize, rest]
    · simp only [enter, hoffset, restBytes, buf, chainBytes, map_cons, flatten_cons]
      rw [SendBuf.bytes_getShadow m rest.le, take_of_length_le]
      rw [length_drop, SendBuf.length_bytes]
      omega

theorem keepRest_spec (m : Media) (hrem : Remains size offset chain) :
    chainBytes m (keepRest offset size chain) = restBytes m offset chain ∧
      (keepRest offset size chain).length = chain.length := by
  cases chain with
  | nil => exact ⟨rfl, rfl⟩
  | cons link chain =>
    have hsize : offset + size = link.buf.size := hrem (cons_ne_nil _ _)
    rw [keepRest]
    split
    next =>
      have hshadow : (link.buf.getShadow offset size).bytes m = (link.buf.bytes m).drop offset := by
        rw [SendBuf.bytes_getShadow m hsize.le, take_of_length_le]
        rw [length_drop, SendBuf.length_bytes]
        omega
      exact ⟨congrArg (· ++ chainBytes m chain) hshadow, rfl⟩
    next hnot =>
      have hzero : offset = 0 := not_not.mp fun hne => hnot ⟨hne, hsize⟩
      rw [hzero, restBytes_zero]
      exact ⟨rfl, rfl⟩

theorem sendWindow_flowControl (window : Nat) (s : OutStream) :
    (flowControl window s).2.sendWindow = s.sendWindow := by
  unfold flowControl
  split
  · rfl
  · split <;> rfl

theorem sendWindow_pause {s : OutStream} (p : Bool × OutStream)
    (h : p.2.sendWindow = s.sendWindow) :
    (if p.1 = true then p.2 else p.2.pause).sendWindow = s.sendWindow := by
  split
  · exact h
  · exact h

theorem sendLimit_le (window : Nat) (streamWindow : Int) (limit : Nat) :
    sendLimit window streamWindow limit ≤ window ∧
      (sendLimit window streamWindow limit : Int) ≤ max streamWindow 0 ∧
      (limit ≠ 0 → sendLimit window streamWindow limit ≤ limit) := by
  simp only [sendLimit]
  split_ifs <;> omega

/-- What a call does. -/
structure ChainSent (m : Media) (limits : FrameLimits) (hasTrailers : Bool) (sendWindow : Nat)
    (stream : OutStream) (chain : List ChainLink) (limit : Nat) (r : SendResult) : Prop where
  /-- a chain that comes when the output is closed is dropped -/
  bytes : stream.outClosed = false →
    payloads m r.frames ++ chainBytes m r.chain = chainBytes m chain
  lengths : ∀ frame ∈ r.frames, frame.LengthOk m (min limits.chunkSize limits.frameSize)
  windows : ((payloads m r.frames).length : Int) ≤ min (sendWindow : Int) (max stream.sendWindow 0)
  limited : limit ≠ 0 → (payloads m r.frames).length ≤ limit
  window : r.sendWindow + (payloads m r.frames).length = sendWindow
  streamWindow : r.stream.sendWindow + (payloads m r.frames).length = stream.sendWindow
  /-- the buffer with `last_buf` is queued before the stream ends -/
  last : (∃ frame ∈ r.frames, frame.Fin) → hasTrailers = false ∧
    ∃ used link rest, chain = used ++ link :: rest ∧ link.buf.lastBuf = true ∧
      r.chain.length ≤ rest.length
  first : LastOnly chain → ∀ frame ∈ r.frames.dropLast, ¬ frame.Fin
  fin : LastOnly chain → ((∃ frame ∈ r.frames, frame.Fin) ↔
    stream.outClosed = false ∧ r.chain = [] ∧ EndsBody chain ∧ hasTrailers = false)

theorem ChainSent.of_idle (m : Media) (limits : FrameLimits) (hasTrailers : Bool) {sendWindow : Nat}
    {stream : OutStream} (chain : List ChainLink) (limit : Nat) {r : SendResult}
    (hframes : r.frames = [])
    (hwindow : r.sendWindow = sendWindow) (hstream : r.stream.sendWindow = stream.sendWindow)
    (hbytes : stream.outClosed = false → chainBytes m r.chain = chainBytes m chain)
    (hends : stream.outClosed = false → r.chain = [] → ¬ EndsBody chain) :
    ChainSent m limits hasTrailers sendWindow stream chain limit r := by
  have hnone : ¬ ∃ frame ∈ r.frames, frame.Fin := by
    rw [hframes]
    exact nofun
  refine ⟨?_, ?_, ?_, ?_, ?_, ?_, fun h => absurd h hnone, fun _ frame hmem => ?_, fun _ => ?_⟩
  · rw [hframes]
    exact hbytes
  · rw [hframes]
    exact nofun
  · rw [hframes]
    simp [payloads]
  · rw [hframes]
    exact fun _ => Nat.zero_le _
  · rw [hframes]
    exact hwindow
  · rw [hframes]
    exact (Int.add_zero _).trans hstream
  · rw [hframes] at hmem
    exact absurd hmem not_mem_nil
  · exact iff_of_false hnone fun hand => hends hand.1 hand.2.1 hand.2.2.1

/-- A whole call: its frames, the windows and the chain that it returns. -/
theorem sendChain_spec (m : Media) (limits : FrameLimits) (hasTrailers : Bool) {sendWindow : Nat}
    (hword : sendWindow < 2 ^ 64) (stream : OutStream) (chain : List ChainLink) (limit : Nat) :
    ∃ r, sendChain limits hasTrailers sendWindow stream chain limit = some r ∧
      ChainSent m limits hasTrailers sendWindow stream chain limit r := by
  obtain ⟨skipped, hchain, hflags, hbytes⟩ := skipEmpty_spec m chain
  have hends := endsBody_skipEmpty chain
  have hlast := @LastOnly.skipEmpty chain
  unfold sendChain
  cases hskip : skipEmpty chain with
  | nil =>
    rw [hskip] at hbytes hends
    refine ⟨_, rfl,
      .of_idle m limits hasTrailers chain limit rfl rfl ?_ (fun _ => hbytes) fun _ _ h =>
      absurd (hends.mpr h) nofun⟩
    split <;> rfl
  | cons link rest =>
    rw [hskip] at hbytes hends hlast hchain
    simp only
    split
    next hclosed =>
      have hopen : stream.outClosed ≠ false := by simp [hclosed]
      refine ⟨_, rfl, .of_idle m limits hasTrailers chain limit rfl rfl ?_ (fun h => absurd h hopen)
        fun h => absurd h hopen⟩
      split <;> rfl
    next hopen =>
      rcases hflow : (if link.buf.size ≠ 0 then flowControl sendWindow stream else (true, stream))
        with ⟨ok, stream'⟩
      have hstream : stream'.sendWindow = stream.sendWindow := by
        have hsnd :
          (if link.buf.size ≠ 0 then flowControl sendWindow stream else (true, stream)).2 =
            stream' := congrArg Prod.snd hflow
        rw [← hsnd]
        split
        · exact sendWindow_flowControl sendWindow stream
        · rfl
      simp only
      split
      next =>
        exact ⟨_, rfl, .of_idle m limits hasTrailers chain limit rfl rfl hstream (fun _ => hbytes)
          fun _ h => absurd h (cons_ne_nil _ _)⟩
      obtain ⟨hrem, hrest, hflag⟩ := link.enter_spec m rest
      obtain ⟨hle, hmax, hgiven⟩ := sendLimit_le sendWindow stream'.sendWindow limit
      have hmin :
        (if limits.chunkSize < limits.frameSize then limits.chunkSize else limits.frameSize) =
          min limits.chunkSize limits.frameSize := by
        split <;> omega
      have hchunk := limits.chunk_pos
      have hframe := limits.frame_pos
      rw [hmin]
      set s : SendLoop :=
        ⟨sendLimit sendWindow stream'.sendWindow limit, link.buf.size, link.enter.2,
        min limits.chunkSize limits.frameSize, .whole link.enter.1 :: rest,
          false, sendWindow, stream', []⟩
      obtain ⟨s', new, hloop, hsent⟩ := @sendLoop_spec s m hasTrailers (s.limit + 1) hrem hle hword
        (show 0 < min limits.chunkSize limits.frameSize by omega) (Nat.lt_succ_self _)
      rw [hloop]
      obtain ⟨hkeep, hkeepLength⟩ := keepRest_spec m hsent.remains
      have hlimit : (payloads m new).length ≤ sendLimit sendWindow stream'.sendWindow limit :=
        hsent.limit
      have hmaps : s.chain.map (fun link => link.buf.lastBuf) =
          (link :: rest).map fun link => link.buf.lastBuf := by
        rw [map_cons, map_cons, ← hflag]
        rfl
      have hframes : s'.frames = new := hsent.frames
      have hnil : keepRest s'.offset s'.size s'.chain = [] ↔ s'.chain = [] := by
        rw [← length_eq_zero_iff, hkeepLength, length_eq_zero_iff]
      refine ⟨_, rfl, ⟨fun _ => ?_, ?_, ?_, fun hne => ?_, ?_, ?_, fun hex => ?_, fun hl => ?_,
        fun hl => ?_⟩⟩
      all_goals simp only [hframes]
      · rw [hkeep, hsent.bytes, hrest, hbytes]
      · exact hsent.lengths
      · rw [← hstream]
        exact le_min (by omega) (by omega)
      · exact hlimit.trans (hgiven hne)
      · exact hsent.sendWindow
      · rw [← hstream, ← hsent.stream]
        congr 1
        exact sendWindow_pause _ (by split; rfl; exact sendWindow_flowControl _ _)
      · simp only [hframes] at hex
        obtain ⟨used, hused, hends⟩ := hsent.suffix
        obtain ⟨hnone, final, hmem, hfinal⟩ := hends hex
        refine ⟨hnone, ?_⟩
        obtain ⟨before, after, rfl⟩ := append_of_mem hmem
        cases before with
        | nil =>
          obtain ⟨hhead, htail⟩ := cons.inj hused
          rw [← hhead] at hfinal
          refine ⟨skipped, link, rest, hchain, hflag.symm.trans hfinal, ?_⟩
          rw [hkeepLength, htail]
          exact (length_append ▸ Nat.le_add_left _ _)
        | cons first before =>
          obtain ⟨hhead, htail⟩ := cons.inj hused
          refine ⟨skipped ++ link :: before, final, after ++ s'.chain, ?_, hfinal, ?_⟩
          · rw [hchain, htail]
            simp
          · rw [hkeepLength, length_append]
            omega
      · exact hsent.first ((hlast hl).of_flags hmaps.symm) rfl
      · rw [hsent.fin ((hlast hl).of_flags hmaps.symm) rfl, hnil, endsBody_of_flags hmaps, hends]
        have hfalse : stream.outClosed = false := eq_false_of_ne_true hopen
        exact (and_iff_right hfalse).symm

end Nginx.Http.V2
