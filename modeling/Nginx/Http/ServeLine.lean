/-
  Http/ServeLine.lean --- reading a request line does not depend on how its
  bytes arrive and where they are stored.

  A connection and a single call on the whole line stay in lockstep: a delivery
  adds bytes that the single call has in its buffer anyway, and a relocation
  moves the line and the pointers together.
-/
import Nginx.Http.HeaderBuffer
import Nginx.Http.LineLockstep

set_option autoImplicit false

namespace Nginx.Http

open Foundation List
open Parse

variable {mem mem' : Nat → Byte} {a b : Request}

/-! ## The values at the end -/

theorem pathEnd_offset {s t n : Nat} (hs : 0 < s) (ht : 0 < t) (h : Agree knownDone s t n a b) :
    a.pathEnd ≤ s + n ∧ ∀ {x y}, SameOffset s t n x y → a.pathEnd - x = b.pathEnd - y := by
  have hnull := h.argsStart.zero_iff hs ht
  by_cases hargs : a.argsStart = 0
  · have hargs' := hnull.mp hargs
    obtain ⟨j, hj, hja, hjb⟩ := h.uriEnd rfl
    simp only [Request.pathEnd, hargs, hargs', ne_eq, not_true_eq_false, if_false, hja, hjb]
    refine ⟨by omega, ?_⟩
    rintro x y ⟨i, -, rfl, rfl⟩
    omega
  · have hargs' := fun h0 => hargs (hnull.mpr h0)
    obtain ⟨j, hj, hja, hjb⟩ := h.argsStart.of_ne hargs
    rw [Request.pathEnd, Request.pathEnd, if_pos hargs, if_pos hargs', hja, hjb]
    refine ⟨by omega, ?_⟩
    rintro x y ⟨i, -, rfl, rfl⟩
    omega

theorem processRequestUri_eq {s t n : Nat} (hs : 0 < s) (ht : 0 < t)
    (hline : SameLine mem mem' s t n) (h : Agree knownDone s t n a b) (mergeSlashes : Bool) :
    processRequestUri mergeSlashes mem a = processRequestUri mergeSlashes mem' b := by
  have hstart := h.uriStart rfl
  have hraw : slice mem a.uriStart a.uriEnd = slice mem' b.uriStart b.uriEnd :=
    slice_eq_of_sameLine hline hstart (h.uriEnd rfl)
  obtain ⟨hle, hlen⟩ := pathEnd_offset hs ht h
  have huri : slice mem a.uriStart a.pathEnd = slice mem' b.uriStart b.pathEnd :=
    slice_eq_of_length hline hstart (hlen hstart) hle
  have hexten : (if a.uriExt ≠ 0 then slice mem a.uriExt a.pathEnd else []) =
      if b.uriExt ≠ 0 then slice mem' b.uriExt b.pathEnd else [] := by
    have hnull := not_congr (h.uriExt.zero_iff hs ht)
    by_cases hext : a.uriExt ≠ 0
    · rw [if_pos hext, if_pos (hnull.mp hext)]
      exact slice_eq_of_length hline (h.uriExt.of_ne hext) (hlen (h.uriExt.of_ne hext)) hle
    · rw [if_neg hext, if_neg (mt hnull.mpr hext)]
  have hargs : (if a.argsStart ≠ 0 ∧ a.uriEnd > a.argsStart then slice mem a.argsStart a.uriEnd
      else []) = if b.argsStart ≠ 0 ∧ b.uriEnd > b.argsStart then slice mem' b.argsStart b.uriEnd
      else [] := by
    have hnull := not_congr (h.argsStart.zero_iff hs ht)
    by_cases hne : a.argsStart ≠ 0
    · have hsame := h.argsStart.of_ne hne
      have hgt : a.uriEnd > a.argsStart ↔ b.uriEnd > b.argsStart := by
        obtain ⟨i, -, hia, hib⟩ := hsame
        obtain ⟨j, -, hja, hjb⟩ := h.uriEnd rfl
        omega
      have hiff : (a.argsStart ≠ 0 ∧ a.uriEnd > a.argsStart) ↔
          b.argsStart ≠ 0 ∧ b.uriEnd > b.argsStart := and_congr hnull hgt
      rw [slice_eq_of_sameLine hline hsame (h.uriEnd rfl)]
      exact if_congr hiff rfl rfl
    · rw [if_neg fun hc => hne hc.1, if_neg fun hc => hne (hnull.mpr hc.1)]
  have hslow : ∀ (off : Nat) (args : Bytes),
      (if a.uriEnd > a.uriStart + off then slice mem (a.uriStart + off) a.uriEnd else args) =
        if b.uriEnd > b.uriStart + off then slice mem' (b.uriStart + off) b.uriEnd else args := by
    intro off args
    obtain ⟨i, hi, hia, hib⟩ := hstart
    obtain ⟨j, hj, hja, hjb⟩ := h.uriEnd rfl
    by_cases hgt : a.uriEnd > a.uriStart + off
    · rw [if_pos hgt, if_pos (by omega)]
      exact slice_eq_of_sameLine hline ⟨i + off, by omega, by omega, by omega⟩ (h.uriEnd rfl)
    · rw [if_neg hgt, if_neg (by omega)]
  simp only [processRequestUri, h.complexUri, h.quotedUri, h.spaceInUri, hraw, huri, hexten, hargs]
  split
  · cases parseComplexUri mergeSlashes (slice mem' b.uriStart b.uriEnd) with
    | none => rfl
    | some c => cases hoff : c.argsStart <;> simp only [hoff, hslow]
  · rfl

theorem lineFields_eq {p q : Nat} (h : LockstepDone mem mem' p q a b) :
    lineFields mem (finishLine a p) = lineFields mem' (finishLine b q) ∧
      (finishLine a p).httpVersion = (finishLine b q).httpVersion ∧ a.method = b.method := by
  obtain ⟨s, t, n, ⟨hs, ht⟩, rfl, rfl, hline, h⟩ := h
  have hversion : (finishLine a (s + n)).httpVersion = (finishLine b (t + n)).httpVersion := by
    simp only [finishLine, h.httpMajor, h.httpMinor]
  refine ⟨?_, hversion, h.method⟩
  have hbegin : SameOffset s t (n + 1) a.requestStart b.requestStart :=
    ⟨0, Nat.zero_le _, by rw [h.start.1, add_zero], by rw [h.start.2, add_zero]⟩
  have hend : SameOffset s t (n + 1) (finishLine a (s + n)).requestEnd
      (finishLine b (t + n)).requestEnd := by
    have hnull := h.requestEnd.zero_iff hs ht
    by_cases hzero : a.requestEnd = 0
    · simp only [finishLine, hzero, hnull.mp hzero, if_true]
      exact ⟨n, Nat.le_succ n, rfl, rfl⟩
    · simp only [finishLine, hzero, mt hnull.mpr hzero, if_false]
      exact h.requestEnd.of_ne hzero
  have hname : slice mem a.requestStart (a.methodEnd + 1) =
      slice mem' b.requestStart (b.methodEnd + 1) := by
    obtain ⟨j, hj, hja, hjb⟩ := h.methodEnd rfl
    exact slice_eq_of_sameLine hline hbegin ⟨j + 1, hj, by omega, by omega⟩
  have hprotocol : (if a.httpProtocol ≠ 0 then
      slice mem a.httpProtocol (finishLine a (s + n)).requestEnd else []) =
      if b.httpProtocol ≠ 0 then slice mem' b.httpProtocol (finishLine b (t + n)).requestEnd
      else [] := by
    have hnull := not_congr (h.httpProtocol.zero_iff hs ht)
    by_cases hne : a.httpProtocol ≠ 0
    · rw [if_pos hne, if_pos (hnull.mp hne)]
      exact slice_eq_of_sameLine hline (h.httpProtocol.of_ne hne) hend
    · rw [if_neg hne, if_neg (mt hnull.mpr hne)]
  have hschema : (if a.schemaEnd ≠ 0 then slice mem a.schemaStart a.schemaEnd else []) =
      if b.schemaEnd ≠ 0 then slice mem' b.schemaStart b.schemaEnd else [] := by
    by_cases hzero : a.schemaStart = 0
    · obtain ⟨ha, hb⟩ := h.schemaNull hzero
      rw [if_neg (by simp [ha]), if_neg (by simp [hb])]
    · have hsame := h.schemaClosed rfl hzero
      have hne := hsame.ne_zero hs ht
      rw [if_pos hne.1, if_pos hne.2]
      exact slice_eq_of_sameLine hline (h.schemaStart.of_ne hzero) hsame
  have hhost : (if a.hostEnd ≠ 0 then slice mem a.hostStart a.hostEnd else []) =
      if b.hostEnd ≠ 0 then slice mem' b.hostStart b.hostEnd else [] := by
    have hnull := not_congr (h.hostEnd.zero_iff hs ht)
    by_cases hne : a.hostEnd ≠ 0
    · have hbegun : a.hostStart ≠ 0 := fun hzero => hne (h.hostNull hzero)
      rw [if_pos hne, if_pos (hnull.mp hne)]
      exact slice_eq_of_sameLine hline (h.hostStart.of_ne hbegun) (h.hostEnd.of_ne hne)
    · rw [if_neg hne, if_neg (mt hnull.mpr hne)]
  have huri : ∀ mergeSlashes, processRequestUri mergeSlashes mem (finishLine a (s + n)) =
      processRequestUri mergeSlashes mem' (finishLine b (t + n)) := fun mergeSlashes =>
    processRequestUri_eq hs ht hline h mergeSlashes
  simp only [lineFields, LineFields.mk.injEq]
  exact ⟨slice_eq_of_sameLine hline hbegin hend, h.method, hname, hprotocol, hschema, hhost,
    funext huri, h.complexUri, h.quotedUri, h.plusInUri, h.spaceInUri, hversion⟩

/-! ## Relocation -/

theorem relocate_add {new old j : Nat} (hold : old + j < wordRange) (hnew : new + j < wordRange) :
    relocate new old (old + j) = new + j := by
  rw [relocate, subWord_of_le (Nat.le_add_right old j) hold, Nat.add_sub_cancel_left,
    addWord_of_lt hnew]

theorem SameOffset.relocate {s t n x y new : Nat} (h : SameOffset s t n x y)
    (hold : s + n < wordRange) (hnew : new + n < wordRange) :
    SameOffset new t n (relocate new s x) y := by
  obtain ⟨j, hj, rfl, rfl⟩ := h
  exact ⟨j, hj, relocate_add (by omega) (by omega), rfl⟩

theorem SameOffsetOrNull.relocate {s t n x y new : Nat} (h : SameOffsetOrNull s t n x y)
    (hs : 0 < s) (ht : 0 < t) (hold : s + n < wordRange) (hnew : new + n < wordRange) :
    SameOffsetOrNull new t n (if x ≠ 0 then Http.relocate new s x else x) y := by
  rcases h with ⟨rfl, rfl⟩ | h
  · exact Or.inl ⟨rfl, rfl⟩
  · rw [if_pos (h.ne_zero hs ht).1]
    exact Or.inr (h.relocate hold hnew)

/-- Moving the line moves its marks with it. -/
theorem Agree.relocateLine {k : Known} {s t n new : Nat} (h : Agree k s t n a b) (hs : 0 < s)
    (ht : 0 < t) (hpos : 0 < new) (hold : s + n < wordRange) (hnew : new + n < wordRange) :
    Agree k new t n (Http.relocateLine new s a) b := by
  have hbegun : ∀ {j}, a.schemaEnd = s + j → a.schemaStart ≠ 0 := by
    intro j hend hzero
    have hnull := (h.schemaNull hzero).1
    omega
  have hmoved : ∀ {x y}, SameOffsetOrNull s t n x y → x ≠ 0 →
      (if x ≠ 0 then Http.relocate new s x else x) ≠ 0 := by
    intro x y hxy hne
    rw [if_pos hne]
    exact ((hxy.of_ne hne).relocate hold hnew |>.ne_zero hpos ht).1
  exact
  { h with
    start := ⟨rfl, h.start.2⟩
    methodEnd := fun hk => by
      obtain ⟨j, hj, hja, hjb⟩ := h.methodEnd hk
      refine ⟨j, hj, ?_, hjb⟩
      simp only [Http.relocateLine, hja]
      exact relocate_add (by omega) (by omega)
    uriStart := fun hk => (h.uriStart hk).relocate hold hnew
    uriEnd := fun hk => (h.uriEnd hk).relocate hold hnew
    schemaStart := h.schemaStart.relocate hs ht hold hnew
    schemaBegun := fun hk => hmoved h.schemaStart (h.schemaBegun hk)
    schemaEnd := fun hk => by
      obtain ⟨j, hj, hja, hjb⟩ := h.schemaEnd hk
      refine ⟨j, hj, ?_, hjb⟩
      simp only [Http.relocateLine, if_pos (hbegun hja), hja]
      exact relocate_add (by omega) (by omega)
    slashes := fun hk => by
      obtain ⟨j, hj, hja, hjb⟩ := h.slashes hk
      refine ⟨j, hj, ?_, hjb⟩
      simp only [Http.relocateLine, if_pos (hbegun hja), hja]
      exact relocate_add (by omega) (by omega)
    schemaClosed := fun hk hne => by
      have hstart : a.schemaStart ≠ 0 := fun hzero => hne (by
        simp only [Http.relocateLine, hzero, ne_eq, not_true_eq_false, if_false])
      simp only [Http.relocateLine, if_pos hstart]
      exact (h.schemaClosed hk hstart).relocate hold hnew
    schemaNull := fun hnull => by
      have hstart : a.schemaStart = 0 := by
        by_contra hne
        exact hmoved h.schemaStart hne hnull
      simp only [Http.relocateLine, hstart, ne_eq, not_true_eq_false, if_false]
      exact h.schemaNull hstart
    hostStart := h.hostStart.relocate hs ht hold hnew
    hostBegun := fun hk => hmoved h.hostStart (h.hostBegun hk)
    hostEnd := by
      by_cases hstart : a.hostStart = 0
      · have hend := h.hostNull hstart
        have hend' := (h.hostEnd.zero_iff hs ht).mp hend
        simp only [Http.relocateLine, hstart, ne_eq, not_true_eq_false, if_false]
        exact Or.inl ⟨hend, hend'⟩
      · simp only [Http.relocateLine, if_pos hstart]
        exact h.hostEnd.relocate hs ht hold hnew
    hostNull := fun hnull => by
      have hstart : a.hostStart = 0 := by
        by_contra hne
        exact hmoved h.hostStart hne hnull
      simp only [Http.relocateLine, hstart, ne_eq, not_true_eq_false, if_false]
      exact h.hostNull hstart
    requestEnd := h.requestEnd.relocate hs ht hold hnew
    uriExt := h.uriExt.relocate hs ht hold hnew
    argsStart := h.argsStart.relocate hs ht hold hnew
    httpProtocol := h.httpProtocol.relocate hs ht hold hnew }

theorem sameLine_memcpy {s t n new : Nat} (h : SameLine mem mem' s t n) :
    SameLine (memcpy mem new (load mem s n)) mem' new t n := by
  intro i hi
  rw [memcpy_apply_add (by rwa [length_load]), getElem_load]
  exact h i hi

/-! ## Lockstep of a connection and a single call -/

/-- The connection is in step with a single call that is at `q`, and its
buffers lie in memory. -/
structure Conn.InStep (conf : LargeBuffers) (c : Conn) (mem' : Nat → Byte) (q : Nat) (b : Request) :
    Prop where
  lockstep : Lockstep c.r.state c.mem mem' c.headerIn.pos q c.r b
  valid : ValidRange c.headerIn.start c.headerIn.end
  pos : c.headerIn.start ≤ c.headerIn.pos
  last : c.headerIn.pos = c.headerIn.last
  le_end : c.headerIn.last ≤ c.headerIn.end
  free : ∀ b ∈ c.free, ValidRange b.start b.end ∧ b.start + conf.size ≤ b.end

variable {conf : LargeBuffers} {c : Conn} {q : Nat}

theorem lockstep_setState {state : LineState} {p : Nat} (h : Lockstep state mem mem' p q a b) :
    Lockstep state mem mem' p q { a with state := state } b := by
  by_cases hstate : state = .start
  · subst hstate
    obtain ⟨⟨x, rfl⟩, hb⟩ := h
    exact ⟨⟨x, rfl⟩, hb⟩
  · rw [lockstep_iff hstate] at h ⊢
    obtain ⟨s, t, n, hpos, hp, hq, hline, hagree⟩ := h
    exact ⟨s, t, n, hpos, hp, hq, hline, { hagree with }⟩

theorem Conn.InStep.deliver_lockstep (h : c.InStep conf mem' q b) (bytes : Bytes) :
    Lockstep c.r.state (c.deliver bytes).mem mem' c.headerIn.pos q c.r b := by
  by_cases hstate : c.r.state = .start
  · have hlock := h.lockstep
    rw [hstate] at hlock ⊢
    exact hlock
  have hlock := h.lockstep
  rw [lockstep_iff hstate] at hlock ⊢
  obtain ⟨s, t, n, hpos, hp, hq, hline, hagree⟩ := hlock
  refine ⟨s, t, n, hpos, hp, hq, fun i hi => ?_, hagree⟩
  have hlast := h.last
  simp only [Conn.deliver]
  rw [memcpy_apply_of_lt (by omega)]
  exact hline i hi

theorem Conn.InStep.parse_lockstep (h : c.InStep conf mem' q b) (hq : 0 < q) {bytes rest : Bytes}
    (hbytes : ∀ i (hi : i < (bytes ++ rest).length), mem' (q + i) = (bytes ++ rest)[i]) :
    match lineLoop (c.deliver bytes).mem bytes.length c.r.state c.r c.headerIn.pos with
    | .again state' a' => ∃ b', Lockstep state' (c.deliver bytes).mem mem'
        (c.headerIn.pos + bytes.length) (q + bytes.length) a' b' ∧
        lineLoop mem' (bytes ++ rest).length c.r.state b q =
          lineLoop mem' rest.length state' b' (q + bytes.length)
    | .done a' p' => ∃ b' q', LockstepDone (c.deliver bytes).mem mem' p' q' a' b' ∧
        lineLoop mem' (bytes ++ rest).length c.r.state b q = .done b' q'
    | .fail rc => lineLoop mem' (bytes ++ rest).length c.r.state b q = .fail rc := by
  have hpos : 0 < c.headerIn.pos := Nat.lt_of_lt_of_le h.valid.1 h.pos
  rw [length_append]
  refine lineLoop_lockstep rest.length bytes.length hpos hq (fun i hi => ?_)
    (h.deliver_lockstep bytes)
  have hi' : i < (bytes ++ rest).length := by
    rw [length_append]
    omega
  rw [hbytes i hi', getElem_append_left hi, Conn.deliver, h.last]
  exact memcpy_apply_add hi

theorem Conn.deliver_length (h : c.headerIn.pos = c.headerIn.last) (bytes : Bytes) :
    (c.deliver bytes).headerIn.last - (c.deliver bytes).headerIn.pos = bytes.length := by
  simp only [Conn.deliver, h]
  omega

/-- A larger buffer keeps the connection in step with the copy. -/
theorem Conn.InStep.replace (h : c.InStep conf mem' q b) {alloc : Option Nat}
    (valid : ∀ start, alloc = some start → ValidRange start (start + conf.size)) {c' : Conn}
    (replaced : allocLargeHeaderBuffer conf alloc c = .ok c') :
    c'.InStep conf mem' q b ∧ c'.r.state = c.r.state := by
  unfold allocLargeHeaderBuffer at replaced
  by_cases hstate : c.r.state = .start
  · rw [if_pos hstate] at replaced
    cases replaced
    refine ⟨⟨?_, h.valid, le_rfl, rfl, h.valid.2.1, h.free⟩, rfl⟩
    have hlock := h.lockstep
    rw [hstate] at hlock
    simp only [hstate]
    exact hlock
  rw [if_neg hstate] at replaced
  by_cases hsize : c.headerIn.pos - c.r.requestStart ≥ conf.size
  · rw [if_pos hsize] at replaced
    cases replaced
  rw [if_neg hsize] at replaced
  -- the new buffer is large enough for the line
  have hmove : ∀ {buf : Buf} {free : List Buf}, ValidRange buf.start buf.end →
      buf.start + conf.size ≤ buf.end →
      (∀ b ∈ free, ValidRange b.start b.end ∧ b.start + conf.size ≤ b.end) →
      (c.moveTo buf free).InStep conf mem' q b ∧ (c.moveTo buf free).r.state = c.r.state := by
    intro buf free hvalid hroom hfree
    have hlock := h.lockstep
    rw [lockstep_iff hstate] at hlock
    obtain ⟨s, t, n, ⟨hs, ht, hn⟩, hp, hq, hline, hagree⟩ := hlock
    have hlen : c.headerIn.pos - c.r.requestStart = n := by
      rw [hagree.start.1]
      omega
    have hlast := h.last
    have hle := h.le_end
    have hend := h.valid.2.2
    have hend' := hvalid.2.2
    refine ⟨⟨?_, hvalid, Nat.le_add_right _ _, rfl, ?_, hfree⟩, rfl⟩
    · refine (lockstep_iff hstate).mpr ⟨buf.start, t, n, ⟨hvalid.1, ht, hn⟩, ?_, hq, ?_, ?_⟩
      · simp only [Conn.moveTo, hlen]
      · have hlen' : c.headerIn.pos - s = n := hagree.start.1 ▸ hlen
        simp only [Conn.moveTo, hagree.start.1, hlen']
        exact sameLine_memcpy hline
      · simp only [Conn.moveTo, hagree.start.1]
        exact hagree.relocateLine hs ht hvalid.1 (by omega) (by omega)
    · simp only [Conn.moveTo]
      omega
  split at replaced
  · rename_i buf free hfree
    cases replaced
    have hmem := h.free
    rw [hfree] at hmem
    exact hmove (hmem buf mem_cons_self).1 (hmem buf mem_cons_self).2
      fun b hb => hmem b (mem_cons_of_mem buf hb)
  · split at replaced
    · cases alloc with
      | none => cases replaced
      | some start =>
        cases replaced
        exact hmove (valid start rfl) (le_rfl) fun b hb => absurd hb not_mem_nil
    · cases replaced

/-! ## Runs -/

/-- What the connection comes to is what the single call comes to. -/
def SameOutcome (mem' : Nat → Byte) : Outcome → LineExit → Prop
  | .ok mem r, .done b p =>
      lineFields mem r = lineFields mem' (finishLine b p) ∧
        ¬ ((finishLine b p).httpVersion = 9 ∧ (finishLine b p).method ≠ .get)
  | .again, .again _ _ => True
  | .error rc, .fail rc' => rc = rc'
  | .error rc, .done b p =>
      rc = .invalid09Method ∧ (finishLine b p).httpVersion = 9 ∧ (finishLine b p).method ≠ .get
  | _, _ => False

/-- A call on a delivery and the single call: they end alike, or the single
call has the rest left and the connection is still in step with it. -/
theorem Conn.InStep.parse (h : c.InStep conf mem' q b) (hq : 0 < q) {bytes rest : Bytes}
    (fits : c.headerIn.last + bytes.length ≤ c.headerIn.end)
    (hbytes : ∀ i (hi : i < (bytes ++ rest).length), mem' (q + i) = (bytes ++ rest)[i]) :
    match (c.deliver bytes).parse with
    | .ok r _ => SameOutcome mem' (.ok (c.deliver bytes).mem r)
        (lineLoop mem' (bytes ++ rest).length c.r.state b q)
    | .error rc => SameOutcome mem' (.error rc)
        (lineLoop mem' (bytes ++ rest).length c.r.state b q)
    | .again r buf => ∃ b', lineLoop mem' (bytes ++ rest).length c.r.state b q =
          lineLoop mem' rest.length r.state b' (q + bytes.length) ∧
        Conn.InStep conf { c.deliver bytes with r := r, headerIn := buf } mem' (q + bytes.length)
          b' := by
  have hloops := h.parse_lockstep hq hbytes
  have hlen : (c.deliver bytes).headerIn.last - c.headerIn.pos = bytes.length :=
    Conn.deliver_length h.last bytes
  have hr : (c.deliver bytes).r = c.r := rfl
  have hpos : (c.deliver bytes).headerIn.pos = c.headerIn.pos := rfl
  simp only [Conn.parse, parseRequestLine, hr, hpos, hlen]
  cases hloop : lineLoop (c.deliver bytes).mem bytes.length c.r.state c.r c.headerIn.pos with
  | again state' a' =>
    rw [hloop] at hloops
    obtain ⟨b', hlock, hrest⟩ := hloops
    refine ⟨b', hrest, ?_, h.valid, ?_, rfl, fits, h.free⟩
    · have hlast : (c.deliver bytes).headerIn.last = c.headerIn.pos + bytes.length := by
        rw [h.last]
        rfl
      simp only [hlast]
      exact lockstep_setState hlock
    · exact Nat.le_trans (h.last ▸ h.pos) (Nat.le_add_right _ _)
  | fail rc =>
    rw [hloop] at hloops
    rw [hloops]
    exact rfl
  | done a' p' =>
    rw [hloop] at hloops
    obtain ⟨b', q', hdone, hdone'⟩ := hloops
    obtain ⟨hfields, hversion, hmethod⟩ := lineFields_eq hdone
    have hmethod' : (finishLine a' p').method = (finishLine b' q').method := hmethod
    rw [hdone']
    simp only [hversion, hmethod']
    split
    · rename_i hold heq
      split at heq
      · cases heq
      · cases heq
        exact ⟨hfields, ‹_›⟩
    · rename_i hold heq
      split at heq
      · cases heq
        exact ⟨rfl, ‹_›⟩
      · cases heq
    · rename_i hold heq
      split at heq <;> cases heq

end Nginx.Http
