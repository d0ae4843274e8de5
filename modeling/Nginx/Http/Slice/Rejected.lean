/-
  Http/Slice/Rejected.lean --- answers that are not the slice that was asked for.

  Here the upstream answers as it likes.  An answer is passed on only if it has no other
  `ETag` than those before it and says that it has the bytes that were asked for.
-/
import Nginx.Http.Slice.Headers

set_option autoImplicit false

namespace Nginx.Http.Slice

open Foundation List Option

/-- The texts of `Content-Range` with a complete length. -/
def RangeForm (text : Bytes) (first last length : Nat) : Prop :=
  ∃ before a after space b trail gap c rest, Spaces before ∧ Spaces after ∧
    Spaces space ∧ Spaces trail ∧ Spaces gap ∧ Spaces rest ∧
    Number a ∧ Number b ∧ Number c ∧ decimal a = first ∧ decimal b = last ∧ decimal c = length ∧
    text.take 6 = ascii "bytes " ∧
    cString (text.drop 6) = before ++
      (a ++ (after ++ chr '-' :: (space ++ (b ++ (trail ++ chr '/' :: (gap ++ (c ++ rest)))))))

/-- An answer says that it is the part of the resource that was asked for. -/
def States (asked : Int × Int) (a : Answer) : Prop :=
  ∃ text first last length, a.contentRange = some text ∧
    RangeForm text first last length ∧ (first : Int) = asked.1 ∧
    (last : Int) = min asked.2 (length - 1)

/-- An earlier answer has an `ETag` that this one does not have. -/
def OtherEtag (earlier : List Answer) (a : Answer) :
    Prop := ∃ b ∈ earlier, ∃ e, e ≠ [] ∧ b.etag = some e ∧ a.etag ≠ some e

/-- The states that a request comes to with any answers, and those that are passed on. -/
inductive Passing (conf : Conf) (req : Request) : List Answer → Session → Prop where
  | start {s : Session} (h : Session.start conf req = some s) : Passing conf req [] s
  | answer {answers : List Answer} {s s' : Session} {main : Bool} (h : Passing conf req answers s)
      (hfeed : s.feed = .awaits main) (a : Answer)
        (hstep : s.step conf req (.header a) = some s') (hpassed : s'.closed = false) :
      Passing conf req (answers ++ [a]) s'
  | other {answers : List Answer} {s s' : Session} (h : Passing conf req answers s) (event : Event)
      (hother : ∀ a, event ≠ .header a)
        (hstep : s.step conf req event = some s') : Passing conf req answers s'

/-- An answer that is awaited and is not the slice that was asked for: the request is over, and
no byte of the answer is passed on. -/
def Rejects (conf : Conf) (req : Request) (answers : List Answer) (s : Session) : Prop :=
  ∀ main a s', s.closed = false → s.feed = .awaits main → a.status = 206 →
    s.step conf req (.header a) = some s' →
    (OtherEtag answers a ∨ ∃ range ∈ s.requests.getLast?, ¬ States range a) →
      s'.closed = true ∧ s'.out = s.out ∧ ∀ event, s'.step conf req event = some s'

/-! ## What is read is of the grammar -/

variable {p : Bytes}

theorem readNumber_sound {rest : Bytes} {n : Int} (h : readNumber p = some (some (n, rest))) :
    ∃ digits, p = digits ++ rest ∧ Number digits ∧ n = decimal digits := by
  rw [readNumber] at h
  split at h
  · cases h
  next hdigit =>
  rcases readOffset_sound (not_not.mp hdigit) with herror | ⟨digits, rest', hp, hnumber, hread⟩
  · rw [herror] at h
    cases h
  · rw [hread] at h
    simp only [some.injEq, Prod.mk.injEq] at h
    exact ⟨digits, by rw [hp, h.2], hnumber, h.1.symm⟩

theorem exists_head {ch : Byte} (hch : ch ≠ 0) (h : peek p = ch) : ∃ rest, p = ch :: rest := by
  cases p with
  | nil => exact absurd h.symm hch
  | cons ch' rest =>
    have hsame : ch' = ch := h
    exact ⟨rest, by rw [hsame]⟩

variable {cr : ContentRange}

theorem completeLength_sound {start stop : Int} (hzero : (0 : Byte) ∉ p)
    (h : completeLength start stop p = some (some cr)) (hsome : cr.completeLength ≠ -1) :
    ∃ gap c rest, Spaces gap ∧ Spaces rest ∧ Number c ∧ p = gap ++ (c ++ rest) ∧
      cr = { start := start, stop := stop, completeLength := decimal c } := by
  obtain ⟨gap, hp, hgap⟩ := exists_spaces p
  rw [completeLength] at h
  by_cases hstar : peek (skipSpaces p) ≠ chr '*'
  · simp only [if_pos hstar] at h
    split at h
    · cases h
    · cases h
    next complete q hread =>
    obtain ⟨c, hq, hnumber, rfl⟩ := readNumber_sound hread
    obtain ⟨rest, hrest, hspaces⟩ := exists_spaces q
    split at h
    · cases h
    next hend =>
    rw [some.injEq, some.injEq] at h
    have hnil : skipSpaces q = [] := by
      cases hskip : skipSpaces q with
      | nil => rfl
      | cons ch more =>
        rw [hskip] at hend hrest
        have hch : ch = 0 := not_not.mp hend
        refine absurd ?_ hzero
        rw [hp, hq, hrest, hch]
        simp only [mem_append, mem_cons, true_or, or_true]
    rw [hnil, append_nil] at hrest
    refine ⟨gap, c, rest, hgap, hspaces, hnumber, ?_, h.symm⟩
    rw [hp, hq, ← hrest]
  · simp only [if_neg hstar] at h
    split at h
    · cases h
    · rw [some.injEq, some.injEq] at h
      exact absurd (congrArg ContentRange.completeLength h).symm hsome

theorem zero_notMem_skipSpaces (h : (0 : Byte) ∉ p) : (0 : Byte) ∉ skipSpaces p := fun hmem =>
  h (dropWhile_sublist _ |>.subset hmem)

theorem contentRangeStop_sound {start : Int} (hzero : (0 : Byte) ∉ p)
    (h : contentRangeStop start p = some (some cr)) (hsome : cr.completeLength ≠ -1) :
    ∃ space b trail gap c rest, Spaces space ∧ Spaces trail ∧ Spaces gap ∧
      Spaces rest ∧ Number b ∧ Number c ∧
      p = space ++ (b ++ (trail ++ chr '/' :: (gap ++ (c ++ rest)))) ∧
      cr = { start := start, stop := (decimal b : Int) + 1, completeLength := decimal c } := by
  obtain ⟨space, hp, hspace⟩ := exists_spaces p
  have hzero' := zero_notMem_skipSpaces hzero
  rw [contentRangeStop] at h
  split at h
  · cases h
  · cases h
  next last q hread =>
  obtain ⟨b, hq, hnumber, rfl⟩ := readNumber_sound hread
  obtain ⟨trail, hrest, htrail⟩ := exists_spaces q
  rw [contentRangeLast] at h
  split at h
  · cases h
  next stop hstop =>
  have hsum : stop = (decimal b : Int) + 1 := by
    rw [offT] at hstop
    split at hstop
    · exact (some.inj hstop).symm
    · cases hstop
  simp only at h
  split at h
  · cases h
  next hslash =>
  obtain ⟨more, hmore⟩ := exists_head (by decide) (not_not.mp hslash)
  rw [hmore, tail_cons] at h
  rw [hmore] at hrest
  have hnot : (0 : Byte) ∉ more := fun hmem => by
    refine absurd ?_ hzero'
    rw [hq, hrest]
    simp only [mem_append, mem_cons, hmem, or_true]
  obtain ⟨gap, c, rest, hgap, hspaces, hc, hmore', hcr⟩ := completeLength_sound hnot h hsome
  refine ⟨space, b, trail, gap, c, rest, hspace, htrail, hgap, hspaces, hnumber, hc, ?_, ?_⟩
  · rw [hp, hq, ← hmore', ← hrest]
  · rw [hcr, hsum]

theorem parseContentRange_sound {value : Option Bytes}
    (h : parseContentRange value = some (some cr))
    (hsome : cr.completeLength ≠ -1) :
    ∃ text first last length, value = some text ∧ RangeForm text first last length ∧
      cr.start = (first : Int) ∧
      cr.stop = (last : Int) + 1 ∧ cr.completeLength = (length : Int) := by
  cases value with
  | none =>
    rw [parseContentRange] at h
    cases h
  | some text =>
    rw [parseContentRange] at h
    split at h
    · cases h
    next hunit =>
    rw [not_or, not_not] at hunit
    have hzero := zero_notMem_cString (text.drop 6)
    obtain ⟨before, hp, hbefore⟩ := exists_spaces (cString (text.drop 6))
    have hzero' := zero_notMem_skipSpaces hzero
    split at h
    · cases h
    · cases h
    next start q hread =>
    obtain ⟨a, hq, ha, rfl⟩ := readNumber_sound hread
    obtain ⟨after, hrest, hafter⟩ := exists_spaces q
    simp only at h
    split at h
    · cases h
    next hdash =>
    obtain ⟨more, hmore⟩ := exists_head (by decide) (not_not.mp hdash)
    rw [hmore, tail_cons] at h
    rw [hmore] at hrest
    have hnot : (0 : Byte) ∉ more := fun hmem => by
      refine absurd ?_ hzero'
      rw [hq, hrest]
      simp only [mem_append, mem_cons, hmem, or_true]
    obtain ⟨space, b, trail, gap, c, rest, hspace, htrail, hgap, hspaces, hb, hc, hmore', hcr⟩ :=
      contentRangeStop_sound hnot h hsome
    refine ⟨text, decimal a, decimal b, decimal c, rfl,
      ⟨before, a, after, space, b, trail, gap, c, rest, hbefore, hafter,
      hspace, htrail, hgap, hspaces, ha, hb, hc, rfl, rfl, rfl, hunit.2, ?_⟩, by
        rw [hcr], by rw [hcr], by rw [hcr]⟩
    rw [hp, hq, ← hmore', ← hrest]

/-! ## The header filter -/

variable {conf : Conf} {req : Request} {s s' : Session} {ctx : Ctx}

theorem offT_some {n m : Int} (h : offT n = some m) : m = n := by
  rw [offT] at h
  split at h
  · exact (some.inj h).symm
  · cases h

variable {out : HeadersOut} {ctx' : Ctx}

theorem mainEnd_etag {complete : Int} (h : mainEnd conf ctx complete out = some ctx') :
    ctx'.etag = ctx.etag := by
  rw [mainEnd] at h
  split at h
  · cases hnext : offT (ctx.start + conf.size) with
    | none =>
      rw [hnext] at h
      cases h
    | some next =>
      cases hstop : offT (out.contentOffset + out.contentLength) with
      | none =>
        rw [hnext, hstop] at h
        cases h
      | some stop =>
        rw [hnext, hstop] at h
        rw [← some.inj h]
  · rw [← some.inj h]

theorem sendHeader_etag {main : Bool} {mainRanges : Option (List HttpRange)} {a : Answer}
    {range : Option RangeCtx}
    (h : sendHeader conf req main mainRanges ctx a cr = some (.sent ctx' range out)) :
    ctx'.etag = ctx.etag := by
  have hmapped : ∀ {complete : Int} {out' : HeadersOut} {range' : Option RangeCtx},
      ((mainEnd conf ctx complete out').map fun ctx => HeaderRc.sent ctx range' out') =
        some (.sent ctx' range out) →
      ctx'.etag = ctx.etag := by
    intro complete out' range' hmap
    obtain ⟨ctx'', hend, heq⟩ := map_eq_some_iff.mp hmap
    rw [HeaderRc.sent.injEq] at heq
    rw [← heq.1]
    exact mainEnd_etag hend
  rw [sendHeader] at h
  split at h
  · cases h
  · cases h
  · cases h
  · split at h
    · exact hmapped h
    · rw [some.injEq, HeaderRc.sent.injEq] at h
      rw [← h.1]
  · split at h
    · exact hmapped h
    · rw [some.injEq, HeaderRc.sent.injEq] at h
      rw [← h.1]

theorem headerFilter_sent {main : Bool} {mainRanges : Option (List HttpRange)}
    {a : Answer} {range : Option RangeCtx}
    (h : headerFilter conf req main mainRanges ctx a = some (.sent ctx' range out)) :
    etagMismatch ctx a = false ∧ ctx'.etag = a.etag.getD ctx.etag ∧
      States (ctx.start, ctx.start + conf.size - 1) a := by
  rw [headerFilter] at h
  split at h
  · split at h <;> cases h
  split at h
  · cases h
  next hmatch =>
  have hmatch' : etagMismatch ctx a = false := Bool.eq_false_iff.mpr hmatch
  split at h
  · cases h
  · cases h
  next cr hparse =>
  split at h
  · cases h
  next hlength =>
  split at h
  · cases h
  next next hnext =>
  have hnext' := offT_some hnext
  simp only at h
  split at h
  · cases h
  next hright =>
  rw [not_or, not_not, not_not] at hright
  obtain ⟨text, first, last, length, htext, hform, hfirst, hlast, hcomplete⟩ :=
    parseContentRange_sound hparse hlength
  refine ⟨hmatch', ?_, text, first, last, length, htext, hform, by rw [← hfirst, hright.1], ?_⟩
  · exact sendHeader_etag h
  · have hstop := hright.2
    rw [hlast, hnext', hcomplete, hright.1] at hstop
    simp only
    omega

end Nginx.Http.Slice
