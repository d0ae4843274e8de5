/-
  Http/Slice/Headers.lean --- the header filter on right answers.

  The client's range is read twice: roughly for the first slice, and by the range filter
  when the length is known.  The first reading never passes the second one.
-/
import Nginx.Http.Slice.Slices

set_option autoImplicit false

namespace Nginx.Http.Slice

open List Foundation
open Http.Parse (isDigit)

/-! ## The first slice -/

theorem elements_of_not_comma {text : Bytes} {specs : List ByteRange}
    (h : Elements text specs) (hcomma : chr ',' ∉ text) :
    ∃ range, specs = [range] ∧ Element text range := by
  cases h with
  | @last _ range h => exact ⟨range, rfl, h⟩
  | cons h hmore => exact absurd (mem_append_right _ mem_cons_self) hcomma

theorem dash_ne_space : chr '-' ≠ chr ' ' := by decide

theorem getStart_element {text : Bytes} {range : ByteRange} {length a b : Nat}
    (h : Element text range)
    (hselect : range.select length = some ⟨(a : Int), (b : Int)⟩) :
    peek (skipSpaces text) = chr '-' ∨
      ∃ rest, readOffset 0 (skipSpaces text) = some (.ok ((a : Int), rest)) := by
  cases h with
  | @closed before after space digits digits' trail hbefore ha hafter hspace hb htrail =>
    refine .inr ?_
    have hdash : isDigit (peek (chr '-' :: (space ++ (digits' ++ trail)))) = false :=
      not_isDigit_dash
    have htext : before ++ digits ++ after ++ [chr '-'] ++ space ++ digits' ++ trail =
        before ++ (digits ++ (after ++ chr '-' :: (space ++ (digits' ++ trail)))) := by
      simp only [append_assoc, cons_append, nil_append]
    have hskip :=
      skipSpaces_append hbefore (ne_of_isDigit
        (ha.peek (after ++ chr '-' :: (space ++ (digits' ++ trail)))) not_isDigit_space)
    rw [htext, hskip, ha.readOffset (hafter.not_digit hdash)]
    rw [ByteRange.select] at hselect
    split at hselect
    · rw [Option.some.injEq, HttpRange.mk.injEq] at hselect
      exact ⟨_, by rw [hselect.1]⟩
    · cases hselect
  | @openEnd before after trail digits hbefore ha hafter htrail =>
    refine .inr ?_
    have hdash : isDigit (peek (chr '-' :: trail)) = false := not_isDigit_dash
    have htext : before ++ digits ++ after ++ [chr '-'] ++ trail = before ++
      (digits ++ (after ++ chr '-' :: trail)) := by
      simp only [append_assoc, cons_append, nil_append]
    have hskip :=
      skipSpaces_append hbefore
        (ne_of_isDigit (ha.peek (after ++ chr '-' :: trail)) not_isDigit_space)
    rw [htext, hskip, ha.readOffset (hafter.not_digit hdash)]
    rw [ByteRange.select] at hselect
    split at hselect
    · rw [Option.some.injEq, HttpRange.mk.injEq] at hselect
      exact ⟨_, by rw [hselect.1]⟩
    · cases hselect
  | @suffix before digits trail hbefore ha htrail =>
    refine .inl ?_
    have htext : before ++ [chr '-'] ++ digits ++ trail = before ++
      chr '-' :: (digits ++ trail) := by
      simp only [append_assoc, cons_append, nil_append]
    have hspace : peek (chr '-' :: (digits ++ trail)) ≠ chr ' ' := dash_ne_space
    rw [htext, skipSpaces_append hbefore hspace]
    rfl

section Asked

variable {conf : Conf} {req : Request} {resource : Resource} {asked : Option (Nat × Nat)}

theorem Asks.bounds_lt (h : Asks req resource asked) :
    (bounds resource asked).1 < (bounds resource asked).2 ∧
    (bounds resource asked).2 ≤ resource.bytes.length := by
  have hsome := resource.some
  cases h with
  | whole h => exact ⟨hsome, le_rfl⟩
  | changed h => exact ⟨hsome, le_rfl⟩
  | @range text specs first stop h hasks hone hholds =>
    have hmem : (⟨first, stop⟩ : HttpRange) ∈ satisfiable resource.bytes.length specs := by
      rw [hone]
      exact mem_singleton_self _
    obtain ⟨range, -, hselect⟩ := mem_filterMap.mp hmem
    obtain ⟨-, hlt, hle⟩ := select_bounds hselect
    exact ⟨Int.ofNat_lt.mp hlt, Int.ofNat_le.mp hle⟩

theorem Asks.getStart_le (h : Asks req resource asked) : ∃ g :
    Nat, getStart req = some (g : Int) ∧ g ≤ (bounds resource asked).1 := by
  cases h with
  | whole h =>
    refine ⟨0, ?_, le_rfl⟩
    rw [getStart, h]
    split <;> rfl
  | changed h =>
    refine ⟨0, ?_, le_rfl⟩
    have hsome : req.ifRange ≠ none := by
      intro hnone
      rw [ifRangeHolds, hnone] at h
      cases h
    rw [getStart, if_pos hsome]
    rfl
  | @range text specs first stop h hasks hone hholds =>
    rw [getStart, h]
    split
    · exact ⟨0, rfl, Nat.zero_le _⟩
    simp only
    split
    · exact ⟨0, rfl, Nat.zero_le _⟩
    next hcomma =>
    obtain ⟨range, rfl, helement⟩ := elements_of_not_comma hasks hcomma
    have hselect : range.select resource.bytes.length = some ⟨(first : Int), (stop : Int)⟩ := by
      rw [satisfiable_singleton] at hone
      cases hsel : range.select resource.bytes.length with
      | none =>
        rw [hsel] at hone
        cases hone
      | some r =>
        rw [hsel] at hone
        exact congrArg some (singleton_inj.mp hone)
    rcases getStart_element helement hselect with hdash | ⟨rest, hread⟩
    · rw [if_pos hdash]
      exact ⟨0, rfl, Nat.zero_le _⟩
    · rw [hread]
      split
      · exact ⟨0, rfl, Nat.zero_le _⟩
      · exact ⟨first, rfl, le_rfl⟩

theorem Asks.firstSlice_eq (h : Asks req resource asked) (conf : Conf) :
    ∃ g ≤ (bounds resource asked).1, getStart req = some (g : Int) ∧
      firstSlice conf req = conf.size * (g / conf.size) := by
  obtain ⟨g, hg, hle⟩ := h.getStart_le
  refine ⟨g, hle, hg, ?_⟩
  rw [firstSlice, hg]
  rfl

/-! ## The range filter -/

variable {text : Bytes}

theorem rangeParse_one {specs : List ByteRange} {length : Nat} {r : HttpRange}
    (hmax : (length : Int) ≤ maxOffT)
    (hasks : AsksFor text specs) (hone : satisfiable length specs = [r]) :
    rangeParse none text length 1 = some (.ok [r]) := by
  obtain ⟨rc, hrun, hright⟩ :=
    @rangeLoop_spec length 0 [] 1 hmax _ (cString text) (Nat.lt_succ_self _)
    (zero_notMem_cString text) le_rfl (by decide) (fun _ => rfl)
  have hmem : r ∈ satisfiable length specs := by
    rw [hone]
    exact mem_singleton_self r
  obtain ⟨range, -, hselect⟩ := mem_filterMap.mp hmem
  have hin := select_bounds hselect
  have hsize : rangesSize [r] = r.stop - r.start := Int.add_zero _
  have hok :=
    hright.complete specs hasks (by omega) (by rw [hone]; exact cons_ne_nil _ _)
      (by rw [hone]; exact le_rfl)
    (by rw [hone, hsize]; omega)
  rw [rangeParse, hrun, hok, hone]
  rfl

/-- The ranges of the main request. -/
def rangesOf (asked : Option (Nat × Nat)) : Option (List HttpRange) :=
    asked.map fun r => [⟨r.1, r.2⟩]

/-- The range filter on a right answer with the slice at `t`. -/
def rangeAnswer (main : Bool) (length t : Nat) (asked : Option (Nat × Nat)) : RangeFiltered :=
  match asked with
  | none => .next
  | some (a, b) =>
    .single { ranges := [⟨a, b⟩], offset := t }
      (if main then { status := 206, contentLength := (b : Int) - a, contentOffset := a }
        else { status := 206, contentLength := length, contentOffset := t })

/-- The range filter sets the range that was asked for, and no other. -/
theorem rangeHeaderFilter_right (hasks : Asks req resource asked)
    (hranges : conf.maxRanges = 0 → req.range = none) {main : Bool}
    {mainRanges : Option (List HttpRange)} (hmain : mainRanges = none ∨ mainRanges = rangesOf asked)
    {a : Answer}
    (hetag : a.etag = resource.etag) (hmodified : a.lastModified = resource.lastModified)
    (t : Nat) :
    rangeHeaderFilter conf req main mainRanges a
      { status := 200, contentLength := resource.bytes.length, contentOffset := t } =
      some (rangeAnswer main resource.bytes.length t asked) := by
  rw [rangeHeaderFilter]
  have hlength : ¬ ((resource.bytes.length : Int) = -1) := by omega
  cases hasks with
  | whole h =>
    split
    · rfl
    · split
      · rfl
      · rw [h]
        rfl
  | changed h =>
    split
    · rfl
    split
    · rfl
    cases hrange : req.range.bind bytesRange with
    | none => rfl
    | some text =>
      simp only
      rw [hetag, hmodified, h]
      rfl
  | @range text specs first stop h hasks hone hholds =>
    have hsome : req.range ≠ none := by
      intro hnone
      rw [hnone] at h
      cases h
    have hversion := req.lines (.inl hsome)
    have hbounds := Asks.bounds_lt (.range h hasks hone hholds)
    have hfits := resource.fits
    have hparse : rangeParse mainRanges text (resource.bytes.length : Int) 1 =
      some (.ok [⟨(first : Int), (stop : Int)⟩]) := by
      rcases hmain with rfl | rfl
      · exact rangeParse_one hfits hasks hone
      · rfl
    rw [if_neg (by simp only [ne_eq, not_true_eq_false, hlength, or_false]; omega),
      if_neg fun hzero => hsome (hranges hzero), h]
    simp only [hetag, hmodified, hholds, if_true, hparse]
    cases main with
    | false => rfl
    | true =>
      have hmin : maxOffT = 9223372036854775807 := rfl
      have hsub : offT ((stop : Int) - first) = some ((stop : Int) - first) := by
        obtain ⟨hlt, hle⟩ := hbounds
        simp only [bounds, Option.getD_some] at hlt hle
        exact offT_eq (by omega) (by omega)
      rw [if_pos rfl, hsub]
      rfl

/-! ## `Content-Range` -/

theorem readNumber_append {digits rest : Bytes} (h : Number digits)
    (hrest : isDigit (peek rest) = false) :
    readNumber (digits ++ rest) = some (some ((decimal digits : Int), rest)) := by
  rw [readNumber, if_neg (not_not.mpr (h.peek rest)), h.readOffset hrest]

variable {digits : Bytes}

theorem skipSpaces_number (h : Number digits) (rest : Bytes) :
    skipSpaces (digits ++ rest) = digits ++ rest :=
  @skipSpaces_append [] _ (fun _ hmem => absurd hmem not_mem_nil)
    (ne_of_isDigit (h.peek rest) not_isDigit_space)

theorem skipSpaces_cons {ch : Byte} (h : ch ≠ chr ' ') (rest : Bytes) :
    skipSpaces (ch :: rest) = ch :: rest :=
  @skipSpaces_append [] _ (fun _ hmem => absurd hmem not_mem_nil) h

theorem zero_notMem_number (h : Number digits) : (0 : Byte) ∉ digits := fun hmem => by
  have hdigit := h.digit 0 hmem
  revert hdigit
  decide

theorem cString_eq (h : (0 : Byte) ∉ text) : cString text = text := by
  rw [cString, takeWhile_eq_self_iff]
  intro ch hch
  have hne : ch ≠ 0 := fun hzero => h (hzero ▸ hch)
  simpa using hne

theorem not_isDigit_slash : isDigit (chr '/') = false := by decide

theorem slash_ne_space : chr '/' ≠ chr ' ' := by decide

theorem completeLength_number (h : Number digits) (start stop : Int) :
    completeLength start stop digits =
      some (some { start := start, stop := stop, completeLength := decimal digits }) := by
  have hskip := skipSpaces_number h []
  have hread := @readNumber_append digits [] h (by decide)
  have hpeek := h.peek []
  rw [append_nil] at hskip hread hpeek
  have hstar : peek digits ≠ chr '*' := ne_of_isDigit hpeek (by decide)
  have hend : ¬ peek (skipSpaces []) ≠ 0 := not_not.mpr rfl
  rw [completeLength]
  simp only [hskip, if_pos hstar, hread, if_neg hend]

theorem offT_succ {n : Nat} (h : ((n + 1 : Nat) : Int) ≤ maxOffT) :
    offT ((n : Int) + 1) = some ((n + 1 : Nat) : Int) := by
  have hcast : (n : Int) + 1 = ((n + 1 : Nat) : Int) := by omega
  rw [hcast]
  exact offT_nat h

theorem contentRangeLast_slash (h : Number digits) (start : Int) {last : Nat}
    (hlast : ((last + 1 : Nat) : Int) ≤ maxOffT) :
    contentRangeLast start last (chr '/' :: digits) =
      some (some
        { start := start, stop := ((last + 1 : Nat) : Int), completeLength := decimal digits }) :=
        by
  have hpeek : peek (chr '/' :: digits) = chr '/' := rfl
  rw [contentRangeLast, offT_succ hlast]
  simp only [skipSpaces_cons slash_ne_space]
  rw [if_neg (not_not.mpr hpeek), tail_cons]
  exact completeLength_number h _ _

theorem contentRangeStop_number {digits' : Bytes} (h : Number digits)
    (h' : Number digits') (start : Int)
    (hlast : ((decimal digits + 1 : Nat) : Int) ≤ maxOffT) :
    contentRangeStop start (digits ++ chr '/' :: digits') =
      some (some { start := start, stop
        := ((decimal digits + 1 : Nat) : Int), completeLength := decimal digits' }) := by
  have hslash : isDigit (peek (chr '/' :: digits')) = false := not_isDigit_slash
  rw [contentRangeStop, skipSpaces_number h, readNumber_append h hslash]
  exact contentRangeLast_slash h' start hlast

theorem parseContentRange_text {first last length : Nat}
    (h : ContentRangeText text first last length)
    (hlast : ((last + 1 : Nat) : Int) ≤ maxOffT) :
    parseContentRange (some text) =
      some (some { start := first, stop := ((last + 1 : Nat) : Int), completeLength := length }) :=
      by
  obtain ⟨a, b, c, ha, hb, hc, rfl, rfl, rfl, rfl⟩ := h
  have hdash : isDigit (peek (chr '-' :: (b ++ chr '/' :: c))) = false := not_isDigit_dash
  have hpeek : peek (chr '-' :: (b ++ chr '/' :: c)) = chr '-' := rfl
  have hsix : (ascii "bytes ").length = 6 := by decide
  have hunit : (ascii "bytes " ++ (a ++ chr '-' :: (b ++ chr '/' :: c))).take 6 = ascii "bytes " :=
    take_left' hsix
  have hrest : (ascii "bytes " ++ (a ++ chr '-' :: (b ++ chr '/' :: c))).drop 6 =
    a ++ chr '-' :: (b ++ chr '/' :: c) :=
    drop_left' hsix
  have hlength : ¬ (ascii "bytes " ++ (a ++ chr '-' :: (b ++ chr '/' :: c))).length < 7 := by
    rw [length_append, length_append, length_cons, hsix]
    omega
  have hzero : (0 : Byte) ∉ a ++ chr '-' :: (b ++ chr '/' :: c) := by
    simp only [mem_append, mem_cons, not_or]
    exact ⟨zero_notMem_number ha, by decide, zero_notMem_number hb, by
      decide, zero_notMem_number hc⟩
  rw [parseContentRange]
  simp only [hunit, hrest, cString_eq hzero, skipSpaces_number ha,
    readNumber_append ha hdash, ne_eq, not_true_eq_false, or_false,
    if_neg hlength]
  rw [skipSpaces_cons dash_ne_space, if_neg (not_not.mpr hpeek), tail_cons]
  exact contentRangeStop_number hb hc _ hlast

/-! ## The header filter -/

/-- The `ETag` that is kept is the resource's. -/
def EtagOf (resource : Resource) (etag : Bytes) : Prop := etag = [] ∨ resource.etag = some etag

theorem EtagOf.next {etag : Bytes} (h : EtagOf resource etag) :
    EtagOf resource (resource.etag.getD etag) := by
  cases hetag : resource.etag with
  | none =>
    rw [EtagOf, hetag] at h
    exact .inl (h.resolve_right fun heq => by cases heq)
  | some value => exact .inr hetag

theorem headerFilter_right {main : Bool} {mainRanges : Option (List HttpRange)}
    {ctx : Ctx} {a : Answer} {t : Nat}
    (hstart : ctx.start = t) (hetag : EtagOf resource ctx.etag) (hsize : 0 < conf.size)
    (h : Answers resource t (t + conf.size - 1) a)
    (hfits : ((t + conf.size : Nat) : Int) ≤ maxOffT) :
    headerFilter conf req main mainRanges ctx a =
      sendHeader conf req main mainRanges
        { ctx with
          start := ((min (t + conf.size) resource.bytes.length : Nat) : Int), active := true,
                   etag := resource.etag.getD ctx.etag } a
        { start := t, stop := ((min (t + conf.size) resource.bytes.length : Nat) : Int),
          completeLength := resource.bytes.length } := by
  obtain ⟨text, htext, hcontent⟩ := h.contentRange
  have hmax := resource.fits
  have hsome := resource.some
  have hstop : min (t + conf.size - 1) (resource.bytes.length - 1) + 1 =
    min (t + conf.size) resource.bytes.length := by omega
  have hparse := parseContentRange_text hcontent (by omega)
  rw [hstop] at hparse
  have hmatch : etagMismatch ctx a = false := by
    rw [etagMismatch, decide_eq_false_iff_not, h.etag]
    rintro ⟨hne, hother⟩
    exact hetag.elim hne hother
  have hlength : ¬ ((resource.bytes.length : Int) = -1) := by omega
  have hnext : offT ((t : Int) + conf.size) = some ((t + conf.size : Nat) : Int) := offT_nat hfits
  have hmin : min ((t + conf.size : Nat) : Int) (resource.bytes.length : Int) =
    ((min (t + conf.size) resource.bytes.length : Nat) : Int) := by
    omega
  rw [headerFilter, if_neg (not_not.mpr h.status), hmatch, htext, hparse]
  simp only [Bool.false_eq_true, if_false, if_neg hlength, hnext, hmin,
    hstart, ne_eq, not_true_eq_false, or_self, h.etag]

end Asked

end Nginx.Http.Slice
