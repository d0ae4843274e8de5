/-
  Http/Slice/Served.lean --- every event leads from phase to phase, and slices make up the
  resource again.
-/
import Nginx.Http.Slice.Reassembly

set_option autoImplicit false

namespace Nginx.Http.Slice

open List Foundation Option

variable {conf : Conf} {req : Request} {resource : Resource}
    {asked : Option (Nat × Nat)} {s : Session} {ctx : Ctx}

/-! ## Answers -/

theorem Right.answers {a : Answer} (h : Right resource s (.header a))
    (hsize : 0 < conf.size) {sent : List Nat} {t : Nat}
    (hrequests : s.requests = (sent ++ [t]).map (sliceBounds conf)) :
    Answers resource t (t + conf.size - 1) a := by
  have hlast : s.requests.getLast? = some (sliceBounds conf t) := by
    rw [hrequests, map_append, map_singleton, getLast?_concat]
  have hanswers := h a rfl (sliceBounds conf t) hlast
  have hend : ((t : Int) + conf.size - 1).toNat = t + conf.size - 1 := by omega
  simp only [sliceBounds, Int.toNat_natCast, hend] at hanswers
  exact hanswers

variable {a : Answer}

theorem Answers.body_eq {t : Nat} (h : Answers resource t (t + conf.size - 1) a)
    (hsize : 0 < conf.size) :
    a.body = (resource.bytes.take (min (t + conf.size) resource.bytes.length)).drop t := by
  have hend : t + conf.size - 1 + 1 = t + conf.size := by omega
  rw [h.body, hend, ← take_take, take_length]

theorem body_length {t size : Nat} :
    ((resource.bytes.take (min (t + size) resource.bytes.length)).drop t).length ≤ size := by
  rw [length_drop, length_take]
  omega

theorem sendHeader_main (hserved : Served conf req resource asked)
    {a : Answer} (hetag : a.etag = resource.etag)
    (hmodified : a.lastModified = resource.lastModified)
    (hstart : ctx.start = answerEnd conf req resource) (stop : Int) :
    ∃ range out, sendHeader conf req true none ctx a
        { start := firstSlice conf req, stop := stop, completeLength := resource.bytes.length } =
          some (.sent
            { ctx with
              start := nextSlice conf req resource asked, stop := (bounds resource asked).2 }
            range out) ∧
      RangeAt range asked (firstSlice conf req) := by
  have hfilter :=
    @rangeHeaderFilter_right conf _ _ _ hserved.asks hserved.ranges true _
      (.inl rfl) _ hetag hmodified (firstSlice conf req)
  have hsize := hserved.size
  rw [sendHeader]
  simp only [hfilter]
  cases asked with
  | none =>
    have hnext : nextSlice conf req resource none = answerEnd conf req resource := by
      have hnot : ¬ answerEnd conf req resource + conf.size ≤ (bounds resource none).1 := by
        have hzero : (bounds resource none).1 = 0 := rfl
        omega
      rw [nextSlice, if_neg hnot]
    refine ⟨none,
      { status := 200, contentLength := resource.bytes.length
        contentOffset := firstSlice conf req }, ?_, rfl⟩
    rw [hnext, ← hstart]
    rfl
  | some asked =>
    obtain ⟨a', b⟩ := asked
    have hbounds := hserved.asks.bounds_lt
    have hfits := resource.fits
    simp only [bounds, getD_some] at hbounds
    have hnext : offT ((answerEnd conf req resource : Int) + conf.size) =
        some ((answerEnd conf req resource + conf.size : Nat) : Int) :=
      offT_nat (hserved.fits.next (some_ne_none _))
    have hstop : offT ((a' : Int) + ((b : Int) - a')) = some (b : Int) := by
      have hsum : (a' : Int) + ((b : Int) - a') = (b : Int) := by omega
      rw [hsum]
      exact offT_nat (by omega)
    have hcond : (((answerEnd conf req resource + conf.size : Nat) : Int) ≤ (a' : Int)) ↔
        answerEnd conf req resource + conf.size ≤ (bounds resource (some (a', b))).1 := Int.ofNat_le
    have hslice : (conf.size : Int) * ((a' : Int) / conf.size) =
      ((conf.size * (a' / conf.size) : Nat) : Int) := by
      rw [Nat.cast_mul, Int.natCast_div]
    refine ⟨some { ranges := [⟨a', b⟩], offset := firstSlice conf req },
      { status := 206, contentLength := (b : Int) - a', contentOffset := a' },
        ?_, ⟨firstSlice conf req, rfl, le_rfl, .inl rfl⟩⟩
    simp only [rangeAnswer, if_true, mainEnd, hstart, hnext, hstop,
      bind_eq_bind, bind_some, map_some, hcond,
      hslice]
    rw [nextSlice]
    split
    · rfl
    · rfl

theorem sendHeader_sub (hserved : Served conf req resource asked) {a : Answer}
    (hetag : a.etag = resource.etag)
    (hmodified : a.lastModified = resource.lastModified) {t : Nat} (stop : Int) :
    ∃ range out, sendHeader conf req false (rangesOf asked) ctx a
        { start := t, stop := stop, completeLength := resource.bytes.length } =
          some (.sent ctx range out) ∧
      RangeAt range asked t := by
  have hfilter :=
    @rangeHeaderFilter_right conf _ _ _ hserved.asks hserved.ranges false _
      (.inr rfl) _ hetag hmodified t
  rw [sendHeader]
  simp only [hfilter]
  cases asked with
  | none =>
    exact ⟨none, { status := 200, contentLength := resource.bytes.length, contentOffset := t },
      rfl, rfl⟩
  | some asked =>
    exact ⟨some { ranges := [⟨asked.1, asked.2⟩], offset := t },
      { status := 206, contentLength := resource.bytes.length, contentOffset := t },
        rfl, ⟨t, rfl, le_rfl, .inl rfl⟩⟩

theorem MainRange.ranges (h : MainRange resource asked s) :
    s.mainRange.map RangeCtx.ranges = rangesOf asked := by
  obtain ⟨pos, -, hmain⟩ := h
  cases asked with
  | none =>
    have hnone : s.mainRange = none := hmain
    rw [hnone]
    rfl
  | some asked =>
    obtain ⟨offset, hrange, -⟩ := hmain
    rw [hrange]
    rfl

theorem rank_reads {total : Nat} {main : Bool} {left : Bytes}
    (hctx : s.ctx = some ctx) (hfeed : s.feed = .reads main left) :
    rank conf total s = (total - s.requests.length) * (conf.size + 5) + (left.length + 3) := by
  rw [rank, hctx, hfeed]

theorem rank_awaits {total : Nat} {main : Bool} (hctx : s.ctx = some ctx)
    (hfeed : s.feed = .awaits main) :
    rank conf total s = (total - s.requests.length) * (conf.size + 5) + (conf.size + 4) := by
  rw [rank, hctx, hfeed]

theorem rank_nothing_le {total : Nat} (hctx : s.ctx = some ctx) (hfeed : s.feed = .nothing) :
    rank conf total s ≤ (total - s.requests.length) * (conf.size + 5) + 2 := by
  rw [rank, hctx, hfeed]
  simp only
  split <;> omega

/-- The header of the first answer sets the range to go through. -/
theorem answered_first (hserved : Served conf req resource asked)
    (h : Ongoing conf req resource asked s ctx (firstSlice conf req) [firstSlice conf req]
      (slicesFrom conf.size (nextSlice conf req resource asked) (bounds resource asked).2))
    (hfeed : s.feed = .awaits true) (hstart : ctx.start = firstSlice conf req)
    (hlast : ctx.last = false) (hsr : ctx.sr = none)
    (hrange : s.mainRange = none) (hright : Right resource s (.header a)) :
    ∃ s', s.answered conf req true a = some s' ∧ Phase conf req resource asked s' ∧
      rank conf (requested conf req resource asked).length s' <
        rank conf (requested conf req resource asked).length s := by
  have hanswers := @Right.answers _ _ _ _ hright hserved.size [] _ h.requests
  have hbody := hanswers.body_eq hserved.size
  have hheader :=
    @headerFilter_right _ req _ true none _ _ _ hstart h.etag hserved.size hanswers
      hserved.first_fits
  obtain ⟨range, out, hsend, hat⟩ := @sendHeader_main _ _ _ _
    { ctx with
      start := (answerEnd conf req resource : Nat), active := true,
      etag := resource.etag.getD ctx.etag }
    hserved a hanswers.etag hanswers.lastModified rfl
    (answerEnd conf req resource : Nat)
  have hstep : s.answered conf req true a = some
      { s with
        ctx := some { ctx with
          start := (nextSlice conf req resource asked : Nat), stop :=
          ((bounds resource asked).2 : Nat),
                               active := true, etag := resource.etag.getD ctx.etag }
        mainRange := range
        feed := .reads true a.body } := by
    rw [Session.answered, h.context, hrange]
    simp only [map_none]
    rw [hheader]
    simp only [answerEnd] at hsend
    rw [hsend]
    rfl
  refine ⟨_, hstep,
    .main ⟨rfl, h.running, h.etag.next, h.out, h.marks, h.requests, h.total⟩ ?_
    ?_ ⟨rfl, rfl, rfl, hlast⟩ hsr hat, ?_⟩
  · exact Nat.le_min.mpr ⟨Nat.le_add_right _ _, hserved.first_lt.le⟩
  · exact congrArg (Feed.reads true) hbody
  have hlength := @body_length resource (firstSlice conf req) conf.size
  rw [← hbody] at hlength
  rw [rank_awaits h.context hfeed, rank_reads rfl rfl]
  simp only
  omega

theorem answered_sub (hserved : Served conf req resource asked) {t : Nat} {sent : List Nat}
    (h : Ongoing conf req resource asked s ctx t (sent ++ [t])
      (slicesFrom conf.size (t + conf.size) (bounds resource asked).2))
    (ht : t < (bounds resource asked).2) (hfeed : s.feed = .awaits false)
    (hgoing : Going resource asked ctx t false true)
    (hsr : ctx.sr = some false) (hrange : MainRange resource asked s)
    (hright : Right resource s (.header a)) :
    ∃ s', s.answered conf req false a = some s' ∧ Phase conf req resource asked s' ∧
      rank conf (requested conf req resource asked).length s' <
        rank conf (requested conf req resource asked).length s := by
  have hanswers := hright.answers hserved.size h.requests
  have hbody := hanswers.body_eq hserved.size
  have hmem : t ∈ requested conf req resource asked := by
    rw [← h.total]
    exact mem_append_left _ (mem_append_right _ mem_cons_self)
  have hheader :=
    @headerFilter_right _ req _ false (s.mainRange.map RangeCtx.ranges) _ _ _ hgoing.start h.etag
    hserved.size hanswers (hserved.fits.slices t hmem)
  obtain ⟨range, out, hsend, hat⟩ := @sendHeader_sub _ _ _ _
    { ctx with
      start := (min (t + conf.size) resource.bytes.length : Nat),
        active := true, etag := resource.etag.getD ctx.etag }
    hserved a hanswers.etag hanswers.lastModified t
    (min (t + conf.size) resource.bytes.length : Nat)
  have hstep : s.answered conf req false a = some
      { s with
        ctx := some { ctx with
          start := ((min (t + conf.size) resource.bytes.length : Nat) : Int), active := true,
                               etag := resource.etag.getD ctx.etag }
        subRange := range
        feed := .reads false a.body } := by
    rw [Session.answered, h.context]
    simp only
    rw [hheader, hrange.ranges, hsend]
    rfl
  obtain ⟨-, hstop⟩ := hserved.asks.bounds_lt
  have htotal := h.total
  rw [← slicesFrom_min hstop] at htotal
  refine ⟨_, hstep,
    .sub ⟨rfl, h.running, h.etag.next, h.out, h.marks, h.requests, htotal⟩ ?_
    (min_le_right _ _) ?_
    ⟨rfl, hgoing.stop, rfl, hgoing.last⟩ hsr hrange hat, ?_⟩
  · exact Nat.le_min.mpr ⟨Nat.le_add_right _ _, by omega⟩
  · exact congrArg (Feed.reads false) hbody
  have hlength := @body_length resource t conf.size
  rw [← hbody] at hlength
  rw [rank_awaits h.context hfeed, rank_reads rfl rfl]
  simp only
  omega

/-! ## Bytes -/

variable {pos : Nat}

theorem split_left {front rest bytes : Bytes} {stop : Nat}
    (h : front ++ rest = (bytes.take stop).drop pos) (hpos : pos ≤ stop)
    (hstop : stop ≤ bytes.length) :
    front = (bytes.drop pos).take front.length ∧
      rest = (bytes.take stop).drop (pos + front.length) ∧ pos + front.length ≤ stop := by
  have hlength := congrArg List.length h
  rw [length_append, length_drop, length_take, min_eq_left hstop] at hlength
  refine ⟨?_, ?_, by omega⟩
  · have htake := congrArg (List.take front.length) h
    rw [take_left, drop_take, take_take, min_eq_left (by omega)] at htake
    exact htake
  · have hdrop := congrArg (List.drop front.length) h
    rw [drop_left, drop_drop] at hdrop
    exact hdrop

theorem MainRange.of_at (h : RangeAt s.mainRange asked pos) (hpos : pos ≤ resource.bytes.length) :
    MainRange resource asked s := ⟨pos, hpos, h⟩

/-- A read of the main answer passes on what it has of the range. -/
theorem received_main (hserved : Served conf req resource asked)
    (h : Ongoing conf req resource asked s ctx pos [firstSlice conf req]
      (slicesFrom conf.size (nextSlice conf req resource asked) (bounds resource asked).2))
    (hpos : pos ≤ answerEnd conf req resource)
    (hfeed : s.feed = .reads true ((resource.bytes.take (answerEnd conf req resource)).drop pos))
    (hgoing : Going resource asked ctx (nextSlice conf req resource asked) true false)
    (hsr : ctx.sr = none)
    (hrange : RangeAt s.mainRange asked pos) (cuts : List Nat) (ending : Ending) (buffered : Bool) :
    ∃ s', s.received conf true
      ((resource.bytes.take (answerEnd conf req resource)).drop pos) cuts ending buffered =
      some s' ∧
      Phase conf req resource asked s' ∧
      rank conf (requested conf req resource asked).length s' ≤
        rank conf (requested conf req resource asked).length s ∧
      (ending = .special →
        (cut cuts ((resource.bytes.take (answerEnd conf req resource)).drop pos)).2 = [] →
        rank conf (requested conf req resource asked).length s' <
          rank conf (requested conf req resource asked).length s) := by
  have hend : answerEnd conf req resource ≤ resource.bytes.length := min_le_right _ _
  obtain ⟨hsplit, hbufs⟩ :=
    cut_spec cuts ((resource.bytes.take (answerEnd conf req resource)).drop pos)
  rw [Session.received]
  generalize hcut : cut cuts ((resource.bytes.take (answerEnd conf req resource)).drop pos) =
    pieces at hsplit hbufs ⊢
  obtain ⟨bufs, rest⟩ := pieces
  obtain ⟨hfront, hrest, hle⟩ := split_left hsplit hpos hend
  simp only at hsplit hfront hrest hle ⊢
  split
  · next hwait =>
      exact ⟨s, rfl, .main h hpos hfeed hgoing hsr hrange, le_rfl,
        fun hspecial hnil => absurd hnil hwait.2⟩
  next hcome =>
  split
  · next hmark =>
    exact ⟨s, rfl, .main h hpos hfeed hgoing hsr hrange, le_rfl, fun hspecial => by
      rw [hmark.1] at hspecial
      cases hspecial⟩
  next hmark =>
  have hany : (chain true ending bufs).any Buf.lastBuf = decide (ending ≠ .more) := by
    refine any_chain hbufs fun hmarked hnil => hmark ⟨hmarked, ?_⟩
    cases cuts with
    | nil => rfl
    | cons n cuts =>
      rw [cut] at hcut
      rw [hnil] at hcut
      cases hcut
  have hplain : ∀ x ∈ (chain true ending bufs).map takeLast, Plain x := by
    intro x hx
    obtain ⟨y, hy, rfl⟩ := mem_map.mp hx
    exact plain_takeLast (chain_spec hbufs y hy).2
  have hdata : data ((chain true ending bufs).map takeLast) =
    (resource.bytes.drop pos).take (data bufs).length := by
    rw [data_takeLast, data_chain]
    exact hfront
  obtain ⟨passed, range', hrun, hat, hout, hmarks⟩ :=
    @rangeBodyFilter_spec true _ _ _ _ _ _ hrange
    hserved.asks.bounds_lt.1 hplain hdata (by omega)
  have hmarks' : ∀ x ∈ s.out ++ passed, MarkOk conf req resource asked x := by
    intro x hx hlast
    rcases mem_append.mp hx with hx | hx
    · exact h.marks x hx hlast
    · obtain ⟨hdata', -, hsome, hends⟩ := hmarks x hx hlast
      exact ⟨hdata', hsome, le_trans hends hle⟩
  have hout' : data (s.out ++ passed) =
      upTo resource.bytes (bounds resource asked).1 (bounds resource asked).2
        (pos + (data bufs).length) := by
    rw [data_append, h.out, hout]
  have hlast : ctx.last = false := hgoing.last
  have hold :=
    @rank_reads conf _ _ ((requested conf req resource asked).length) _ _ h.context hfeed
  rw [if_pos trivial, Session.bodyFilter]
  simp only [h.context, hrun, hany, hlast, Bool.false_or]
  by_cases hmore : ending = .more
  · -- more is to come
    have hfalse : decide (ending ≠ .more) = false := decide_eq_false (not_not.mpr hmore)
    rw [hfalse, Session.proceed, if_pos hmore]
    simp only [Bool.false_eq_true, not_false_eq_true, if_true]
    refine ⟨_, rfl, .main ⟨rfl, h.running, h.etag, hout', hmarks', h.requests, h.total⟩ hle ?_
      ⟨hgoing.start, hgoing.stop, hgoing.active, rfl⟩ hsr hat, ?_, fun hspecial => ?_⟩
    · exact congrArg (Feed.reads true) hrest
    · rw [hold, rank_reads rfl rfl]
      have hless := congrArg List.length hsplit
      rw [length_append] at hless
      simp only
      omega
    · rw [hmore] at hspecial
      cases hspecial
  · have htrue : decide (ending ≠ .more) = true := decide_eq_true hmore
    have hnil : rest = [] := by
      by_contra hne
      exact hcome ⟨hmore, hne⟩
    have hall : pos + (data bufs).length = answerEnd conf req resource := by
      have hlength := congrArg List.length hrest
      rw [hnil, length_nil, length_drop, length_take, min_eq_left hend] at hlength
      omega
    rw [hall, hserved.next_spec.2] at hout'
    rw [hall] at hat
    rw [htrue, if_neg hmore]
    have hongoing : Ongoing conf req resource asked
        { s with ctx := some { ctx with last := true }, mainRange := range', out := s.out ++
          passed, feed := .nothing }
        { ctx with last := true } (nextSlice conf req resource asked) [firstSlice conf req]
        (slicesFrom conf.size (nextSlice conf req resource asked) (bounds resource asked).2) :=
      ⟨rfl, h.running, h.etag, hout', hmarks', h.requests, h.total⟩
    obtain ⟨s', hproceed, hphase, hrank, -⟩ := hongoing.proceed hserved hserved.next_spec.1 rfl
      ⟨hgoing.start, hgoing.stop, hgoing.active, rfl⟩ (.of_at hat hend) buffered
    have hnothing := @rank_nothing_le conf
      { s with ctx := some { ctx with last := true }, mainRange := range', out := s.out ++
        passed, feed := .nothing }
      _ ((requested conf req resource asked).length) rfl rfl
    simp only at hnothing
    refine ⟨s', ?_, hphase, by omega, fun _ _ => by omega⟩
    rw [← hproceed, Session.proceed, Session.proceed]

/-- A read of a later slice passes on what it has of the range. -/
theorem received_sub (hserved : Served conf req resource asked) {next : Nat} {sent : List Nat}
    (h : Ongoing conf req resource asked s ctx pos sent
      (slicesFrom conf.size next (bounds resource asked).2))
    (hpos : pos ≤ next) (hnext : next ≤ resource.bytes.length)
    (hfeed : s.feed = .reads false ((resource.bytes.take next).drop pos))
    (hgoing : Going resource asked ctx next true true)
    (hsr : ctx.sr = some false) (hrange : MainRange resource asked s)
    (hsub : RangeAt s.subRange asked pos) (cuts : List Nat)
    (ending : Ending) (buffered : Bool) :
    ∃ s', s.received conf false ((resource.bytes.take next).drop pos) cuts ending buffered =
      some s' ∧
      Phase conf req resource asked s' ∧
      rank conf (requested conf req resource asked).length s' ≤
        rank conf (requested conf req resource asked).length s ∧
      (ending = .special → (cut cuts ((resource.bytes.take next).drop pos)).2 = [] →
        rank conf (requested conf req resource asked).length s' <
          rank conf (requested conf req resource asked).length s) := by
  obtain ⟨hsplit, hbufs⟩ := cut_spec cuts ((resource.bytes.take next).drop pos)
  rw [Session.received]
  generalize cut cuts ((resource.bytes.take next).drop pos) = pieces at hsplit hbufs ⊢
  obtain ⟨bufs, rest⟩ := pieces
  obtain ⟨hfront, hrest, hle⟩ := split_left hsplit hpos hnext
  simp only at hsplit hfront hrest hle ⊢
  split
  · next hwait =>
      exact ⟨s, rfl, .sub h hpos hnext hfeed hgoing hsr hrange hsub, le_rfl,
        fun hspecial hnil => absurd hnil hwait.2⟩
  next hcome =>
  split
  · next hmark =>
    exact ⟨s, rfl, .sub h hpos hnext hfeed hgoing hsr hrange hsub, le_rfl, fun hspecial => by
      rw [hmark.1] at hspecial
      cases hspecial⟩
  have hplain : ∀ x ∈ chain false ending bufs, Plain x := by
    intro x hx
    obtain ⟨hlast, hdata⟩ := chain_spec hbufs x hx
    refine ⟨Bool.eq_false_iff.mpr fun htrue => ?_, hdata⟩
    exact Bool.false_ne_true (hlast htrue)
  have hdata : data (chain false ending bufs) =
    (resource.bytes.drop pos).take (data bufs).length := by
    rw [data_chain]
    exact hfront
  obtain ⟨passed, range', hrun, hat, hout, hmarks⟩ := @rangeBodyFilter_spec false _ _ _ _ _ _ hsub
    hserved.asks.bounds_lt.1 hplain hdata (by omega)
  have hmarks' : ∀ x ∈ s.out ++ passed, MarkOk conf req resource asked x := by
    intro x hx hlast
    rcases mem_append.mp hx with hx | hx
    · exact h.marks x hx hlast
    · obtain ⟨-, hmain, -⟩ := hmarks x hx hlast
      cases hmain
  have hout' : data (s.out ++ passed) =
      upTo resource.bytes (bounds resource asked).1 (bounds resource asked).2
        (pos + (data bufs).length) := by
    rw [data_append, h.out, hout]
  have hold :=
    @rank_reads conf _ _ ((requested conf req resource asked).length) _ _ h.context hfeed
  have hless := congrArg List.length hsplit
  rw [length_append] at hless
  rw [if_neg Bool.false_ne_true, hrun]
  by_cases hmore : ending = .more
  · simp only [if_pos hmore, map_some]
    refine ⟨_, rfl,
      .sub ⟨h.context, h.running, h.etag, hout', hmarks', h.requests, h.total⟩
      hle hnext ?_ hgoing hsr hrange hat,
      ?_, fun hspecial => ?_⟩
    · exact congrArg (Feed.reads false) hrest
    · have hnew := @rank_reads conf
        { s with feed := .reads false rest, subRange := range', out := s.out ++ passed }
        ctx ((requested conf req resource asked).length) _ _ h.context rfl
      rw [hold, hnew]
      simp only
      omega
    · rw [hmore] at hspecial
      cases hspecial
  · have hnil : rest = [] := by
      by_contra hne
      exact hcome ⟨hmore, hne⟩
    have hall : pos + (data bufs).length = next := by
      have hlength := congrArg List.length hrest
      rw [hnil, length_nil, length_drop, length_take, min_eq_left hnext] at hlength
      omega
    rw [hall] at hout'
    simp only [if_neg hmore, map_some]
    have hnothing := @rank_nothing_le conf
      { s with feed := .nothing, subRange := range', out := s.out ++ passed }
        ctx ((requested conf req resource asked).length) h.context rfl
    simp only at hnothing
    exact ⟨_, rfl,
      .between ⟨h.context, h.running, h.etag, hout', hmarks', h.requests, h.total⟩
      hnext rfl hgoing hrange,
      by omega, fun _ _ => by omega⟩

/-! ## The first request -/

theorem start_phase (hserved : Served conf req resource asked) :
    ∃ s, Session.start conf req = some s ∧ Phase conf req resource asked s := by
  obtain ⟨g, -, hg, hfirst⟩ := hserved.asks.firstSlice_eq conf
  have hslice : (conf.size : Int) * ((g : Int) / conf.size) = (firstSlice conf req : Nat) := by
    rw [hfirst, Nat.cast_mul, Int.natCast_div]
  have hctx : newCtx conf req =
      some { start := (firstSlice conf req : Nat), range := sliceBounds conf (firstSlice conf req)
        } := by
    rw [newCtx, hg]
    simp only [bind_eq_bind, bind_some]
    rw [hslice, sliceRange_eq hserved.size hserved.first_fits]
    rfl
  refine ⟨_, by
    rw [Session.start, hctx]; rfl,
      .first ⟨rfl, rfl, .inl rfl, ?_, fun x hx => absurd hx not_mem_nil, rfl, ?_⟩ rfl
    rfl rfl rfl rfl⟩
  · rw [upTo_of_le hserved.first_le]
    rfl
  · exact hserved.requested_cons.symm

/-! ## The main request is run again -/

theorem proceed_waits (buffered : Bool) (h : ctx.last = false ∨ ctx.sr = some false)
    (hctx : s.ctx = some ctx) :
    s.proceed conf ctx buffered = some s := by
  have hsame : { s with ctx := some ctx } = s := by rw [← hctx]
  rw [Session.proceed, hsame]
  cases hlast : ctx.last with
  | false => rfl
  | true =>
    have hsr : ctx.sr = some false := h.resolve_left fun hnot => by
      rw [hlast] at hnot
      cases hnot
    simp only [not_true_eq_false, if_false, if_pos hsr]

theorem bodyFilter_nil (hctx : s.ctx = some ctx) (buffered : Bool) :
    s.bodyFilter conf [] buffered = s.proceed conf ctx buffered := by
  have hlast : { ctx with last := ctx.last || ([] : List Buf).any Buf.lastBuf } = ctx := by
    rw [any_nil, Bool.or_false]
  rw [Session.bodyFilter, hctx]
  simp only [map_nil, rangeBodyFilter_nil, hlast, append_nil]
  rw [Session.proceed, Session.proceed, ← hctx]

theorem bodyFilter_nil_none (hctx : s.ctx = none) (buffered : Bool) :
    s.bodyFilter conf [] buffered = some s := by
  rw [Session.bodyFilter, hctx]
  simp only [rangeBodyFilter_nil, map_some, append_nil]
  rw [← hctx]

/-! ## Every event -/

/-- An event leads to a phase, and nothing is to be done again. -/
def Leads (conf : Conf) (req : Request) (resource : Resource)
    (asked : Option (Nat × Nat)) (s : Session) (event : Event) : Prop :=
  ∃ s', s.step conf req event = some s' ∧ Phase conf req resource asked s' ∧
    rank conf (requested conf req resource asked).length s' ≤
      rank conf (requested conf req resource asked).length s

theorem Leads.same (h : Phase conf req resource asked s) {event : Event}
    (hstep : s.step conf req event = some s) :
    Leads conf req resource asked s event := ⟨s, hstep, h, le_rfl⟩

section Events

variable (hserved : Served conf req resource asked)

include hserved in
theorem Phase.header (h : Phase conf req resource asked s) {a : Answer}
    (hright : Right resource s (.header a)) :
    Leads conf req resource asked s (.header a) := by
  have same := @Leads.same _ _ _ _ _ h
  cases h with
  | first h hfeed hstart hlast hsr hrange =>
    obtain ⟨s', hstep, hphase, hrank⟩ :=
      answered_first hserved h hfeed hstart hlast hsr hrange hright
    exact ⟨s', by unfold Session.step; rw [h.running, hfeed]; exact hstep, hphase, hrank.le⟩
  | main h _ hfeed => exact same (by unfold Session.step; rw [h.running, hfeed]; rfl)
  | between h _ hfeed => exact same (by unfold Session.step; rw [h.running, hfeed]; rfl)
  | awaiting h ht hfeed hgoing hsr hrange =>
    obtain ⟨s', hstep, hphase, hrank⟩ := answered_sub hserved h ht hfeed hgoing hsr hrange hright
    exact ⟨s', by unfold Session.step; rw [h.running, hfeed]; exact hstep, hphase, hrank.le⟩
  | sub h _ _ hfeed => exact same (by unfold Session.step; rw [h.running, hfeed]; rfl)
  | finished _ hrunning hfeed => exact same (by unfold Session.step; rw [hrunning, hfeed]; rfl)

include hserved in
theorem Phase.body (h : Phase conf req resource asked s) (cuts : List Nat)
    (ending : Ending) (buffered : Bool) :
    Leads conf req resource asked s (.body cuts ending buffered) := by
  have same := @Leads.same _ _ _ _ _ h
  cases h with
  | first h hfeed => exact same (by unfold Session.step; rw [h.running, hfeed]; rfl)
  | main h hpos hfeed hgoing hsr hrange =>
    obtain ⟨s', hstep, hphase, hrank, -⟩ :=
      received_main hserved h hpos hfeed hgoing hsr hrange cuts ending buffered
    exact ⟨s', by unfold Session.step; rw [h.running, hfeed]; exact hstep, hphase, hrank⟩
  | between h _ hfeed => exact same (by unfold Session.step; rw [h.running, hfeed]; rfl)
  | awaiting h _ hfeed => exact same (by unfold Session.step; rw [h.running, hfeed]; rfl)
  | sub h hpos hnext hfeed hgoing hsr hrange hsub =>
    obtain ⟨s', hstep, hphase, hrank, -⟩ :=
      received_sub hserved h hpos hnext hfeed hgoing hsr hrange hsub cuts ending buffered
    exact ⟨s', by unfold Session.step; rw [h.running, hfeed]; exact hstep, hphase, hrank⟩
  | finished _ hrunning hfeed => exact same (by unfold Session.step; rw [hrunning, hfeed]; rfl)

/-- The subrequest is done. -/
theorem Ongoing.done {next : Nat} {sent : List Nat}
    (h : Ongoing conf req resource asked s ctx next sent
      (slicesFrom conf.size next (bounds resource asked).2))
    (hnext : next ≤ resource.bytes.length) (hfeed : s.feed = .nothing)
    (hgoing : Going resource asked ctx next true true)
    (hrange : MainRange resource asked s) :
    ∃ s', s.step conf req .done = some s' ∧ Phase conf req resource asked s' ∧
      rank conf (requested conf req resource asked).length s' ≤
        rank conf (requested conf req resource asked).length s ∧
      (ctx.sr = some false →
        rank conf (requested conf req resource asked).length s' <
          rank conf (requested conf req resource asked).length s) := by
  have hstep : s.step conf req .done = some
    { s with ctx := some { ctx with sr := ctx.sr.map fun _ => true } } := by
    unfold Session.step
    rw [h.running, hfeed, h.context]
    rfl
  have hone : ∀ sr : Option Bool, sr.map (fun _ => true) ≠ some false := by
    intro sr hsr
    cases sr with
    | none => cases hsr
    | some done => cases hsr
  have hnew : rank conf (requested conf req resource asked).length
    { s with ctx := some { ctx with sr := ctx.sr.map fun _ => true } } =
      ((requested conf req resource asked).length - s.requests.length) * (conf.size + 5) + 1 := by
    rw [rank, hfeed]
    simp only [if_neg (hone ctx.sr)]
  have hold : rank conf (requested conf req resource asked).length s =
      ((requested conf req resource asked).length - s.requests.length) * (conf.size + 5) +
        (if ctx.sr = some false then 2 else 1) := by
    rw [rank, h.context, hfeed]
  refine ⟨_, hstep,
    .between ⟨rfl, h.running, h.etag, h.out, h.marks, h.requests, h.total⟩ hnext hfeed
    ⟨hgoing.start, hgoing.stop, hgoing.active, hgoing.last⟩ hrange, ?_, fun hsr => ?_⟩
  · rw [hnew, hold]
    split <;> omega
  · rw [hnew, hold, if_pos hsr]
    omega

theorem Phase.done (h : Phase conf req resource asked s) :
    Leads conf req resource asked s .done := by
  have same := @Leads.same _ _ _ _ _ h
  cases h with
  | first h hfeed => exact same (by unfold Session.step; rw [h.running, hfeed]; rfl)
  | main h _ hfeed => exact same (by unfold Session.step; rw [h.running, hfeed]; rfl)
  | between h hnext hfeed hgoing hrange =>
    obtain ⟨s', hstep, hphase, hrank, -⟩ := h.done hnext hfeed hgoing hrange
    exact ⟨s', hstep, hphase, hrank⟩
  | awaiting h _ hfeed => exact same (by unfold Session.step; rw [h.running, hfeed]; rfl)
  | sub h _ _ hfeed => exact same (by unfold Session.step; rw [h.running, hfeed]; rfl)
  | finished hctx hrunning hfeed =>
    exact same (by unfold Session.step; rw [hrunning, hfeed, hctx]; rfl)

theorem step_wake (hrunning : s.closed = false) (buffered : Bool) :
    s.step conf req (.wake buffered) = s.bodyFilter conf [] buffered := by
  unfold Session.step
  rw [hrunning]
  rfl

include hserved in
theorem Phase.wake (h : Phase conf req resource asked s) (buffered : Bool) :
    Leads conf req resource asked s (.wake buffered) := by
  have same := @Leads.same _ _ _ _ _ h
  cases h with
  | first h _ _ hlast =>
    apply same
    rw [step_wake h.running, bodyFilter_nil h.context,
      proceed_waits buffered (.inl hlast) h.context]
  | main h _ _ hgoing =>
    apply same
    rw [step_wake h.running, bodyFilter_nil h.context,
      proceed_waits buffered (.inl hgoing.last) h.context]
  | between h hnext hfeed hgoing hrange =>
    obtain ⟨s', hstep, hphase, hrank, -⟩ := h.proceed hserved hnext hfeed hgoing hrange buffered
    exact ⟨s', by rw [step_wake h.running, bodyFilter_nil h.context]; exact hstep, hphase, hrank⟩
  | awaiting h _ _ _ hsr =>
    apply same
    rw [step_wake h.running, bodyFilter_nil h.context, proceed_waits buffered (.inr hsr) h.context]
  | sub h _ _ _ _ hsr =>
    apply same
    rw [step_wake h.running, bodyFilter_nil h.context, proceed_waits buffered (.inr hsr) h.context]
  | finished hctx hrunning =>
    apply same
    rw [step_wake hrunning, bodyFilter_nil_none hctx]

include hserved in
theorem Phase.step (h : Phase conf req resource asked s) (event : Event)
    (hright : Right resource s event) :
    Leads conf req resource asked s event := by
  cases event with
  | header a => exact h.header hserved hright
  | body cuts ending buffered => exact h.body hserved cuts ending buffered
  | done => exact h.done
  | wake buffered => exact h.wake hserved buffered

include hserved in
theorem Run.phase (h : Run conf req resource s) : Phase conf req resource asked s := by
  induction h with
  | start h =>
    obtain ⟨s', hstart, hphase⟩ := start_phase hserved
    rw [h, some.injEq] at hstart
    rw [hstart]
    exact hphase
  | step h event hright hstep ih =>
    obtain ⟨s', hstep', hphase, -⟩ := ih.step hserved event hright
    rw [hstep, some.injEq] at hstep'
    rw [hstep']
    exact hphase

end Events

end Nginx.Http.Slice
