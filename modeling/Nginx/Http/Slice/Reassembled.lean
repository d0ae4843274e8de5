/-
  Http/Slice/Reassembled.lean --- slices make up the resource again, and no other bytes.
-/
import Nginx.Http.Slice.Rejected
import Nginx.Http.Slice.Served

set_option autoImplicit false

namespace Nginx.Http.Slice

open List Foundation Option
open Http.Parse (isDigit)

variable {conf : Conf} {req : Request} {resource : Resource}
    {asked : Option (Nat × Nat)} {s s' : Session} {ctx : Ctx}

/-! ## Any answers -/

/-- What holds with any answers: the `ETag` is that of the answers that have one, and what is
awaited is the slice of the context. -/
structure Kept (conf : Conf) (answers : List Answer) (s : Session) : Prop where
  etag : ∀ ctx, s.ctx = some ctx → ∀ b ∈ answers, ∀ e, e ≠ [] → b.etag = some e → ctx.etag = e
  awaits : ∀ main, s.feed = .awaits main → ∃ ctx, s.ctx = some ctx ∧
    (ctx.last = false ∨ ctx.sr = some false) ∧
    s.requests.getLast? = some (ctx.start, ctx.start + conf.size - 1)

theorem sliceRange_some {start : Int} {range : Int × Int} (h : sliceRange conf start = some range) :
    range = (start, start + conf.size - 1) := by
  rw [sliceRange] at h
  cases hnext : offT (start + conf.size) with
  | none =>
    rw [hnext] at h
    cases h
  | some next =>
    cases hlast : offT (next - 1) with
    | none =>
      rw [hnext, bind_eq_bind, bind_some, hlast] at h
      cases h
    | some last =>
      rw [hnext, bind_eq_bind, bind_some, hlast] at h
      rw [← some.inj h, offT_some hlast, offT_some hnext]

variable {buffered : Bool}

theorem proceed_cases (h : s.proceed conf ctx buffered = some s') :
    (s'.ctx = some ctx ∧ s'.feed = s.feed ∧ s'.requests = s.requests) ∨
      (s'.ctx = none ∧ s'.feed = s.feed ∧ ctx.last = true ∧ ctx.sr ≠ some false) ∨
      ∃ ctx' range, s'.ctx = some ctx' ∧ ctx'.etag = ctx.etag ∧
        ctx'.sr = some false ∧ s'.feed = .awaits false ∧
        s'.requests = s.requests ++ [range] ∧ range = (ctx'.start, ctx'.start + conf.size - 1) := by
  rw [Session.proceed] at h
  split at h
  · exact .inl ⟨by rw [← some.inj h], by rw [← some.inj h], by rw [← some.inj h]⟩
  next hlast =>
  split at h
  · exact .inl ⟨by rw [← some.inj h], by rw [← some.inj h], by rw [← some.inj h]⟩
  next hsr =>
  split at h
  · exact .inl ⟨by rw [← some.inj h], by rw [← some.inj h], by rw [← some.inj h]⟩
  split at h
  · obtain ⟨passed, -, rfl⟩ := map_eq_some_iff.mp h
    exact .inr (.inl ⟨rfl, rfl, by simpa using hlast, hsr⟩)
  · split at h
    · exact .inl ⟨by rw [← some.inj h], by rw [← some.inj h], by rw [← some.inj h]⟩
    · obtain ⟨range, hrange, rfl⟩ := map_eq_some_iff.mp h
      exact .inr (.inr ⟨_, range, rfl, rfl, rfl, rfl, rfl, sliceRange_some hrange⟩)

theorem Kept.start (h : Session.start conf req = some s) : Kept conf [] s := by
  obtain ⟨ctx, hctx, rfl⟩ := map_eq_some_iff.mp h
  refine ⟨fun _ _ b hb => absurd hb not_mem_nil, fun main _ => ⟨ctx, rfl, ?_⟩⟩
  rw [newCtx] at hctx
  obtain ⟨first, -, hctx⟩ := bind_eq_some_iff.mp hctx
  obtain ⟨range, hrange, hctx⟩ := bind_eq_some_iff.mp hctx
  rw [← some.inj hctx]
  exact ⟨.inl rfl, congrArg some (sliceRange_some hrange)⟩

variable {answers : List Answer}

theorem Kept.proceed (hetag : ∀ b ∈ answers, ∀ e, e ≠ [] → b.etag = some e → ctx.etag = e)
    (hawaits : ∀ main, s.feed ≠ .awaits main) (h : s.proceed conf ctx buffered = some s') :
    Kept conf answers s' := by
  rcases proceed_cases h
    with ⟨hctx, hfeed, -⟩ | ⟨hctx, hfeed, -⟩ | ⟨ctx', range, hctx, hsame, hsr,
    hfeed, hrequests, hrange⟩
  · refine ⟨fun c hc => ?_, fun main hmain => absurd (hfeed.symm.trans hmain) (hawaits main)⟩
    rw [hctx, some.injEq] at hc
    rw [← hc]
    exact hetag
  · refine ⟨fun c hc => ?_, fun main hmain => absurd (hfeed.symm.trans hmain) (hawaits main)⟩
    rw [hctx] at hc
    cases hc
  · refine ⟨fun c hc b hb e hne hb' => ?_, fun main _ => ⟨ctx', hctx, .inr hsr, ?_⟩⟩
    · rw [hctx, some.injEq] at hc
      rw [← hc, hsame]
      exact hetag b hb e hne hb'
    · rw [hrequests, getLast?_concat, hrange]

theorem Kept.bodyFilter {bufs : List Buf}
    (hetag : ∀ ctx, s.ctx = some ctx → ∀ b ∈ answers, ∀ e, e ≠ [] → b.etag = some e → ctx.etag = e)
    (hawaits : ∀ main, s.feed ≠ .awaits main) (h : s.bodyFilter conf bufs buffered = some s') :
    Kept conf answers s' := by
  rw [Session.bodyFilter] at h
  cases hctx : s.ctx with
  | none =>
    rw [hctx] at h
    obtain ⟨passed, -, rfl⟩ := map_eq_some_iff.mp h
    exact ⟨fun c hc => (by cases hc), fun main hmain => absurd hmain (hawaits main)⟩
  | some ctx =>
    rw [hctx] at h
    simp only at h
    split at h
    · cases h
    · refine Kept.proceed ?_ ?_ h
      · exact hetag ctx hctx
      · exact hawaits

variable {a : Answer}

theorem etag_kept (hetag : ∀ b ∈ answers, ∀ e, e ≠ [] → b.etag = some e → ctx.etag = e)
    (hmatch : etagMismatch ctx a = false) :
    ∀ b ∈ answers ++ [a], ∀ e, e ≠ [] → b.etag = some e → a.etag.getD ctx.etag = e := by
  rw [etagMismatch, decide_eq_false_iff_not] at hmatch
  intro b hb e hne hb'
  rcases mem_append.mp hb with hb | hb
  · have hold := hetag b hb e hne hb'
    rw [hold] at hmatch
    have hsame : a.etag = some e := by
      by_contra hother
      exact hmatch ⟨hne, hother⟩
    rw [hsame]
    rfl
  · rw [mem_singleton.mp hb] at hb'
    rw [hb']
    rfl

variable {main : Bool}

theorem step_header (hrunning : s.closed = false) (hfeed : s.feed = .awaits main) (a : Answer) :
    s.step conf req (.header a) = s.answered conf req main a := by
  unfold Session.step
  rw [hrunning, hfeed]
  rfl

theorem step_closed (h : s.closed = true) (event : Event) : s.step conf req event = some s := by
  unfold Session.step
  rw [h]
  rfl

theorem Kept.answered (h : Kept conf answers s)
    (hstep : s.answered conf req main a = some s') (hpassed : s'.closed = false)
    (hfeed : s.feed = .awaits main) :
    Kept conf (answers ++ [a]) s' := by
  obtain ⟨ctx, hctx, -⟩ := h.awaits main hfeed
  rw [Session.answered, hctx] at hstep
  simp only at hstep
  split at hstep
  · cases hstep
  · rw [← some.inj hstep]
    exact ⟨fun c hc => (by cases hc), fun main hmain => (by cases hmain)⟩
  · rw [← some.inj hstep] at hpassed
    cases hpassed
  · rw [← some.inj hstep] at hpassed
    cases hpassed
  next ctx' range out hsent =>
  obtain ⟨hmatch, hetag, -⟩ := headerFilter_sent hsent
  have hkept := etag_kept (h.etag ctx hctx) hmatch
  rw [← hetag] at hkept
  split at hstep
  · rw [← some.inj hstep]
    refine ⟨fun c hc => ?_, fun main hmain => by cases hmain⟩
    rw [← some.inj hc]
    exact hkept
  · rw [← some.inj hstep]
    refine ⟨fun c hc => ?_, fun main hmain => by cases hmain⟩
    rw [← some.inj hc]
    exact hkept

theorem Kept.other {event : Event} (h : Kept conf answers s) (hother : ∀ a, event ≠ .header a)
    (hstep : s.step conf req event = some s') : Kept conf answers s' := by
  cases hclosed : s.closed with
  | true =>
    rw [step_closed hclosed, some.injEq] at hstep
    exact hstep ▸ h
  | false =>
    unfold Session.step at hstep
    rw [hclosed] at hstep
    simp only [Bool.false_eq_true, if_false] at hstep
    split at hstep
    · exact absurd rfl (hother _)
    · next cuts ending buffered main left hfeed =>
      have hreads : ∀ feed : Feed,
        feed = (if ending = .more then Feed.reads main (cut cuts left).2 else .nothing) →
          ∀ main', feed ≠ .awaits main' := by
        intro feed hfeed' main' hnot
        rw [hnot] at hfeed'
        split at hfeed' <;> cases hfeed'
      rw [Session.received] at hstep
      simp only at hstep
      split at hstep
      · rw [← some.inj hstep]
        exact h
      split at hstep
      · rw [← some.inj hstep]
        exact h
      split at hstep
      · refine Kept.bodyFilter ?_ ?_ hstep
        · exact h.etag
        · exact hreads _ rfl
      · obtain ⟨passed, -, rfl⟩ := map_eq_some_iff.mp hstep
        exact ⟨h.etag, fun main' hmain => absurd hmain (hreads _ rfl main')⟩
    · next hfeed =>
      split at hstep
      · rw [← some.inj hstep]
        exact h
      next ctx hctx =>
      rw [← some.inj hstep]
      refine ⟨fun c hc => ?_, fun main hmain => by cases hfeed.symm.trans hmain⟩
      rw [← some.inj hc]
      exact h.etag ctx hctx
    · next buffered =>
      cases hfeed : s.feed with
      | awaits main =>
        obtain ⟨ctx, hctx, hwaits, -⟩ := h.awaits main hfeed
        rw [bodyFilter_nil hctx, proceed_waits buffered hwaits hctx, some.injEq] at hstep
        exact hstep ▸ h
      | reads main left =>
        exact Kept.bodyFilter h.etag (fun main' hmain => by cases hfeed.symm.trans hmain) hstep
      | nothing =>
        exact Kept.bodyFilter h.etag (fun main' hmain => by cases hfeed.symm.trans hmain) hstep
    · rw [← some.inj hstep]
      exact h

theorem Passing.kept {answers : List Answer} (h : Passing conf req answers s) :
    Kept conf answers s := by
  induction h with
  | start h => exact .start h
  | @answer answers s s' main h hfeed a hstep hpassed ih =>
    have hrunning : s.closed = false := by
      cases hclosed : s.closed with
      | false => rfl
      | true =>
        rw [step_closed hclosed, some.injEq] at hstep
        rw [← hstep, hclosed] at hpassed
        cases hpassed
    rw [step_header hrunning hfeed] at hstep
    exact ih.answered hstep hpassed hfeed
  | other h event hother hstep ih => exact ih.other hother hstep

theorem sendHeader_ne_plain {mainRanges : Option (List HttpRange)} {cr : ContentRange} :
    sendHeader conf req main mainRanges ctx a cr ≠ some .plain := by
  intro h
  have hmapped : ∀ {complete : Int} {out : HeadersOut} {range : Option RangeCtx},
      ((mainEnd conf ctx complete out).map fun ctx => HeaderRc.sent ctx range out) ≠
        some .plain := by
    intro complete out range hmap
    obtain ⟨ctx', -, heq⟩ := map_eq_some_iff.mp hmap
    cases heq
  rw [sendHeader] at h
  split at h
  · cases h
  · cases h
  · cases h
  · split at h
    · exact hmapped h
    · cases h
  · split at h
    · exact hmapped h
    · cases h

theorem headerFilter_ne_plain {mainRanges : Option (List HttpRange)} (hstatus : a.status = 206) :
    headerFilter conf req main mainRanges ctx a ≠ some .plain := by
  intro h
  rw [headerFilter, if_neg (not_not.mpr hstatus)] at h
  split at h
  · cases h
  split at h
  · cases h
  · cases h
  split at h
  · cases h
  split at h
  · cases h
  · simp only at h
    split at h
    · cases h
    · exact sendHeader_ne_plain h

theorem Passing.rejects (h : Passing conf req answers s) : Rejects conf req answers s := by
  intro main a s' hrunning hfeed hstatus hstep hbad
  obtain ⟨ctx, hctx, -, hlast⟩ := h.kept.awaits main hfeed
  rw [step_header hrunning hfeed, Session.answered, hctx] at hstep
  simp only at hstep
  split at hstep
  · cases hstep
  · next hplain =>
    exact absurd hplain (headerFilter_ne_plain hstatus)
  · rw [← some.inj hstep]
    exact ⟨rfl, rfl, fun event => step_closed rfl event⟩
  · rw [← some.inj hstep]
    exact ⟨rfl, rfl, fun event => step_closed rfl event⟩
  next ctx' range out hsent =>
  obtain ⟨hmatch, -, hstates⟩ := headerFilter_sent hsent
  rcases hbad with ⟨b, hb, e, hne, hb', hother⟩ | ⟨range', hrange', hnot⟩
  · have hsame := h.kept.etag ctx hctx b hb e hne hb'
    rw [etagMismatch, decide_eq_false_iff_not, hsame] at hmatch
    exact absurd ⟨hne, hother⟩ hmatch
  · rw [hlast] at hrange'
    rw [← some.inj hrange'] at hnot
    exact absurd hstates hnot

/-! ## Right answers -/

theorem exists_number :
    ∀ {n : Nat}, (n : Int) ≤ maxOffT → ∃ digits, Number digits ∧ decimal digits = n := by
  intro n
  induction n using Nat.strongRecOn with
  | _ n ih =>
    intro hmax
    have hdigit : ∀ d, d < 10 → isDigit (chr '0' + UInt8.ofNat d) = true ∧
      digitValue (chr '0' + UInt8.ofNat d) = d := by
      decide
    by_cases hsmall : n < 10
    · obtain ⟨hd, hvalue⟩ := hdigit n hsmall
      have hdecimal : decimal [chr '0' + UInt8.ofNat n] = n := by
        rw [decimal, foldl_cons, foldl_nil, hvalue]
        omega
      refine ⟨[chr '0' + UInt8.ofNat n],
        ⟨cons_ne_nil _ _, fun ch hch => ?_, by rw [hdecimal]; exact hmax⟩, hdecimal⟩
      rw [mem_singleton.mp hch]
      exact hd
    · obtain ⟨digits, hnumber, hvalue⟩ := ih (n / 10) (by omega) (by omega)
      obtain ⟨hd, hlast⟩ := hdigit (n % 10) (Nat.mod_lt _ (by decide))
      have hdecimal : decimal (digits ++ [chr '0' + UInt8.ofNat (n % 10)]) = n := by
        rw [decimal] at hvalue
        rw [decimal, foldl_append, hvalue, foldl_cons, foldl_nil, hlast]
        omega
      refine ⟨digits ++ [chr '0' + UInt8.ofNat (n % 10)],
        ⟨?_, fun ch hch => ?_, by rw [hdecimal]; exact hmax⟩, hdecimal⟩
      · exact append_ne_nil_of_left_ne_nil hnumber.ne_nil _
      · rcases mem_append.mp hch with hch | hch
        · exact hnumber.digit ch hch
        · rw [mem_singleton.mp hch]
          exact hd

theorem exists_answer {t : Nat} (ht : t < resource.bytes.length) (hsize : 0 < conf.size) :
    ∃ a, Answers resource t (t + conf.size - 1) a := by
  have hfits := resource.fits
  obtain ⟨da, ha, hda⟩ := exists_number (n := t) (by omega)
  obtain ⟨db, hb, hdb⟩ :=
    exists_number (n := min (t + conf.size - 1) (resource.bytes.length - 1)) (by omega)
  obtain ⟨dc, hc, hdc⟩ := exists_number (n := resource.bytes.length) hfits
  exact ⟨⟨206, resource.etag, resource.lastModified,
    some (ascii "bytes " ++ (da ++ chr '-' :: (db ++ chr '/' :: dc))),
    (resource.bytes.take (t + conf.size - 1 + 1)).drop t⟩, ⟨ht, by omega⟩, rfl, rfl, rfl,
    ⟨_, rfl, da, db, dc, ha, hb, hc, hda, hdb, hdc, rfl⟩, rfl⟩

theorem right_of_answers {a : Answer} {t : Nat} {sent : List Nat}
    (h : Answers resource t (t + conf.size - 1) a)
    (hsize : 0 < conf.size) (hrequests : s.requests = (sent ++ [t]).map (sliceBounds conf)) :
    Right resource s (.header a) := by
  intro a' ha' range hrange
  cases ha'
  rw [hrequests, map_append, map_singleton, getLast?_concat] at hrange
  rw [← some.inj hrange]
  have hend : ((t : Int) + conf.size - 1).toNat = t + conf.size - 1 := by omega
  simp only [sliceBounds, Int.toNat_natCast, hend]
  exact h

theorem right_of_ne {event : Event} (h : ∀ a, event ≠ .header a) :
    Right resource s event := fun a ha => absurd ha (h a)

theorem step_body (hrunning : s.closed = false) {left : Bytes}
    (hfeed : s.feed = .reads main left) (cuts : List Nat)
    (ending : Ending) (buffered : Bool) :
    s.step conf req (.body cuts ending buffered) =
      s.received conf main left cuts ending buffered := by
  unfold Session.step
  rw [hrunning, hfeed]
  rfl

theorem cut_all (left : Bytes) : (cut [left.length] left).2 = [] := drop_length

theorem Phase.progress (hserved : Served conf req resource asked)
    (h : Phase conf req resource asked s) (hctx : s.ctx ≠ none) :
    ∃ event s', Right resource s event ∧ s.step conf req event = some s' ∧
      rank conf (requested conf req resource asked).length s' <
        rank conf (requested conf req resource asked).length s := by
  cases h with
  | first h hfeed hstart hlast hsr hrange =>
    obtain ⟨a, ha⟩ := exists_answer hserved.first_lt hserved.size
    have hright := @right_of_answers _ _ _ _ _ [] ha hserved.size h.requests
    obtain ⟨s', hstep, -, hrank⟩ := answered_first hserved h hfeed hstart hlast hsr hrange hright
    exact ⟨.header a, s', hright, by rw [step_header h.running hfeed]; exact hstep, hrank⟩
  | @main ctx pos h hpos hfeed hgoing hsr hrange =>
    obtain ⟨s', hstep, -, -, hrank⟩ := received_main hserved h hpos hfeed hgoing hsr hrange
      [((resource.bytes.take (answerEnd conf req resource)).drop pos).length] .special false
    exact ⟨.body _ .special false, s', right_of_ne fun _ hnot =>
      (by cases hnot), by rw [step_body h.running hfeed]; exact hstep,
      hrank rfl (cut_all _)⟩
  | @between ctx next sent h hnext hfeed hgoing hrange =>
    by_cases hsr : ctx.sr = some false
    · obtain ⟨s', hstep, -, -, hrank⟩ := @Ongoing.done _ req _ _ _ _ _ _ h hnext hfeed hgoing hrange
      exact ⟨.done, s', right_of_ne fun _ hnot => (by cases hnot), hstep, hrank hsr⟩
    · obtain ⟨s', hstep, -, -, hrank⟩ := h.proceed hserved hnext hfeed hgoing hrange false
      exact ⟨.wake false, s', right_of_ne fun _ hnot => (by cases hnot),
        by rw [step_wake h.running, bodyFilter_nil h.context]; exact hstep, hrank rfl hsr⟩
  | awaiting h ht hfeed hgoing hsr hrange =>
    obtain ⟨a, ha⟩ := exists_answer (lt_of_lt_of_le ht hserved.asks.bounds_lt.2) hserved.size
    have hright := right_of_answers ha hserved.size h.requests
    obtain ⟨s', hstep, -, hrank⟩ := answered_sub hserved h ht hfeed hgoing hsr hrange hright
    exact ⟨.header a, s', hright, by rw [step_header h.running hfeed]; exact hstep, hrank⟩
  | @sub ctx pos next sent h hpos hnext hfeed hgoing hsr hrange hsub =>
    obtain ⟨s', hstep, -, -, hrank⟩ :=
      received_sub hserved h hpos hnext hfeed hgoing hsr hrange hsub
      [((resource.bytes.take next).drop pos).length] .special false
    exact ⟨.body _ .special false, s', right_of_ne fun _ hnot =>
      (by cases hnot), by rw [step_body h.running hfeed]; exact hstep,
      hrank rfl (cut_all _)⟩
  | finished hctx' => exact absurd hctx' hctx

/-- What a session has done: a beginning of what is asked for, from slices in order; at its end
all of it, and a last buffer.  It can always go on, and not for ever. -/
structure Reassembles (conf : Conf) (req : Request) (resource : Resource)
    (asked : Option (Nat × Nat)) (s : Session) : Prop where
  running : s.closed = false
  bytes : data s.out <+: wanted resource asked
  requests : s.requests <+: (requested conf req resource asked).map (sliceBounds conf)
  marks : s.ctx ≠ none → ∀ x ∈ s.out, MarkOk conf req resource asked x
  finished : s.ctx = none →
    s.requests = (requested conf req resource asked).map (sliceBounds conf) ∧
    ∃ out, s.out = out ++ [{ bytes := [], data := false, lastBuf := true }] ∧
      data out = wanted resource asked ∧
      ∀ x ∈ out, MarkOk conf req resource asked x
  step : ∀ event, Right resource s event → ∃ s', s.step conf req event = some s' ∧
    rank conf (requested conf req resource asked).length s' ≤
      rank conf (requested conf req resource asked).length s
  progress : s.ctx ≠ none → ∃ event s', Right resource s event ∧ s.step conf req event = some s' ∧
    rank conf (requested conf req resource asked).length s' <
      rank conf (requested conf req resource asked).length s

theorem Ongoing.prefixes {pos : Nat} {sent more : List Nat}
    (h : Ongoing conf req resource asked s ctx pos sent more) :
    data s.out <+: wanted resource asked ∧
      s.requests <+: (requested conf req resource asked).map (sliceBounds conf) ∧
      s.closed = false ∧ s.ctx ≠ none ∧ ∀ x ∈ s.out, MarkOk conf req resource asked x := by
  refine ⟨?_, ?_, h.running, by rw [h.context]; exact some_ne_none _, h.marks⟩
  · rw [h.out]
    exact upTo_prefix pos
  · rw [h.requests, ← h.total, map_append]
    exact prefix_append _ _

theorem Phase.reassembles (hserved : Served conf req resource asked)
    (h : Phase conf req resource asked s) :
    Reassembles conf req resource asked s := by
  have hstep : ∀ event, Right resource s event → ∃ s', s.step conf req event = some s' ∧
      rank conf (requested conf req resource asked).length s' ≤
        rank conf (requested conf req resource asked).length s := by
    intro event hright
    obtain ⟨s', hs', -, hrank⟩ := h.step hserved event hright
    exact ⟨s', hs', hrank⟩
  have hprogress := h.progress hserved
  have hongoing : ∀ {ctx : Ctx} {pos : Nat} {sent more : List Nat},
    Ongoing conf req resource asked s ctx pos sent more →
      Reassembles conf req resource asked s := by
    intro ctx pos sent more h
    obtain ⟨hbytes, hrequests, hrunning, hsome, hmarks⟩ := h.prefixes
    exact ⟨hrunning, hbytes, hrequests, fun _ => hmarks, fun hnone =>
      absurd hnone hsome, hstep, hprogress⟩
  cases h with
  | first h => exact hongoing h
  | main h => exact hongoing h
  | between h => exact hongoing h
  | awaiting h => exact hongoing h
  | sub h => exact hongoing h
  | @finished hctx hrunning hfeed out hout hdata hmarks hrequests hrange =>
    have hall : data s.out = wanted resource asked := by
      rw [hout, data_append, hdata]
      exact append_nil _
    exact ⟨hrunning, hall ▸ prefix_rfl, hrequests ▸ prefix_rfl, fun hsome => absurd hctx hsome,
      fun _ => ⟨hrequests, out, hout, hdata, hmarks⟩, hstep, hprogress⟩

/-- Slices make up the resource again, and answers that are not slices of it are not passed on. -/
theorem slices_reassemble (hsize : 0 < conf.size) (hsizeMax : (conf.size : Int) ≤ maxOffT)
    (hranges : conf.maxRanges = 0 → req.range = none) (hasks : Asks req resource asked)
    (hfits : Fits conf req resource asked) :
    (∃ s, Session.start conf req = some s) ∧
      (∀ s, Run conf req resource s → Reassembles conf req resource asked s) ∧
      ∀ answers s, Passing conf req answers s → Rejects conf req answers s := by
  have hserved : Served conf req resource asked := ⟨hsize, hsizeMax, hranges, hasks, hfits⟩
  obtain ⟨s, hstart, -⟩ := start_phase hserved
  exact ⟨⟨s, hstart⟩, fun s h => (h.phase hserved).reassembles hserved, fun _ _ h => h.rejects⟩

/-! ## Ten bytes in slices of four -/

def tenBytes : Resource := ⟨ascii "0123456789", none, none, by decide, by decide⟩

/-- A request for a range. -/
def rangeRequest (value : Bytes) : Request := ⟨1001, some value, none, fun _ => by decide⟩

theorem asks_closed {first last : Bytes} {a b : Nat} (ha : Number first) (hb : Number last)
    (hzero : cString (first ++ [chr '-'] ++ last) = first ++ [chr '-'] ++ last)
    {resource : Resource}
    (hselect : ByteRange.select resource.bytes.length (.closed (decimal first) (decimal last)) =
      some ⟨(a : Int), (b : Int)⟩)
    {value : Bytes} (hvalue : bytesRange value = some (first ++ [chr '-'] ++ last)) :
    Asks (rangeRequest value) resource (some (a, b)) := by
  have hnone : Spaces [] := fun ch hch => absurd hch not_mem_nil
  have helement : Element (first ++ [chr '-'] ++ last)
    (.closed (decimal first) (decimal last)) := by
    have h := Element.closed hnone ha hnone hnone hb hnone
    rwa [nil_append, append_nil, append_nil, append_nil] at h
  refine @Asks.range _ _ _ [.closed (decimal first) (decimal last)] _ _ hvalue ?_ ?_ rfl
  · rw [AsksFor, hzero]
    exact .last helement
  · rw [satisfiable_singleton, hselect]
    rfl

theorem number_of_all {digits : Bytes} (hne : digits ≠ []) (hall : digits.all isDigit = true)
    (hle : (decimal digits : Int) ≤ maxOffT) : Number digits := ⟨hne, all_eq_true.mp hall, hle⟩

set_option maxRecDepth 4000 in
theorem asks_fiveToEight : Asks (rangeRequest (ascii "bytes=5-8")) tenBytes (some (5, 9)) :=
  @asks_closed (ascii "5") (ascii "8") _ _ (number_of_all (by decide) (by decide) (by decide))
    (number_of_all (by decide) (by decide) (by decide)) (by decide) _
    (by decide) _ (by decide)

theorem slices_reassemble_fiveToEight :
    (∃ s, Session.start ⟨4, 1⟩ (rangeRequest (ascii "bytes=5-8")) = some s) ∧
      (∀ s, Run ⟨4, 1⟩ (rangeRequest (ascii "bytes=5-8")) tenBytes s →
        Reassembles ⟨4, 1⟩ (rangeRequest (ascii "bytes=5-8")) tenBytes (some (5, 9)) s) ∧
      ∀ answers s, Passing ⟨4, 1⟩ (rangeRequest (ascii "bytes=5-8")) answers s →
        Rejects ⟨4, 1⟩ (rangeRequest (ascii "bytes=5-8")) answers s := by
  have hrequested : requested ⟨4, 1⟩ (rangeRequest (ascii "bytes=5-8")) tenBytes (some (5, 9)) =
    [4, 8] := by decide
  refine slices_reassemble (by decide) (by decide)
    (fun hzero => by cases hzero) asks_fiveToEight ⟨fun t ht => ?_, fun _ => by decide⟩
  rw [hrequested] at ht
  rcases mem_cons.mp ht with rfl | ht
  · decide
  · rw [mem_singleton.mp ht]
    decide

/-- An answer from the ten bytes. -/
def tenAnswer (range : Bytes) (first stop : Nat) :
    Answer := ⟨206, none, none, some range, (tenBytes.bytes.take stop).drop first⟩

set_option maxRecDepth 4000 in
theorem ten_answers {a b : Bytes} {first last : Nat} (ha : Number a)
    (hb : Number b) (hfirst : decimal a = first)
    (hb' : decimal b = min last 9) (hlt : first < 10 ∧ first ≤ last) :
    Answers tenBytes first last
      (tenAnswer (ascii "bytes " ++ (a ++ chr '-' :: (b ++ chr '/' :: ascii "10"))) first
      (last + 1)) :=
  have hten : Number (ascii "10") := number_of_all (by decide) (by decide) (by decide)
  ⟨hlt, rfl, rfl, rfl, ⟨_, rfl, a, b, ascii "10", ha, hb, hten, hfirst, hb', by decide, rfl⟩, rfl⟩

theorem right_last {a : Answer} {first last : Nat} {sent : List (Int × Int)}
    (h : Answers resource first last a)
    (hrequests : s.requests = sent ++ [((first : Int), (last : Int))]) :
    Right resource s (.header a) := by
  intro a' ha' range hrange
  cases ha'
  rw [hrequests, getLast?_concat] at hrange
  rw [← some.inj hrange]
  exact h

set_option maxRecDepth 4000 in
theorem run_oneToTwo :
    ∃ s, Run ⟨4, 1⟩ (rangeRequest (ascii "bytes=1-2")) tenBytes s ∧ s.ctx = none ∧
    (s.out.filter Buf.lastBuf).length = 2 := by
  have hanswers :=
    @ten_answers (ascii "0") (ascii "3") 0 3 (number_of_all (by decide) (by decide) (by decide))
    (number_of_all (by decide) (by decide) (by decide)) (by decide) (by decide) (by decide)
  have hstart : Run ⟨4, 1⟩ (rangeRequest (ascii "bytes=1-2")) tenBytes
      { ctx := some { start := 0, range := (0, 3) }, feed := .awaits true, requests := [(0, 3)] } :=
        .start (by decide)
  have hread : Run ⟨4, 1⟩ (rangeRequest (ascii "bytes=1-2")) tenBytes
      { ctx := some { start := 4, stop := 3, range := (0, 3), active := true },
        feed := .reads true (ascii "0123"),
        requests := [(0, 3)], mainRange := some { ranges := [⟨1, 3⟩], offset := 0 } } :=
    hstart.step _ (@right_last _ _ _ _ _ [] hanswers rfl) (by decide)
  have hbody : Run ⟨4, 1⟩ (rangeRequest (ascii "bytes=1-2")) tenBytes
      { ctx := none, feed := .nothing, requests := [(0, 3)],
        mainRange := some { ranges := [⟨1, 3⟩], offset := 4 },
        out := [{ bytes := ascii "12", data := true, lastBuf := true, lastInChain := true },
          { bytes := [], data := false, lastBuf := true }] } :=
    hread.step (.body [4] .special false) (right_of_ne fun _ hnot => (by cases hnot)) (by decide)
  exact ⟨_, hbody, rfl, by decide⟩

set_option maxRecDepth 4000 in
/-- `max_ranges 0` and a range in a later slice: the response is not the resource, nor the range. -/
theorem run_fiveToSix :
    ∃ s, Run ⟨4, 0⟩ (rangeRequest (ascii "bytes=5-6")) tenBytes s ∧ s.ctx = none ∧
    data s.out = ascii "456789" := by
  have hfirst :=
    @ten_answers (ascii "4") (ascii "7") 4 7 (number_of_all (by decide) (by decide) (by decide))
    (number_of_all (by decide) (by decide) (by decide)) (by decide) (by decide) (by decide)
  have hsecond :=
    @ten_answers (ascii "8") (ascii "9") 8 11 (number_of_all (by decide) (by decide) (by decide))
    (number_of_all (by decide) (by decide) (by decide)) (by decide) (by decide) (by decide)
  have hstart : Run ⟨4, 0⟩ (rangeRequest (ascii "bytes=5-6")) tenBytes
      { ctx := some { start := 4, range := (4, 7) }, feed := .awaits true, requests := [(4, 7)] } :=
        .start (by decide)
  have hread : Run ⟨4, 0⟩ (rangeRequest (ascii "bytes=5-6")) tenBytes
      { ctx := some { start := 8, stop := 10, range := (4, 7), active := true },
        feed := .reads true (ascii "4567"),
        requests := [(4, 7)] } :=
    hstart.step _ (@right_last _ _ _ _ _ [] hfirst rfl) (by decide)
  have hbody : Run ⟨4, 0⟩ (rangeRequest (ascii "bytes=5-6")) tenBytes
      { ctx := some { start := 8, stop := 10, range := (8, 11), last := true, sr := some false },
        feed := .awaits false,
        requests := [(4, 7), (8, 11)],
        out := [{ bytes := ascii "4567", data := true },
          { bytes := [], data := false, lastInChain := true, sync := true }] } :=
    hread.step (.body [4] .special false) (right_of_ne fun _ hnot => (by cases hnot)) (by decide)
  have hread' : Run ⟨4, 0⟩ (rangeRequest (ascii "bytes=5-6")) tenBytes
      { ctx := some
          { start := 10, stop := 10, range := (8, 11), last := true, active := true
            sr := some false },
        feed := .reads false (ascii "89"), requests := [(4, 7), (8, 11)],
        out := [{ bytes := ascii "4567", data := true },
          { bytes := [], data := false, lastInChain := true, sync := true }] } :=
    hbody.step _ (@right_last _ _ _ _ _ [(4, 7)] hsecond rfl) (by decide)
  have hbody' : Run ⟨4, 0⟩ (rangeRequest (ascii "bytes=5-6")) tenBytes
      { ctx := some
          { start := 10, stop := 10, range := (8, 11), last := true, active := true
            sr := some false },
        feed := .nothing, requests := [(4, 7), (8, 11)],
        out := [{ bytes := ascii "4567", data := true },
          { bytes := [], data := false, lastInChain := true, sync := true },
          { bytes := ascii "89", data := true, lastInChain := true }] } :=
    hread'.step (.body [2] .marked false) (right_of_ne fun _ hnot => (by cases hnot)) (by decide)
  have hdone : Run ⟨4, 0⟩ (rangeRequest (ascii "bytes=5-6")) tenBytes
      { ctx := some
          { start := 10, stop := 10, range := (8, 11), last := true, active := true
            sr := some true },
        feed := .nothing, requests := [(4, 7), (8, 11)],
        out := [{ bytes := ascii "4567", data := true },
          { bytes := [], data := false, lastInChain := true, sync := true },
          { bytes := ascii "89", data := true, lastInChain := true }] } :=
    hbody'.step .done (right_of_ne fun _ hnot => (by cases hnot)) (by decide)
  have hover : Run ⟨4, 0⟩ (rangeRequest (ascii "bytes=5-6")) tenBytes
      { ctx := none, feed := .nothing, requests := [(4, 7), (8, 11)],
        out := [{ bytes := ascii "4567", data := true },
          { bytes := [], data := false, lastInChain := true, sync := true },
          { bytes := ascii "89", data := true, lastInChain := true },
            { bytes := [], data := false, lastBuf := true }] } :=
    hdone.step (.wake false) (right_of_ne fun _ hnot => (by cases hnot)) (by decide)
  exact ⟨_, hover, rfl, by decide⟩

set_option maxRecDepth 4000 in
/-- Without the conditions: two last buffers, other bytes than those asked for, and a slice whose
end is no value of `off_t`. -/
theorem slices_unrestricted :
    (Asks (rangeRequest (ascii "bytes=1-2")) tenBytes (some (1, 3)) ∧
        ∃ s, Run ⟨4, 1⟩ (rangeRequest (ascii "bytes=1-2")) tenBytes s ∧
          s.ctx = none ∧ (s.out.filter Buf.lastBuf).length = 2) ∧
      (Asks (rangeRequest (ascii "bytes=5-6")) tenBytes (some (5, 7)) ∧
        ∃ s, Run ⟨4, 0⟩ (rangeRequest (ascii "bytes=5-6")) tenBytes s ∧
          s.ctx = none ∧ data s.out = ascii "456789") ∧
      (∃ resource,
        Asks (rangeRequest (ascii "bytes=4611686018427387905-4611686018427387905")) resource
          (some (4611686018427387905, 4611686018427387906))) ∧
        Session.start ⟨4611686018427387905, 1⟩
          (rangeRequest (ascii "bytes=4611686018427387905-4611686018427387905")) = none := by
  refine ⟨⟨?_, run_oneToTwo⟩, ⟨?_, run_fiveToSix⟩,
    ⟨⟨⟨List.replicate 4611686018427387906 0, none, none, ?_, ?_⟩, ?_⟩, by decide⟩⟩
  · exact @asks_closed (ascii "1") (ascii "2") _ _
      (number_of_all (by decide) (by decide) (by decide))
      (number_of_all (by decide) (by decide) (by decide)) (by decide) _ (by decide) _ (by decide)
  · exact @asks_closed (ascii "5") (ascii "6") _ _
      (number_of_all (by decide) (by decide) (by decide))
      (number_of_all (by decide) (by decide) (by decide)) (by decide) _ (by decide) _ (by decide)
  · rw [length_replicate]
    decide
  · rw [length_replicate]
    decide
  · have hnumber : Number (ascii "4611686018427387905") :=
      number_of_all (by decide) (by decide) (by decide)
    refine @asks_closed (ascii "4611686018427387905")
      (ascii "4611686018427387905") _ _ hnumber hnumber (by decide) _ ?_ _ (by decide)
    rw [length_replicate]
    decide

end Nginx.Http.Slice
