/-
  Http/Slice/Reassembly.lean --- the phases of a request that is served from slices.

  `Phase` says where a session is: `Ongoing` is what holds in all of them, with `pos`, up to
  which the resource has been passed on, and the slices that are sent for and that are not.
-/
import Nginx.Http.Slice.Headers

set_option autoImplicit false

namespace Nginx.Http.Slice

open List

/-- The end of the first answer. -/
def answerEnd (conf : Conf) (req : Request) (resource : Resource) : Nat :=
  min (firstSlice conf req + conf.size) resource.bytes.length

/-- The slice that follows the first one. -/
def nextSlice (conf : Conf) (req : Request) (resource : Resource) (asked : Option (Nat × Nat)) :
    Nat :=
  if answerEnd conf req resource + conf.size ≤ (bounds resource asked).1 then
    conf.size * ((bounds resource asked).1 / conf.size)
  else answerEnd conf req resource

section Phases

variable (conf : Conf) (req : Request) (resource : Resource) (asked : Option (Nat × Nat))

/-- A buffer that is marked ends the range, in the first answer. -/
def MarkOk (x : Buf) : Prop :=
  x.lastBuf = true → x.data = true ∧ asked ≠ none ∧
    (bounds resource asked).2 ≤ answerEnd conf req resource

structure Ongoing (s : Session) (ctx : Ctx) (pos : Nat) (sent more : List Nat) : Prop where
  context : s.ctx = some ctx
  running : s.closed = false
  etag : EtagOf resource ctx.etag
  out : data s.out = upTo resource.bytes (bounds resource asked).1 (bounds resource asked).2 pos
  marks : ∀ x ∈ s.out, MarkOk conf req resource asked x
  requests : s.requests = sent.map (sliceBounds conf)
  total : sent ++ more = requested conf req resource asked

/-- The range filter has the main request's range. -/
def MainRange (s : Session) : Prop := ∃ pos ≤ resource.bytes.length, RangeAt s.mainRange asked pos

/-- The context behind the first answer. -/
structure Going (ctx : Ctx) (next : Nat) (active last : Bool) : Prop where
  start : ctx.start = next
  stop : ctx.stop = (bounds resource asked).2
  active : ctx.active = active
  last : ctx.last = last

inductive Phase (s : Session) : Prop where
  /-- the first answer is awaited -/
  | first {ctx : Ctx}
      (h : Ongoing conf req resource asked s ctx (firstSlice conf req) [firstSlice conf req]
        (slicesFrom conf.size (nextSlice conf req resource asked) (bounds resource asked).2))
      (hfeed : s.feed = .awaits true) (hstart : ctx.start = firstSlice conf req)
        (hlast : ctx.last = false) (hsr : ctx.sr = none)
      (hrange : s.mainRange = none)
  /-- the first answer is read -/
  | main {ctx : Ctx} {pos : Nat}
      (h : Ongoing conf req resource asked s ctx pos [firstSlice conf req]
        (slicesFrom conf.size (nextSlice conf req resource asked) (bounds resource asked).2))
      (hpos : pos ≤ answerEnd conf req resource)
      (hfeed : s.feed = .reads true ((resource.bytes.take (answerEnd conf req resource)).drop pos))
      (hgoing : Going resource asked ctx (nextSlice conf req resource asked) true false)
        (hsr : ctx.sr = none)
      (hrange : RangeAt s.mainRange asked pos)
  /-- nothing is under way -/
  | between {ctx : Ctx} {next : Nat} {sent : List Nat}
      (h : Ongoing conf req resource asked s ctx next sent
        (slicesFrom conf.size next (bounds resource asked).2))
      (hnext : next ≤ resource.bytes.length) (hfeed : s.feed = .nothing)
        (hgoing : Going resource asked ctx next true true)
      (hrange : MainRange resource asked s)
  /-- the slice at `t` is awaited -/
  | awaiting {ctx : Ctx} {t : Nat} {sent : List Nat}
      (h : Ongoing conf req resource asked s ctx t (sent ++ [t])
        (slicesFrom conf.size (t + conf.size) (bounds resource asked).2))
      (ht : t < (bounds resource asked).2) (hfeed : s.feed = .awaits false)
        (hgoing : Going resource asked ctx t false true)
      (hsr : ctx.sr = some false) (hrange : MainRange resource asked s)
  /-- a slice is read, up to `next` -/
  | sub {ctx : Ctx} {pos next : Nat} {sent : List Nat}
      (h : Ongoing conf req resource asked s ctx pos sent
        (slicesFrom conf.size next (bounds resource asked).2))
      (hpos : pos ≤ next) (hnext : next ≤ resource.bytes.length)
      (hfeed : s.feed = .reads false ((resource.bytes.take next).drop pos))
      (hgoing : Going resource asked ctx next true true) (hsr : ctx.sr = some false)
        (hrange : MainRange resource asked s)
      (hsub : RangeAt s.subRange asked pos)
  | finished (hctx : s.ctx = none) (hrunning : s.closed = false)
    (hfeed : s.feed = .nothing) {out : List Buf}
      (hout : s.out = out ++ [{ bytes := [], data := false, lastBuf := true }])
        (hdata : data out = wanted resource asked)
      (hmarks : ∀ x ∈ out, MarkOk conf req resource asked x)
      (hrequests : s.requests = (requested conf req resource asked).map (sliceBounds conf))
        (hrange : MainRange resource asked s)

end Phases

variable {conf : Conf} {req : Request} {resource : Resource}
    {asked : Option (Nat × Nat)} {s : Session} {ctx : Ctx}

/-- What the parts of the proof share. -/
structure Served (conf : Conf) (req : Request) (resource : Resource) (asked : Option (Nat × Nat)) :
    Prop where
  size : 0 < conf.size
  size_fits : (conf.size : Int) ≤ maxOffT
  ranges : conf.maxRanges = 0 → req.range = none
  asks : Asks req resource asked
  fits : Fits conf req resource asked

namespace Served

theorem requested_cons (h : Served conf req resource asked) :
    requested conf req resource asked =
      firstSlice conf req :: slicesFrom conf.size (nextSlice conf req resource asked)
        (bounds resource asked).2 := by
  obtain ⟨g, hle, -, hfirst⟩ := h.asks.firstSlice_eq conf
  obtain ⟨hlt, hstop⟩ := h.asks.bounds_lt
  have heq :=
    @requested_eq _ _ _ _ _ h.size hle hlt hstop (nextSlice conf req resource asked)
      (by rw [nextSlice, answerEnd, hfirst])
  rw [requested, hfirst]
  exact heq

theorem first_le (h : Served conf req resource asked) :
    firstSlice conf req ≤ (bounds resource asked).1 := by
  obtain ⟨g, hle, -, hfirst⟩ := h.asks.firstSlice_eq conf
  rw [hfirst]
  exact Nat.le_trans (Nat.mul_div_le g conf.size) hle

theorem first_lt (h : Served conf req resource asked) :
    firstSlice conf req < resource.bytes.length :=
  lt_of_le_of_lt h.first_le (lt_of_lt_of_le h.asks.bounds_lt.1 h.asks.bounds_lt.2)

theorem first_fits (h : Served conf req resource asked) :
    ((firstSlice conf req + conf.size : Nat) : Int) ≤ maxOffT :=
  h.fits.slices _ (by rw [h.requested_cons]; exact mem_cons_self)

theorem next_spec (h : Served conf req resource asked) :
    nextSlice conf req resource asked ≤ resource.bytes.length ∧
      upTo resource.bytes (bounds resource asked).1 (bounds resource asked).2
        (answerEnd conf req resource) =
        upTo resource.bytes (bounds resource asked).1 (bounds resource asked).2
          (nextSlice conf req resource asked) := by
  obtain ⟨hlt, hstop⟩ := h.asks.bounds_lt
  have hend : answerEnd conf req resource ≤ resource.bytes.length := min_le_right _ _
  rw [nextSlice]
  split
  · next hjump =>
    have hle : conf.size * ((bounds resource asked).1 / conf.size) ≤ (bounds resource asked).1 :=
      Nat.mul_div_le _ _
    refine ⟨by omega, ?_⟩
    rw [upTo_of_le (by omega), upTo_of_le hle]
  · exact ⟨hend, rfl⟩

end Served

theorem sliceRange_eq {t : Nat} (hsize : 0 < conf.size)
    (h : ((t + conf.size : Nat) : Int) ≤ maxOffT) :
    sliceRange conf (t : Int) = some (sliceBounds conf t) := by
  have hnext : offT ((t : Int) + conf.size) = some ((t + conf.size : Nat) : Int) := offT_nat h
  have hlast : offT (((t + conf.size : Nat) : Int) - 1) =
    some (((t + conf.size : Nat) : Int) - 1) :=
    offT_eq (by rw [maxOffT]; omega) (by omega)
  rw [sliceRange, hnext, Option.bind_eq_bind, Option.bind_some, hlast]
  rfl

theorem rangeBodyFilter_nil {main : Bool} (range : Option RangeCtx) :
    rangeBodyFilter main range [] = some ([], range) := by
  cases range with
  | none => rfl
  | some range =>
    obtain ⟨ranges, offset⟩ := range
    cases ranges with
    | nil => rfl
    | cons r rest => cases rest <;> rfl

theorem rangeBodyFilter_last {pos : Nat} (hmain : RangeAt s.mainRange asked pos)
    (hpos : (pos : Int) ≤ maxOffT) :
    rangeBodyFilter true s.mainRange [{ bytes := [], data := false, lastBuf := true }] =
      some ([{ bytes := [], data := false, lastBuf := true }], s.mainRange) := by
  cases asked with
  | none =>
    have hnone : s.mainRange = none := hmain
    rw [hnone]
    rfl
  | some asked =>
    obtain ⟨a, b⟩ := asked
    obtain ⟨offset, hrange, hle, -⟩ := hmain
    have hsum : offT ((offset : Int) + (0 : Nat)) = some (offset : Int) := by
      rw [Nat.cast_zero, Int.add_zero]
      exact offT_nat (by omega)
    rw [hrange, rangeBodyFilter, singlepartBody]
    simp only [length_nil, hsum]
    rfl

/-! ## Between answers -/

section Proceed

variable {next : Nat} {sent : List Nat}

/-- Behind a slice the next one is requested, or all is done. -/
theorem Ongoing.proceed (hserved : Served conf req resource asked)
    (h : Ongoing conf req resource asked s ctx next sent
      (slicesFrom conf.size next (bounds resource asked).2))
    (hnext : next ≤ resource.bytes.length) (hfeed : s.feed = .nothing)
    (hgoing : Going resource asked ctx next true true)
    (hrange : MainRange resource asked s) (buffered : Bool) :
    ∃ s', s.proceed conf ctx buffered = some s' ∧ Phase conf req resource asked s' ∧
      rank conf (requested conf req resource asked).length s' ≤
        rank conf (requested conf req resource asked).length s ∧
      (buffered = false → ctx.sr ≠ some false →
        rank conf (requested conf req resource asked).length s' <
          rank conf (requested conf req resource asked).length s) := by
  obtain ⟨start, stop, range, etag, last, active, sr⟩ := ctx
  obtain ⟨hstart, hstop, hactive, hlast⟩ := hgoing
  simp only at hstart hstop hactive hlast
  subst hstart hstop hactive hlast
  have hsame : { s with
    ctx := some
      { start := (next : Int), stop := ((bounds resource asked).2 : Int), range := range
        etag := etag, last := true, active := true, sr := sr } } = s := by
    rw [← h.context]
  have hold : rank conf (requested conf req resource asked).length s =
      ((requested conf req resource asked).length - s.requests.length) * (conf.size + 5) +
        (if sr = some false then 2 else 1) := by
    rw [rank, h.context, hfeed]
  have hgoing : Going resource asked
    ⟨next, (bounds resource asked).2, range, etag, true, true, sr⟩ next true true :=
    ⟨rfl, rfl, rfl, rfl⟩
  rw [Session.proceed, hsame]
  simp only [not_true_eq_false, if_false]
  split
  · next hsr =>
      exact ⟨s, rfl, .between h hnext hfeed hgoing hrange, le_rfl, fun _ hne => absurd hsr hne⟩
  next hsr =>
  rw [if_neg hsr] at hold
  split
  · next hend =>
    have hend : (bounds resource asked).2 ≤ next := Int.ofNat_le.mp hend
    obtain ⟨pos, hpos, hmain⟩ := hrange
    have hfits := resource.fits
    rw [rangeBodyFilter_last hmain (by omega)]
    have hzero : ∀ range out, rank conf (requested conf req resource asked).length
        { s with ctx := none, mainRange := range, out := out } = 0 := fun _ _ => rfl
    refine ⟨_, rfl, ?_, by rw [hzero]; exact Nat.zero_le _, fun _ _ => by rw [hzero, hold]; omega⟩
    have htotal := h.total
    rw [slicesFrom_of_le hend, append_nil] at htotal
    have hout := h.out
    rw [upTo_full hend] at hout
    exact .finished rfl h.running hfeed rfl hout h.marks
      (by rw [← htotal]; exact h.requests) ⟨pos, hpos, hmain⟩
  · next hmore =>
    have hlt : next < (bounds resource asked).2 := by omega
    split
    · next hbuffered =>
      exact ⟨s, rfl, .between h hnext hfeed hgoing hrange, le_rfl, fun hnot =>
        absurd hbuffered (by rw [hnot]; decide)⟩
    have htotal := h.total
    rw [slicesFrom_of_lt hserved.size hlt] at htotal
    have hmem : next ∈ requested conf req resource asked := by
      rw [← htotal]
      exact mem_append_right _ mem_cons_self
    have hsent : s.requests.length = sent.length := by rw [h.requests, length_map]
    have hroom : sent.length + 1 ≤ (requested conf req resource asked).length := by
      rw [← htotal, length_append, length_cons]
      omega
    rw [sliceRange_eq hserved.size (hserved.fits.slices next hmem)]
    have hrank : ∀ ctx, rank conf (requested conf req resource asked).length
        { s with ctx := some ctx, feed := .awaits false, requests := s.requests ++
          [sliceBounds conf next] } =
        ((requested conf req resource asked).length - (sent.length + 1)) *
          (conf.size + 5) + (conf.size + 4) := by
      intro ctx
      rw [rank]
      simp only [length_append, length_singleton, hsent]
    have hstep : ((requested conf req resource asked).length - sent.length) * (conf.size + 5) =
        ((requested conf req resource asked).length - (sent.length + 1)) *
          (conf.size + 5) + (conf.size + 5) := by
      rw [← Nat.succ_mul]
      congr 1
      omega
    rw [hsent] at hold
    have hrequests : s.requests ++ [sliceBounds conf next] =
      (sent ++ [next]).map (sliceBounds conf) := by
      rw [map_append, ← h.requests]
      rfl
    have htotal' : (sent ++ [next]) ++
      slicesFrom conf.size (next + conf.size) (bounds resource asked).2 =
        requested conf req resource asked := by
      rw [append_assoc, singleton_append]
      exact htotal
    exact ⟨_, rfl,
      .awaiting ⟨rfl, h.running, h.etag, h.out, h.marks, hrequests, htotal'⟩ hlt
      rfl ⟨rfl, rfl, rfl, rfl⟩ rfl hrange,
      by simp only [hrank, hold, hstep]; omega, fun _ _ => by simp only [hrank, hold, hstep]; omega⟩

end Proceed

end Nginx.Http.Slice
