/-
  Http/FastRequestLine.lean --- the invariant of `ngx_http_parse_request_line`
  that the fast path rests on.

  In the states that scan the URI the machine is next to the slow one, as in
  `FastUri`.  A blank in the URI may turn out to be its end: the states that
  have seen one keep the invariant at `r->uri_end` as well.  Behind the URI it
  holds there, and before it the pointers into it are still unset.
-/
import Nginx.Http.FastUri

set_option autoImplicit false

namespace Nginx.Http

open Foundation
open Parse

/-- What `ngx_http_parse_request_line` maintains, as long as it flags nothing. -/
def LineInv (mem : Nat → Byte) (state : LineState) (r : Request) (p : Nat) : Prop :=
  Flagged r ∨
  match state with
  | .start | .method | .spacesBeforeUri | .schema => r.uriExt = 0 ∧ r.argsStart = 0
  | .schemaSlash => (r.uriExt = 0 ∧ r.argsStart = 0) ∧ r.schemaEnd + 1 = p
  | .schemaSlashSlash | .hostStart | .host | .hostEnd | .hostIpLiteral | .port =>
      (r.uriExt = 0 ∧ r.argsStart = 0) ∧ mem (r.schemaEnd + 1) = chr '/'
  | .afterSlashInUri => PathGood mem r.uriPtrs [.slash, .usual] p
  | .checkUri => PathGood mem r.uriPtrs [.usual] p
  | .checkUriHttp09 =>
      PathGood mem r.uriPtrs [.slash, .usual] r.uriEnd ∧ PathGood mem r.uriPtrs [.usual] p
  | .uri => ArgsGood mem r.uriPtrs p
  | .http09 => ArgsGood mem r.uriPtrs r.uriEnd ∧ ArgsGood mem r.uriPtrs p
  | _ => UriGood mem r.uriPtrs r.uriEnd

/-- What holds at the label `done`. -/
def DoneInv (mem : Nat → Byte) (r : Request) : Prop :=
  Flagged r ∨ UriGood mem r.uriPtrs r.uriEnd

variable {mem : Nat → Byte} {r : Request} {p : Nat}

/-- The action keeps the invariant. -/
def KeepsLineInv (mem : Nat → Byte) (p : Nat) (r : Request) (action : LineAction) : Prop :=
  action.Ensures mem p r (fun state r' => LineInv mem state r' (p + 1)) (DoneInv mem)

theorem ensures_after {first : List Assign} {action : LineAction}
    {post : LineState → Request → Prop} {postDone : Request → Prop}
    (h : ∀ r₁, runAssigns mem p (mem p) r first = .ok r₁ →
      action.Ensures mem p r₁ post postDone) :
    (action.after first).Ensures mem p r post postDone := by
  have happend : ∀ {assigns : List Assign} {r' : Request},
      runAssigns mem p (mem p) r (first ++ assigns) = .ok r' →
      ∃ r₁, runAssigns mem p (mem p) r first = .ok r₁ ∧
        runAssigns mem p (mem p) r₁ assigns = .ok r' := by
    intro assigns r' hrun
    rw [runAssigns, List.foldlM_append] at hrun
    cases hfirst : runAssigns mem p (mem p) r first with
    | error rc =>
      rw [runAssigns] at hfirst
      rw [hfirst] at hrun
      cases hrun
    | ok r₁ =>
      rw [runAssigns] at hfirst
      rw [hfirst] at hrun
      exact ⟨r₁, rfl, hrun⟩
  cases action with
  | fail rc => trivial
  | next assigns state =>
    intro r' hrun
    obtain ⟨r₁, hfirst, hrest⟩ := happend hrun
    exact h r₁ hfirst r' hrest
  | done assigns =>
    intro r' hrun
    obtain ⟨r₁, hfirst, hrest⟩ := happend hrun
    exact h r₁ hfirst r' hrest

theorem keepsLineInv_of_flagged (h : Flagged r) (action : LineAction) :
    KeepsLineInv mem p r action := by
  cases action with
  | fail rc => trivial
  | next assigns state => exact fun r' hrun => Or.inl (runAssigns_flagged h hrun)
  | done assigns => exact fun r' hrun => Or.inl (runAssigns_flagged h hrun)

variable {state : LineState} {r' : Request}

theorem keepsLineInv_next {assigns : List Assign}
    (hrun : runAssigns mem p (mem p) r assigns = .ok r') (h : LineInv mem state r' (p + 1)) :
    KeepsLineInv mem p r (.next assigns state) := by
  intro r₁ hrun₁
  rw [hrun] at hrun₁
  exact Except.ok.inj hrun₁ ▸ h

theorem keepsLineInv_done {assigns : List Assign}
    (hrun : runAssigns mem p (mem p) r assigns = .ok r') (h : DoneInv mem r') :
    KeepsLineInv mem p r (.done assigns) := by
  intro r₁ hrun₁
  rw [hrun] at hrun₁
  exact Except.ok.inj hrun₁ ▸ h

theorem KeepsLineInv.ite {c : Prop} [Decidable c] {a b : LineAction}
    (ha : c → KeepsLineInv mem p r a) (hb : ¬ c → KeepsLineInv mem p r b) :
    KeepsLineInv mem p r (if c then a else b) :=
  iteInduction (motive := KeepsLineInv mem p r) ha hb

/-! ## The URI -/

theorem keepsLineInv_checkUri (h : PathGood mem r.uriPtrs [.usual] p) :
    KeepsLineInv mem p r (checkUriAction (mem p)) := by
  have hall : [PathState.usual] ⊆ [.slash, .usual] := by simp
  refine .ite (fun husual => ?_) fun _ => .ite (fun hslash => ?_) fun hslash =>
    .ite (fun hdot => ?_) fun hdot => .ite (fun hspace => ?_) fun _ => .ite (fun _ => ?_) fun _ =>
    .ite (fun _ => ?_) fun _ => .ite (fun _ => ?_) fun hpercent => .ite (fun hquery => ?_)
    fun hquery => .ite (fun _ => ?_) fun hhash => .ite (fun hplus => ?_) fun _ =>
    .ite (fun _ => trivial) fun _ => ?_
  · exact keepsLineInv_next rfl (Or.inr (h.plain hall (isPlain_of_isUsual husual)))
  · exact keepsLineInv_next rfl (Or.inr (h.slash hslash))
  · exact keepsLineInv_next rfl (Or.inr (h.dot hdot))
  · exact keepsLineInv_next rfl (Or.inr ⟨h.mono hall, h.plain hall (hspace ▸ isPlain_space)⟩)
  · exact keepsLineInv_next rfl (Or.inr (Or.inl (h.mono hall)))
  · exact keepsLineInv_done rfl (Or.inr (Or.inl (h.mono hall)))
  · exact keepsLineInv_next rfl (Or.inl (Or.inr rfl))
  · exact keepsLineInv_next rfl (Or.inr (h.query hquery))
  · exact keepsLineInv_next rfl (Or.inl (Or.inl rfl))
  · exact keepsLineInv_next rfl (Or.inr (h.plain hall (hplus ▸ isPlain_plus)))
  · exact keepsLineInv_next rfl (Or.inr (h.plain hall ⟨hslash, hdot, hpercent, hquery, hhash⟩))

theorem keepsLineInv_afterSlash (h : PathGood mem r.uriPtrs [.slash, .usual] p) :
    KeepsLineInv mem p r (lineAction .afterSlashInUri (mem p)) := by
  have hall : [PathState.slash, .usual] ⊆ [.slash, .usual] := fun _ hs => hs
  refine .ite (fun husual => ?_) fun _ => .ite (fun hspace => ?_) fun _ =>
    .ite (fun _ => ?_) fun _ =>
    .ite (fun _ => ?_) fun _ => .ite (fun _ => ?_) fun hdot => .ite (fun _ => ?_) fun hpercent =>
    .ite (fun _ => ?_) fun hslash => .ite (fun hquery => ?_) fun hquery => .ite (fun _ => ?_)
    fun hhash => .ite (fun hplus => ?_) fun _ => .ite (fun _ => trivial) fun _ => ?_
  · exact keepsLineInv_next rfl (Or.inr (h.plain hall (isPlain_of_isUsual husual)))
  · exact keepsLineInv_next rfl (Or.inr ⟨h, h.plain hall (hspace ▸ isPlain_space)⟩)
  · exact keepsLineInv_next rfl (Or.inr (Or.inl h))
  · exact keepsLineInv_done rfl (Or.inr (Or.inl h))
  · exact keepsLineInv_next rfl (Or.inl (Or.inl rfl))
  · exact keepsLineInv_next rfl (Or.inl (Or.inr rfl))
  · exact keepsLineInv_next rfl (Or.inl (Or.inl rfl))
  · exact keepsLineInv_next rfl (Or.inr (h.query hquery))
  · exact keepsLineInv_next rfl (Or.inl (Or.inl rfl))
  · have hplain := h.plain hall (hplus ▸ isPlain_plus)
    exact keepsLineInv_next rfl (Or.inr (hplain.mono (by simp)))
  · exact keepsLineInv_next rfl (Or.inr (h.plain hall ⟨hslash, hdot, hpercent, hquery, hhash⟩))

theorem keepsLineInv_uri (h : ArgsGood mem r.uriPtrs p) :
    KeepsLineInv mem p r (uriAction (mem p)) := by
  refine .ite (fun husual => ?_) fun _ => .ite (fun hspace => ?_) fun _ =>
    .ite (fun _ => ?_) fun _ =>
    .ite (fun _ => ?_) fun _ => .ite (fun _ => ?_) fun hhash => .ite (fun _ => trivial) fun _ => ?_
  · exact keepsLineInv_next rfl (Or.inr (h.other (isPlain_of_isUsual husual).2.2.2.2))
  · exact keepsLineInv_next rfl (Or.inr ⟨h, h.other (hspace ▸ isPlain_space.2.2.2.2)⟩)
  · exact keepsLineInv_next rfl (Or.inr (Or.inr h))
  · exact keepsLineInv_done rfl (Or.inr (Or.inr h))
  · exact keepsLineInv_next rfl (Or.inl (Or.inl rfl))
  · exact keepsLineInv_next rfl (Or.inr (h.other hhash))

theorem keepsLineInv_checkUriHttp09 (hend : PathGood mem r.uriPtrs [.slash, .usual] r.uriEnd)
    (h : PathGood mem r.uriPtrs [.usual] p) :
    KeepsLineInv mem p r (lineAction .checkUriHttp09 (mem p)) := by
  refine .ite (fun hspace => ?_) fun _ => .ite (fun _ => ?_) fun _ => .ite (fun _ => ?_) fun _ =>
    .ite (fun _ => ?_) fun _ => ?_
  · have hplain := h.plain (by simp) (hspace ▸ isPlain_space)
    exact keepsLineInv_next rfl (Or.inr ⟨hend, hplain⟩)
  · exact keepsLineInv_next rfl (Or.inr (Or.inl hend))
  · exact keepsLineInv_done rfl (Or.inr (Or.inl hend))
  · exact keepsLineInv_next rfl (Or.inr (Or.inl hend))
  · refine ensures_after fun r₁ hrun => ?_
    cases hrun
    exact keepsLineInv_checkUri (r := { r with spaceInUri := true }) h

theorem keepsLineInv_http09 (hend : ArgsGood mem r.uriPtrs r.uriEnd)
    (h : ArgsGood mem r.uriPtrs p) : KeepsLineInv mem p r (lineAction .http09 (mem p)) := by
  refine .ite (fun hspace => ?_) fun _ => .ite (fun _ => ?_) fun _ => .ite (fun _ => ?_) fun _ =>
    .ite (fun _ => ?_) fun _ => ?_
  · have hother := h.other (hspace ▸ isPlain_space.2.2.2.2)
    exact keepsLineInv_next rfl (Or.inr ⟨hend, hother⟩)
  · exact keepsLineInv_next rfl (Or.inr (Or.inr hend))
  · exact keepsLineInv_done rfl (Or.inr (Or.inr hend))
  · exact keepsLineInv_next rfl (Or.inr (Or.inr hend))
  · refine ensures_after fun r₁ hrun => ?_
    cases hrun
    exact keepsLineInv_uri (r := { r with spaceInUri := true }) h

/-! ## Before the URI -/

theorem uriGood_singleSlash {u : UriPtrs} (hext : u.ext = 0) (hargs : u.args = 0)
    (hslash : mem u.start = chr '/') : UriGood mem u (u.start + 1) :=
  Or.inl (PathGood.first rfl hslash hargs hext)

theorem keepsLineInv_hostEnd (hnull : r.uriExt = 0 ∧ r.argsStart = 0)
    (hslash : mem (r.schemaEnd + 1) = chr '/') :
    KeepsLineInv mem p r (hostEndAction (mem p)) := by
  refine .ite (fun _ => ?_) fun _ => .ite (fun hch => ?_) fun _ => .ite (fun _ => ?_)
    fun _ => trivial
  · exact keepsLineInv_next rfl (Or.inr ⟨hnull, hslash⟩)
  · exact keepsLineInv_next rfl (Or.inr (PathGood.first rfl hch hnull.2 hnull.1))
  · exact keepsLineInv_next rfl (Or.inr (uriGood_singleSlash hnull.1 hnull.2 hslash))

theorem keepsLineInv_host (hnull : r.uriExt = 0 ∧ r.argsStart = 0)
    (hslash : mem (r.schemaEnd + 1) = chr '/') : KeepsLineInv mem p r (hostAction (mem p)) := by
  refine .ite (fun _ => ?_) fun _ => .ite (fun _ => ?_) fun _ => keepsLineInv_hostEnd hnull hslash
  · exact keepsLineInv_next rfl (Or.inr ⟨hnull, hslash⟩)
  · exact keepsLineInv_next rfl (Or.inr ⟨hnull, hslash⟩)

theorem keepsLineInv_port (hnull : r.uriExt = 0 ∧ r.argsStart = 0)
    (hslash : mem (r.schemaEnd + 1) = chr '/') :
    KeepsLineInv mem p r (lineAction .port (mem p)) := by
  refine .ite (fun _ => ?_) fun _ => .ite (fun hch => ?_) fun _ => .ite (fun _ => ?_)
    fun _ => trivial
  · exact keepsLineInv_next rfl (Or.inr ⟨hnull, hslash⟩)
  · exact keepsLineInv_next rfl (Or.inr (PathGood.first rfl hch hnull.2 hnull.1))
  · exact keepsLineInv_next rfl (Or.inr (uriGood_singleSlash hnull.1 hnull.2 hslash))

/-! ## Behind the URI -/

theorem run_digit {ch : Byte} {a : Assign}
    (ha : a = .firstMajorDigit ∨ a = .majorDigit ∨ a = .firstMinorDigit ∨ a = .minorDigit)
    (hrun : a.run mem p ch r = .ok r') : r'.uriPtrs = r.uriPtrs ∧ r'.uriEnd = r.uriEnd := by
  rcases ha with rfl | rfl | rfl | rfl
  · simp only [Assign.run] at hrun
    split at hrun <;> cases hrun
    exact ⟨rfl, rfl⟩
  · simp only [Assign.run] at hrun
    split at hrun <;> cases hrun
    exact ⟨rfl, rfl⟩
  · cases hrun
    exact ⟨rfl, rfl⟩
  · simp only [Assign.run] at hrun
    split at hrun <;> cases hrun
    exact ⟨rfl, rfl⟩

theorem keepsLineInv_digit {a : Assign} (h : UriGood mem r.uriPtrs r.uriEnd)
    (ha : a = .firstMajorDigit ∨ a = .majorDigit ∨ a = .firstMinorDigit ∨ a = .minorDigit)
    (hstate : state = .majorDigit ∨ state = .minorDigit) :
    KeepsLineInv mem p r (.next [a] state) := by
  intro r' hrun
  rw [runAssigns, List.foldlM_cons] at hrun
  cases hone : a.run mem p (mem p) r with
  | error rc =>
    rw [hone] at hrun
    cases hrun
  | ok r₁ =>
    rw [hone] at hrun
    cases hrun
    obtain ⟨hptrs, hend⟩ := run_digit ha hone
    rw [← hptrs, ← hend] at h
    rcases hstate with rfl | rfl <;> exact Or.inr h

theorem keepsLineInv_expect {want : Char} {ch : Byte}
    (h : LineInv mem state r (p + 1)) : KeepsLineInv mem p r (expect want state ch) :=
  .ite (fun _ => keepsLineInv_next rfl h) fun _ => trivial

/-! ## Every state -/

/-- Every state of the request line keeps its invariant: one case for each state. -/
theorem keepsLineInv_step (state : LineState) (h : LineInv mem state r p) :
    KeepsLineInv mem p r (lineAction state (mem p)) := by
  rcases h with hflag | h
  · exact keepsLineInv_of_flagged hflag _
  cases state with
  | start =>
    exact .ite (fun _ => keepsLineInv_next rfl (Or.inr h)) fun _ => .ite (fun _ => trivial)
      fun _ => keepsLineInv_next rfl (Or.inr h)
  | method =>
    exact .ite (fun _ => keepsLineInv_next rfl (Or.inr h)) fun _ => .ite (fun _ => trivial)
      fun _ => keepsLineInv_next rfl (Or.inr h)
  | spacesBeforeUri =>
    refine .ite (fun hch => ?_) fun _ => .ite (fun _ => ?_) fun _ => .ite (fun _ => ?_)
      fun _ => trivial
    · exact keepsLineInv_next rfl (Or.inr (PathGood.first rfl hch h.2 h.1))
    · exact keepsLineInv_next rfl (Or.inr h)
    · exact keepsLineInv_next rfl (Or.inr h)
  | schema =>
    refine .ite (fun _ => ?_) fun _ => .ite (fun _ => ?_) fun _ => .ite (fun _ => ?_)
      fun _ => trivial
    · exact keepsLineInv_next rfl (Or.inr h)
    · exact keepsLineInv_next rfl (Or.inr h)
    · exact keepsLineInv_next rfl (Or.inr ⟨h, rfl⟩)
  | schemaSlash =>
    obtain ⟨hnull, rfl⟩ := h
    exact .ite (fun hch => keepsLineInv_next rfl (Or.inr ⟨hnull, hch⟩)) fun _ => trivial
  | schemaSlashSlash => exact keepsLineInv_expect (Or.inr h)
  | hostStart =>
    refine .ite (fun _ => keepsLineInv_next rfl (Or.inr h)) fun _ => ensures_after fun r₁ hrun => ?_
    cases hrun
    exact keepsLineInv_host (r := { r with hostStart := p }) h.1 h.2
  | host => exact keepsLineInv_host h.1 h.2
  | hostEnd => exact keepsLineInv_hostEnd h.1 h.2
  | hostIpLiteral =>
    exact .ite (fun _ => keepsLineInv_next rfl (Or.inr h)) fun _ =>
      .ite (fun _ => keepsLineInv_next rfl (Or.inr h)) fun _ =>
      .ite (fun _ => keepsLineInv_next rfl (Or.inr h)) fun _ =>
      .ite (fun _ => keepsLineInv_next rfl (Or.inr h)) fun _ =>
      .ite (fun _ => keepsLineInv_next rfl (Or.inr h)) fun _ => trivial
  | port => exact keepsLineInv_port h.1 h.2
  | hostHttp09 =>
    exact .ite (fun _ => keepsLineInv_next rfl (Or.inr h)) fun _ =>
      .ite (fun _ => keepsLineInv_next rfl (Or.inr h)) fun _ =>
      .ite (fun _ => keepsLineInv_done rfl (Or.inr h)) fun _ =>
      .ite (fun _ => keepsLineInv_next rfl (Or.inr h)) fun _ => trivial
  | afterSlashInUri => exact keepsLineInv_afterSlash h
  | checkUri => exact keepsLineInv_checkUri h
  | checkUriHttp09 => exact keepsLineInv_checkUriHttp09 h.1 h.2
  | uri => exact keepsLineInv_uri h
  | http09 => exact keepsLineInv_http09 h.1 h.2
  | httpH => exact keepsLineInv_expect (Or.inr h)
  | httpHT => exact keepsLineInv_expect (Or.inr h)
  | httpHTT => exact keepsLineInv_expect (Or.inr h)
  | httpHTTP => exact keepsLineInv_expect (Or.inr h)
  | firstMajorDigit =>
    exact .ite (fun _ => trivial) fun _ => keepsLineInv_digit h (by simp) (Or.inl rfl)
  | majorDigit =>
    exact .ite (fun _ => keepsLineInv_next rfl (Or.inr h)) fun _ => .ite (fun _ => trivial)
      fun _ => keepsLineInv_digit h (by simp) (Or.inl rfl)
  | firstMinorDigit =>
    exact .ite (fun _ => trivial) fun _ => keepsLineInv_digit h (by simp) (Or.inr rfl)
  | minorDigit =>
    exact .ite (fun _ => keepsLineInv_next rfl (Or.inr h)) fun _ =>
      .ite (fun _ => keepsLineInv_done rfl (Or.inr h)) fun _ =>
      .ite (fun _ => keepsLineInv_next rfl (Or.inr h)) fun _ => .ite (fun _ => trivial)
      fun _ => keepsLineInv_digit h (by simp) (Or.inr rfl)
  | spacesAfterDigit =>
    exact .ite (fun _ => keepsLineInv_next rfl (Or.inr h)) fun _ =>
      .ite (fun _ => keepsLineInv_next rfl (Or.inr h)) fun _ =>
      .ite (fun _ => keepsLineInv_done rfl (Or.inr h)) fun _ => trivial
  | almostDone => exact .ite (fun _ => keepsLineInv_done rfl (Or.inr h)) fun _ => trivial

/-! ## The fast path -/

theorem doneInv_of_parseRequestLine {b b' : Buf}
    (hparse : parseRequestLine mem .created b = .ok r' b') : DoneInv mem r' := by
  have hstart : LineInv mem .start .created b.pos := Or.inr ⟨rfl, rfl⟩
  have hrun := lineLoop_ensures (LineInv mem) (DoneInv mem)
    (fun state r p h => keepsLineInv_step state h) (b.last - b.pos) hstart
  obtain ⟨r₁, p, hloop, rfl, -⟩ := exists_done_of_ok hparse
  rw [show lineLoop mem (b.last - b.pos) .start .created b.pos = .done r₁ p from hloop] at hrun
  exact hrun

/-- **The fast path.**  Where a request line or a URI alone is accepted and
neither `complex_uri` nor `quoted_uri` is set, the values that the caller takes
from the pointers are those of `ngx_http_parse_complex_uri` with slashes
merged. -/
theorem fastUri_of_accepted :
    (∀ (mem : Nat → Byte) (b b' : Buf) (r : Request),
      parseRequestLine mem .created b = .ok r b' → r.complexUri = false → r.quotedUri = false →
      FastUri mem r) ∧
    (∀ (mem : Nat → Byte) (uriStart uriEnd : Nat) (r : Request), uriStart ≤ uriEnd →
      parseUri mem { Request.created with uriStart := uriStart, uriEnd := uriEnd } = some r →
      r.complexUri = false → r.quotedUri = false → FastUri mem r) := by
  constructor
  · intro mem b b' r hparse hcomplex hquoted
    rcases doneInv_of_parseRequestLine hparse with (h | h) | h
    · exact absurd h (by simp [hcomplex])
    · exact absurd h (by simp [hquoted])
    · exact fastUri_of_uriGood hcomplex hquoted h
  · intro mem uriStart uriEnd r hle hparse hcomplex hquoted
    rcases uriGood_of_parseUri hle hparse with (h | h) | h
    · exact absurd h (by simp [hcomplex])
    · exact absurd h (by simp [hquoted])
    · exact fastUri_of_uriGood hcomplex hquoted h

/-- A request line with the URI `/a.b?c`, from address 1 on. -/
def exampleLine (i : Nat) : Byte := (ascii "GET /a.b?c HTTP/1.0\r\n").getD (i - 1) 0

/-- What `ngx_http_parse_uri` makes of the URI of `exampleLine`. -/
def exampleUri : Request :=
  { Request.created with uriStart := 5, uriEnd := 11, uriExt := 8, argsStart := 10 }

theorem fastUri_exampleLine :
    FastUri exampleLine
      { exampleUri with
        requestStart := 1, requestEnd := 20, methodEnd := 3, httpProtocol := 12
        method := .get, httpMajor := 1, httpVersion := 1000 } ∧
    FastUri exampleLine exampleUri :=
  ⟨fastUri_of_accepted.1 exampleLine ⟨1, 1, 22, 22⟩ ⟨1, 22, 22, 22⟩ _ (by decide +kernel) rfl rfl,
    fastUri_of_accepted.2 exampleLine 5 11 exampleUri (by decide) (by decide +kernel) rfl rfl⟩

end Nginx.Http
