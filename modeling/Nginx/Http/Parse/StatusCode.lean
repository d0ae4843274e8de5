/-
  Http/Parse/StatusCode.lean --- the code and the extent of a status line.

  The parts of the machine one after another are the machine.  Spaces between
  the digits of the code are skipped like those before it, so that it also
  takes lines whose digits are apart; and `status->start` is two bytes before
  the third digit wherever the first one is.
-/
import Nginx.Http.Parse.StatusGrammar

set_option autoImplicit false

namespace Nginx.Http.Parse

open List Foundation
open Nginx.Core (take_load drop_load)

/-! ## The whole line -/

/-- What `NGX_OK` leaves behind a line read from `p` on. -/
def Reply.parsed (l : Reply) (p : Nat) (s : StatusLine) : StatusLine :=
  { s with
    httpMajor := decimal l.major
    httpMinor := decimal l.minor
    httpVersion := decimal l.major * 1000 + decimal l.minor
    code := l.code
    count := 3
    start := p + l.head.length - 3
    stop := p + l.head.length + l.tail.length
    state := .start }

section Line

variable {p : Nat} {s : StatusLine} {rc : StatusLine × Nat} {text : Bytes}

/-- Where the digits of the code are. -/
def Reply.firstAt (l : Reply) (p : Nat) :
    Nat := p + 5 + l.major.length + 1 + l.minor.length + 1 + l.spaces.length

def Reply.secondAt (l : Reply) (p : Nat) : Nat := l.firstAt p + 1 + l.gap.length

def Reply.thirdAt (l : Reply) (p : Nat) : Nat := l.secondAt p + 1 + l.gap'.length

theorem Reply.add_length_head (l : Reply) (p : Nat) : p + l.head.length = l.thirdAt p + 1 := by
  have hhttp : (ascii "HTTP/").length = 5 := by decide
  rw [Reply.thirdAt, Reply.secondAt, Reply.firstAt, Reply.head]
  simp only [length_append, length_cons, length_nil, hhttp]
  omega

/-- The record after the digits. -/
def Reply.coded (l : Reply) (p : Nat) (s : StatusLine) : StatusLine :=
  afterDigit (l.thirdAt p) l.third (afterDigit (l.secondAt p) l.second
    (afterDigit (l.firstAt p) l.first
      { s with httpMajor := decimal l.major, httpMinor := decimal l.minor, state := .status }))

theorem Reply.coded_eq (l : Reply) (hcode : s.code = 0) (hcount : s.count = 0) :
    l.coded p s =
      { s with
        httpMajor := decimal l.major
        httpMinor := decimal l.minor
        code := l.code
        count := 3
        state := .spaceAfterStatus
        start := l.thirdAt p - 2 } := by
  have hvalue :
    ((0 * 10 + digitValue l.first) * 10 + digitValue l.second) * 10 + digitValue l.third =
    l.code := by
    simp only [Reply.code, decimal, foldl_cons, foldl_nil]
    omega
  cases s
  cases hcode
  cases hcount
  rw [← hvalue]
  rfl

theorem Reply.ended_coded (l : Reply) (hcode : s.code = 0) (hcount : s.count = 0) :
    ((l.coded p s).ended (l.thirdAt p + 1 + l.tail.length),
      l.thirdAt p + 1 + l.tail.length + l.eol.length) =
      (l.parsed p s, p + l.text.length) := by
  have hlength := l.add_length_head p
  have hstart : l.thirdAt p - 2 = p + l.head.length - 3 := by omega
  have hpos : l.thirdAt p + 1 + l.tail.length + l.eol.length = p + l.text.length := by
    rw [Reply.text, length_append, length_append]
    omega
  rw [l.coded_eq hcode hcount, hstart, hpos, ← hlength, Reply.parsed, StatusLine.ended]

/-- Accepted texts are the lines of the grammar, with the fields that they say. -/
theorem accepts_iff (hs : s.Fresh) : Accepts p s text rc ↔
    ∃ (l : Reply) (rest : Bytes), l.Wf ∧ text = l.text ++ rest ∧
      rc = (l.parsed p s, p + l.text.length) := by
  obtain ⟨state, httpMajor, httpMinor, httpVersion, code, count, start, stop⟩ := s
  obtain ⟨hstate, hcode, hcount, hstop⟩ := hs
  cases hstate
  cases hcode
  cases hcount
  cases hstop
  constructor
  · intro h
    obtain ⟨text₁, heq₁, h₁⟩ := (accepts_http rfl).mp h
    obtain ⟨major, text₂, heq₂, hmajor, h₂⟩ := (accepts_major rfl).mp h₁
    obtain ⟨minor, text₃, heq₃, hminor, h₃⟩ := (accepts_minor rfl).mp h₂
    obtain ⟨spaces, first, text₄, heq₄, hspaces, hfirst, h₄⟩ := (accepts_code_digit rfl).mp h₃
    obtain ⟨gap, second, text₅, heq₅, hgap, hsecond, h₅⟩ := (accepts_code_digit rfl).mp h₄
    obtain ⟨gap', third, text₆, heq₆, hgap', hthird, h₆⟩ := (accepts_code_digit rfl).mp h₅
    obtain ⟨tail, eol, rest, heq₇, htail, heol, hrc⟩ :=
      (accepts_tail (Nat.succ_pos _) rfl rfl).mp h₆
    let l : Reply := ⟨major, minor, spaces, first, gap, second, gap', third, tail, eol⟩
    refine ⟨l, rest, ⟨hmajor, hminor, hspaces, hfirst, hgap, hsecond, hgap', hthird, htail, heol⟩,
      ?_, ?_⟩
    · rw [heq₁, heq₂, heq₃, heq₄, heq₅, heq₆, heq₇]
      simp only [l, Reply.text, Reply.head, append_assoc, cons_append, nil_append]
    · exact hrc.trans (l.ended_coded rfl rfl)
  · rintro ⟨l, rest, hl, htext, hrc⟩
    have heq : text = ascii "HTTP/" ++
      (l.major ++ chr '.' :: (l.minor ++ chr ' ' :: (l.spaces ++ l.first ::
        (l.gap ++ l.second :: (l.gap' ++ l.third :: (l.tail ++ (l.eol ++ rest))))))) := by
      rw [htext]
      simp only [Reply.text, Reply.head, append_assoc, cons_append, nil_append]
    refine (accepts_http rfl).mpr ⟨_, heq, ?_⟩
    refine (accepts_major rfl).mpr ⟨_, _, rfl, hl.major, ?_⟩
    refine (accepts_minor rfl).mpr ⟨_, _, rfl, hl.minor, ?_⟩
    refine (accepts_code_digit rfl).mpr ⟨_, _, _, rfl, hl.spaces, hl.first, ?_⟩
    refine (accepts_code_digit rfl).mpr ⟨_, _, _, rfl, hl.gap, hl.second, ?_⟩
    refine (accepts_code_digit rfl).mpr ⟨_, _, _, rfl, hl.gap', hl.third, ?_⟩
    refine (accepts_tail (Nat.succ_pos _) rfl rfl).mpr ⟨_, _, _, rfl, hl.tail, hl.eol, ?_⟩
    exact hrc.trans (l.ended_coded rfl rfl).symm

end Line

/-! ## The digits -/

theorem isDigit_ne_space {ch : Byte} (h : isDigit ch = true) : ch ≠ chr ' ' := by
  rintro rfl
  cases h

theorem isDigit_ne_eol {ch : Byte} (h : isDigit ch = true) : ch ≠ cr ∧ ch ≠ lf := by
  constructor
  · rintro rfl
    cases h
  · rintro rfl
    cases h

namespace Reply

variable {l l' : Reply} {rest rest' : Bytes}

/-- The line up to the byte before the first digit. -/
def before (l : Reply) :
    Bytes := ascii "HTTP/" ++ (l.major ++ chr '.' :: (l.minor ++ chr ' ' :: l.spaces))

theorem head_reverse (l : Reply) :
    l.head.reverse =
      l.third ::
      (l.gap'.reverse ++ l.second :: (l.gap.reverse ++ l.first :: l.before.reverse)) := by
  simp only [head, before, reverse_append, reverse_cons, append_assoc, cons_append, nil_append,
    reverse_nil]

theorem head_of_consecutive (h : l.Consecutive) :
    l.head = l.before ++ [l.first, l.second, l.third] := by
  rw [head, before, h.1, h.2]
  simp only [append_assoc, cons_append, nil_append]

theorem nil_of_spaces {gap text text' : Bytes} {digit digit' : Byte}
    (hgap : Spaces gap) (hdigit' : isDigit digit' = true)
    (heq : gap.reverse ++ digit :: text = digit' :: text') :
    gap = [] ∧ digit :: text = digit' :: text' := by
  cases hreverse : gap.reverse with
  | nil =>
    rw [hreverse] at heq
    exact ⟨reverse_eq_nil_iff.mp hreverse, heq⟩
  | cons space spaces =>
    rw [hreverse] at heq
    have hmem : space ∈ gap := mem_reverse.mp (hreverse ▸ mem_cons_self)
    exact absurd ((cons.inj heq).1.symm.trans (hgap space hmem)) (isDigit_ne_space hdigit')

theorem consecutive_of_head_eq (hl : l.Wf) (hl' : l'.Wf) (hconsecutive : l'.Consecutive)
    (heq : l.head = l'.head) :
    l.Consecutive := by
  have hreverse := congrArg List.reverse heq
  rw [head_reverse, head_reverse, hconsecutive.1, hconsecutive.2] at hreverse
  obtain ⟨hgap', hsecond⟩ := nil_of_spaces hl.gap' hl'.second (cons.inj hreverse).2
  obtain ⟨hgap, -⟩ := nil_of_spaces hl.gap hl'.first (cons.inj hsecond).2
  exact ⟨hgap, hgap'⟩

end Reply

/-! ## Status lines -/

/-- What `ngx_http_parse_status_line` is for, when its calls get these bytes from `p` on: it
returns `NGX_OK` where they begin with a status line, and then `code` is the value of its digits,
and the bytes from `start` up to `end` begin with the digits and have no line terminator. -/
structure RightStatus (mem : Nat → Byte) (calls : List Nat) (p : Nat) (s : StatusLine) : Prop where
  ok_iff : (∃ s' q, parseStatusCalls mem calls p s = .ok s' q) ↔
    ∃ (l : Reply) (rest : Bytes), l.Wf ∧ l.Consecutive ∧ load mem p calls.sum = l.text ++ rest
  extent : ∀ s' q (l : Reply) (rest : Bytes), parseStatusCalls mem calls p s = .ok s' q →
    l.Wf → l.Consecutive →
    load mem p calls.sum = l.text ++ rest →
      s'.code = l.code ∧ [l.first, l.second, l.third] <+: load mem s'.start (s'.stop - s'.start) ∧
        NoEol (load mem s'.start (s'.stop - s'.start))

section Right

variable {mem : Nat → Byte} {calls : List Nat} {p : Nat} {s : StatusLine}

theorem parseStatusCalls_ok_iff (hs : s.Fresh) {s' : StatusLine} {q : Nat} :
    parseStatusCalls mem calls p s = .ok s' q ↔
    ∃ (l : Reply) (rest : Bytes), l.Wf ∧ load mem p calls.sum = l.text ++ rest ∧
      s' = l.parsed p s ∧ q = p + l.text.length := by
  have hiff := @accepts_iff p _ (s', q) (load mem p calls.sum) hs
  rw [parseStatusCalls_eq_statusRun]
  refine hiff.trans ?_
  simp only [Prod.mk.injEq]

theorem load_extent {l : Reply} {rest : Bytes} {n : Nat} (hconsecutive : l.Consecutive)
    (htext : load mem p n = l.text ++ rest) :
    load mem (l.parsed p s).start ((l.parsed p s).stop - (l.parsed p s).start) =
      [l.first, l.second, l.third] ++ l.tail := by
  have hhead := Reply.head_of_consecutive hconsecutive
  have hlength : l.head.length = l.before.length + 3 := by
    rw [hhead, length_append]
    rfl
  have hn : l.head.length + l.tail.length ≤ n := by
    have h := congrArg List.length htext
    rw [length_load, Reply.text, length_append, length_append, length_append] at h
    omega
  have hstart : (l.parsed p s).start = p + l.before.length := by
    rw [Reply.parsed]
    dsimp only
    omega
  have hstop : (l.parsed p s).stop - (l.parsed p s).start = 3 + l.tail.length := by
    rw [hstart, Reply.parsed]
    dsimp only
    omega
  have hdrop : (load mem p n).drop l.before.length = [l.first, l.second, l.third] ++
    l.tail ++ (l.eol ++ rest) := by
    rw [htext, Reply.text, hhead, append_assoc, append_assoc, drop_left]
    simp only [append_assoc]
  rw [hstop, hstart, ← take_load (n := n - l.before.length) (by omega),
    ← drop_load (by omega), hdrop]
  exact take_left' (by rw [length_append]; rfl)

theorem noEol_extent {l : Reply} (hl : l.Wf) : NoEol ([l.first, l.second, l.third] ++ l.tail) := by
  have htail : NoEol l.tail := by
    rcases hl.tail with hnil | ⟨ch, text, hcons, hch, htext⟩
    · rw [hnil]
      exact fun ch hch => absurd hch not_mem_nil
    rw [hcons]
    refine forall_mem_cons.mpr ⟨?_, htext⟩
    rcases hch with rfl | rfl
    · decide
    · decide
  intro ch hch
  rcases mem_append.mp hch with hdigit | hmem
  · simp only [mem_cons, not_mem_nil, or_false] at hdigit
    rcases hdigit with rfl | rfl | rfl
    · exact isDigit_ne_eol hl.first
    · exact isDigit_ne_eol hl.second
    · exact isDigit_ne_eol hl.third
  · exact htail ch hmem

theorem RightStatus.consecutive (hs : s.Fresh) (hright : RightStatus mem calls p s)
    {l : Reply} {rest : Bytes} (hl : l.Wf)
    (htext : load mem p calls.sum = l.text ++ rest) : l.Consecutive := by
  have hok : parseStatusCalls mem calls p s = .ok (l.parsed p s) (p + l.text.length) :=
    (parseStatusCalls_ok_iff hs).mpr ⟨l, rest, hl, htext, rfl, rfl⟩
  obtain ⟨l', rest', hl', hconsecutive, htext'⟩ := hright.ok_iff.mp ⟨_, _, hok⟩
  have hok' : parseStatusCalls mem calls p s = .ok (l'.parsed p s) (p + l'.text.length) :=
    (parseStatusCalls_ok_iff hs).mpr ⟨l', rest', hl', htext', rfl, rfl⟩
  -- the digits of both end where `start` says
  have hstart : (l.parsed p s).start = (l'.parsed p s).start := by
    have heq := hok.symm.trans hok'
    rw [StatusRc.ok.injEq] at heq
    rw [heq.1]
  have hlengths : l.head.length = l'.head.length := by
    have h := l.add_length_head 0
    have h' := l'.add_length_head 0
    rw [Reply.thirdAt, Reply.secondAt, Reply.firstAt] at h h'
    rw [Reply.parsed, Reply.parsed] at hstart
    dsimp only at hstart
    omega
  have heads : l.head = l'.head := by
    rw [htext, Reply.text, Reply.text, append_assoc l.head, append_assoc l'.head] at htext'
    exact (append_inj htext' hlengths).1
  exact Reply.consecutive_of_head_eq hl hl' hconsecutive heads

/-- The status line is right for all bytes but those that begin with a line whose digits have spaces
between them: it is accepted, too. -/
theorem rightStatus_iff (hs : s.Fresh) : RightStatus mem calls p s ↔
    ¬ ∃ (l : Reply) (rest : Bytes), l.Wf ∧ ¬ l.Consecutive ∧
      load mem p calls.sum = l.text ++ rest := by
  constructor
  · exact fun hright ⟨l, rest, hl, hapart, htext⟩ => hapart (hright.consecutive hs hl htext)
  intro hnone
  have hconsecutive : ∀ (l : Reply) (rest : Bytes), l.Wf →
    load mem p calls.sum = l.text ++ rest → l.Consecutive :=
    fun l rest hl htext => not_not.mp fun hapart => hnone ⟨l, rest, hl, hapart, htext⟩
  refine ⟨⟨?_, ?_⟩, ?_⟩
  · rintro ⟨s', q, hok⟩
    obtain ⟨l, rest, hl, htext, -, -⟩ := (parseStatusCalls_ok_iff hs).mp hok
    exact ⟨l, rest, hl, hconsecutive l rest hl htext, htext⟩
  · rintro ⟨l, rest, hl, -, htext⟩
    exact ⟨_, _, (parseStatusCalls_ok_iff hs).mpr ⟨l, rest, hl, htext, rfl, rfl⟩⟩
  intro s' q l rest hok hl hconsecutive htext
  have hok' : parseStatusCalls mem calls p s = .ok (l.parsed p s) (p + l.text.length) :=
    (parseStatusCalls_ok_iff hs).mpr ⟨l, rest, hl, htext, rfl, rfl⟩
  have heq := hok.symm.trans hok'
  rw [StatusRc.ok.injEq] at heq
  rw [heq.1, load_extent hconsecutive htext]
  exact ⟨rfl, prefix_append _ _, noEol_extent hl⟩

theorem spaces_nil : Spaces [] := fun _ hch => absurd hch not_mem_nil

theorem spaces_one : Spaces [chr ' '] := fun _ hch => mem_singleton.mp hch

/-- `status` as the proxy zeroes it. -/
def zeroedStatus : StatusLine := ⟨.start, 0, 0, 0, 0, 0, 0, 0⟩

theorem fresh_zeroedStatus : zeroedStatus.Fresh := ⟨rfl, rfl, rfl, rfl⟩

/-- `HTTP/1.1` and three digits with spaces between them. -/
def gappedReply (spaces gap gap' tail : Bytes) : Reply :=
  ⟨[chr '1'], [chr '1'], spaces, chr '2', gap, chr '0', gap', chr '4', tail, [cr, lf]⟩

theorem wf_gappedReply {spaces gap gap' tail : Bytes} (hspaces : Spaces spaces)
    (hgap : Spaces gap) (hgap' : Spaces gap')
    (htail : IsTail tail) : (gappedReply spaces gap gap' tail).Wf := by
  have hversion : ∀ least, chr least ≤ chr '1' → Version least [chr '1'] := by
    intro least hleast
    refine ⟨cons_ne_nil _ _, forall_mem_singleton.mpr rfl, ?_, by decide⟩
    rintro _ ⟨⟩
    exact hleast
  exact ⟨hversion '1' (by decide), hversion '0' (by decide), hspaces, rfl,
    hgap, rfl, hgap', rfl, htail, .inl rfl⟩

theorem rightStatus_iff_gapped :
    ¬ RightStatus (memcpy (fun _ => 0) 16 (ascii "HTTP/1.1 20 4\r\n")) [10, 5] 16 zeroedStatus := by
  intro hright
  refine (rightStatus_iff fresh_zeroedStatus).mp hright
    ⟨gappedReply [] [] [chr ' '] [], [], ?_, ?_, ?_⟩
  · exact wf_gappedReply spaces_nil spaces_nil spaces_one (.inl rfl)
  · exact fun h => absurd h.2 (by decide)
  · exact load_memcpy_self _ _ _

/-- The spaces between the digits are skipped. -/
theorem rightStatus_apart :
    ¬ ∀ (mem : Nat → Byte) (calls : List Nat) (p : Nat) (s : StatusLine), s.Fresh →
    RightStatus mem calls p s := by
  intro hall
  let mem : Nat → Byte := memcpy (fun _ => 0) 16 (ascii "HTTP/1.1 2 0 4 OK\r\n")
  have hright : RightStatus mem [19] 16 zeroedStatus := hall _ _ _ _ fresh_zeroedStatus
  have hwf : (gappedReply [] [chr ' '] [chr ' '] (ascii " OK")).Wf :=
    wf_gappedReply spaces_nil spaces_one spaces_one
      (.inr ⟨chr ' ', ascii "OK", by decide, .inl rfl, noEol_of_all (by decide)⟩)
  have htext : load mem 16 [19].sum = (gappedReply [] [chr ' '] [chr ' '] (ascii " OK")).text ++
    [] := load_memcpy_self _ _ _
  exact absurd (hright.consecutive fresh_zeroedStatus hwf htext).1 (by decide)

end Right

end Nginx.Http.Parse
