/-
  Http/Postpone/Complete.lean --- the output of a connection is its tree in order.
-/
import Mathlib.Algebra.BigOperators.Group.Finset.Basic
import Mathlib.Algebra.Order.BigOperators.Group.Finset
import Nginx.Http.Postpone.Flags

set_option autoImplicit false

namespace Nginx.Http.Postpone

open Foundation Foundation.Outline

/-- What every run keeps. -/
structure Inv (c : Connection) (tree : Outline Nat Bytes) : Prop where
  ordered : Ordered c tree
  sound : AllSound c

theorem Inv.step {c : Connection} {tree : Outline Nat Bytes} (h : Inv c tree) {event : Event}
    (hallowed : Allowed c event) : Inv (step c event) (grow c tree event) :=
  ⟨h.ordered.step hallowed fun _ => h.sound.open_of_active, h.sound.step hallowed⟩

theorem Run.inv {c : Connection} {tree : Outline Nat Bytes} (h : Run c tree) : Inv c tree := by
  induction h with
  | start => exact ⟨ordered_start, allSound_start⟩
  | step _ event hallowed ih => exact ih.step hallowed

/-- Everything has been passed on. -/
structure Settled (c : Connection) (tree : Outline Nat Bytes) : Prop where
  output : c.output = tree.flatten
  data : c.data = 0
  postponed : ∀ r, r < c.created → (c.requests r).postponed = []
  logged : ∀ r, r < c.created → r ≠ 0 → (c.requests r).logged = true

variable {c : Connection} {tree : Outline Nat Bytes}

theorem Chained.zero_mem {i : Nat} {frame : Frame Nat Bytes} {frames : List (Frame Nat Bytes)}
    (h : Chained c i (frame :: frames)) : 0 ∈ frameNames (frame :: frames) := by
  induction frames generalizing i frame with
  | nil =>
    obtain ⟨-, -, hname⟩ := h
    rw [frameNames, List.mem_cons]
    exact .inl hname.symm
  | cons frame' frames ih =>
    obtain ⟨-, -, hframes⟩ := h
    rw [frameNames, List.mem_cons, List.mem_append]
    exact .inr (.inr (ih hframes))

theorem Shape.frames_eq_nil {l : List Postponed} {before behind : Outline Nat Bytes}
    {frames : List (Frame Nat Bytes)}
    (h : Shape c l tree before behind frames) (hdata : c.data = 0) : frames = [] := by
  cases frames with
  | nil => rfl
  | cons frame frames =>
    have hmem := List.mem_append_right (before ++ behind).names h.chained.zero_mem
    rw [← hdata] at hmem
    exact absurd hmem h.data_not_mem

/-- Where the main request is active and its list is empty, nothing is left. -/
theorem Inv.settled (h : Inv c tree) (hdata : c.data = 0) (hempty : (c.requests 0).postponed = []) :
    Settled c tree := by
  obtain ⟨before, behind, frames, hs⟩ := h.ordered
  have hframes := hs.frames_eq_nil hdata
  subst hframes
  rw [hdata, hempty] at hs
  have hbehind : behind = .nil := hs.parked.eq_nil
  subst hbehind
  have hlogged : ∀ r, r < c.created → r ≠ 0 → (c.requests r).logged = true := by
    intro r hr hne
    have hmem := hs.perm.mem_iff.mp ((hs.names r).mpr hr)
    rw [hdata, List.mem_cons, append_nil, List.mem_append] at hmem
    rcases hmem with hmem | hmem | hmem
    · exact absurd hmem hne
    · exact (hs.logged r hr).mpr (List.mem_append_left _ hmem)
    · cases hmem
  refine ⟨?_, hdata, fun r hr => ?_, hlogged⟩
  · rw [hs.output, hs.tree_eq, up, flatten, flatten, append_nil,
      List.append_nil, textBefore, List.nil_append]
  · by_cases hne : r = 0
    · rw [hne]
      exact hempty
    · exact ((h.sound.sound r).logged (hlogged r hr hne)).2.2

theorem Inv.output_prefix (h : Inv c tree) : c.output <+: tree.flatten := by
  obtain ⟨before, behind, frames, hs⟩ := h.ordered
  rw [hs.output, hs.tree_eq, flatten_up, flatten_append]
  refine ⟨behind.flatten ++ textAfter frames, ?_⟩
  simp only [List.append_assoc]

theorem Inv.data_open (h : Inv c tree) : c.data ∈ tree.names ∧ Open c c.data := by
  obtain ⟨before, behind, frames, hs⟩ := h.ordered
  refine ⟨(hs.names _).mpr hs.data_lt, hs.data_lt, ?_⟩
  rw [← Bool.not_eq_true, hs.logged _ hs.data_lt]
  exact hs.data_not_closed

/-! ## The write handlers empty the lists -/

/-- All requests have called `ngx_http_finalize_request`, and neither a filter nor the
client holds anything back. -/
structure Ended (c : Connection) : Prop where
  finished : ∀ r, r < c.created → (c.requests r).finished = true
  buffered : ∀ r, r < c.created → (c.requests r).buffered = false
  client : c.buffered = false

/-- What is left to do for a request. -/
def weight (q : Request) : Nat := q.postponed.length + if q.logged then 0 else 1

def work (c : Connection) : Nat := ∑ r ∈ Finset.range c.created, weight (c.requests r)

/-- `c'` has the requests of `c`, with no more to do for any. -/
structure Lighter (c c' : Connection) : Prop where
  created : c'.created = c.created
  client : c'.buffered = c.buffered
  finished : ∀ r, (c'.requests r).finished = (c.requests r).finished
  buffered : ∀ r, (c'.requests r).buffered = (c.requests r).buffered
  weight_le : ∀ r, weight (c'.requests r) ≤ weight (c.requests r)

theorem Lighter.refl (c : Connection) : Lighter c c :=
  ⟨rfl, rfl, fun _ => rfl, fun _ => rfl, fun _ => le_rfl⟩

theorem Lighter.trans {c c' c'' : Connection} (h : Lighter c c') (h' : Lighter c' c'') :
    Lighter c c'' :=
  ⟨h'.created.trans h.created, h'.client.trans h.client, fun r =>
    (h'.finished r).trans (h.finished r),
    fun r => (h'.buffered r).trans (h.buffered r), fun r => (h'.weight_le r).trans (h.weight_le r)⟩

theorem Lighter.ended {c c' : Connection} (h : Lighter c c') (hc : Ended c) : Ended c' where
  finished r hr := by rw [h.finished]; exact hc.finished r (h.created ▸ hr)
  buffered r hr := by rw [h.buffered]; exact hc.buffered r (h.created ▸ hr)
  client := h.client.trans hc.client

theorem Lighter.work_lt {c c' : Connection} (h : Lighter c c') {r : Nat} (hr : r < c.created)
    (hlt : weight (c'.requests r) < weight (c.requests r)) : work c' < work c := by
  rw [work, work, h.created]
  exact Finset.sum_lt_sum (fun s _ => h.weight_le s) ⟨r, Finset.mem_range.mpr hr, hlt⟩

theorem Lighter.work_le {c c' : Connection} (h : Lighter c c') : work c' ≤ work c := by
  rw [work, work, h.created]
  exact Finset.sum_le_sum fun s _ => h.weight_le s

theorem lighter_modify (c : Connection) (r : Nat) {f : Request → Request}
    (hfinished : (f (c.requests r)).finished = (c.requests r).finished)
    (hbuffered : (f (c.requests r)).buffered = (c.requests r).buffered)
    (hweight : weight (f (c.requests r)) ≤ weight (c.requests r)) : Lighter c (c.modify r f) := by
  refine ⟨rfl, rfl, fun s => ?_, fun s => ?_, fun s => ?_⟩
  all_goals
    by_cases hs : s = r
    · subst hs
      rw [requests_modify_self]
      first | exact hfinished | exact hbuffered | exact hweight
    · rw [requests_modify_ne c f hs]

theorem Lighter.of_requests {c c' c'' : Connection} (h : Lighter c c')
    (hcreated : c''.created = c'.created)
    (hclient : c''.buffered = c'.buffered) (hrequests : c''.requests = c'.requests) :
    Lighter c c'' :=
  ⟨hcreated.trans h.created, hclient.trans h.client, fun r => by rw [hrequests]; exact h.finished r,
    fun r => by rw [hrequests]; exact h.buffered r, fun r => by rw [hrequests]; exact h.weight_le r⟩

theorem length_withoutHead_le (i : Nat) (l : List Postponed) :
    (Connection.withoutHead i l).length ≤ l.length := by
  fun_cases Connection.withoutHead i l
  · exact Nat.le_succ _
  · exact le_rfl
  · exact le_rfl

theorem lighter_setPostponed (c : Connection) (r : Nat) {l : List Postponed}
    (hl : l.length ≤ (c.requests r).postponed.length) : Lighter c (c.setPostponed r l) :=
  lighter_modify c r rfl rfl (Nat.add_le_add_right hl _)

theorem lighter_setHandler (c : Connection) (r : Nat) (handler : Handler) :
    Lighter c (c.setHandler r handler) :=
  lighter_modify c r rfl rfl (le_rfl)

theorem lighter_logActive (c : Connection) : Lighter c (logActive c) :=
  lighter_modify c c.data rfl rfl (Nat.add_le_add_left (Nat.zero_le _) _)

theorem lighter_closeActive (c : Connection) : Lighter (logActive c) (closeActive c) :=
  (lighter_setPostponed (logActive c) _ (length_withoutHead_le _ _)).of_requests rfl rfl
    (requests_closeActive c)

theorem work_closeActive_lt (c : Connection) (hopen : Open c c.data) :
    work (closeActive c) < work c := by
  refine ((lighter_logActive c).trans (lighter_closeActive c)).work_lt hopen.1 ?_
  refine Nat.lt_of_le_of_lt ((lighter_closeActive c).weight_le c.data) ?_
  rw [requests_modify_self, weight, weight, hopen.2]
  exact Nat.lt_succ_self _

theorem lighter_finalizeRequest (c : Connection) (r : Nat) : Lighter c (c.finalizeRequest r) := by
  by_cases hmain : r ≠ 0
  · by_cases hbusy : (c.requests r).buffered || (c.requests r).postponed ≠ []
    · rw [Connection.finalizeRequest, if_pos hmain, if_pos hbusy]
      exact lighter_setHandler c r .writer
    by_cases hrd : r = c.data
    · subst hrd
      rw [finalizeRequest_active c hmain hbusy]
      exact (lighter_logActive c).trans (lighter_closeActive c)
    rw [Connection.finalizeRequest, if_pos hmain, if_neg hbusy, if_neg hrd]
    have hfinalizer := lighter_setHandler c r .finalizer
    by_cases hwaited : (c.requests r).waited
    · simp only [if_pos hwaited]
      have hdone : Lighter (c.setHandler r .finalizer)
          ((c.setHandler r .finalizer).modify r fun q => { q with done := true }) :=
        lighter_modify _ r rfl rfl (le_rfl)
      exact (hfinalizer.trans hdone).of_requests rfl rfl rfl
    · simp only [if_neg hwaited]
      exact hfinalizer.of_requests rfl rfl rfl
  · by_cases hbusy : (c.requests r).buffered || c.buffered || (c.requests r).postponed ≠ []
    · rw [Connection.finalizeRequest, if_neg hmain, if_pos hbusy]
      exact lighter_setHandler c r .writer
    by_cases hrd : r ≠ c.data
    · rw [Connection.finalizeRequest, if_neg hmain, if_neg hbusy, if_pos hrd]
      exact .refl c
    · rw [Connection.finalizeRequest, if_neg hmain, if_neg hbusy, if_neg hrd]
      exact lighter_modify c r rfl rfl (le_rfl)

theorem lighter_postponeFilter (c : Connection) (r : Nat) : Lighter c (c.postponeFilter r []) := by
  rw [Connection.postponeFilter]
  by_cases hrd : r ≠ c.data
  · rw [if_pos hrd, if_neg (not_not.mpr rfl)]
    exact .refl c
  rw [if_neg hrd]
  by_cases hempty : (c.requests r).postponed = []
  · rw [if_pos hempty]
    exact (Lighter.refl c).of_requests rfl rfl rfl
  · rw [if_neg hempty, if_neg (not_not.mpr rfl)]
    obtain ⟨m, hm, hcreated, hclient, hlength⟩ := requests_postponeLoop c r (c.requests r).postponed
    exact (lighter_setPostponed c r (hlength.trans (Nat.sub_le _ _))).of_requests
      hcreated hclient hm

theorem weight_postponeFilter_lt (c : Connection) (hne : (c.requests c.data).postponed ≠ []) :
    weight ((c.postponeFilter c.data []).requests c.data) < weight (c.requests c.data) := by
  rw [Connection.postponeFilter, if_neg (not_not.mpr rfl), if_neg hne, if_neg (not_not.mpr rfl)]
  obtain ⟨m, hm, -, -, hlength⟩ := requests_postponeLoop c c.data (c.requests c.data).postponed
  rw [hm, Connection.setPostponed, requests_modify_self]
  have hpos : 0 < (c.requests c.data).postponed.length := List.length_pos_iff.mpr hne
  exact Nat.add_lt_add_right (Nat.lt_of_le_of_lt hlength (Nat.sub_lt hpos Nat.one_pos)) _

theorem work_writer_lt (hopen : Open c c.data) (hbuffered : (c.requests c.data).buffered = false)
    (hlist : (c.requests c.data).postponed = []) (hdata : c.data ≠ 0) :
    work (c.writer c.data) < work c := by
  have hfilter : c.postponeFilter c.data [] = c := by
    rw [Connection.postponeFilter, if_neg (not_not.mpr rfl), if_pos hlist, List.append_nil]
  have hself : (c.setHandler c.data .empty).requests c.data =
    { c.requests c.data with writeEventHandler := .empty } :=
    requests_modify_self ..
  have hclose : c.writer c.data = closeActive (c.setHandler c.data .empty) := by
    rw [Connection.writer, hfilter, if_neg (by simp [hbuffered, hlist, hdata])]
    refine finalizeRequest_active (c.setHandler c.data .empty) hdata ?_
    show ¬ (((c.setHandler c.data .empty).requests c.data).buffered ||
      ((c.setHandler c.data .empty).requests c.data).postponed ≠ [])
    rw [hself]
    simp [hbuffered, hlist]
  rw [hclose]
  refine lt_of_lt_of_le (work_closeActive_lt _ ⟨hopen.1, ?_⟩)
    (lighter_setHandler c c.data .empty).work_le
  show ((c.setHandler c.data .empty).requests c.data).logged = false
  rw [hself]
  exact hopen.2

theorem lighter_writer (c : Connection) (r : Nat) :
    Lighter (c.postponeFilter r []) (c.writer r) := by
  rw [Connection.writer]
  split
  · exact .refl _
  · exact (lighter_setHandler _ r .empty).trans (lighter_finalizeRequest _ r)

/-- With everything ended, the write handler of the active request has nothing to do any
more, or leaves less to do. -/
theorem Inv.writeEvent_settled_or (h : Inv c tree) (hended : Ended c) :
    Settled c tree ∨ Lighter c c.writeEvent ∧ work c.writeEvent < work c := by
  obtain ⟨-, hopen⟩ := h.data_open
  have hrecord := h.sound.sound c.data
  have hfinished := hended.finished _ hopen.1
  have hbuffered := hended.buffered _ hopen.1
  -- a request with another handler than the writer has an empty list
  have hempty : (c.requests c.data).writeEventHandler ≠ .writer →
    (c.requests c.data).postponed = [] :=
    fun hne => not_not.mp fun hpostponed => hne (hrecord.waiting hfinished hopen.2 hpostponed)
  have hsettled : (c.requests c.data).postponed = [] → c.data = 0 → Settled c tree :=
    fun hlist hdata =>
    h.settled hdata (hdata ▸ hlist)
  have hquiet : ∀ handler, (c.requests c.data).writeEventHandler = handler → handler ≠ .writer →
      handler ≠ .finalizer → Settled c tree := by
    rintro handler rfl hwriter hfinalizer
    refine hsettled (hempty hwriter) (not_not.mp fun hdata => ?_)
    exact (hrecord.ending hfinished hopen.2 hdata).elim hwriter hfinalizer
  rw [Connection.writeEvent, Connection.runHandler]
  cases hhandler : (c.requests c.data).writeEventHandler with
  | own => exact .inl (hquiet _ hhandler (fun h => by cases h) fun h => by cases h)
  | empty => exact .inl (hquiet _ hhandler (fun h => by cases h) fun h => by cases h)
  | finalizer =>
    have hdata : c.data ≠ 0 := fun hdata => hrecord.main hdata hhandler
    have hlist := hempty (by rw [hhandler]; exact fun h => by cases h)
    have hidle : ¬ ((c.requests c.data).buffered || (c.requests c.data).postponed ≠ []) := by
      simp [hbuffered, hlist]
    refine .inr ⟨lighter_finalizeRequest c c.data, ?_⟩
    show work (c.finalizeRequest c.data) < work c
    rw [finalizeRequest_active c hdata hidle]
    exact work_closeActive_lt c hopen
  | writer =>
    have hlighter := (lighter_postponeFilter c c.data).trans (lighter_writer c c.data)
    by_cases hlist : (c.requests c.data).postponed = []
    · by_cases hdata : c.data = 0
      · exact .inl (hsettled hlist hdata)
      · refine .inr ⟨hlighter, ?_⟩
        exact work_writer_lt hopen hbuffered hlist hdata
    · refine .inr ⟨hlighter, hlighter.work_lt hopen.1 ?_⟩
      exact Nat.lt_of_le_of_lt ((lighter_writer c c.data).weight_le c.data)
        (weight_postponeFilter_lt c hlist)

theorem Inv.writeEvent (h : Inv c tree) : Inv c.writeEvent tree :=
  @Inv.step _ _ h .writeEvent trivial

theorem Inv.settles (h : Inv c tree) (hended : Ended c) :
    ∃ n, Settled (Connection.writeEvent^[n] c) tree := by
  induction hwork : work c using Nat.strong_induction_on generalizing c with
  | _ w ih =>
    rcases h.writeEvent_settled_or hended with hsettled | ⟨hlighter, hlt⟩
    · exact ⟨0, hsettled⟩
    · obtain ⟨n, hn⟩ := ih _ (hwork ▸ hlt) h.writeEvent (hlighter.ended hended) rfl
      exact ⟨n + 1, hn⟩

/-- Subrequest output is in order: what has been passed on is the beginning of the tree, the
active request is an open one, and the tree is complete when all requests are finalized, to
which the write handlers bring a connection on which all requests have ended. -/
theorem Run.output_in_order (h : Run c tree) :
    c.output <+: tree.flatten ∧ (c.data ∈ tree.names ∧ Open c c.data) ∧
      ((c.requests 0).done = true → (∀ r, r < c.created → r ≠ 0 → (c.requests r).logged = true) →
        Settled c tree) ∧
      (Ended c → ∃ n, Settled (Connection.writeEvent^[n] c) tree) := by
  have hinv := h.inv
  obtain ⟨hmem, hopen⟩ := hinv.data_open
  refine ⟨hinv.output_prefix, ⟨hmem, hopen⟩, fun hdone hlogged => ?_, hinv.settles⟩
  have hdata : c.data = 0 := by
    by_contra hne
    have hclosed := hlogged c.data hopen.1 hne
    rw [hopen.2] at hclosed
    cases hclosed
  exact hinv.settled hdata ((hinv.sound.sound 0).done rfl hdone).2.2

/-- The main request parks its second chain behind a subrequest and is finished first. -/
theorem output_in_order_parked :
    ∃ c tree, Run c tree ∧ c.output = [[97], [99], [98]] ∧ Settled c tree := by
  have h₁ := Run.start.step (.output 0 [[97]] false) ⟨by decide, .inl rfl⟩
  have h₂ := h₁.step (.subrequest 0 false) ⟨by decide, .inl rfl⟩
  have h₃ := h₂.step (.output 0 [[98]] false) ⟨by decide, .inl rfl⟩
  have h₄ := h₃.step (.finalize 0) ⟨by decide, rfl⟩
  have h₅ := h₄.step (.output 1 [[99]] false) ⟨by decide, .inl rfl⟩
  have h₆ := h₅.step (.finalize 1) ⟨by decide, rfl⟩
  have h₈ := (h₆.step .postedRequest trivial).step .postedRequest trivial
  exact ⟨_, _, h₈, rfl, (Run.output_in_order h₈).2.2.1 rfl (by decide)⟩

end Nginx.Http.Postpone
