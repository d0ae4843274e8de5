/-
  Http/Postpone/Flags.lean --- every operation on a request keeps the order, and what the
  flags and the handler of a request say.
-/
import Nginx.Http.Postpone.Order

set_option autoImplicit false

namespace Nginx.Http.Postpone

open Foundation Foundation.Outline Function

variable {c : Connection} {tree : Outline Nat Bytes}

theorem Ordered.postRequest (h : Ordered c tree) (r : Nat) : Ordered (c.postRequest r) tree :=
  h.congr ⟨rfl, rfl, rfl, fun _ _ => rfl, fun _ _ => rfl, fun _ _ _ => rfl⟩ rfl

theorem Ordered.modify (h : Ordered c tree) (r : Nat) {f : Request → Request}
    (hparent : (f (c.requests r)).parent = (c.requests r).parent)
    (hlogged : (f (c.requests r)).logged = (c.requests r).logged)
    (hpostponed : (f (c.requests r)).postponed = (c.requests r).postponed) :
    Ordered (c.modify r f) tree := by
  refine h.congr (agrees_modify c r hparent hlogged fun _ => hpostponed) ?_
  by_cases hr : c.data = r
  · rw [hr, requests_modify_self, hpostponed]
  · rw [requests_modify_ne c f hr]

theorem Ordered.setHandler (h : Ordered c tree) (r : Nat) (handler : Handler) :
    Ordered (c.setHandler r handler) tree :=
  h.modify r rfl rfl rfl

/-- An open request of the tree. -/
def Open (c : Connection) (r : Nat) : Prop := r < c.created ∧ (c.requests r).logged = false

theorem Shape.open_not_closed {l : List Postponed} {before behind : Outline Nat Bytes}
    {frames : List (Frame Nat Bytes)}
    (h : Shape c l tree before behind frames) {r : Nat} (hr : Open c r) :
    r ∉ closed before frames := by
  intro hmem
  have hlogged := (h.logged r hr.1).mpr hmem
  rw [hr.2] at hlogged
  cases hlogged

/-! ## The filter -/

theorem items_withoutHead_postponeFilterAdd (i : Nat) (input : List Bytes) (l : List Postponed) :
    items (Connection.withoutHead i (Connection.postponeFilterAdd input l)) =
      items (Connection.withoutHead i l) ++ input.map .inl := by
  have hadd := items_postponeFilterAdd input
  cases l with
  | nil => exact hadd []
  | cons pr next =>
    cases pr with
    | out chain =>
      cases next with
      | nil => exact hadd [.out chain]
      | cons pr' next => exact hadd (.out chain :: pr' :: next)
    | request sr =>
      have hrest : ∃ rest,
        Connection.postponeFilterAdd input (.request sr :: next) = .request sr :: rest ∧
          items rest = items next ++ input.map .inl := by
        cases next with
        | nil => exact ⟨[.out input], rfl, by simp [items]⟩
        | cons pr' next => exact ⟨_, rfl, hadd _⟩
      obtain ⟨rest, heq, hitems⟩ := hrest
      rw [heq, Connection.withoutHead, Connection.withoutHead]
      split
      · exact hitems
      · rw [items, items, hitems, List.cons_append]

theorem adds_postponeFilterAdd (c : Connection) (r : Nat) (input : List Bytes)
    (known : Nat → Prop) :
    Adds c (c.setPostponed r (Connection.postponeFilterAdd input (c.requests r).postponed)) r
      (input.map .inl)
      known := by
  refine ⟨fun s _ => ?_, fun s _ hs => ?_, ?_, fun s _ => ?_⟩
  · by_cases hs : s = r
    · rw [hs, Connection.setPostponed, requests_modify_self]
    · rw [Connection.setPostponed, requests_modify_ne c _ hs]
  · rw [Connection.setPostponed, requests_modify_ne c _ hs]
  · rw [Connection.setPostponed, requests_modify_self]
    exact items_postponeFilterAdd input _
  · rw [Connection.setPostponed, requests_modify_self]
    exact items_withoutHead_postponeFilterAdd s input _

theorem logged_setPostponed (c : Connection) (r : Nat) (l : List Postponed) (s : Nat) :
    ((c.setPostponed r l).requests s).logged = (c.requests s).logged := by
  by_cases hs : s = r
  · rw [hs, Connection.setPostponed, requests_modify_self]
  · rw [Connection.setPostponed, requests_modify_ne c _ hs]

theorem fresh_texts {c' : Connection} (hcreated : c'.created = c.created)
    (hlogged : ∀ s, (c'.requests s).logged = (c.requests s).logged) (input : List Bytes) :
    Fresh c c' (.texts input) := by
  refine ⟨?_, fun i hi => ?_, fun i => ?_, fun i _ => hlogged i, fun i hi => ?_⟩
  · rw [names_texts]; exact List.nodup_nil
  · rw [names_texts] at hi; cases hi
  · rw [names_texts, hcreated]; exact ⟨.inl, fun h => h.resolve_right List.not_mem_nil⟩
  · rw [names_texts] at hi; cases hi

theorem Shape.park {l : List Postponed} {before behind : Outline Nat Bytes}
    {frames : List (Frame Nat Bytes)}
    (h : Shape c l tree before behind frames) (hl : (c.requests c.data).postponed = l)
    {r : Nat} (hr : Open c r)
    (input : List Bytes) :
    let c' := c.setPostponed r (Connection.postponeFilterAdd input (c.requests r).postponed)
    ∃ behind' frames',
      Shape c' (c'.requests c.data).postponed (addTo r (.texts input) tree) before behind'
      frames' := by
  have hadds := adds_postponeFilterAdd c r input (· < c.created)
  have hfresh : Fresh c
    (c.setPostponed r (Connection.postponeFilterAdd input (c.requests r).postponed))
      (.texts input) :=
    @fresh_texts c (c.setPostponed r _) rfl (logged_setPostponed c r _) input
  refine ⟨_, _, h.add hadds (holds_texts r input) hfresh hr.1 (h.open_not_closed hr) rfl rfl ?_⟩
  split
  · next hrd => rw [← hl, ← hrd]; exact hadds.self
  · next hrd => rw [← hl]; exact hadds.others _ h.data_lt (Ne.symm hrd)

theorem Ordered.postponeFilter (h : Ordered c tree) {r : Nat} (hr : Open c r) (input : List Bytes) :
    Ordered (c.postponeFilter r input) (addTo r (.texts input) tree) := by
  obtain ⟨before, behind, frames, hs⟩ := h
  obtain ⟨behind', frames', hparked⟩ := hs.park rfl hr input
  rw [Connection.postponeFilter]
  by_cases hrd : r ≠ c.data
  · rw [if_pos hrd]
    by_cases hin : input ≠ []
    · rw [if_pos hin]
      exact ⟨before, behind', frames', hparked⟩
    · rw [if_neg hin, not_not.mp hin]
      show Ordered c (addTo r .nil tree)
      rw [addTo_nil]
      exact ⟨before, behind, frames, hs⟩
  · rw [if_neg hrd]
    rw [not_not] at hrd
    subst hrd
    by_cases hempty : (c.requests c.data).postponed = []
    · rw [if_pos hempty]
      rw [hempty] at hs
      have hbehind : behind = .nil := hs.parked.eq_nil
      subst hbehind
      have hpassed := hs.pass input
      rw [← hempty] at hpassed
      exact ⟨before ++ .texts input, .nil, frames, hpassed⟩
    · rw [if_neg hempty]
      by_cases hin : input ≠ []
      · rw [if_pos hin]
        rw [Connection.setPostponed, requests_modify_self] at hparked
        -- the loop finds the chain in the list, the request still has the old one
        have hback : Agrees
          (c.setPostponed c.data (Connection.postponeFilterAdd input (c.requests c.data).postponed))
            c := (agrees_modify c c.data rfl rfl fun hne => absurd rfl hne).symm
        exact (hparked.congr hback).postponeLoop
      · rw [if_neg hin, not_not.mp hin]
        show Ordered _ (addTo c.data .nil tree)
        rw [addTo_nil]
        exact hs.postponeLoop

theorem Ordered.postponeFilter_nil (h : Ordered c tree) (r : Nat) :
    Ordered (c.postponeFilter r []) tree := by
  rw [Connection.postponeFilter]
  by_cases hrd : r ≠ c.data
  · rw [if_pos hrd, if_neg (not_not.mpr rfl)]
    exact h
  obtain ⟨before, behind, frames, hs⟩ := h
  have hopen : Open c c.data := by
    refine ⟨hs.data_lt, ?_⟩
    rw [← Bool.not_eq_true, hs.logged _ hs.data_lt]
    exact hs.data_not_closed
  have hfilter := Ordered.postponeFilter ⟨before, behind, frames, hs⟩ hopen []
  rw [Connection.postponeFilter, if_neg (not_not.mpr rfl)] at hfilter
  rw [not_not.mp hrd, if_neg (not_not.mpr rfl)]
  have hsame : addTo c.data (.texts []) tree = tree := addTo_nil c.data tree
  rw [hsame] at hfilter
  exact hfilter

/-! ## Requests -/

theorem adds_subrequest (c : Connection) {r : Nat} (hr : r < c.created) (waited : Bool) :
    Adds c (c.subrequest r waited) r [.inr c.created] (· < c.created) := by
  have hself := requests_subrequest_self c waited (ne_of_lt hr)
  refine ⟨fun s hs => ?_, fun s hs hsr => ?_, ?_, fun s hs => ?_⟩
  · by_cases hsr : s = r
    · rw [hsr, hself]
    · rw [requests_subrequest_of_ne c waited hsr (ne_of_lt hs)]
  · rw [requests_subrequest_of_ne c waited hsr (ne_of_lt hs)]
  · rw [hself, items_append]
    rfl
  rw [hself]
  have hne : c.created ≠ s := (ne_of_lt hs).symm
  cases (c.requests r).postponed with
  | nil => exact congrArg items (if_neg hne)
  | cons pr next =>
    cases pr with
    | out chain => exact items_append (.out chain :: next) _
    | request sr =>
      rw [List.cons_append, Connection.withoutHead, Connection.withoutHead]
      split
      · exact items_append next _
      · exact items_append (.request sr :: next) _

theorem Ordered.subrequest (h : Ordered c tree) {r : Nat} (hr : Open c r) (waited : Bool) :
    Ordered (c.subrequest r waited) (addTo r (.node c.created .nil .nil) tree) := by
  obtain ⟨before, behind, frames, hs⟩ := h
  by_cases hspawn : c.data = r ∧ (c.requests r).postponed = []
  · obtain ⟨rfl, hempty⟩ := hspawn
    rw [hempty] at hs
    exact hs.spawn hempty waited
  have hdata : (c.subrequest r waited).data = c.data := if_neg hspawn
  have hadds := adds_subrequest c hr.1 waited
  have hnew : Holds (c.subrequest r waited) r [.inr c.created] (.node c.created .nil .nil) := by
    refine ⟨[], rfl, ?_, ?_, rfl⟩
    · rw [requests_subrequest_new]
    · rw [requests_subrequest_new]
      rfl
  refine ⟨_, _, _,
    hs.add hadds hnew (fresh_subrequest hr.1 waited) hr.1 (hs.open_not_closed hr) hdata rfl ?_⟩
  rw [hdata]
  split
  · next hrd => rw [← hrd]; exact hadds.self
  · next hrd => exact hadds.others _ hs.data_lt (Ne.symm hrd)

theorem finalizeRequest_active (c : Connection) (hdata : c.data ≠ 0)
    (hidle : ¬ ((c.requests c.data).buffered || (c.requests c.data).postponed ≠ [])) :
    c.finalizeRequest c.data = closeActive c := by
  rw [Connection.finalizeRequest, if_pos hdata, if_neg hidle, if_pos rfl]
  rfl

theorem Ordered.finalizeRequest (h : Ordered c tree) (r : Nat) :
    Ordered (c.finalizeRequest r) tree := by
  by_cases hmain : r ≠ 0
  · by_cases hbusy : (c.requests r).buffered || (c.requests r).postponed ≠ []
    · rw [Connection.finalizeRequest, if_pos hmain, if_pos hbusy]
      exact h.setHandler r .writer
    by_cases hrd : r = c.data
    · subst hrd
      rw [finalizeRequest_active c hmain hbusy]
      obtain ⟨before, behind, frames, hs⟩ := h
      simp only [Bool.or_eq_true, decide_eq_true_eq, not_or, not_not] at hbusy
      rw [hbusy.2] at hs
      exact hs.close hmain
    rw [Connection.finalizeRequest, if_pos hmain, if_neg hbusy, if_neg hrd]
    refine Ordered.postRequest ?_ _
    have hfinalizer := h.setHandler r .finalizer
    by_cases hwaited : (c.requests r).waited
    · simp only [if_pos hwaited]
      exact hfinalizer.modify r rfl rfl rfl
    · simp only [if_neg hwaited]
      exact hfinalizer
  · by_cases hbusy : (c.requests r).buffered || c.buffered || (c.requests r).postponed ≠ []
    · rw [Connection.finalizeRequest, if_neg hmain, if_pos hbusy]
      exact h.setHandler r .writer
    by_cases hrd : r ≠ c.data
    · rw [Connection.finalizeRequest, if_neg hmain, if_neg hbusy, if_pos hrd]
      exact h
    · rw [Connection.finalizeRequest, if_neg hmain, if_neg hbusy, if_neg hrd]
      exact h.modify r rfl rfl rfl

theorem Ordered.writer (h : Ordered c tree) (r : Nat) : Ordered (c.writer r) tree := by
  have hfilter := h.postponeFilter_nil r
  rw [Connection.writer]
  split
  · exact hfilter
  · exact (hfilter.setHandler r .empty).finalizeRequest r

theorem Ordered.runHandler (h : Ordered c tree) (r : Nat) : Ordered (c.runHandler r) tree := by
  rw [Connection.runHandler]
  cases (c.requests r).writeEventHandler with
  | own => exact h
  | writer => exact h.writer r
  | finalizer => exact h.finalizeRequest r
  | empty => exact h

theorem Ordered.runPostedRequest (h : Ordered c tree) : Ordered c.runPostedRequest tree := by
  rw [Connection.runPostedRequest]
  split
  · exact h
  · next r rest _ =>
    have htaken : Ordered { c with postedRequests := rest } tree :=
      h.congr ⟨rfl, rfl, rfl, fun _ _ => rfl, fun _ _ => rfl, fun _ _ _ => rfl⟩ rfl
    exact htaken.runHandler r

theorem Ordered.step (h : Ordered c tree) {event : Event} (hallowed : Allowed c event)
    (hopen : ∀ r, Active c r → Open c r) : Ordered (step c event) (grow c tree event) := by
  cases event with
  | output r input buffered =>
    have hfilter := h.postponeFilter (hopen r hallowed) input
    exact hfilter.modify r (f := fun q => { q with buffered := buffered }) rfl rfl rfl
  | subrequest r waited => exact h.subrequest (hopen r hallowed) waited
  | finalize r => exact (h.modify r rfl rfl rfl).finalizeRequest r
  | postedRequest => exact h.runPostedRequest
  | writeEvent => exact h.runHandler c.data
  | client buffered =>
    exact h.congr ⟨rfl, rfl, rfl, fun _ _ => rfl, fun _ _ => rfl, fun _ _ _ => rfl⟩ rfl

/-- The request `r` has nothing left to pass on. -/
def Idle (q : Request) : Prop := q.buffered = false ∧ q.postponed = []

/-- The record `q` of the request `r`. -/
structure Sound (r : Nat) (q : Request) : Prop where
  logged : q.logged = true → q.finished = true ∧ Idle q
  done : r = 0 → q.done = true → q.finished = true ∧ Idle q
  handler : q.writeEventHandler = .writer ∨ q.writeEventHandler = .finalizer → q.finished = true
  buffered : q.finished = true → q.buffered = true → q.writeEventHandler = .writer
  waiting : q.finished = true → q.logged = false → q.postponed ≠ [] → q.writeEventHandler = .writer
  ending : q.finished = true → q.logged = false → r ≠ 0 →
    q.writeEventHandler = .writer ∨ q.writeEventHandler = .finalizer
  main : r = 0 → q.writeEventHandler ≠ .finalizer

/-- A finished request that is to be finalized. -/
structure Ending (r : Nat) (q : Request) : Prop where
  finished : q.finished = true
  logged : q.logged = true → Idle q
  done : r = 0 → q.done = true → Idle q
  main : r = 0 → q.writeEventHandler ≠ .finalizer

theorem sound_new (r parent : Nat) (waited : Bool) :
    Sound r { parent := parent, waited := waited } where
  logged h := by cases h
  done _ h := by cases h
  handler h := by cases h <;> contradiction
  buffered h := by cases h
  waiting h := by cases h
  ending h := by cases h
  main _ h := by cases h

namespace Sound

variable {r : Nat} {q : Request}

theorem toEnding (h : Sound r q) (hfinished : q.finished = true) : Ending r q where
  finished := hfinished
  logged hlogged := (h.logged hlogged).2
  done hr hdone := (h.done hr hdone).2
  main := h.main

theorem output (h : Sound r q) (hactive : q.finished = false ∨ q.buffered = true)
    (l : List Postponed)
    (buffered : Bool) : Sound r { q with postponed := l, buffered := buffered } := by
  have hidle : q.finished = true ∧ Idle q → False := by
    rintro ⟨hfinished, hbuffered, -⟩
    rcases hactive with hactive | hactive
    · rw [hactive] at hfinished; cases hfinished
    · rw [hactive] at hbuffered; cases hbuffered
  have hwriter : q.finished = true → q.writeEventHandler = .writer := by
    intro hfinished
    refine h.buffered hfinished (hactive.resolve_left ?_)
    rw [hfinished]
    exact Bool.true_eq_false_eq_False
  exact {
    logged := fun hlogged => (hidle (h.logged hlogged)).elim
    done := fun hr hdone => (hidle (h.done hr hdone)).elim
    handler := h.handler
    buffered := fun hfinished _ => hwriter hfinished
    waiting := fun hfinished _ _ => hwriter hfinished
    ending := h.ending
    main := h.main }

theorem setPostponed (h : Sound r q) {l : List Postponed} (hl : l = [] ∨ q.postponed ≠ []) :
    Sound r { q with postponed := l } := by
  have hidle : Idle q → Idle { q with postponed := l } := fun hq =>
    ⟨hq.1, hl.resolve_right (not_not.mpr hq.2)⟩
  exact {
    logged := fun hlogged => (h.logged hlogged).imp_right hidle
    done := fun hr hdone => (h.done hr hdone).imp_right hidle
    handler := h.handler
    buffered := h.buffered
    waiting := fun hfinished hlogged hne => h.waiting hfinished hlogged (hl.resolve_left hne)
    ending := h.ending
    main := h.main }

end Sound

namespace Ending

variable {r : Nat} {q : Request}

theorem writer (h : Ending r q) : Sound r { q with writeEventHandler := .writer } where
  logged hlogged := ⟨h.finished, h.logged hlogged⟩
  done hr hdone := ⟨h.finished, h.done hr hdone⟩
  handler _ := h.finished
  buffered _ _ := rfl
  waiting _ _ _ := rfl
  ending _ _ _ := .inl rfl
  main _ hfinalizer := by cases hfinalizer

theorem finalizer (h : Ending r q) (hidle : Idle q) (hr : r ≠ 0) (done : Bool) :
    Sound r { q with writeEventHandler := .finalizer, done := done } where
  logged _ := ⟨h.finished, hidle⟩
  done hmain _ := absurd hmain hr
  handler _ := h.finished
  buffered _ hbuffered := by rw [hidle.1] at hbuffered; cases hbuffered
  waiting _ _ hpostponed := absurd hidle.2 hpostponed
  ending _ _ _ := .inr rfl
  main hmain _ := hr hmain

theorem close (h : Ending r q) (hidle : Idle q) :
    Sound r { q with logged := true, done := true } where
  logged _ := ⟨h.finished, hidle⟩
  done _ _ := ⟨h.finished, hidle⟩
  handler _ := h.finished
  buffered _ hbuffered := by rw [hidle.1] at hbuffered; cases hbuffered
  waiting _ hlogged := by cases hlogged
  ending _ hlogged := by cases hlogged
  main := h.main

theorem mainIdle (h : Ending 0 q) (hidle : Idle q) : Sound 0 q where
  logged _ := ⟨h.finished, hidle⟩
  done _ _ := ⟨h.finished, hidle⟩
  handler _ := h.finished
  buffered _ hbuffered := by rw [hidle.1] at hbuffered; cases hbuffered
  waiting _ _ hpostponed := absurd hidle.2 hpostponed
  ending _ _ hmain := absurd rfl hmain
  main := h.main

end Ending

/-! ## All requests -/

/-- The records of all requests; there is a main request. -/
structure AllSound (c : Connection) : Prop where
  pos : 0 < c.created
  sound : ∀ r, Sound r (c.requests r)

theorem allSound_start : AllSound start := ⟨one_pos, fun r => sound_new r 0 false⟩

namespace AllSound

variable {c c' : Connection}

theorem congr (h : AllSound c) (hcreated : c'.created = c.created)
    (hrequests : c'.requests = c.requests) :
    AllSound c' :=
  ⟨by rw [hcreated]; exact h.pos, by rw [hrequests]; exact h.sound⟩

theorem modify (h : AllSound c) {r : Nat} {f : Request → Request}
    (hf : Sound r (f (c.requests r))) :
    AllSound (c.modify r f) := by
  refine ⟨h.pos, fun s => ?_⟩
  by_cases hs : s = r
  · subst hs
    rw [requests_modify_self]
    exact hf
  · rw [requests_modify_ne c f hs]
    exact h.sound s

end AllSound

theorem requests_postponeLoop (c : Connection) (r : Nat) (l : List Postponed) :
    ∃ m, (Connection.postponeLoop c r l).requests = (c.setPostponed r m).requests ∧
      (Connection.postponeLoop c r l).created = c.created ∧
      (Connection.postponeLoop c r l).buffered = c.buffered ∧ m.length ≤ l.length - 1 := by
  induction l generalizing c with
  | nil => exact ⟨[], rfl, rfl, rfl, le_refl 0⟩
  | cons pr next ih =>
    cases pr with
    | request sr => exact ⟨next, rfl, rfl, rfl, le_rfl⟩
    | out chain =>
      obtain ⟨m, hm, hcreated, hclient, hlength⟩ := ih { c with output := c.output ++ chain }
      exact ⟨m, hm, hcreated, hclient, hlength.trans (Nat.sub_le _ _)⟩

theorem requests_postponeFilter (c : Connection) (r : Nat) (input : List Bytes) :
    ∃ l, (c.postponeFilter r input).requests = (c.setPostponed r l).requests ∧
      (c.postponeFilter r input).created = c.created ∧
      (input = [] → l = [] ∨ (c.requests r).postponed ≠ []) := by
  have hsame : c.requests = (c.setPostponed r (c.requests r).postponed).requests :=
    (update_eq_self r c.requests).symm
  have hown : (c.requests r).postponed = [] ∨ (c.requests r).postponed ≠ [] := em _
  rw [Connection.postponeFilter]
  split
  · split
    · next hin => exact ⟨_, rfl, rfl, fun h => absurd h hin⟩
    · exact ⟨_, hsame, rfl, fun _ => hown⟩
  split
  · exact ⟨_, hsame, rfl, fun _ => hown⟩
  · next hne =>
    obtain ⟨m, hm, hcreated, -, -⟩ := requests_postponeLoop c r
      (if input ≠
        [] then Connection.postponeFilterAdd input (c.requests r).postponed else
        (c.requests r).postponed)
    exact ⟨m, hm, hcreated, fun _ => .inr hne⟩

namespace AllSound

variable {c : Connection}

theorem postponeFilter_nil (h : AllSound c) (r : Nat) : AllSound (c.postponeFilter r []) := by
  obtain ⟨l, hrequests, hcreated, hl⟩ := requests_postponeFilter c r []
  exact (h.modify ((h.sound r).setPostponed (hl rfl))).congr hcreated hrequests

theorem output (h : AllSound c) {r : Nat} (hactive : Active c r)
    (input : List Bytes) (buffered : Bool) :
    AllSound (step c (.output r input buffered)) := by
  obtain ⟨l, hrequests, hcreated, -⟩ := requests_postponeFilter c r input
  have hrecord := (h.sound r).output hactive.2 l buffered
  have htwice : (step c (.output r input buffered)).requests =
      (c.modify r fun q => { q with postponed := l, buffered := buffered }).requests := by
    show update _ r _ = _
    rw [hrequests]
    show update (update c.requests r _) r _ = update c.requests r _
    rw [update_idem, Connection.setPostponed, requests_modify_self]
  exact (h.modify (f := fun q => { q with postponed := l, buffered := buffered }) hrecord).congr
    hcreated htwice

theorem subrequest (h : AllSound c) {r : Nat} (hactive : Active c r) (waited : Bool) :
    AllSound (c.subrequest r waited) := by
  have hrecord := (h.sound r).output hactive.2 ((c.requests r).postponed ++ [.request c.created])
    (c.requests r).buffered
  have hlist : AllSound (c.setPostponed r ((c.requests r).postponed ++ [.request c.created])) :=
    h.modify hrecord
  have hnew :=
    hlist.modify (r := c.created) (f := fun _ => { parent := r, waited := waited })
      (sound_new _ r waited)
  exact ⟨Nat.succ_pos _, hnew.sound⟩

/-- The end of a request keeps the flags of all others. -/
theorem finalizeRequest {r : Nat} (hpos : 0 < c.created)
    (hothers : ∀ s, s ≠ r → Sound s (c.requests s))
    (h : Ending r (c.requests r)) : AllSound (c.finalizeRequest r) := by
  have hmodify : ∀ f : Request → Request, Sound r (f (c.requests r)) → AllSound (c.modify r f) := by
    intro f hf
    refine ⟨hpos, fun s => ?_⟩
    by_cases hs : s = r
    · subst hs
      rw [requests_modify_self]
      exact hf
    · rw [requests_modify_ne c f hs]
      exact hothers s hs
  by_cases hmain : r ≠ 0
  · by_cases hbusy : (c.requests r).buffered || (c.requests r).postponed ≠ []
    · rw [Connection.finalizeRequest, if_pos hmain, if_pos hbusy]
      exact hmodify _ h.writer
    have hidle : Idle (c.requests r) := by
      simp only [Bool.or_eq_true, decide_eq_true_eq, not_or, not_not, Bool.not_eq_true] at hbusy
      exact hbusy
    by_cases hrd : r = c.data
    · subst hrd
      rw [finalizeRequest_active c hmain hbusy]
      have hlogged := hmodify (fun q => { q with logged := true, done := true }) (h.close hidle)
      have hparent : AllSound ((logActive c).setPostponed (c.requests c.data).parent
          (Connection.withoutHead c.data
            ((logActive c).requests (c.requests c.data).parent).postponed)) := by
        refine hlogged.modify ((hlogged.sound _).setPostponed ?_)
        cases ((logActive c).requests (c.requests c.data).parent).postponed with
        | nil => exact .inl rfl
        | cons pr next => exact .inr (List.cons_ne_nil _ _)
      exact hparent.congr rfl (requests_closeActive c)
    · rw [Connection.finalizeRequest, if_pos hmain, if_neg hbusy, if_neg hrd]
      by_cases hwaited : (c.requests r).waited
      · simp only [if_pos hwaited]
        have hfinalizer :=
          hmodify (fun q => { q with writeEventHandler := .finalizer }) (h.finalizer hidle hmain _)
        refine AllSound.congr
          (hfinalizer.modify (r := r) (f := fun q => { q with done := true }) ?_) rfl rfl
        rw [requests_modify_self]
        exact h.finalizer hidle hmain true
      · simp only [if_neg hwaited]
        exact AllSound.congr (hmodify (fun q => { q with writeEventHandler := .finalizer })
          (h.finalizer hidle hmain _)) rfl rfl
  · rw [not_not] at hmain
    subst hmain
    by_cases hbusy : (c.requests 0).buffered || c.buffered || (c.requests 0).postponed ≠ []
    · rw [Connection.finalizeRequest, if_neg (not_not.mpr rfl), if_pos hbusy]
      exact hmodify _ h.writer
    have hidle : Idle (c.requests 0) := by
      simp only [Bool.or_eq_true, decide_eq_true_eq, not_or, not_not, Bool.not_eq_true] at hbusy
      exact ⟨hbusy.1.1, hbusy.2⟩
    by_cases hrd : 0 ≠ c.data
    · rw [Connection.finalizeRequest, if_neg (not_not.mpr rfl), if_neg hbusy, if_pos hrd]
      refine ⟨hpos, fun s => ?_⟩
      by_cases hs : s = 0
      · rw [hs]
        exact h.mainIdle hidle
      · exact hothers s hs
    · rw [Connection.finalizeRequest, if_neg (not_not.mpr rfl), if_neg hbusy, if_neg hrd]
      refine hmodify _ (Ending.mainIdle ?_ hidle)
      exact ⟨h.finished, fun _ => hidle, fun _ _ => hidle, fun _ hf => by cases hf⟩

theorem writer (h : AllSound c) {r : Nat} (hfinished : (c.requests r).finished = true) :
    AllSound (c.writer r) := by
  have hfilter := h.postponeFilter_nil r
  rw [Connection.writer]
  split
  · exact hfilter
  obtain ⟨l, hrequests, -, -⟩ := requests_postponeFilter c r []
  have hkept : ((c.postponeFilter r []).requests r).finished = true := by
    rw [hrequests, Connection.setPostponed, requests_modify_self]
    exact hfinished
  have hending := (hfilter.sound r).toEnding hkept
  refine finalizeRequest hfilter.pos (fun s hs => ?_) ?_
  · rw [Connection.setHandler, requests_modify_ne _ _ hs]
    exact hfilter.sound s
  · rw [Connection.setHandler, requests_modify_self]
    exact ⟨hending.finished, hending.logged, hending.done, fun _ hf => by cases hf⟩

theorem runHandler (h : AllSound c) (r : Nat) : AllSound (c.runHandler r) := by
  rw [Connection.runHandler]
  cases hhandler : (c.requests r).writeEventHandler with
  | own => exact h
  | writer => exact h.writer ((h.sound r).handler (.inl hhandler))
  | finalizer =>
    have hfinished := (h.sound r).handler (.inr hhandler)
    exact finalizeRequest h.pos (fun s _ => h.sound s) ((h.sound r).toEnding hfinished)
  | empty => exact h

theorem step (h : AllSound c) {event : Event} (hallowed : Allowed c event) :
    AllSound (step c event) := by
  cases event with
  | output r input buffered => exact h.output hallowed input buffered
  | subrequest r waited => exact h.subrequest hallowed waited
  | finalize r =>
    have hrecord := h.sound r
    refine finalizeRequest h.pos (fun s hs => ?_) ?_
    · rw [requests_modify_ne _ _ hs]
      exact h.sound s
    · rw [requests_modify_self]
      exact ⟨rfl, fun hlogged => (hrecord.logged hlogged).2, fun hr hdone =>
        (hrecord.done hr hdone).2, hrecord.main⟩
  | postedRequest =>
    show AllSound c.runPostedRequest
    rw [Connection.runPostedRequest]
    split
    · exact h
    · next r rest _ =>
      have hnext : AllSound { c with postedRequests := rest } := h.congr rfl rfl
      exact hnext.runHandler r
  | writeEvent => exact h.runHandler c.data
  | client buffered => exact h.congr rfl rfl

theorem open_of_active (h : AllSound c) {r : Nat} (hactive : Active c r) : Open c r := by
  refine ⟨hactive.1, ?_⟩
  rw [← Bool.not_eq_true]
  intro hlogged
  obtain ⟨hfinished, hbuffered, -⟩ := (h.sound r).logged hlogged
  rcases hactive.2 with hactive | hactive
  · rw [hactive] at hfinished; cases hfinished
  · rw [hactive] at hbuffered; cases hbuffered

end AllSound

end Nginx.Http.Postpone
