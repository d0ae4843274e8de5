/-
  Foundation/Machines.lean --- machines that read a stream, and machines that step.

  A `Machine` reads one symbol at a time: a step goes on in a new state or halts with a
  result (`feed`), and how the symbols are cut into buffers does not matter.  A
  `Resumable` machine is a family of handlers; a call gets all bytes that are unread,
  and says where it stopped and which handler comes next, or keeps what it cannot use
  yet until more has arrived, or ends the run.  A `Stepping` machine makes one step at a
  time and can go wrong; a stretch of a run that is known can be skipped (`All.after`).
-/
import Mathlib.Data.List.Basic
import Mathlib.Tactic.Ring

set_option autoImplicit false

namespace Nginx.Foundation.Machine

variable {σ ρ β : Type}

/-- The result of one step. -/
inductive Step (σ ρ : Type) where
  /-- go on in this state -/
  | next (s : σ)
  /-- stop with this result -/
  | halt (r : ρ)
  deriving DecidableEq

/-- Where a machine is after a sequence. -/
inductive Outcome (σ ρ β : Type) where
  /-- it has read everything and waits for more -/
  | running (s : σ)
  /-- it has stopped before the symbols left over -/
  | halted (r : ρ) (rest : List β)
  deriving DecidableEq

/-- Run a machine over a sequence. -/
def feed (step : σ → β → Step σ ρ) : σ → List β → Outcome σ ρ β
  | s, [] => .running s
  | s, b :: bs =>
      match step s b with
      | .next s' => feed step s' bs
      | .halt r => .halted r bs

variable {step : σ → β → Step σ ρ}

@[simp] theorem feed_nil (s : σ) : feed step s [] = .running s := rfl

theorem feed_cons_next {s s' : σ} {b : β} (h : step s b = .next s') (bs : List β) :
    feed step s (b :: bs) = feed step s' bs := by
  simp only [feed, h]

theorem feed_cons_halt {s : σ} {b : β} {r : ρ} (h : step s b = .halt r) (bs : List β) :
    feed step s (b :: bs) = .halted r bs := by
  simp only [feed, h]

/-- Continue an outcome with more symbols. -/
def Outcome.more (step : σ → β → Step σ ρ) : Outcome σ ρ β → List β → Outcome σ ρ β
  | .running s, bs => feed step s bs
  | .halted r rest, bs => .halted r (rest ++ bs)

theorem feed_append (s : σ) (xs ys : List β) :
    feed step s (xs ++ ys) = (feed step s xs).more step ys := by
  induction xs generalizing s with
  | nil => rfl
  | cons x xs ih =>
    cases hstep : step s x with
    | next s' => rw [List.cons_append, feed_cons_next hstep, feed_cons_next hstep, ih]
    | halt r => rw [List.cons_append, feed_cons_halt hstep, feed_cons_halt hstep]; rfl

theorem add_length_le_of_feed {need : σ → Nat} {kind : ρ → Prop}
    (hnext : ∀ s b s', step s b = .next s' → need s ≤ 1 + need s')
    (hhalt : ∀ s b r, step s b = .halt r → kind r → need s ≤ 1) {s : σ} {bs rest : List β} {r : ρ}
    (hrun : feed step s bs = .halted r rest) (hr : kind r) : need s + rest.length ≤ bs.length := by
  induction bs generalizing s with
  | nil => cases hrun
  | cons b bs ih =>
    rw [List.length_cons]
    cases hstep : step s b with
    | next s' =>
      rw [feed_cons_next hstep] at hrun
      have hle := hnext s b s' hstep
      have hrest := ih hrun
      omega
    | halt r' =>
      rw [feed_cons_halt hstep] at hrun
      cases hrun
      have hle := hhalt s b r hstep hr
      omega

end Nginx.Foundation.Machine

namespace Nginx.Foundation.Resumable

variable {η σ ε α : Type}

/-- What one call of a handler comes to. -/
inductive Turn (η σ ε α : Type) where
  /-- the handler returns before the symbols `rest`, and `next` is called there -/
  | goOn (next : η) (s : σ) (rest : List α)
  /-- the handler keeps `kept`, and `next` is called when there is more -/
  | save (next : η) (s : σ) (kept : List α)
  /-- the run is over -/
  | fail (e : ε) (s : σ)
  deriving DecidableEq

/-- Where a machine is between two reads. -/
inductive Waiting (η σ ε α : Type) where
  /-- it waits for more, behind the symbols `kept` -/
  | ready (next : η) (s : σ) (kept : List α)
  /-- it has ended -/
  | failed (e : ε) (s : σ)
  /-- a bound on the number of turns was too small -/
  | stuck
  deriving DecidableEq

variable (call : η → σ → List α → Turn η σ ε α)

/-- Call handlers until nothing is unread, for `fuel` turns at most. -/
def drain : Nat → η → σ → List α → Waiting η σ ε α
  | 0, _, _, _ => .stuck
  | fuel + 1, h, s, unread =>
    match call h s unread with
    | .goOn h' s' [] => .ready h' s' []
    | .goOn h' s' (a :: rest) => drain fuel h' s' (a :: rest)
    | .save h' s' kept => .ready h' s' kept
    | .fail e s' => .failed e s'

attribute [local simp] drain

/-- One read: the symbols kept from the last one come first. -/
def deliver (fuel : Nat) : Waiting η σ ε α → List α → Waiting η σ ε α
  | .ready h s kept, read => drain call fuel h s (kept ++ read)
  | .failed e s, _ => .failed e s
  | .stuck, _ => .stuck

/-- Read after read. -/
def feed (fuel : Nat) (w : Waiting η σ ε α) (reads : List (List α)) : Waiting η σ ε α :=
  reads.foldl (deliver call fuel) w

variable {call}

@[simp] theorem feed_nil (fuel : Nat) (w : Waiting η σ ε α) : feed call fuel w [] = w := rfl

@[simp] theorem feed_cons (fuel : Nat) (w : Waiting η σ ε α) (read : List α)
    (reads : List (List α)) :
    feed call fuel w (read :: reads) = feed call fuel (deliver call fuel w read) reads := rfl

theorem feed_append (fuel : Nat) (w : Waiting η σ ε α) (reads reads' : List (List α)) :
    feed call fuel w (reads ++ reads') = feed call fuel (feed call fuel w reads) reads' :=
  List.foldl_append

@[simp] theorem feed_failed (fuel : Nat) (e : ε) (s : σ) (reads : List (List α)) :
    feed call fuel (.failed e s) reads = .failed e s := by
  induction reads with
  | nil => rfl
  | cons read reads ih => exact ih

/-- Where the machine is behind a call that leaves nothing unread. -/
def Turn.atEnd : Turn η σ ε α → Waiting η σ ε α
  | .goOn h s rest => .ready h s rest
  | .save h s kept => .ready h s kept
  | .fail e s => .failed e s

variable {fuel : Nat}

theorem drain_eq_atEnd {h : η} {s : σ} {unread : List α} (hfuel : 0 < fuel)
    (hend : ∀ h' s' rest, call h s unread = .goOn h' s' rest → rest = []) :
    drain call fuel h s unread = (call h s unread).atEnd := by
  obtain ⟨fuel, rfl⟩ := Nat.exists_eq_succ_of_ne_zero hfuel.ne'
  rw [drain]
  cases hcall : call h s unread with
  | goOn h' s' rest =>
    obtain rfl := hend h' s' rest hcall
    rfl
  | save h' s' kept => rfl
  | fail e s' => rfl

theorem drain_save {h h' : η} {s s' : σ} {unread kept : List α} (hfuel : 0 < fuel)
    (hcall : call h s unread = .save h' s' kept) :
    drain call fuel h s unread = .ready h' s' kept := by
  obtain ⟨fuel, rfl⟩ := Nat.exists_eq_succ_of_ne_zero hfuel.ne'
  rw [drain, hcall]

theorem drain_congr {h h' : η} {s s' : σ} {unread unread' : List α}
    (hcall : call h s unread = call h' s' unread') :
    drain call fuel h s unread = drain call fuel h' s' unread' := by
  cases fuel with
  | zero => rfl
  | succ fuel => rw [drain, drain, hcall]

end Nginx.Foundation.Resumable

namespace Nginx.Foundation.Stepping

variable {σ φ : Type}

/-- The state after `n` steps, or what went wrong. -/
def run (step : σ → Except φ σ) : Nat → σ → Except φ σ
  | 0, s => .ok s
  | n + 1, s =>
    match step s with
    | .ok s' => run step n s'
    | .error f => .error f

/-- The states in which the steps of a run are made, and the last one. -/
def states (step : σ → Except φ σ) : Nat → σ → List σ
  | 0, s => [s]
  | n + 1, s =>
    s :: match step s with
      | .ok s' => states step n s'
      | .error _ => []

variable {step : σ → Except φ σ}

theorem run_succ {s s' : σ} (h : step s = .ok s') (n : Nat) :
    run step (n + 1) s = run step n s' := by
  rw [run, h]

theorem states_succ {s s' : σ} (h : step s = .ok s') (n : Nat) :
    states step (n + 1) s = s :: states step n s' := by
  rw [states, h]

theorem mem_states_self (n : Nat) (s : σ) : s ∈ states step n s := by
  cases n with
  | zero => exact List.mem_singleton_self s
  | succ n => exact List.mem_cons_self

theorem run_add {k : Nat} {s m : σ} (h : run step k s = .ok m) (n : Nat) :
    run step (k + n) s = run step n m := by
  induction k generalizing s with
  | zero =>
    cases h
    rw [zero_add]
  | succ k ih =>
    cases hstep : step s with
    | ok s' =>
      rw [run_succ hstep] at h
      rw [add_right_comm, run_succ hstep, ih h]
    | error f =>
      rw [run, hstep] at h
      cases h

/-- Every state of the run has the property. -/
def All (step : σ → Except φ σ) (P : σ → Prop) (n : Nat) (s : σ) :
    Prop := ∀ t ∈ states step n s, P t

instance (P : σ → Prop) [DecidablePred P] (n : Nat) (s : σ) : Decidable (All step P n s) :=
  inferInstanceAs (Decidable (∀ t ∈ states step n s, P t))

namespace All

variable {P : σ → Prop}

theorem here {n : Nat} {s : σ} (h : All step P n s) : P s := h s (mem_states_self n s)

theorem next {n : Nat} {s s' : σ} (h : All step P (n + 1) s) (hstep : step s = .ok s') :
    All step P n s' := by
  intro t ht
  apply h t
  rw [states_succ hstep]
  exact List.mem_cons_of_mem s ht

theorem after {k n : Nat} {s m : σ} (h : All step P (k + n) s) (hrun : run step k s = .ok m) :
    All step P n m := by
  induction k generalizing s with
  | zero =>
    cases hrun
    rwa [zero_add] at h
  | succ k ih =>
    cases hstep : step s with
    | ok s' =>
      rw [run_succ hstep] at hrun
      rw [add_right_comm] at h
      exact ih (h.next hstep) hrun
    | error f =>
      rw [run, hstep] at hrun
      cases hrun

end All

/-- Within `n` steps the machine comes to a state with `Q`, and nothing goes wrong. -/
def Comes (step : σ → Except φ σ) (Q : σ → Prop) (n : Nat) (s : σ) : Prop :=
  ∃ t, run step n s = .ok t ∧ Q t

theorem Comes.of_after {Q : σ → Prop} {k n : Nat} {s m : σ} (hrun : run step k s = .ok m)
    (h : Comes step Q n m) : Comes step Q (k + n) s := by
  obtain ⟨t, ht, hq⟩ := h
  exact ⟨t, by rw [run_add hrun, ht], hq⟩

end Nginx.Foundation.Stepping
