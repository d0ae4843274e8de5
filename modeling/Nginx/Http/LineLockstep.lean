/-
  Http/LineLockstep.lean --- two runs of `ngx_http_parse_request_line` over the
  same line at different places in memory go in lockstep.

  Relocation moves the pointers that are not set yet along with the others, so they hold
  garbage until they are assigned.  `Known` says which fields hold something: it follows
  from the state before a byte, and the assignments of the byte need and give what
  `requires` and `gives` say.  `Agree` compares two requests pointer by pointer, by
  offsets from the start of the line; a pointer that is not set yet is not compared.
-/
import Nginx.Http.Parse.RequestLine

set_option autoImplicit false

namespace Nginx.Http

open Foundation
open Parse

/-- The pointers without a `NULL` test that are set. -/
structure Known where
  methodEnd : Bool
  uriStart : Bool
  uriEnd : Bool
  schemaStart : Bool
  schemaEnd : Bool
  /-- two bytes have been read behind `schema_end` -/
  slashes : Bool
  /-- a schema that has begun has ended -/
  schemaClosed : Bool
  hostStart : Bool
  deriving DecidableEq

namespace Known

/-- Nothing but the method, which is still being read. -/
def none : Known := ⟨false, false, false, false, false, false, true, false⟩

/-- All that `a` knows, `b` knows. -/
def le (a b : Known) : Bool :=
  (!a.methodEnd || b.methodEnd) && (!a.uriStart || b.uriStart) && (!a.uriEnd || b.uriEnd) &&
  (!a.schemaStart || b.schemaStart) && (!a.schemaEnd || b.schemaEnd) &&
  (!a.slashes || b.slashes) && (!a.schemaClosed || b.schemaClosed) &&
  (!a.hostStart || b.hostStart)

/-- With the next byte read. -/
def tick (k : Known) : Known := { k with slashes := k.slashes || k.schemaEnd }

/-- What an assignment reads. -/
def requires (k : Known) : Assign → Bool
  | .requestStart => false
  | .schemaEnd => k.schemaStart
  | .hostEnd => k.hostStart
  | .singleSlash => k.slashes
  | _ => true

/-- What is set behind an assignment. -/
def gives (k : Known) : Assign → Known
  | .methodEnd => { k with methodEnd := true }
  | .uriStart => { k with uriStart := true }
  | .schemaStart => { k with
      schemaStart := true, schemaEnd := false, slashes := false, schemaClosed := false }
  | .schemaEnd => { k with schemaEnd := true, slashes := false, schemaClosed := true }
  | .hostStart => { k with hostStart := true }
  | .singleSlash => { k with uriStart := true, uriEnd := true }
  | .uriEnd => { k with uriEnd := true }
  | _ => k

/-- What is set behind a list of assignments, if they may be made. -/
def run (k : Known) : List Assign → Option Known
  | [] => some k
  | a :: assigns => if k.requires a then (k.gives a).run assigns else Option.none

end Known

/-- What is set in a state, `sw_start` apart. -/
def knownIn : LineState → Known
  | .start | .method => .none
  | .spacesBeforeUri => ⟨true, false, false, false, false, false, true, false⟩
  | .schema => ⟨true, false, false, true, false, false, false, false⟩
  | .schemaSlash => ⟨true, false, false, true, true, false, true, false⟩
  | .schemaSlashSlash | .hostStart => ⟨true, false, false, true, true, true, true, false⟩
  | .host | .hostEnd | .hostIpLiteral | .port => ⟨true, false, false, true, true, true, true, true⟩
  | .afterSlashInUri | .checkUri | .uri =>
      ⟨true, true, false, false, false, false, true, false⟩
  | _ => ⟨true, true, true, false, false, false, true, false⟩

/-- What the label `done` needs. -/
def knownDone : Known := ⟨true, true, true, false, false, false, true, false⟩

/-- The assignments may be made, and set what the next state needs. -/
def actionFlows (state : LineState) : LineAction → Bool
  | .next assigns state' =>
      (((knownIn state).tick.run assigns).any fun k => (knownIn state').le k) && state' ≠ .start
  | .done assigns => ((knownIn state).tick.run assigns).any fun k => knownDone.le k
  | .fail _ => true

set_option maxRecDepth 8000 in
theorem lineAction_flows (state : LineState) (hstate : state ≠ .start) (ch : Byte) :
    actionFlows state (lineAction state ch) = true := by
  revert ch
  apply forall_byte
  cases state
  case start => exact absurd rfl hstate
  all_goals decide +kernel

/-! ## Offsets -/

/-- Two addresses at the same offset, at most `n`, from two bases. -/
def SameOffset (s t n x y : Nat) : Prop := ∃ j ≤ n, x = s + j ∧ y = t + j

/-- The same for pointers that may be `NULL`. -/
def SameOffsetOrNull (s t n x y : Nat) : Prop := (x = 0 ∧ y = 0) ∨ SameOffset s t n x y

variable {s t n m x y : Nat}

theorem SameOffset.mono (h : SameOffset s t n x y) (hle : n ≤ m) : SameOffset s t m x y := by
  obtain ⟨j, hj, hx, hy⟩ := h
  exact ⟨j, le_trans hj hle, hx, hy⟩

theorem SameOffsetOrNull.mono (h : SameOffsetOrNull s t n x y) (hle : n ≤ m) :
    SameOffsetOrNull s t m x y :=
  h.imp_right fun h => h.mono hle

theorem SameOffset.ne_zero (h : SameOffset s t n x y) (hs : 0 < s) (ht : 0 < t) :
    x ≠ 0 ∧ y ≠ 0 := by
  obtain ⟨j, -, rfl, rfl⟩ := h
  omega

theorem SameOffsetOrNull.zero_iff (h : SameOffsetOrNull s t n x y) (hs : 0 < s) (ht : 0 < t) :
    x = 0 ↔ y = 0 := by
  rcases h with ⟨rfl, rfl⟩ | h
  · exact Iff.rfl
  · have hne := h.ne_zero hs ht
    exact ⟨fun hx => absurd hx hne.1, fun hy => absurd hy hne.2⟩

theorem SameOffsetOrNull.of_ne (h : SameOffsetOrNull s t n x y) (hne : x ≠ 0) :
    SameOffset s t n x y :=
  h.resolve_left fun hnull => hne hnull.1

/-! ## Requests -/

/-- The requests of two runs whose lines begin at `s` and `t`, up to pointers
that are not set: `n` bytes of the line have been read. -/
structure Agree (k : Known) (s t n : Nat) (a b : Request) : Prop where
  start : a.requestStart = s ∧ b.requestStart = t
  methodEnd : k.methodEnd = true → ∃ j, j + 1 ≤ n ∧ a.methodEnd = s + j ∧ b.methodEnd = t + j
  uriStart : k.uriStart = true → SameOffset s t n a.uriStart b.uriStart
  uriEnd : k.uriEnd = true → SameOffset s t n a.uriEnd b.uriEnd
  schemaStart : SameOffsetOrNull s t n a.schemaStart b.schemaStart
  schemaBegun : k.schemaStart = true → a.schemaStart ≠ 0
  schemaEnd : k.schemaEnd = true → ∃ j, j + 1 ≤ n ∧ a.schemaEnd = s + j ∧ b.schemaEnd = t + j
  slashes : k.slashes = true → ∃ j, j + 2 ≤ n ∧ a.schemaEnd = s + j ∧ b.schemaEnd = t + j
  schemaClosed : k.schemaClosed = true → a.schemaStart ≠ 0 →
    SameOffset s t n a.schemaEnd b.schemaEnd
  schemaNull : a.schemaStart = 0 → a.schemaEnd = 0 ∧ b.schemaEnd = 0
  hostStart : SameOffsetOrNull s t n a.hostStart b.hostStart
  hostBegun : k.hostStart = true → a.hostStart ≠ 0
  hostEnd : SameOffsetOrNull s t n a.hostEnd b.hostEnd
  hostNull : a.hostStart = 0 → a.hostEnd = 0
  requestEnd : SameOffsetOrNull s t n a.requestEnd b.requestEnd
  uriExt : SameOffsetOrNull s t n a.uriExt b.uriExt
  argsStart : SameOffsetOrNull s t n a.argsStart b.argsStart
  httpProtocol : SameOffsetOrNull s t n a.httpProtocol b.httpProtocol
  method : a.method = b.method
  httpMajor : a.httpMajor = b.httpMajor
  httpMinor : a.httpMinor = b.httpMinor
  complexUri : a.complexUri = b.complexUri
  quotedUri : a.quotedUri = b.quotedUri
  plusInUri : a.plusInUri = b.plusInUri
  spaceInUri : a.spaceInUri = b.spaceInUri

variable {k k' : Known} {a b : Request}

theorem Agree.le (h : Agree k' s t n a b) (hle : k.le k' = true) : Agree k s t n a b := by
  simp only [Known.le, Bool.and_eq_true, Bool.or_eq_true, Bool.not_eq_true'] at hle
  obtain ⟨⟨⟨⟨⟨⟨⟨h₁, h₂⟩, h₃⟩, h₄⟩, h₅⟩, h₆⟩, h₇⟩, h₈⟩ := hle
  exact
  { h with
    methodEnd := fun hk => h.methodEnd (h₁.resolve_left (by simp [hk]))
    uriStart := fun hk => h.uriStart (h₂.resolve_left (by simp [hk]))
    uriEnd := fun hk => h.uriEnd (h₃.resolve_left (by simp [hk]))
    schemaBegun := fun hk => h.schemaBegun (h₄.resolve_left (by simp [hk]))
    schemaEnd := fun hk => h.schemaEnd (h₅.resolve_left (by simp [hk]))
    slashes := fun hk => h.slashes (h₆.resolve_left (by simp [hk]))
    schemaClosed := fun hk => h.schemaClosed (h₇.resolve_left (by simp [hk]))
    hostBegun := fun hk => h.hostBegun (h₈.resolve_left (by simp [hk])) }

theorem Agree.tick (h : Agree k s t n a b) : Agree k.tick s t (n + 1) a b :=
  have hle : n ≤ n + 1 := Nat.le_succ n
  { h with
    methodEnd := fun hk => (h.methodEnd hk).imp fun _ hj => ⟨Nat.le_succ_of_le hj.1, hj.2⟩
    uriStart := fun hk => (h.uriStart hk).mono hle
    uriEnd := fun hk => (h.uriEnd hk).mono hle
    schemaStart := h.schemaStart.mono hle
    schemaEnd := fun hk => (h.schemaEnd hk).imp fun _ hj => ⟨Nat.le_succ_of_le hj.1, hj.2⟩
    slashes := fun hk => by
      rcases Bool.or_eq_true_iff.mp hk with hk | hk
      · exact (h.slashes hk).imp fun _ hj => ⟨Nat.le_succ_of_le hj.1, hj.2⟩
      · exact (h.schemaEnd hk).imp fun _ hj => ⟨Nat.succ_le_succ hj.1, hj.2⟩
    schemaClosed := fun hk hne => (h.schemaClosed hk hne).mono hle
    hostStart := h.hostStart.mono hle
    hostEnd := h.hostEnd.mono hle
    requestEnd := h.requestEnd.mono hle
    uriExt := h.uriExt.mono hle
    argsStart := h.argsStart.mono hle
    httpProtocol := h.httpProtocol.mono hle }

/-! ## Assignments -/

/-- The two memories hold the same first `n` bytes of the line. -/
def SameLine (mem mem' : Nat → Byte) (s t n : Nat) : Prop := ∀ i < n, mem (s + i) = mem' (t + i)

theorem slice_eq_of_length {mem mem' : Nat → Byte} {x' y' : Nat}
    (h : SameLine mem mem' s t n) (hfirst : SameOffset s t n x y) (hlen : x' - x = y' - y)
    (hlast : x' ≤ s + n) : slice mem x x' = slice mem' y y' := by
  obtain ⟨i, -, rfl, rfl⟩ := hfirst
  simp only [slice, load, ← hlen]
  apply List.map_congr_left
  intro l hl
  rw [List.mem_range] at hl
  rw [add_assoc, add_assoc]
  exact h (i + l) (by omega)

theorem slice_eq_of_sameLine {mem mem' : Nat → Byte} {x' y' : Nat} (h : SameLine mem mem' s t n)
    (hfirst : SameOffset s t n x y) (hlast : SameOffset s t n x' y') :
    slice mem x x' = slice mem' y y' := by
  obtain ⟨j, hj, rfl, rfl⟩ := hlast
  refine slice_eq_of_length h hfirst ?_ (by omega)
  obtain ⟨i, -, rfl, rfl⟩ := hfirst
  omega

/-- The results of an assignment agree, or both refuse the line alike. -/
def SameResult (k : Known) (s t n : Nat) : Except LineError Request → Except LineError Request →
    Prop
  | .ok a, .ok b => Agree k s t n a b
  | .error rc, .error rc' => rc = rc'
  | _, _ => False

variable {mem mem' : Nat → Byte} {ch : Byte}

theorem sameResult_run (ch : Byte) (hs : 0 < s) (ht : 0 < t) (hn : 0 < n)
    (hline : SameLine mem mem' s t n)
    (h : Agree k s t (n + 1) a b) (asg : Assign) (hreq : k.requires asg = true) :
    SameResult (k.gives asg) s t (n + 1) (asg.run mem (s + n) ch a)
      (asg.run mem' (t + n) ch b) := by
  have hp : SameOffset s t (n + 1) (s + n) (t + n) := ⟨n, Nat.le_succ n, rfl, rfl⟩
  have hnext : SameOffset s t (n + 1) (s + n + 1) (t + n + 1) := ⟨n + 1, le_rfl, rfl, rfl⟩
  have hprev : SameOffset s t (n + 1) (s + n - 1) (t + n - 1) :=
    ⟨n - 1, by omega, by omega, by omega⟩
  have hne : s + n ≠ 0 ∧ t + n ≠ 0 := hp.ne_zero hs ht
  cases asg with
  | requestStart => exact absurd hreq (by simp [Known.requires])
  | methodEnd =>
    exact
    { h with
      methodEnd := fun _ => ⟨n - 1, by omega, by simp only; omega, by simp only; omega⟩
      method := by
        have htext : slice mem a.requestStart (s + n) = slice mem' b.requestStart (t + n) := by
          rw [h.start.1, h.start.2]
          exact slice_eq_of_sameLine hline ⟨0, Nat.zero_le n, rfl, rfl⟩ ⟨n, Nat.le_refl n, rfl, rfl⟩
        simp only [htext, h.method] }
  | uriStart => exact { h with uriStart := fun _ => hp }
  | schemaStart =>
    exact
    { h with
      schemaStart := Or.inr hp
      schemaBegun := fun _ => hne.1
      schemaEnd := fun hk => absurd hk Bool.false_ne_true
      slashes := fun hk => absurd hk Bool.false_ne_true
      schemaClosed := fun hk => absurd hk Bool.false_ne_true
      schemaNull := fun hnull => absurd hnull hne.1 }
  | schemaEnd =>
    exact
    { h with
      schemaEnd := fun _ => ⟨n, le_rfl, rfl, rfl⟩
      slashes := fun hk => absurd hk Bool.false_ne_true
      schemaClosed := fun _ _ => hp
      schemaNull := fun hnull => absurd hnull (h.schemaBegun hreq) }
  | hostStart =>
    exact
    { h with
      hostStart := Or.inr hp
      hostBegun := fun _ => hne.1
      hostNull := fun hnull => absurd hnull hne.1 }
  | hostEnd =>
    exact { h with hostEnd := Or.inr hp, hostNull := fun hnull => absurd hnull (h.hostBegun hreq) }
  | portEnd => exact { h with }
  | singleSlash =>
    obtain ⟨j, hj, hja, hjb⟩ := h.slashes hreq
    exact
    { h with
      uriStart := fun _ => ⟨j + 1, by omega, by simp only [hja]; omega, by simp only [hjb]; omega⟩
      uriEnd := fun _ => ⟨j + 2, by omega, by simp only [hja]; omega, by simp only [hjb]; omega⟩ }
  | uriEnd => exact { h with uriEnd := fun _ => hp }
  | http09 => exact { h with httpMinor := rfl }
  | httpProtocol => exact { h with httpProtocol := Or.inr hp }
  | complexUri => exact { h with complexUri := rfl }
  | quotedUri => exact { h with quotedUri := rfl }
  | plusInUri => exact { h with plusInUri := rfl }
  | spaceInUri => exact { h with spaceInUri := rfl }
  | argsStart => exact { h with argsStart := Or.inr hnext }
  | uriExt => exact { h with uriExt := Or.inr hnext }
  | uriExtNull => exact { h with uriExt := Or.inl ⟨rfl, rfl⟩ }
  | firstMajorDigit =>
    simp only [Assign.run]
    split
    · exact rfl
    · exact { h with httpMajor := rfl }
  | majorDigit =>
    simp only [Assign.run, h.httpMajor]
    split
    · exact rfl
    · exact { h with httpMajor := rfl }
  | firstMinorDigit => exact { h with httpMinor := rfl }
  | minorDigit =>
    simp only [Assign.run, h.httpMinor]
    split
    · exact rfl
    · exact { h with httpMinor := rfl }
  | requestEnd => exact { h with requestEnd := Or.inr hprev }

theorem sameResult_runAssigns (hs : 0 < s) (ht : 0 < t) (hn : 0 < n)
    (hline : SameLine mem mem' s t n) {assigns : List Assign} : ∀ {k : Known} {a b : Request},
    Agree k s t (n + 1) a b → k.run assigns = some k' →
    SameResult k' s t (n + 1) (runAssigns mem (s + n) ch a assigns)
      (runAssigns mem' (t + n) ch b assigns) := by
  induction assigns with
  | nil =>
    intro k a b h hk
    cases hk
    exact h
  | cons asg assigns ih =>
    intro k a b h hk
    rw [Known.run] at hk
    split at hk
    · rename_i hreq
      have hone := sameResult_run ch hs ht hn hline h asg hreq
      rw [runAssigns, runAssigns, List.foldlM_cons, List.foldlM_cons]
      cases ha : asg.run mem (s + n) ch a with
      | ok a₁ =>
        cases hb : asg.run mem' (t + n) ch b with
        | ok b₁ =>
          rw [ha, hb] at hone
          exact ih hone hk
        | error rc =>
          rw [ha, hb] at hone
          exact hone.elim
      | error rc =>
        cases hb : asg.run mem' (t + n) ch b with
        | ok b₁ =>
          rw [ha, hb] at hone
          exact hone.elim
        | error rc' =>
          rw [ha, hb] at hone
          exact hone
    · cases hk

/-! ## The loop -/

/-- Two runs between two bytes: nothing of the line has been read, or the
requests agree on what has. -/
def Lockstep (state : LineState) (mem mem' : Nat → Byte) (p q : Nat) (a b : Request) : Prop :=
  match state with
  | .start => (∃ x, a = { Request.created with requestStart := x }) ∧
      ∃ y, b = { Request.created with requestStart := y }
  | state => ∃ s t n, (0 < s ∧ 0 < t ∧ 0 < n) ∧ p = s + n ∧ q = t + n ∧
      SameLine mem mem' s t n ∧ Agree (knownIn state) s t n a b

/-- Two runs at the label `done`. -/
def LockstepDone (mem mem' : Nat → Byte) (p q : Nat) (a b : Request) : Prop :=
  ∃ s t n, (0 < s ∧ 0 < t) ∧ p = s + n ∧ q = t + n ∧ SameLine mem mem' s t (n + 1) ∧
    Agree knownDone s t (n + 1) a b

theorem lockstep_iff {state : LineState} (hstate : state ≠ .start) {p q : Nat} :
    Lockstep state mem mem' p q a b ↔
      ∃ s t n, (0 < s ∧ 0 < t ∧ 0 < n) ∧ p = s + n ∧ q = t + n ∧
        SameLine mem mem' s t n ∧ Agree (knownIn state) s t n a b := by
  cases state <;> first | exact absurd rfl hstate | exact Iff.rfl

theorem SameLine.succ (h : SameLine mem mem' s t n) (hch : mem (s + n) = mem' (t + n)) :
    SameLine mem mem' s t (n + 1) := by
  intro i hi
  by_cases hlast : i = n
  · rw [hlast, hch]
  · exact h i (by omega)

theorem agree_begun {p q : Nat} : Agree .none p q 1 { Request.created with requestStart := p }
    { Request.created with requestStart := q } where
  start := ⟨rfl, rfl⟩
  methodEnd hk := absurd hk Bool.false_ne_true
  uriStart hk := absurd hk Bool.false_ne_true
  uriEnd hk := absurd hk Bool.false_ne_true
  schemaStart := Or.inl ⟨rfl, rfl⟩
  schemaBegun hk := absurd hk Bool.false_ne_true
  schemaEnd hk := absurd hk Bool.false_ne_true
  slashes hk := absurd hk Bool.false_ne_true
  schemaClosed _ hne := absurd rfl hne
  schemaNull _ := ⟨rfl, rfl⟩
  hostStart := Or.inl ⟨rfl, rfl⟩
  hostBegun hk := absurd hk Bool.false_ne_true
  hostEnd := Or.inl ⟨rfl, rfl⟩
  hostNull _ := rfl
  requestEnd := Or.inl ⟨rfl, rfl⟩
  uriExt := Or.inl ⟨rfl, rfl⟩
  argsStart := Or.inl ⟨rfl, rfl⟩
  httpProtocol := Or.inl ⟨rfl, rfl⟩
  method := rfl
  httpMajor := rfl
  httpMinor := rfl
  complexUri := rfl
  quotedUri := rfl
  plusInUri := rfl
  spaceInUri := rfl

/-- What the two runs make of a byte. -/
inductive SameStep (mem mem' : Nat → Byte) (p q : Nat) (a b : Request) : LineAction → Prop where
  | next {assigns : List Assign} {state : LineState} {a' b' : Request}
      (ha : runAssigns mem p (mem p) a assigns = .ok a')
      (hb : runAssigns mem' q (mem' q) b assigns = .ok b')
      (h : Lockstep state mem mem' (p + 1) (q + 1) a' b') :
      SameStep mem mem' p q a b (.next assigns state)
  | done {assigns : List Assign} {a' b' : Request}
      (ha : runAssigns mem p (mem p) a assigns = .ok a')
      (hb : runAssigns mem' q (mem' q) b assigns = .ok b')
      (h : LockstepDone mem mem' p q a' b') : SameStep mem mem' p q a b (.done assigns)
  | error {assigns : List Assign} {action : LineAction} {rc : LineError}
      (haction : action = .done assigns ∨ ∃ state, action = .next assigns state)
      (ha : runAssigns mem p (mem p) a assigns = .error rc)
      (hb : runAssigns mem' q (mem' q) b assigns = .error rc) : SameStep mem mem' p q a b action
  | fail (rc : LineError) : SameStep mem mem' p q a b (.fail rc)

theorem sameStep_start {p q : Nat} (hp : 0 < p) (hq : 0 < q) (hch : mem p = mem' q)
    (h : Lockstep .start mem mem' p q a b) :
    SameStep mem mem' p q a b (lineAction .start (mem p)) := by
  obtain ⟨⟨x, rfl⟩, ⟨y, rfl⟩⟩ := h
  rw [lineAction]
  split
  · exact .next rfl rfl ⟨⟨p, rfl⟩, ⟨q, rfl⟩⟩
  split
  · exact .fail _
  · refine .next rfl rfl ⟨p, q, 1, ⟨hp, hq, one_pos⟩, rfl, rfl, ?_, agree_begun⟩
    intro i hi
    rw [Nat.lt_one_iff.mp hi]
    exact hch

/-- Equal bytes at two places keep two requests in lockstep: one case for each state. -/
theorem sameStep {state : LineState} {p q : Nat} (hp : 0 < p) (hq : 0 < q) (hch : mem p = mem' q)
    (h : Lockstep state mem mem' p q a b) :
    SameStep mem mem' p q a b (lineAction state (mem p)) := by
  by_cases hstate : state = .start
  · subst hstate
    exact sameStep_start hp hq hch h
  obtain ⟨s, t, n, ⟨hs, ht, hn⟩, rfl, rfl, hline, hagree⟩ := (lockstep_iff hstate).mp h
  have hflows := lineAction_flows state hstate (mem (s + n))
  have hrun : ∀ {assigns : List Assign} {k' : Known},
      (knownIn state).tick.run assigns = some k' →
      SameResult k' s t (n + 1) (runAssigns mem (s + n) (mem (s + n)) a assigns)
        (runAssigns mem' (t + n) (mem' (t + n)) b assigns) := by
    intro assigns k' hk
    rw [← hch]
    exact sameResult_runAssigns hs ht hn hline hagree.tick hk
  cases hact : lineAction state (mem (s + n)) with
  | fail rc => exact .fail rc
  | done assigns =>
    rw [hact, actionFlows, Option.any_eq_true] at hflows
    obtain ⟨k', hk, hle⟩ := hflows
    have hsame := hrun hk
    cases ha : runAssigns mem (s + n) (mem (s + n)) a assigns with
    | ok a' =>
      cases hb : runAssigns mem' (t + n) (mem' (t + n)) b assigns with
      | ok b' =>
        rw [ha, hb] at hsame
        exact .done ha hb ⟨s, t, n, ⟨hs, ht⟩, rfl, rfl, hline.succ hch, hsame.le hle⟩
      | error rc =>
        rw [ha, hb] at hsame
        exact hsame.elim
    | error rc =>
      cases hb : runAssigns mem' (t + n) (mem' (t + n)) b assigns with
      | ok b' =>
        rw [ha, hb] at hsame
        exact hsame.elim
      | error rc' =>
        rw [ha, hb] at hsame
        exact .error (Or.inl rfl) ha (hb.trans (congrArg _ (Eq.symm hsame)))
  | next assigns state' =>
    rw [hact, actionFlows, Bool.and_eq_true, Option.any_eq_true] at hflows
    obtain ⟨⟨k', hk, hle⟩, hstate'⟩ := hflows
    have hsame := hrun hk
    cases ha : runAssigns mem (s + n) (mem (s + n)) a assigns with
    | ok a' =>
      cases hb : runAssigns mem' (t + n) (mem' (t + n)) b assigns with
      | ok b' =>
        rw [ha, hb] at hsame
        refine .next ha hb ((lockstep_iff (by simpa using hstate')).mpr
          ⟨s, t, n + 1, ⟨hs, ht, Nat.succ_pos n⟩, rfl, rfl, hline.succ hch, hsame.le hle⟩)
      | error rc =>
        rw [ha, hb] at hsame
        exact hsame.elim
    | error rc =>
      cases hb : runAssigns mem' (t + n) (mem' (t + n)) b assigns with
      | ok b' =>
        rw [ha, hb] at hsame
        exact hsame.elim
      | error rc' =>
        rw [ha, hb] at hsame
        exact .error (Or.inr ⟨state', rfl⟩) ha (hb.trans (congrArg _ (Eq.symm hsame)))

/-- The loop over `m` bytes, next to a loop that has `extra` more to read. -/
theorem lineLoop_lockstep (extra : Nat) : ∀ (m : Nat) {state : LineState} {p q : Nat}
    {a b : Request}, 0 < p → 0 < q → (∀ i < m, mem (p + i) = mem' (q + i)) →
    Lockstep state mem mem' p q a b →
    match lineLoop mem m state a p with
    | .again state' a' => ∃ b', Lockstep state' mem mem' (p + m) (q + m) a' b' ∧
        lineLoop mem' (m + extra) state b q = lineLoop mem' extra state' b' (q + m)
    | .done a' p' => ∃ b' q', LockstepDone mem mem' p' q' a' b' ∧
        lineLoop mem' (m + extra) state b q = .done b' q'
    | .fail rc => lineLoop mem' (m + extra) state b q = .fail rc := by
  intro m
  induction m with
  | zero =>
    intro state p q a b _ _ _ h
    exact ⟨b, h, by rw [zero_add]; rfl⟩
  | succ m ih =>
    intro state p q a b hp hq hbytes h
    have hch : mem p = mem' q := hbytes 0 (Nat.succ_pos m)
    have hstep := sameStep hp hq hch h
    rw [Nat.succ_add, lineLoop, lineLoop, ← hch]
    cases hact : lineAction state (mem p) with
    | fail rc => rfl
    | done assigns =>
      rw [hact] at hstep
      cases hstep with
      | done ha hb hdone =>
        rw [← hch] at hb
        simp only [ha, hb]
        exact ⟨_, q, hdone, rfl⟩
      | error haction ha hb =>
        rcases haction with haction | ⟨state', haction⟩ <;> cases haction
        rw [← hch] at hb
        simp only [ha, hb]
    | next assigns state' =>
      rw [hact] at hstep
      cases hstep with
      | next ha hb hlock =>
        rw [← hch] at hb
        simp only [ha, hb]
        have hrest := ih (p := p + 1) (q := q + 1) (Nat.succ_pos p) (Nat.succ_pos q) (fun i hi => by
          rw [add_assoc, add_assoc, add_comm 1]
          exact hbytes (i + 1) (by omega)) hlock
        rw [add_assoc, add_assoc, add_comm 1 m] at hrest
        exact hrest
      | error haction ha hb =>
        rcases haction with haction | ⟨state', haction⟩ <;> cases haction
        rw [← hch] at hb
        simp only [ha, hb]

end Nginx.Http
