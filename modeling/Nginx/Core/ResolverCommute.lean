/-
  Core/ResolverCommute.lean --- the responses to the A and the AAAA query of a name,
  in either order.

  The response that comes first is taken down in the node, the second one decides.
  A CNAME is not taken down: the target of one that comes first is forgotten, and
  an empty answer behind it is a failure.
-/
import Nginx.Core.Resolver

set_option autoImplicit false

namespace Nginx.Core

open Foundation List

/-! ## Responses -/

/-- What a response says. -/
inductive ResolverAnswer where
  | error (code : Nat)
  | empty
  | cname (target : Bytes)
  | addrs
  deriving DecidableEq

namespace ResolverResponse

/-- The records are all in order. -/
def Scans (x : ResolverResponse) (s : Records) : Prop :=
  (scanRecords x.buf x.n x.qtype x.nan x.ans 0 ⟨0, none⟩).2 = .ok s

/-- The name at `src` is `name`. -/
def Names (x : ResolverResponse) (src : Nat) (name : Bytes) : Prop :=
  ∃ copied, resolverCopy x.buf x.n src true true = .ok copied ∧ copied.rc = .ok ∧
    copied.name.getD [] = name

/-- The response says this. -/
def Says (x : ResolverResponse) : ResolverAnswer → Prop
  | .error code => x.code = code ∧ code ≠ 0
  | .empty => x.code = 0 ∧ x.nan = 0
  | .cname target =>
    x.code = 0 ∧ x.nan ≠ 0 ∧ ∃ src, x.Scans ⟨0, some src⟩ ∧ x.Names src target
  | .addrs => x.code = 0 ∧ x.nan ≠ 0 ∧ ∃ s, x.Scans s ∧ 0 < s.naddrs

/-- The response is one to a query of the node, and is not truncated.  The length and the
code are of the sizes that `ngx_resolver_process_response` can pass on. -/
structure Answers (x : ResolverResponse) (name : Bytes) (rn : ResolverNode) (qtype : QueryType) :
    Prop where
  qtype_eq : x.qtype = qtype
  question : x.Names 12 name
  query : ∃ hi lo, (rn.side qtype).query = some (hi, lo) ∧ x.ident = hi.toNat <<< 8 + lo.toNat
  trunc : x.trunc = false
  length_lt : x.n < 2 ^ 16
  code_lt : x.code < 16

end ResolverResponse

/-- Both queries are outstanding.  The code is 0 when they are sent, and only a response
changes it. -/
structure ResolverNode.Outstanding (rn : ResolverNode) : Prop where
  four : rn.four.naddrs = unset
  six : rn.six.naddrs = unset
  code : rn.code = 0

/-! ## The order of two responses -/

/-- What is told of an action when the code of an error does not count. -/
def ResolverAction.outcome : ResolverAction → ResolverAction
  | handler ctx state valid addrs =>
    handler ctx (if state = stateOk then stateOk else 1) valid addrs
  | action => action

/-- The context that an action completes. -/
def ResolverAction.completed : ResolverAction → Option Nat
  | handler ctx _ _ _ => some ctx.ident
  | _ => none

/-- Processed in either order, the two responses complete each context once or none, not
before both are there, with the same success and the same addresses, and leave the same
state. -/
def Commute (r : Resolver) (waiting : List ResolverCtx) (t t' : Nat) (x y : ResolverResponse) :
    Prop :=
  ∃ r₁ r₂ r' acts acts',
    r.processA t x = .ok (r₁, []) ∧ r₁.processA t' y = .ok (r', acts) ∧
    r.processA t y = .ok (r₂, []) ∧ r₂.processA t' x = .ok (r', acts') ∧
    acts.map ResolverAction.outcome = acts'.map ResolverAction.outcome ∧
    (acts.filterMap ResolverAction.completed = waiting.map ResolverCtx.ident ∨
      acts.filterMap ResolverAction.completed = [])

/-- The target of a CNAME that comes first is missing. -/
def Forgotten : ResolverAnswer → ResolverAnswer → Prop
  | .cname _, .empty => True
  | .empty, .cname _ => True
  | .cname target, .cname target' => target ≠ target'
  | _, _ => False

/-! ## What a response leaves in the node -/

/-- What the loops make of a response. -/
inductive Parsed where
  | error (code : Nat)
  | empty
  | cname (target : Bytes) (ttls : List Nat)
  | addrs (l : List Bytes) (ttls : List Nat)

namespace Parsed

def answer : Parsed → ResolverAnswer
  | error code => .error code
  | empty => .empty
  | cname target _ => .cname target
  | addrs _ _ => .addrs

/-- `code`, 0 when there is no error -/
def code : Parsed → Nat
  | error code => code
  | _ => 0

/-- `naddrs` -/
def count : Parsed → Nat
  | addrs l _ => l.length
  | _ => 0

/-- The node after the first response. -/
def leave (p : Parsed) (qtype : QueryType) (rn : ResolverNode) : ResolverNode :=
  match p with
  | error code => { rn.setNaddrs qtype 0 with code := code }
  | empty => rn.setNaddrs qtype 0
  | cname _ ttls => { rn with ttl := ttls.foldl min rn.ttl }.setNaddrs qtype 0
  | addrs l ttls => { rn with ttl := ttls.foldl min rn.ttl }.setSide qtype { rn.side qtype with
      u := if l.length = 1 then .addr (l.headD []) else .addrs l
      naddrs := l.length }

/-- The loops make this of the response `x`. -/
def Of (x : ResolverResponse) : Parsed → Prop
  | error code => x.code = code ∧ code ≠ 0 ∧ code < 16
  | empty => x.code = 0 ∧ x.nan = 0
  | cname target ttls => x.code = 0 ∧ x.nan ≠ 0 ∧ ∃ src, x.Names src target ∧
      ∀ ttl, scanRecords x.buf x.n x.qtype x.nan x.ans ttl ⟨0, none⟩ =
        (ttls.foldl min ttl, .ok ⟨0, some src⟩)
  | addrs l ttls => x.code = 0 ∧ x.nan ≠ 0 ∧ l ≠ [] ∧ l.length < unset ∧ ∃ cname,
      collectAddrs x.buf l.length x.nan x.ans [] = .ok (l, some x.qtype) ∧
      ∀ ttl, scanRecords x.buf x.n x.qtype x.nan x.ans ttl ⟨0, none⟩ =
        (ttls.foldl min ttl, .ok ⟨l.length, cname⟩)

end Parsed

variable {x y : ResolverResponse} {name : Bytes} {rn : ResolverNode} {r : Resolver} {t t' now : Nat}
  {qtype : QueryType} {p p' : Parsed} {ax ay : ResolverAnswer}

theorem exists_scan {s : Records} (h : x.Scans s) : ∃ ttls : List Nat, ∀ ttl,
    scanRecords x.buf x.n x.qtype x.nan x.ans ttl ⟨0, none⟩ = (ttls.foldl min ttl, .ok s) :=
  @scanRecords_ttl x.buf x.n x.ans x.nan 0 x.qtype ⟨0, none⟩ s _ (Prod.ext rfl h)

theorem exists_parsed (hx : x.Says ax) (hn : x.n < 2 ^ 16) (hcode : x.code < 16) :
    ∃ p : Parsed, p.Of x ∧ p.answer = ax := by
  cases ax with
  | error code => exact ⟨.error code, ⟨hx.1, hx.2, hx.1 ▸ hcode⟩, rfl⟩
  | empty => exact ⟨.empty, hx, rfl⟩
  | cname target =>
    obtain ⟨hc, hnan, src, hscan, hname⟩ := hx
    obtain ⟨ttls, hall⟩ := exists_scan hscan
    exact ⟨.cname target ttls, ⟨hc, hnan, src, hname, hall⟩, rfl⟩
  | addrs =>
    obtain ⟨hc, hnan, s, hscan, hpos⟩ := hx
    obtain ⟨ttls, hall⟩ := exists_scan hscan
    obtain ⟨l, hcollect, hlength⟩ := collectAddrs_of_scanRecords (l := []) (hall 0)
      (hn.trans (by rw [copyBound]; omega)) rfl hpos
    have hbytes := (scanRecords_naddrs (hall 0)).2 hpos
    refine ⟨.addrs l ttls, ⟨hc, hnan, ?_, ?_, s.cname, ?_, fun ttl => ?_⟩, rfl⟩
    · rintro rfl
      exact absurd hlength.symm (pos_iff_ne_zero.mp hpos)
    · rw [hlength, unset]
      have hzero : (⟨0, none⟩ : Records).naddrs = 0 := rfl
      omega
    · rw [hlength]
      exact hcollect
    · rw [hlength]
      exact hall ttl

/-! ## The node -/

namespace ResolverNode

@[simp] theorem side_other_setSide (rn : ResolverNode) (q : QueryType) (s : QueryState) :
    (rn.setSide q s).side q.other = rn.side q.other := by
  cases q <;> rfl

@[simp] theorem side_ttl (rn : ResolverNode) (q : QueryType) (ttl : Nat) :
    { rn with ttl := ttl }.side q = rn.side q := by
  cases q <;> rfl

@[simp] theorem naddrs_setNaddrs (rn : ResolverNode) (q : QueryType) (naddrs : Nat) :
    ((rn.setNaddrs q naddrs).side q).naddrs = naddrs := by
  cases q <;> rfl

@[simp] theorem side_other_setNaddrs (rn : ResolverNode) (q : QueryType) (naddrs : Nat) :
    (rn.setNaddrs q naddrs).side q.other = rn.side q.other :=
  side_other_setSide rn q _

theorem other_other (q : QueryType) : q.other.other = q := by
  cases q <;> rfl

theorem hasAddrs_iff (rn : ResolverNode) (q : QueryType) : Resolver.hasAddrs rn ↔
    (rn.side q).naddrs ≠ unset ∧ (rn.side q.other).naddrs ≠ unset ∧
      0 < (rn.side q).naddrs + (rn.side q.other).naddrs := by
  cases q
  · rfl
  · rw [Resolver.hasAddrs, add_comm]
    exact and_left_comm

theorem unset_iff (rn : ResolverNode) (q : QueryType) :
    rn.four.naddrs = unset ∨ rn.six.naddrs = unset ↔
      (rn.side q).naddrs = unset ∨ (rn.side q.other).naddrs = unset := by
  cases q
  · rfl
  · exact or_comm

end ResolverNode

namespace Parsed

@[simp] theorem side_other_leave (p : Parsed) (q : QueryType) (rn : ResolverNode) :
    (p.leave q rn).side q.other = rn.side q.other := by
  cases p <;> cases q <;> rfl

@[simp] theorem waiting_leave (p : Parsed) (q : QueryType) (rn : ResolverNode) :
    (p.leave q rn).waiting = rn.waiting := by
  cases p <;> cases q <;> rfl

theorem naddrs_leave (p : Parsed) (q : QueryType) (rn : ResolverNode) :
    ((p.leave q rn).side q).naddrs = p.count := by
  cases p <;> cases q <;> rfl

theorem code_leave (p : Parsed) (q : QueryType) (hcode : rn.code = 0) :
    (p.leave q rn).code = p.code := by
  cases p <;> cases q <;> first | exact hcode | rfl

theorem count_ne_unset (hp : p.Of x) : p.count ≠ unset := by
  cases p with
  | addrs l ttls =>
    obtain ⟨-, -, -, hlt, -⟩ := hp
    exact hlt.ne
  | _ => exact nofun

theorem leave_comm (hp : p.code = 0) (hp' : p'.code = 0) (rn : ResolverNode) :
    p'.leave .aaaa (p.leave .a rn) = p.leave .a (p'.leave .aaaa rn) := by
  have hmin : ∀ l l' : List Nat,
    l'.foldl min (l.foldl min rn.ttl) = l.foldl min (l'.foldl min rn.ttl) :=
    fun l l' => by
      rw [← foldl_append, ← foldl_append]
      refine perm_append_comm.foldl_eq' (fun a _ b _ c => ?_) _
      omega
  cases p <;> cases p' <;>
    simp_all [leave, code, ResolverNode.setNaddrs, ResolverNode.setSide, ResolverNode.side]

end Parsed

/-! ## One response -/

namespace Resolver

/-- The way out of the block `if (code)` when both responses are there. -/
def giveUp (r : Resolver) (name : Bytes) (waiting : List ResolverCtx) (now code : Nat) :
    Resolver × List ResolverAction :=
  ((r.unqueue name).delete name, waiting.map fun ctx =>
    .handler ctx code (some (now + if r.valid ≠ 0 then r.valid else 10)) [])

theorem processCode_of_known {code : Nat} (h : (rn.side qtype.other).naddrs ≠ unset) :
    r.processCode name rn now qtype code = r.giveUp name rn.waiting now code := by
  rw [processCode, if_neg (by rwa [ResolverNode.side_other_setNaddrs])]
  cases qtype <;> rfl

theorem side_other_answered (rn : ResolverNode) (q : QueryType) :
    (answered rn q).side q.other = rn.side q.other := by
  rw [answered]
  split
  · exact ResolverNode.side_other_setNaddrs rn q 0
  · rfl

theorem naddrs_answered (rn : ResolverNode) (q : QueryType) :
    ((answered rn q).side q).naddrs ≠ unset := by
  rw [answered]
  split
  next =>
    rw [ResolverNode.naddrs_setNaddrs]
    exact nofun
  next hne => exact hne

variable {cname : Option Nat}

theorem finishAnswer_waits (h : (rn.side x.qtype.other).naddrs = unset) :
    r.finishAnswer name rn now x cname = .ok (r.put name (answered rn x.qtype), []) := by
  have hother := side_other_answered rn x.qtype
  have hno : ¬ hasAddrs (answered rn x.qtype) := by
    rw [ResolverNode.hasAddrs_iff _ x.qtype, hother]
    exact fun hand => hand.2.1 h
  have hwait : (answered rn x.qtype).four.naddrs = unset ∨
    (answered rn x.qtype).six.naddrs = unset := by
    rw [ResolverNode.unset_iff _ x.qtype, hother]
    exact .inr h
  unfold finishAnswer
  simp only [if_neg hno]
  cases cname with
  | none => rfl
  | some src => exact if_pos hwait

theorem finishAnswer_exports (h : (rn.side x.qtype.other).naddrs ≠ unset)
    (hsum : ((answered rn x.qtype).side x.qtype).naddrs + (rn.side x.qtype.other).naddrs ≠ 0) :
    r.finishAnswer name rn now x cname = .ok (r.processExport name (answered rn x.qtype) now) := by
  have hother := side_other_answered rn x.qtype
  have hyes : hasAddrs (answered rn x.qtype) := by
    rw [ResolverNode.hasAddrs_iff _ x.qtype, hother]
    exact ⟨naddrs_answered rn x.qtype, h, pos_of_ne_zero hsum⟩
  unfold finishAnswer
  simp only [if_pos hyes]

theorem finishAnswer_follows {src : Nat} {target : Bytes} (hown : (rn.side x.qtype).naddrs = unset)
    (h : (rn.side x.qtype.other).naddrs = 0) (hname : x.Names src target) :
    r.finishAnswer name rn now x (some src) =
      .ok (r.processCname name (rn.setNaddrs x.qtype 0) now target) := by
  have hanswered : answered rn x.qtype = rn.setNaddrs x.qtype 0 := if_pos hown
  have hother := side_other_answered rn x.qtype
  have hno : ¬ hasAddrs (rn.setNaddrs x.qtype 0) := by
    rw [ResolverNode.hasAddrs_iff _ x.qtype, ← hanswered, hother, h, hanswered,
      ResolverNode.naddrs_setNaddrs]
    exact fun hand => lt_irrefl 0 hand.2.2
  have hknown : ¬ ((rn.setNaddrs x.qtype 0).four.naddrs = unset ∨
      (rn.setNaddrs x.qtype 0).six.naddrs = unset) := by
    rw [ResolverNode.unset_iff _ x.qtype, ← hanswered, hother, h]
    exact fun hor => hor.elim (naddrs_answered rn x.qtype) nofun
  obtain ⟨copied, hcopy, hrc, rfl⟩ := hname
  rw [finishAnswer]
  simp only [hanswered, if_neg hno, if_neg hknown, hcopy]
  exact if_neg (not_not.mpr hrc)

theorem processRecords_cname {ttls : List Nat} {src : Nat}
    (hall : ∀ ttl, scanRecords x.buf x.n x.qtype x.nan x.ans ttl ⟨0, none⟩ =
      (ttls.foldl min ttl, .ok ⟨0, some src⟩)) :
    r.processRecords name rn now x =
      r.finishAnswer name { rn with ttl := ttls.foldl min rn.ttl } now x (some src) := by
  rw [processRecords, hall]
  rfl

theorem processRecords_addrs {ttls : List Nat} {l : List Bytes} (hl : l ≠ [])
    (hlt : l.length < unset)
    (hcollect : collectAddrs x.buf l.length x.nan x.ans [] = .ok (l, some x.qtype))
    (hall : ∀ ttl, scanRecords x.buf x.n x.qtype x.nan x.ans ttl ⟨0, none⟩ =
      (ttls.foldl min ttl, .ok ⟨l.length, cname⟩)) :
    r.processRecords name rn now x =
      let rn' := (Parsed.addrs l ttls).leave x.qtype rn
      if (rn.side x.qtype.other).naddrs = unset then .ok (r.put name rn', [])
      else r.finishAnswer name rn' now x cname := by
  have hlen : l.length ≠ 0 := fun h => hl (eq_nil_of_length_eq_zero h)
  have hmod : l.length % 2 ^ 16 = l.length := Nat.mod_eq_of_lt (hlt.trans (by decide))
  rw [processRecords, hall]
  simp only [if_neg hlen, hcollect, hmod, bind, Except.bind, ResolverNode.side_other_setSide,
    ResolverNode.side_ttl]
  rfl

theorem processAnswer_first (hp : p.Of x) (hown : (rn.side x.qtype).naddrs = unset)
    (hother : (rn.side x.qtype.other).naddrs = unset) (hcode : rn.code = 0) :
    r.processAnswer name rn now x = .ok (r.put name (p.leave x.qtype rn), []) := by
  have hnone : ¬ (x.code = 0 ∧ rn.code ≠ 0) := fun hand => hand.2 hcode
  simp only [processAnswer, if_neg hnone]
  cases p with
  | error code =>
    obtain ⟨rfl, hne, hlt⟩ := hp
    have hmod : x.code % 256 = x.code := Nat.mod_eq_of_lt (by omega)
    rw [if_neg fun hand => hne hand.1, if_pos hne]
    simp only [processCode, ResolverNode.side_other_setNaddrs, if_pos hother, hmod]
    rfl
  | empty =>
    obtain ⟨hc, hnan⟩ := hp
    rw [if_pos ⟨hc, hnan⟩]
    simp only [ResolverNode.side_other_setNaddrs, if_pos hother]
    rfl
  | cname target ttls =>
    obtain ⟨hc, hnan, src, -, hall⟩ := hp
    rw [if_neg fun hand => hnan hand.2, if_neg (not_not.mpr hc), processRecords_cname hall,
      finishAnswer_waits (by rwa [ResolverNode.side_ttl]), answered,
        ResolverNode.side_ttl, if_pos hown]
    rfl
  | addrs l ttls =>
    obtain ⟨hc, hnan, hl, hlt, cname, hcollect, hall⟩ := hp
    rw [if_neg fun hand => hnan hand.2, if_neg (not_not.mpr hc),
      processRecords_addrs hl hlt hcollect hall]
    exact if_pos hother

/-- The response `p'` that comes second, behind `p`, decides; it has left the node as `rn`. -/
def settle (r : Resolver) (name : Bytes) (rn : ResolverNode) (now : Nat) (p p' : Parsed) :
    Resolver × List ResolverAction :=
  if p'.code ≠ 0 then r.giveUp name rn.waiting now p'.code
  else if p.code ≠ 0 then r.giveUp name rn.waiting now p.code
  else if p.count + p'.count ≠ 0 then r.processExport name rn now
  else
    match p' with
    | .cname target _ => r.processCname name rn now target
    | _ => r.giveUp name rn.waiting now resolveNxdomain

/-- The second response of a query settles the name with both. -/
theorem processAnswer_second (hp' : p'.Of x) (hown : (rn.side x.qtype).naddrs = unset)
    (hother : (rn.side x.qtype.other).naddrs = p.count) (hunset : p.count ≠ unset)
    (hcode : rn.code = p.code) :
    r.processAnswer name rn now x = .ok (r.settle name (p'.leave x.qtype rn) now p p') := by
  unfold settle
  rw [Parsed.waiting_leave]
  have hknown : (rn.side x.qtype.other).naddrs ≠ unset := by rwa [hother]
  have hgive : ∀ code, r.processCode name rn now x.qtype code = r.giveUp name rn.waiting now code :=
    fun code => processCode_of_known hknown
  rw [← hcode]
  by_cases hx : x.code = 0
  swap
  · have hpc : p'.code = x.code := by
      cases p' with
      | error code => exact hp'.1.symm
      | _ => exact absurd hp'.1 hx
    rw [hpc, if_pos hx, processAnswer]
    simp only [hx, false_and, if_false, ne_eq, not_false_eq_true, if_true, hgive]
  have hpc : p'.code = 0 := by
    cases p' with
    | error code => exact absurd (hp'.1.symm.trans hx) hp'.2.1
    | _ => rfl
  rw [if_neg (not_not.mpr hpc), processAnswer]
  by_cases hrn : rn.code = 0
  swap
  · simp only [hx, hrn, ne_eq, not_false_eq_true, and_self, if_true, false_and, if_false, hgive]
  have hzero : (if x.code = 0 ∧ rn.code ≠ 0 then rn.code else x.code) = 0 := by
    rw [if_neg fun hand => hand.2 hrn, hx]
  rw [if_neg (not_not.mpr hrn)]
  simp only [hzero, true_and, ne_eq, not_true_eq_false, if_false]
  cases p' with
  | error code => exact absurd hpc hp'.2.1
  | empty =>
    rw [if_pos hp'.2, ResolverNode.side_other_setNaddrs, if_neg hknown, hother]
    by_cases hcount : p.count = 0
    · have hgive' :=
        @processCode_of_known name (rn.setNaddrs x.qtype 0) r now x.qtype resolveNxdomain
        (by rwa [ResolverNode.side_other_setNaddrs])
      rw [if_neg (not_not.mpr hcount),
        if_neg (not_not.mpr (show p.count + Parsed.empty.count = 0 from hcount)),
        hgive']
      cases x.qtype <;> rfl
    · rw [if_pos hcount, if_pos (show p.count + Parsed.empty.count ≠ 0 from hcount)]
      rfl
  | cname target ttls =>
    obtain ⟨-, hnan, src, hname, hall⟩ := hp'
    have hown' : ({ rn with ttl := ttls.foldl min rn.ttl }.side x.qtype).naddrs = unset := by
      rwa [ResolverNode.side_ttl]
    have hother' : ({ rn with ttl := ttls.foldl min rn.ttl }.side x.qtype.other).naddrs =
      p.count := by
      rwa [ResolverNode.side_ttl]
    rw [if_neg hnan, processRecords_cname hall]
    by_cases hcount : p.count = 0
    · rw [finishAnswer_follows hown' (hother'.trans hcount) hname,
        if_neg (not_not.mpr (show p.count + (Parsed.cname target ttls).count = 0 from hcount))]
      rfl
    · rw [finishAnswer_exports (by rwa [hother']) (by rw [hother']; omega), answered, if_pos hown',
        if_pos (show p.count + (Parsed.cname target ttls).count ≠ 0 from hcount)]
      rfl
  | addrs l ttls =>
    obtain ⟨-, hnan, hl, hlt, cname, hcollect, hall⟩ := hp'
    have hpos : 0 < l.length := length_pos_iff.mpr hl
    have hleave := Parsed.naddrs_leave (.addrs l ttls) x.qtype rn
    have hanswered : answered ((Parsed.addrs l ttls).leave x.qtype rn) x.qtype =
        (Parsed.addrs l ttls).leave x.qtype rn := by
      rw [answered, if_neg]
      rw [hleave]
      exact hlt.ne
    rw [if_neg hnan, processRecords_addrs hl hlt hcollect hall,
      if_pos (show p.count + (Parsed.addrs l ttls).count ≠ 0 from ne_of_gt
      (Nat.lt_of_lt_of_le hpos
        (Nat.le_add_left _ _)))]
    simp only [if_neg hknown]
    rw [finishAnswer_exports, hanswered]
    · rwa [Parsed.side_other_leave]
    · rw [hanswered, hleave, Parsed.count]
      omega

/-! ## Two responses -/

theorem delete_put (r : Resolver) (name : Bytes) (rn : ResolverNode) :
    ((r.put name rn).unqueue name).delete name = (r.unqueue name).delete name := by
  simp [put, unqueue, delete]

theorem cache_put (r : Resolver) (name : Bytes) (rn rn' : ResolverNode) (now : Nat) :
    (r.put name rn').cache name rn now = r.cache name rn now := by
  simp only [put, unqueue, cache, Function.update_idem]
  rfl

theorem settle_put (r : Resolver) (name : Bytes) (rn rn' : ResolverNode)
    (now : Nat) (p p' : Parsed) :
    (r.put name rn').settle name rn now p p' = r.settle name rn now p p' := by
  have hgive : ∀ code, (r.put name rn').giveUp name rn.waiting now code =
      r.giveUp name rn.waiting now code := fun code => by
    rw [giveUp, giveUp, delete_put]
    rfl
  have hexport : (r.put name rn').processExport name rn now = r.processExport name rn now := by
    rw [processExport, processExport, cache_put]
    rfl
  have hcname : ∀ target, (r.put name rn').processCname name rn now target =
      r.processCname name rn now target := fun target => by
    unfold processCname
    rw [cache_put]
  unfold settle
  simp only [hgive, hexport, hcname]

theorem processA_eq (h : x.Answers name rn qtype) (hname : r.names name = some rn)
    (hunset : (rn.side qtype).naddrs = unset) :
    r.processA now x = r.processAnswer name rn now x := by
  obtain ⟨rfl, ⟨copied, hcopy, hrc, rfl⟩, ⟨hi, lo, hquery, hident⟩, htrunc, -, -⟩ := h
  rw [processA, hcopy]
  simp only [bind, Except.bind, hrc, ne_eq, not_true_eq_false, if_false,
    hname, hquery, hunset, htrunc,
    Bool.false_eq_true, false_and, hident]

theorem processA_both (hx : x.Answers name rn qtype) (hy : y.Answers name rn qtype.other)
    (hp : p.Of x) (hp' : p'.Of y) (hname : r.names name = some rn) (hout : rn.Outstanding) :
    r.processA t x = .ok (r.put name (p.leave qtype rn), []) ∧
      (r.put name (p.leave qtype rn)).processA t' y =
        .ok (r.settle name (p'.leave qtype.other (p.leave qtype rn)) t' p p') := by
  have hunset : ∀ q : QueryType, (rn.side q).naddrs = unset := fun q => by
    cases q
    · exact hout.four
    · exact hout.six
  have hxq := hx.qtype_eq
  have hyq := hy.qtype_eq
  have hside := Parsed.side_other_leave p qtype rn
  have hy' : y.Answers name (p.leave qtype rn) qtype.other :=
    { hy with query := by rw [hside]; exact hy.query }
  constructor
  · rw [processA_eq hx hname (hunset qtype), ← hxq]
    exact processAnswer_first hp (hunset _) (hunset _) hout.code
  have hlook : (r.put name (p.leave qtype rn)).names name = some (p.leave qtype rn) :=
    Function.update_self ..
  rw [processA_eq hy' hlook (by rw [hside]; exact hunset _), processAnswer_second hp',
    settle_put, hyq]
  · rw [hyq, hside]
    exact hunset _
  · rw [hyq, ResolverNode.other_other]
    exact Parsed.naddrs_leave p qtype rn
  · exact Parsed.count_ne_unset hp
  · exact Parsed.code_leave p qtype hout.code

theorem filterMap_handlers (waiting : List ResolverCtx) (f : ResolverCtx → ResolverAction)
    (hf : ∀ ctx, (f ctx).completed = some ctx.ident) :
    (waiting.map f).filterMap ResolverAction.completed = waiting.map ResolverCtx.ident := by
  induction waiting with
  | nil => rfl
  | cons ctx rest ih => simp [hf, ih]

theorem settle_completes (r : Resolver) (name : Bytes) (rn : ResolverNode)
    (now : Nat) (p p' : Parsed) :
    (r.settle name rn now p p').2.filterMap ResolverAction.completed =
        rn.waiting.map ResolverCtx.ident ∨
      (r.settle name rn now p p').2.filterMap ResolverAction.completed = [] := by
  have hgive : ∀ code, (r.giveUp name rn.waiting now code).2.filterMap ResolverAction.completed =
      rn.waiting.map ResolverCtx.ident := fun code => filterMap_handlers _ _ fun _ => rfl
  unfold settle
  split
  · exact .inl (hgive _)
  split
  · exact .inl (hgive _)
  split
  · exact .inl (filterMap_handlers _ _ fun _ => rfl)
  split
  swap
  · exact .inl (hgive _)
  unfold processCname
  cases hw : rn.waiting with
  | nil => exact .inr rfl
  | cons ctx rest =>
    simp only
    split
    · exact .inl (filterMap_handlers _ _ fun _ => rfl)
    · exact .inr rfl

theorem outcome_giveUp (r : Resolver) (name : Bytes) (waiting : List ResolverCtx) (now : Nat)
    {code code' : Nat} (hcode : code ≠ 0) (hcode' : code' ≠ 0) :
    (r.giveUp name waiting now code).2.map ResolverAction.outcome =
      (r.giveUp name waiting now code').2.map ResolverAction.outcome := by
  simp [giveUp, ResolverAction.outcome, stateOk, hcode, hcode']

theorem settle_code (hcode : p.code ≠ 0 ∨ p'.code ≠ 0) :
    ∃ code, code ≠ 0 ∧ r.settle name rn now p p' = r.giveUp name rn.waiting now code := by
  unfold settle
  split
  next hp' => exact ⟨p'.code, hp', rfl⟩
  next hp' =>
    have hp := hcode.resolve_right hp'
    rw [if_pos hp]
    exact ⟨p.code, hp, rfl⟩

theorem settle_known (hcode : p.code = 0) (hcode' : p'.code = 0) (hp : p.Of x) (hp' : p'.Of y) :
    r.settle name rn now p p' =
      match p.answer, p'.answer with
      | .addrs, _ => r.processExport name rn now
      | _, .addrs => r.processExport name rn now
      | _, .cname target => r.processCname name rn now target
      | _, _ => r.giveUp name rn.waiting now resolveNxdomain := by
  unfold settle
  rw [if_neg (not_not.mpr hcode'), if_neg (not_not.mpr hcode)]
  cases p with
  | error code => exact absurd hcode hp.2.1
  | addrs l ttls =>
    obtain ⟨-, -, hl, -⟩ := hp
    have hpos := length_pos_iff.mpr hl
    exact if_pos (ne_of_gt (Nat.lt_of_lt_of_le hpos (Nat.le_add_right _ _)))
  | _ =>
    cases p' with
    | error code => exact absurd hcode' hp'.2.1
    | addrs l ttls =>
      obtain ⟨-, -, hl, -⟩ := hp'
      have hpos := length_pos_iff.mpr hl
      exact if_pos (ne_of_gt (Nat.lt_of_lt_of_le hpos (Nat.le_add_left _ _)))
    | _ => rfl

theorem answer_ne_error (hp : p.Of x) (hc : p.code = 0) (code : Nat) : p.answer ≠ .error code := by
  cases p with
  | error code => exact absurd hc hp.2.1
  | _ => exact nofun

theorem settle_swap (hp : p.Of x) (hp' : p'.Of y) (hno : ¬ Forgotten p.answer p'.answer) :
    let s := r.settle name (p'.leave .aaaa (p.leave .a rn)) now p p'
    let s' := r.settle name (p.leave .a (p'.leave .aaaa rn)) now p' p
    s.1 = s'.1 ∧ s.2.map ResolverAction.outcome = s'.2.map ResolverAction.outcome := by
  by_cases hcode : p.code = 0 ∧ p'.code = 0
  · obtain ⟨hc, hc'⟩ := hcode
    rw [Parsed.leave_comm hc hc', settle_known hc hc' hp hp', settle_known hc' hc hp' hp]
    cases ha : p.answer with
    | error code => exact absurd ha (answer_ne_error hp hc code)
    | empty =>
      cases ha' : p'.answer with
      | error code => exact absurd ha' (answer_ne_error hp' hc' code)
      | cname target => exact absurd trivial (by rwa [ha, ha'] at hno)
      | _ => exact ⟨rfl, rfl⟩
    | cname target =>
      cases ha' : p'.answer with
      | error code => exact absurd ha' (answer_ne_error hp' hc' code)
      | empty => exact absurd trivial (by rwa [ha, ha'] at hno)
      | cname target' =>
        rw [ha, ha'] at hno
        obtain rfl : target = target' := not_not.mp hno
        exact ⟨rfl, rfl⟩
      | addrs => exact ⟨rfl, rfl⟩
    | addrs =>
      cases ha' : p'.answer with
      | error code => exact absurd ha' (answer_ne_error hp' hc' code)
      | _ => exact ⟨rfl, rfl⟩
  · obtain ⟨code, hne, heq⟩ :=
      @settle_code name (p'.leave .aaaa (p.leave .a rn)) r now p p' (by omega)
    obtain ⟨code', hne', heq'⟩ :=
      @settle_code name (p.leave .a (p'.leave .aaaa rn)) r now p' p (by omega)
    simp only [heq, heq', Parsed.waiting_leave]
    exact ⟨rfl, outcome_giveUp r name rn.waiting now hne hne'⟩

theorem processCname_caches (r : Resolver) (name : Bytes) (rn : ResolverNode) (now : Nat)
    (target : Bytes) :
    ((r.processCname name rn now target).1.names name).map (fun rn => rn.four.u) =
      some (.cname target) := by
  have hcache : ((r.cache name { rn with
      cnlen := target.length % 2 ^ 16
      four := { rn.four with u := .cname target } } now).names name).map (fun rn => rn.four.u) =
      some (.cname target) := by
    simp [cache, put]
  unfold processCname
  cases rn.waiting with
  | nil => exact hcache
  | cons ctx rest =>
    simp only
    split <;> exact hcache

theorem giveUp_deletes (r : Resolver) (name : Bytes) (waiting : List ResolverCtx) (now code : Nat) :
    ((r.giveUp name waiting now code).1.names name).map (fun rn => rn.four.u) = none := by
  simp [giveUp, delete]

/-- Where one response is forgotten, the order shows. -/
theorem settle_forgotten (hp : p.Of x) (hp' : p'.Of y) (h : Forgotten p.answer p'.answer) :
    (r.settle name (p'.leave .aaaa (p.leave .a rn)) now p p').1 ≠
      (r.settle name (p.leave .a (p'.leave .aaaa rn)) now p' p).1 := by
  intro heq
  have hu := congrArg (fun r : Resolver => (r.names name).map fun rn => rn.four.u) heq
  have hno : ∀ q : Parsed, (∀ code, q.answer ≠ .error code) → q.code = 0 := fun q hq => by
    cases q with
    | error code => exact absurd rfl (hq code)
    | _ => rfl
  have hc : p.code = 0 := hno p fun code ha => by rw [ha] at h; exact h
  have hc' : p'.code = 0 := hno p' fun code ha => by
    rw [ha] at h
    cases hb : p.answer <;> rw [hb] at h <;> exact h
  rw [settle_known hc hc' hp hp', settle_known hc' hc hp' hp] at hu
  cases ha : p.answer with
  | error code => exact absurd ha (answer_ne_error hp hc code)
  | empty =>
    cases ha' : p'.answer with
    | cname target =>
      rw [ha, ha'] at hu
      exact absurd ((processCname_caches ..).symm.trans (hu.trans (giveUp_deletes ..))) nofun
    | _ => rw [ha, ha'] at h; exact h
  | cname target =>
    cases ha' : p'.answer with
    | empty =>
      rw [ha, ha'] at hu
      exact absurd ((processCname_caches ..).symm.trans (hu.symm.trans (giveUp_deletes ..))) nofun
    | cname target' =>
      rw [ha, ha'] at hu h
      have hsame := (processCname_caches ..).symm.trans (hu.trans (processCname_caches ..))
      cases hsame
      exact h rfl
    | _ => rw [ha, ha'] at h; exact h
  | addrs => rw [ha] at h; exact h

end Resolver

theorem commute_of_runs {r₁ r₂ : Resolver} {s s' : Resolver × List ResolverAction}
    {waiting : List ResolverCtx} (h₁ : r.processA t x = .ok (r₁, []))
    (h₂ : r₁.processA t' y = .ok s)
    (h₃ : r.processA t y = .ok (r₂, [])) (h₄ : r₂.processA t' x = .ok s') (hstate : s.1 = s'.1)
    (houtcome : s.2.map ResolverAction.outcome = s'.2.map ResolverAction.outcome)
    (hcompletes : s.2.filterMap ResolverAction.completed = waiting.map ResolverCtx.ident ∨
      s.2.filterMap ResolverAction.completed = []) : Commute r waiting t t' x y := by
  obtain ⟨state, acts⟩ := s
  obtain ⟨state', acts'⟩ := s'
  obtain rfl : state = state' := hstate
  exact ⟨r₁, r₂, state, acts, acts', h₁, h₂, h₃, h₄, houtcome, hcompletes⟩

theorem commute_of_not_forgotten (hname : r.names name = some rn) (hout : rn.Outstanding)
    (hx : x.Answers name rn .a) (hy : y.Answers name rn .aaaa) (hax : x.Says ax) (hay : y.Says ay)
    (hno : ¬ Forgotten ax ay) : Commute r rn.waiting t t' x y := by
  obtain ⟨p, hp, rfl⟩ := exists_parsed hax hx.length_lt hx.code_lt
  obtain ⟨p', hp', rfl⟩ := exists_parsed hay hy.length_lt hy.code_lt
  obtain ⟨hfirst, hsecond⟩ :=
    @Resolver.processA_both x y name rn r t t' .a p p' hx hy hp hp' hname hout
  obtain ⟨hfirst', hsecond'⟩ :=
    @Resolver.processA_both y x name rn r t t' .aaaa p' p hy hx hp' hp hname hout
  obtain ⟨hstate, houtcome⟩ := @Resolver.settle_swap x y name rn r t' p p' hp hp' hno
  have hcompletes := Resolver.settle_completes r name (p'.leave .aaaa (p.leave .a rn)) t' p p'
  rw [Parsed.waiting_leave, Parsed.waiting_leave] at hcompletes
  exact commute_of_runs hfirst hsecond hfirst' hsecond' hstate houtcome hcompletes

theorem not_commute_of_forgotten (hname : r.names name = some rn) (hout : rn.Outstanding)
    (hx : x.Answers name rn .a) (hy : y.Answers name rn .aaaa) (hax : x.Says ax) (hay : y.Says ay)
    (hforgotten : Forgotten ax ay) : ¬ Commute r rn.waiting t t' x y := by
  obtain ⟨p, hp, rfl⟩ := exists_parsed hax hx.length_lt hx.code_lt
  obtain ⟨p', hp', rfl⟩ := exists_parsed hay hy.length_lt hy.code_lt
  obtain ⟨hfirst, hsecond⟩ :=
    @Resolver.processA_both x y name rn r t t' .a p p' hx hy hp hp' hname hout
  obtain ⟨hfirst', hsecond'⟩ :=
    @Resolver.processA_both y x name rn r t t' .aaaa p' p hy hx hp' hp hname hout
  rintro ⟨r₁, r₂, r', acts, acts', h₁, h₂, h₃, h₄, -, -⟩
  rw [hfirst] at h₁
  cases h₁
  rw [hfirst'] at h₃
  cases h₃
  rw [hsecond] at h₂
  rw [hsecond'] at h₄
  refine @Resolver.settle_forgotten x y name rn r t' p p' hp hp' hforgotten ?_
  exact (congrArg Prod.fst (Except.ok.inj h₂)).trans (congrArg Prod.fst (Except.ok.inj h₄)).symm

/-! ## A name with two queries -/

/-- A response for the name `a`, with the identifiers that its two queries have. -/
def smallResponse (qtype : QueryType) (nan : Nat) (records : Bytes) : ResolverResponse where
  buf := fun i => (List.replicate 12 0 ++ [1, chr 'a', 0, 0, 1, 0, 1] ++ records).getD i 0
  n := 19 + records.length
  ident := match qtype with
    | .a => 1
    | .aaaa => 2
  code := 0
  qtype := qtype
  nan := nan
  trunc := false
  ans := 19

/-- The name `a` has the CNAME `b`. -/
def cnameRecord : Bytes := [0xc0, 12, 0, 5, 0, 1, 0, 0, 0, 60, 0, 3, 1, chr 'b', 0]

/-- The node of a name for which both queries have been sent. -/
def askedNode (waiting : List ResolverCtx) : ResolverNode where
  four := ⟨some (0, 1), .addrs [], unset, false⟩
  six := ⟨some (0, 2), .addrs [], unset, false⟩
  code := 0
  cnlen := 0
  expire := 0
  valid := 0
  ttl := 2 ^ 32 - 1
  waiting := waiting

def askingResolver (waiting : List ResolverCtx) : Resolver where
  names := fun name => if name = [chr 'a'] then some (askedNode waiting) else none
  resendQueue := [[chr 'a']]
  expireQueue := []
  valid := 0
  expire := 30
  resendTimeout := 5

theorem asked_outstanding (waiting : List ResolverCtx) : (askedNode waiting).Outstanding :=
  ⟨rfl, rfl, rfl⟩

theorem cname_answers (waiting : List ResolverCtx) :
    (smallResponse .a 1 cnameRecord).Answers [chr 'a'] (askedNode waiting) .a where
  qtype_eq := rfl
  question := ⟨_, by rfl, by decide, by decide⟩
  query := ⟨0, 1, rfl, rfl⟩
  trunc := rfl
  length_lt := by decide
  code_lt := by decide

theorem cname_says : (smallResponse .a 1 cnameRecord).Says (.cname [chr 'b']) :=
  ⟨rfl, by decide, 31, by rfl, ⟨_, by rfl, by decide, by decide⟩⟩

theorem empty_answers (waiting : List ResolverCtx) :
    (smallResponse .aaaa 0 []).Answers [chr 'a'] (askedNode waiting) .aaaa where
  qtype_eq := rfl
  question := ⟨_, by rfl, by decide, by decide⟩
  query := ⟨0, 2, rfl, rfl⟩
  trunc := rfl
  length_lt := by decide
  code_lt := by decide

/-- A CNAME in the answer to the A query, nothing in the one to the AAAA query. -/
theorem cname_then_empty : ¬ Commute (askingResolver [⟨0, 0⟩]) [⟨0, 0⟩] 1 2
    (smallResponse .a 1 cnameRecord) (smallResponse .aaaa 0 []) :=
  @not_commute_of_forgotten _ _ [chr 'a'] (askedNode [⟨0, 0⟩]) _ 1 2 _ .empty rfl
    (asked_outstanding _)
    (cname_answers _) (empty_answers _) cname_says ⟨rfl, rfl⟩ trivial

/-! ## Either order -/

/-- The order of the two responses does not matter, unless the target of a CNAME is forgotten. -/
theorem responses_commute_iff (hname : r.names name = some rn) (hout : rn.Outstanding)
    (hx : x.Answers name rn .a) (hy : y.Answers name rn .aaaa) (hax : x.Says ax) (hay : y.Says ay) :
    Commute r rn.waiting t t' x y ↔ ¬ Forgotten ax ay :=
  ⟨fun h hforgotten => not_commute_of_forgotten hname hout hx hy hax hay hforgotten h,
    commute_of_not_forgotten hname hout hx hy hax hay⟩

/-- One IPv4 address for `a`. -/
def addrRecord : Bytes := [0xc0, 12, 0, 1, 0, 1, 0, 0, 0, 60, 0, 4, 127, 0, 0, 1]

theorem addr_answers (waiting : List ResolverCtx) :
    (smallResponse .a 1 addrRecord).Answers [chr 'a'] (askedNode waiting) .a where
  qtype_eq := rfl
  question := ⟨_, by rfl, by decide, by decide⟩
  query := ⟨0, 1, rfl, rfl⟩
  trunc := rfl
  length_lt := by decide
  code_lt := by decide

theorem addr_says : (smallResponse .a 1 addrRecord).Says .addrs :=
  ⟨rfl, by decide, ⟨1, none⟩, by rfl, by decide⟩

/-- An address in the answer to the A query, nothing in the one to the AAAA query. -/
theorem addr_with_empty : Commute (askingResolver [⟨0, 0⟩]) [⟨0, 0⟩] 1 2
    (smallResponse .a 1 addrRecord) (smallResponse .aaaa 0 []) :=
  (@responses_commute_iff _ _ [chr 'a'] (askedNode [⟨0, 0⟩]) _ 1 2 _ .empty rfl
    (asked_outstanding _)
    (addr_answers _) (empty_answers _) addr_says ⟨rfl, rfl⟩).mpr id

end Nginx.Core
