/-
  Http/Limit/LimitReqWorkers.lean --- what holds while workers run the handler of
  the request limit.

  The count of a node is the tally of what the requests have reserved.  A turn of
  the handler moves the count of a node by as much as the request's reservations
  move, and whatever a request has reserved is where `ctx->node` points to, so that
  the loops of the handler find all of it again.
-/
import Nginx.Foundation.Handles
import Nginx.Http.Limit.LimitReq

set_option autoImplicit false

namespace Nginx.Http.Limit

open List Foundation Function
open Nginx.Core

/-! ## The count of a node -/

/-- The count of the node of a key. -/
def counted (key : Bytes) (queue : List ReqNode) : Nat :=
  ((queue.find? (·.key = key)).map ReqNode.count).getD 0

/-- The nodes that are counted are there still. -/
def Keeps (before after : List ReqNode) :
    Prop := ∀ lr ∈ before, lr.count ≠ 0 → ∃ lr' ∈ after, lr'.key = lr.key

section nodes

variable {rate burst now : Nat} {queue after : List ReqNode}
    {removed : List Removal} {key key' : Bytes} {lr : ReqNode}

theorem counted_of_mem (h : Keyed queue) (hmem : lr ∈ queue) : counted lr.key queue = lr.count := by
  unfold counted
  rw [(find_iff h).mpr ⟨hmem, rfl⟩]
  rfl

theorem counted_eq_zero (hnone : ∀ lr ∈ queue, lr.key ≠ key) : counted key queue = 0 := by
  unfold counted
  rw [find?_eq_none.mpr fun lr hlr => by simpa using hnone lr hlr]
  rfl

theorem exists_of_counted (hcount : counted key queue ≠ 0) :
    ∃ lr ∈ queue, lr.key = key ∧ lr.count = counted key queue := by
  unfold counted at hcount ⊢
  rcases hfind : queue.find? (·.key = key) with _ | lr
  · rw [hfind] at hcount
    exact absurd rfl hcount
  · have hkey := find?_some hfind
    rw [hfind, Option.map_some, Option.getD_some]
    exact ⟨lr, mem_of_find?_eq_some hfind, of_decide_eq_true hkey, rfl⟩

theorem counted_cons (lr : ReqNode) (queue : List ReqNode) (key : Bytes) :
    counted key (lr :: queue) = if lr.key = key then lr.count else counted key queue := by
  unfold counted
  rw [find?_cons]
  by_cases hkey : lr.key = key
  · rw [if_pos hkey, decide_eq_true hkey]
    rfl
  · rw [if_neg hkey, decide_eq_false hkey]

theorem counted_perm (h : Keyed queue) (hperm : List.Perm after queue) :
    counted key after = counted key queue := by
  unfold counted
  congr 2
  ext x
  rw [find_iff h, find_iff (h.perm hperm), hperm.mem_iff]

theorem counted_expires (h : Keyed queue) (hexpires : Expires rate now queue after removed) :
    counted key after = counted key queue := by
  by_cases hafter : ∃ lr ∈ after, lr.key = key
  · obtain ⟨lr, hlr, rfl⟩ := hafter
    rw [counted_of_mem (hexpires.keyed h) hlr, counted_of_mem h (hexpires.subset hlr)]
  have hzero : counted key after = 0 := counted_eq_zero fun lr hlr heq => hafter ⟨lr, hlr, heq⟩
  rw [hzero]
  by_contra hcount
  obtain ⟨lr, hlr, hkey, heq⟩ := exists_of_counted (Ne.symm hcount)
  rw [hexpires.split] at hlr
  rcases mem_append.mp hlr with hlr | hlr
  · exact hafter ⟨lr, hlr, hkey⟩
  · obtain ⟨x, hx, rfl⟩ := mem_map.mp (mem_reverse.mp hlr)
    exact hcount ((hexpires.count x hx).symm.trans heq)

theorem Expires.keeps (h : Expires rate now queue after removed) : Keeps queue after := by
  intro lr hlr hcount
  rw [h.split] at hlr
  rcases mem_append.mp hlr with hlr | hlr
  · exact ⟨lr, hlr, rfl⟩
  · obtain ⟨x, hx, rfl⟩ := mem_map.mp (mem_reverse.mp hlr)
    exact absurd (h.count x hx) hcount

theorem changes_eq_false (h : Keyed queue)
    (hsame : ∀ b ∈ after, (∃ a ∈ queue, a.key = b.key ∧ a.excess = b.excess ∧ a.last = b.last) ∨
      ∀ a ∈ queue, a.key ≠ b.key) :
    changes queue after = false := by
  unfold changes
  rw [any_eq_false]
  intro a ha hany
  obtain ⟨b, hb, hdiff⟩ := any_eq_true.mp hany
  obtain ⟨hkey, hdiff⟩ := of_decide_eq_true hdiff
  rcases hsame b hb with ⟨a', ha', hkey', hexcess, hlast⟩ | hnone
  · have heq : a = a' := inj_on_of_nodup_map h ha ha' (hkey.trans hkey'.symm)
    rw [← heq] at hexcess hlast
    exact hdiff.elim (fun hne => hne hexcess) fun hne => hne hlast
  · exact hnone a ha hkey

/-- What a lookup does to the counts. -/
structure LookupRight (key : Bytes) (queue : List ReqNode) (r : LookupResult) : Prop where
  keyed : Keyed r.queue
  counted : ∀ key', counted key' r.queue = counted key' queue + if r.rc = .again ∧
    key' = key then 1 else 0
  keeps : Keeps queue r.queue
  node : r.rc = .again → r.node = some key
  changes : r.rc ≠ .ok → changes queue r.queue = false
  declined : r.rc ≠ .declined

theorem count_same {rc : Rc} {count count' : Nat} (hrc : rc ≠ .again) (h : count' = count) :
    count' = count + if rc = .again ∧ key' = key then 1 else 0 := by
  rw [if_neg fun hand => hrc hand.1, add_zero, h]

theorem busy_ne_again : Rc.busy ≠ .again := by simp

theorem ok_ne_again : Rc.ok ≠ .again := by simp

theorem error_ne_again : Rc.error ≠ .again := by simp

/-- What a lookup changes in the queue of its zone. -/
theorem lookup_right (alloc : Bool × Bool) (account : Bool) (h : Keyed queue) :
    LookupRight key queue (lookup rate burst now alloc key account queue) := by
  rcases @lookup_spec rate burst now queue alloc key account with
    ⟨lr, hfind, hkey, hresult⟩ | ⟨hnew, after, removed, hexpires, hresult⟩
  · have hperm := perm_found hfind
    have hmem := mem_of_find?_eq_some hfind
    have hrest : ∀ b ∈ queue.eraseP (·.key = key), ∃ a ∈ queue, a.key = b.key ∧
      a.excess = b.excess ∧ a.last = b.last :=
      fun b hb => ⟨b, mem_of_mem_eraseP hb, rfl, rfl, rfl⟩
    have hcounted : ∀ (lr' : ReqNode) (key' : Bytes), lr'.key = lr.key →
        counted key' (lr' :: queue.eraseP (·.key = key)) = if key' =
          key then lr'.count else counted key' queue := by
      intro lr' key' hkey'
      rw [counted_cons, hkey', hkey]
      by_cases hsame : key' = key
      · rw [if_pos hsame.symm, if_pos hsame]
      · rw [if_neg (Ne.symm hsame), if_neg hsame, ← counted_perm h hperm,
          counted_cons, hkey, if_neg (Ne.symm hsame)]
    have hkeeps : ∀ lr' : ReqNode, lr'.key = lr.key →
      Keeps queue (lr' :: queue.eraseP (·.key = key)) := by
      intro lr' hkey' x hx _
      rcases mem_cons.mp (hperm.mem_iff.mpr hx) with rfl | hx
      · exact ⟨lr', mem_cons_self, hkey'⟩
      · exact ⟨x, mem_cons_of_mem _ hx, rfl⟩
    have hcount : counted key queue = lr.count := hkey ▸ counted_of_mem h hmem
    simp only at hresult
    rw [hresult]
    split
    next =>
      refine ⟨h.perm hperm, fun key' => count_same busy_ne_again ?_, hkeeps lr rfl,
        fun hagain => absurd hagain busy_ne_again, fun _ => ?_, by simp⟩
      · rw [hcounted lr key' rfl]
        split
        next hsame => rw [hsame, hcount]
        next => rfl
      · exact changes_eq_false h fun b hb => .inl <| (mem_cons.mp hb).elim
          (fun heq => ⟨lr, hmem, heq ▸ ⟨rfl, rfl, rfl⟩⟩) (hrest b)
    next =>
      split
      next =>
        refine ⟨h.replace hfind rfl, fun key' => count_same ok_ne_again ?_, hkeeps _ rfl,
          fun hagain => absurd hagain ok_ne_again, fun hok => absurd rfl hok, by simp⟩
        refine (hcounted
          ⟨lr.key, lr.lastAt now (elapsed now lr.last), lr.excessWith rate (elapsed now lr.last),
          lr.count⟩ key' rfl).trans ?_
        split
        next hsame => rw [hsame, hcount]
        next => rfl
      next =>
        refine ⟨h.replace hfind rfl, fun key' => ?_, hkeeps _ rfl, fun _ =>
          rfl, fun _ => ?_, by simp⟩
        · rw [hcounted ⟨lr.key, lr.last, lr.excess, lr.count + 1⟩ key' rfl]
          split
          next hsame => rw [if_pos ⟨rfl, hsame⟩, hsame, hcount]
          next hsame => rw [if_neg fun hand => hsame hand.2, add_zero]
        · exact changes_eq_false h fun b hb => .inl <| (mem_cons.mp hb).elim
            (fun heq => ⟨lr, hmem, heq ▸ ⟨rfl, rfl, rfl⟩⟩) (hrest b)
  · have hkeyed := hexpires.keyed h
    have hafter : ∀ b ∈ after, ∃ a ∈ queue, a.key = b.key ∧ a.excess = b.excess ∧ a.last = b.last :=
      fun b hb => ⟨b, hexpires.subset hb, rfl, rfl, rfl⟩
    have hzero : counted key after = 0 := counted_eq_zero fun x hx => hnew x (hexpires.subset hx)
    have hinsert : ∀ lr : ReqNode, lr.key = key → Keyed (lr :: after) := fun lr hlr =>
      hkeyed.insert fun x hx => hlr ▸ hnew x (hexpires.subset hx)
    have hkeeps : ∀ lr : ReqNode, Keeps queue (lr :: after) := fun lr x hx hcount => by
      obtain ⟨x', hx', hkey⟩ := hexpires.keeps x hx hcount
      exact ⟨x', mem_cons_of_mem lr hx', hkey⟩
    have hsame : ∀ (lr : ReqNode), lr.key = key → changes queue (lr :: after) = false :=
      fun lr hlr =>
      changes_eq_false h fun b hb =>
        (mem_cons.mp hb).elim (fun heq => .inr fun a ha => heq ▸ hlr ▸ hnew a ha)
        fun hb => .inl (hafter b hb)
    rcases hresult with hresult | hresult
    · rw [hresult, insertNode]
      split
      next =>
        refine ⟨hinsert _ rfl, fun key' => count_same ok_ne_again ?_, hkeeps _,
          fun hagain => absurd hagain ok_ne_again, fun _ => hsame _ rfl, by simp⟩
        rw [counted_cons, ← counted_expires h hexpires]
        split
        next hkey => exact hkey ▸ hzero.symm
        next => rfl
      next =>
        refine ⟨hinsert _ rfl, fun key' => ?_, hkeeps _, fun _ => rfl, fun _ =>
          hsame _ rfl, by simp⟩
        rw [counted_cons, ← counted_expires h hexpires]
        by_cases hkey : key = key'
        · rw [if_pos hkey, if_pos ⟨rfl, hkey.symm⟩, ← hkey, hzero]
        · rw [if_neg hkey, if_neg fun hand => hkey hand.2.symm, add_zero]
    · rw [hresult]
      exact ⟨hkeyed, fun key' =>
        count_same error_ne_again (counted_expires h hexpires), hexpires.keeps,
        fun hagain => absurd hagain error_ne_again, fun _ =>
          changes_eq_false h fun b hb => .inl (hafter b hb), by simp⟩

variable {f : ReqNode → ReqNode}

theorem map_key_setNode (hf : ∀ lr, (f lr).key = lr.key) (key : Bytes) (queue : List ReqNode) :
    (setNode key f queue).map ReqNode.key = queue.map ReqNode.key := by
  unfold setNode
  rw [map_map]
  refine map_congr_left fun lr _ => ?_
  rw [comp_apply]
  split
  · exact hf lr
  · rfl

theorem Keyed.setNode (h : Keyed queue) (hf : ∀ lr, (f lr).key = lr.key) (key : Bytes) :
    Keyed (setNode key f queue) := by
  unfold Keyed at h ⊢
  rwa [map_key_setNode hf]

theorem keeps_setNode (hf : ∀ lr, (f lr).key = lr.key) (key : Bytes) (queue : List ReqNode) :
    Keeps queue (setNode key f queue) := by
  intro lr hlr _
  have hkey : lr.key ∈ (setNode key f queue).map ReqNode.key := by
    rw [map_key_setNode hf]
    exact mem_map_of_mem hlr
  obtain ⟨lr', hlr', heq⟩ := mem_map.mp hkey
  exact ⟨lr', hlr', heq⟩

theorem counted_setNode (h : Keyed queue)
    (hf : ∀ lr, (f lr).key = lr.key ∧ (f lr).count = lr.count - 1)
    (hcount : counted key queue ≠ 0) (key' : Bytes) :
    counted key' (setNode key f queue) + (if key' = key then 1 else 0) = counted key' queue := by
  have hkeyed := h.setNode (fun lr => (hf lr).1) key
  by_cases hsome : ∃ lr ∈ queue, lr.key = key'
  · obtain ⟨lr, hlr, rfl⟩ := hsome
    have hmem : (if lr.key = key then f lr else lr) ∈ setNode key f queue := mem_map_of_mem hlr
    rw [counted_of_mem h hlr]
    by_cases hkey : lr.key = key
    · have hpos : lr.count ≠ 0 := by
        rwa [← hkey, counted_of_mem h hlr] at hcount
      rw [if_pos hkey] at hmem
      have hnew := counted_of_mem hkeyed hmem
      rw [(hf lr).1, (hf lr).2] at hnew
      rw [if_pos hkey, hnew]
      omega
    · rw [if_neg hkey] at hmem
      rw [if_neg hkey, counted_of_mem hkeyed hmem]
      rfl
  · have hnone : ∀ lr ∈ queue, lr.key ≠ key' := fun lr hlr heq => hsome ⟨lr, hlr, heq⟩
    have hne : key' ≠ key := by
      rintro rfl
      exact hcount (counted_eq_zero hnone)
    have hnone' : ∀ lr ∈ setNode key f queue, lr.key ≠ key' := fun lr hlr heq => by
      have hkey : key' ∈ (setNode key f queue).map ReqNode.key := heq ▸ mem_map_of_mem hlr
      rw [map_key_setNode fun lr => (hf lr).1] at hkey
      obtain ⟨lr', hlr', heq'⟩ := mem_map.mp hkey
      exact hnone lr' hlr' heq'
    rw [if_neg hne, counted_eq_zero hnone, counted_eq_zero hnone']

theorem changes_setNode {f : ReqNode → ReqNode} (h : Keyed queue)
    (hf : ∀ lr, (f lr).key = lr.key ∧ (f lr).excess = lr.excess ∧ (f lr).last = lr.last)
    (key : Bytes) :
    changes queue (setNode key f queue) = false := by
  refine changes_eq_false h fun b hb => ?_
  obtain ⟨a, ha, rfl⟩ := mem_map.mp hb
  refine .inl ⟨a, ha, ?_⟩
  split
  · exact ⟨(hf a).1.symm, (hf a).2.1.symm, (hf a).2.2.symm⟩
  · exact ⟨rfl, rfl, rfl⟩

end nodes

/-! ## A worker -/

/-- Reservations, a zone and a key, are compared. -/
instance lawfulReservation : LawfulBEq (Nat × Bytes) := inferInstance

/-- How often a worker's requests have reserved a node. -/
def ReqWorker.holds (w : ReqWorker) (x : Nat × Bytes) : Nat :=
  (w.job.toList.countP fun job => x ∈ job.reserved) + w.returned.countP fun r => x ∈ r.reserved

/-- The index of the loop. -/
def ReqPhase.index : ReqPhase → Nat
  | lookups n _ => n
  | releasing n => n
  | accounting n _ => n

/-- What is true of a request in the handler; `node` is `ctx->node`. -/
structure ReqJob.Right (node : Nat → Option Bytes) (job : ReqJob) : Prop where
  /-- `ngx_http_limit_req` refuses a second limit with the same zone -/
  distinct : (job.limits.map ReqLimit.zone).Nodup
  /-- the loop has yet to come back to what is reserved, or has just been there -/
  visited : ∀ x ∈ job.reserved, ∃ limit ∈ job.limits.take job.phase.index, limit.zone = x.1
  node : ∀ z key, node z = some key ↔ (z, key) ∈ job.reserved
  fresh : ∀ n, job.phase = .lookups n .declined → job.reserved = []
  charged : (∀ n maxDelay, job.phase ≠ .accounting n maxDelay) → job.charged = false

/-- What is true of a worker. -/
structure ReqWorker.Right (w : ReqWorker) : Prop where
  job : ∀ job, w.job = some job → job.Right w.node
  idle : w.job = none → ∀ z, w.node z = none
  returned : ∀ r ∈ w.returned, r.reserved = [] ∧
    (r.rc = .refused ∨ r.rc = .internalError → r.charged = false)

section worker

variable {w : ReqWorker} {job : ReqJob} {zones : Nat → List ReqNode}
    {rate : Nat → Nat} {now n maxDelay : Nat}
  {alloc : Bool × Bool} {limit : ReqLimit} {phase : ReqPhase} {key : Bytes}

theorem ReqWorker.Right.holds_returned (h : w.Right) (x : Nat × Bytes) :
    (w.returned.countP fun r => x ∈ r.reserved) = 0 := by
  refine countP_eq_zero.mpr fun r hr => ?_
  rw [(h.returned r hr).1]
  simp

theorem ReqWorker.Right.holds_eq (h : w.Right) (hjob : w.job = some job) (x : Nat × Bytes) :
    w.holds x = if x ∈ job.reserved then 1 else 0 := by
  unfold ReqWorker.holds
  rw [h.holds_returned, hjob, Option.toList_some, countP_singleton, add_zero]
  simp

theorem keyed_update {z : Nat} {queue : List ReqNode} (hkeyed : ∀ z, Keyed (zones z))
    (hqueue : Keyed queue) :
    ∀ z', Keyed (update zones z queue z') := by
  intro z'
  by_cases hzone : z' = z
  · rw [hzone, update_self]
    exact hqueue
  · rw [update_of_ne hzone]
    exact hkeyed z'

/-- What a turn does: the worker stays as it should be, and the counts move with what it has
reserved. -/
structure TurnRight (zones : Nat → List ReqNode) (w : ReqWorker) (result : TurnResult) : Prop where
  right : result.2.Right
  keyed : ∀ z, Keyed (result.1 z)
  counted : ∀ z key,
    counted key (result.1 z) + w.holds (z, key) = counted key (zones z) + result.2.holds (z, key)

theorem turnRight_goOn (h : w.Right) (hjob : w.job = some job) (hkeyed : ∀ z, Keyed (zones z))
    (hvisited : ∀ x ∈ job.reserved, ∃ limit ∈ job.limits.take phase.index, limit.zone = x.1)
    (hfresh : ∀ n, phase = .lookups n .declined → job.reserved = [])
    (hcharged : (∀ n maxDelay, phase ≠ .accounting n maxDelay) → job.charged = false) :
    TurnRight zones w (zones, w.goOn job phase) where
  right :=
    { job := fun _ heq => by
        obtain rfl := Option.some.inj heq
        exact ⟨(h.job job hjob).distinct, hvisited, (h.job job hjob).node, hfresh, hcharged⟩
      idle := fun heq => absurd heq (Option.some_ne_none _)
      returned := h.returned }
  keyed := hkeyed
  counted := fun z key => by
    have hholds : (w.goOn job phase).holds (z, key) = w.holds (z, key) := by
      unfold ReqWorker.holds ReqWorker.goOn
      rw [hjob]
      rfl
    rw [hholds]

theorem turnRight_ret {rc : HandlerRc} (h : w.Right) (hjob : w.job = some job)
    (hkeyed : ∀ z, Keyed (zones z))
    (hreserved : job.reserved = [])
    (hcharged : rc = .refused ∨ rc = .internalError → job.charged = false) :
    TurnRight zones w (zones, w.ret job rc) where
  right :=
    { job := fun _ heq => absurd heq (Option.some_ne_none _).symm
      idle := fun _ z => by
        refine Option.eq_none_iff_forall_ne_some.mpr fun key hkey => ?_
        have hmem := ((h.job job hjob).node z key).mp hkey
        rw [hreserved] at hmem
        exact not_mem_nil hmem
      returned := fun r hr => by
        rcases mem_cons.mp hr with rfl | hr
        · exact ⟨hreserved, hcharged⟩
        · exact h.returned r hr }
  keyed := hkeyed
  counted := fun z key => by
    have hholds : (w.ret job rc).holds (z, key) = w.holds (z, key) := by
      unfold ReqWorker.holds ReqWorker.ret
      rw [hjob, Option.toList_some, countP_singleton, countP_cons, hreserved]
      simp
    rw [hholds]

theorem visited_of_node_none (h : job.Right w.node) (hindex : job.phase.index = n + 1)
    (hlimit : job.limits[n]? = some limit)
    (hnone : w.node limit.zone = none) :
    ∀ x ∈ job.reserved, ∃ limit ∈ job.limits.take n, limit.zone = x.1 := by
  intro x hx
  obtain ⟨other, hmem, hzone⟩ := h.visited x hx
  rw [hindex, take_add_one, hlimit, Option.toList_some] at hmem
  rcases mem_append.mp hmem with hmem | hmem
  · exact ⟨other, hmem, hzone⟩
  · obtain rfl := mem_singleton.mp hmem
    have hnode := (h.node x.1 x.2).mpr hx
    rw [← hzone, hnone] at hnode
    exact absurd hnode.symm (Option.some_ne_none _)

theorem visited_of_none (h : job.Right w.node) (hindex : job.phase.index = n + 1)
    (hlimit : job.limits[n]? = none) :
    ∀ x ∈ job.reserved, ∃ limit ∈ job.limits.take n, limit.zone = x.1 := by
  intro x hx
  obtain ⟨other, hmem, hzone⟩ := h.visited x hx
  rw [hindex, take_add_one, hlimit, Option.toList_none, append_nil] at hmem
  exact ⟨other, hmem, hzone⟩

theorem turnRight_unreserve {f : ReqNode → ReqNode} (h : w.Right) (hjob : w.job = some job)
    (hkeyed : ∀ z, Keyed (zones z)) (hindex : job.phase.index = n + 1) (hnext : phase.index = n)
    (hlookups : ∀ n rc, phase ≠ .lookups n rc) (hlimit : job.limits[n]? = some limit)
    (hnode : w.node limit.zone = some key) (hcount : counted key (zones limit.zone) ≠ 0)
    (hf : ∀ lr, (f lr).key = lr.key ∧ (f lr).count = lr.count - 1) {charged : Bool}
    (hcharged : (∀ n maxDelay, phase ≠ .accounting n maxDelay) → charged = false) :
    TurnRight zones w (update zones limit.zone (setNode key f (zones limit.zone)),
      ReqWorker.goOn { w with node := update w.node limit.zone none }
        { job with reserved := job.reserved.filter fun x =>
          x.1 ≠ limit.zone, charged := charged } phase) where
  right :=
    { job := fun _ heq => by
        obtain rfl := Option.some.inj heq
        have hright := h.job job hjob
        refine ⟨hright.distinct, fun x hx => ?_, fun z key => ?_, fun n heq =>
          absurd heq (hlookups n _), hcharged⟩
        · obtain ⟨hmem, hzone⟩ := mem_filter.mp hx
          obtain ⟨other, hother, hsame⟩ := hright.visited x hmem
          rw [hindex, take_add_one, hlimit, Option.toList_some] at hother
          rcases mem_append.mp hother with hother | hother
          · exact ⟨other, hnext.symm ▸ hother, hsame⟩
          · rw [mem_singleton.mp hother] at hsame
            exact absurd hsame.symm (of_decide_eq_true hzone)
        · simp only [ReqWorker.goOn, mem_filter, decide_eq_true_eq]
          by_cases hzone : z = limit.zone
          · rw [hzone, update_self]
            exact iff_of_false (Option.some_ne_none _).symm fun hand => hand.2 rfl
          · rw [update_of_ne hzone, hright.node]
            exact (and_iff_left hzone).symm
      idle := fun heq => absurd heq (Option.some_ne_none _)
      returned := h.returned }
  keyed := keyed_update hkeyed ((hkeyed _).setNode (fun lr => (hf lr).1) key)
  counted := fun z key' => by
    have hmem : ∀ key', (limit.zone, key') ∈ job.reserved ↔ key' = key := fun key' => by
      rw [← (h.job job hjob).node, hnode, Option.some.injEq, eq_comm]
    have hafter : ReqWorker.holds (ReqWorker.goOn { w with node := update w.node limit.zone none }
        { job with reserved := job.reserved.filter fun x =>
          x.1 ≠ limit.zone, charged := charged } phase) (z, key') =
          if z ≠ limit.zone ∧ (z, key') ∈ job.reserved then 1 else 0 := by
      unfold ReqWorker.holds ReqWorker.goOn
      rw [h.holds_returned, Option.toList_some, countP_singleton, add_zero]
      simp only [mem_filter, decide_eq_true_eq, and_comm]
    rw [h.holds_eq hjob, hafter]
    show counted key' (update zones limit.zone _ z) + _ = _
    by_cases hzone : z = limit.zone
    · subst hzone
      rw [update_self, if_neg fun hand : _ ≠ _ ∧ _ => hand.1 rfl, add_zero]
      simp only [hmem]
      exact counted_setNode (hkeyed _) hf hcount key'
    · rw [update_of_ne hzone]
      simp only [ne_eq, hzone, not_false_eq_true, true_and]

variable {rc : Rc}

theorem turnRight_afterLookups (h : w.Right) (hjob : w.job = some job)
    (hkeyed : ∀ z, Keyed (zones z))
    (hindex : job.phase.index = n) (hfresh : rc = .declined → job.reserved = [])
    (hcharged : rc = .busy ∨ rc = .error → job.charged = false) :
    TurnRight zones w (zones, w.afterLookups job n rc maxDelay) := by
  have hvisited := (h.job job hjob).visited
  rw [hindex] at hvisited
  unfold ReqWorker.afterLookups
  split
  next hrc => exact turnRight_ret h hjob hkeyed (hfresh hrc) (by simp)
  next =>
    split
    next hrc => exact turnRight_goOn h hjob hkeyed hvisited (by simp) fun _ => hcharged hrc
    next => exact turnRight_goOn h hjob hkeyed hvisited (by simp) fun hnot =>
      absurd rfl (hnot n maxDelay)

theorem TurnRight.trans {zones' : Nat → List ReqNode} {w' : ReqWorker} {result : TurnResult}
    (h : TurnRight zones w (zones', w')) (hmore : TurnRight zones' w' result) :
    TurnRight zones w result where
  right := hmore.right
  keyed := hmore.keyed
  counted := fun z key => by
    have hfirst := h.counted z key
    have hsecond := hmore.counted z key
    simp only at hfirst hsecond
    omega

theorem turnRight_zone {queue : List ReqNode} {z : Nat} {charged : Bool}
    (h : w.Right) (hjob : w.job = some job)
    (hkeyed : ∀ z, Keyed (zones z)) (hqueue : Keyed queue)
    (hsame : ∀ key, counted key queue = counted key (zones z))
    (hcharged : (∀ n maxDelay, job.phase ≠ .accounting n maxDelay) → charged = false) :
    TurnRight zones w
      (update zones z queue, { w with job := some { job with charged := charged } }) where
  right :=
    { job := fun _ heq => by
        obtain rfl := Option.some.inj heq
        have hright := h.job job hjob
        exact ⟨hright.distinct, hright.visited, hright.node, hright.fresh, hcharged⟩
      idle := fun heq => absurd heq (Option.some_ne_none _)
      returned := h.returned }
  keyed := keyed_update hkeyed hqueue
  counted := fun z' key => by
    have hholds : ReqWorker.holds
      { w with job := some { job with charged := charged } } (z', key) = w.holds (z', key) := by
      unfold ReqWorker.holds
      rw [hjob]
      rfl
    rw [hholds]
    show counted key (update zones z queue z') + _ = _
    by_cases hzone : z' = z
    · rw [hzone, update_self, hsame]
    · rw [update_of_ne hzone]

/-- A zone that goes on to the next reserves its node. -/
theorem turnRight_reserve {r : LookupResult} (h : w.Right) (hjob : w.job = some job)
    (hkeyed : ∀ z, Keyed (zones z))
    (hphase : job.phase = .lookups n rc) (hlimit : job.limits[n]? = some limit)
    (hr : LookupRight key (zones limit.zone) r) (hagain : r.rc = .again) :
    TurnRight zones w (update zones limit.zone r.queue,
      ReqWorker.goOn { w with node := update w.node limit.zone r.node }
        { job with
          reserved := (limit.zone, key) :: job.reserved
          charged := job.charged || changes (zones limit.zone) r.queue }
            (.lookups (n + 1) r.rc)) := by
  have hright := h.job job hjob
  have hindex : job.phase.index = n := by
    rw [hphase]
    rfl
  have htake : job.limits.take (n + 1) = job.limits.take n ++ [limit] := by
    rw [take_add_one, hlimit, Option.toList_some]
  -- the zone is not one of those before
  have hnew : ∀ key', (limit.zone, key') ∉ job.reserved := fun key' hmem => by
    obtain ⟨other, hother, heq⟩ := hright.visited _ hmem
    rw [hindex] at hother
    have hdistinct : ((job.limits.take (n + 1)).map ReqLimit.zone).Nodup :=
      hright.distinct.sublist ((take_sublist _ _).map _)
    rw [htake, map_append] at hdistinct
    exact (nodup_append.mp hdistinct).2.2 _ (mem_map_of_mem hother) _
      (mem_map_of_mem (mem_singleton.mpr rfl)) heq
  have hquiet : ∀ n maxDelay, job.phase ≠ .accounting n maxDelay := fun _ _ heq => by
    rw [hphase] at heq
    exact absurd heq (by simp)
  refine ⟨⟨fun _ heq => ?_, fun heq => absurd heq (Option.some_ne_none _), h.returned⟩,
    keyed_update hkeyed hr.keyed,
    fun z key' => ?_⟩
  · obtain rfl := Option.some.inj heq
    refine ⟨hright.distinct, fun x hx => ?_, fun z key' => ?_, fun n heq => ?_, fun _ => ?_⟩
    · show ∃ other ∈ job.limits.take (n + 1), other.zone = x.1
      rw [htake]
      rcases mem_cons.mp hx with rfl | hx
      · exact ⟨limit, mem_append_right _ (mem_singleton.mpr rfl), rfl⟩
      · obtain ⟨other, hother, heq⟩ := hright.visited x hx
        rw [hindex] at hother
        exact ⟨other, mem_append_left _ hother, heq⟩
    · simp only [ReqWorker.goOn, mem_cons, Prod.mk.injEq]
      by_cases hzone : z = limit.zone
      · rw [hzone, update_self, hr.node hagain, Option.some.injEq]
        refine ⟨fun heq => .inl ⟨rfl, heq.symm⟩, fun hor => ?_⟩
        rcases hor with ⟨-, rfl⟩ | hmem
        · rfl
        · exact absurd hmem (hnew key')
      · rw [update_of_ne hzone, hright.node]
        exact ⟨.inr, fun hor => hor.elim (fun hand => absurd hand.1 hzone) id⟩
    · rw [hagain] at heq
      exact absurd heq (by simp)
    · show (job.charged || changes (zones limit.zone) r.queue) = false
      rw [hright.charged hquiet, hr.changes (by rw [hagain]; simp), Bool.or_false]
  · have hafter : ReqWorker.holds (ReqWorker.goOn { w with node := update w.node limit.zone r.node }
        { job with
          reserved := (limit.zone, key) :: job.reserved
          charged := job.charged || changes (zones limit.zone) r.queue } (.lookups (n + 1) r.rc))
            (z, key') =
          if (z = limit.zone ∧ key' = key) ∨ (z, key') ∈ job.reserved then 1 else 0 := by
      unfold ReqWorker.holds ReqWorker.goOn
      rw [h.holds_returned, Option.toList_some, countP_singleton, add_zero]
      simp only [mem_cons, Prod.mk.injEq, decide_eq_true_eq]
    rw [h.holds_eq hjob, hafter]
    show counted key' (update zones limit.zone r.queue z) + _ = _
    by_cases hzone : z = limit.zone
    · rw [hzone, update_self, hr.counted]
      simp only [hagain, true_and, hnew key', or_false, if_false, add_zero]
    · rw [update_of_ne hzone]
      simp only [hzone, false_and, false_or]

theorem turnRight_lookup (h : w.Right) (hjob : w.job = some job) (hkeyed : ∀ z, Keyed (zones z))
    (hphase : job.phase = .lookups n rc) (hlimit : job.limits[n]? = some limit) :
    TurnRight zones w (lookupTurn rate now alloc zones w job n limit key) := by
  have hindex : job.phase.index = n := by
    rw [hphase]
    rfl
  have hquiet : ∀ n maxDelay, job.phase ≠ .accounting n maxDelay := fun _ _ heq => by
    rw [hphase] at heq
    exact absurd heq (by simp)
  unfold lookupTurn
  have hr := @lookup_right (rate limit.zone) limit.burst now (zones limit.zone) key alloc
    (n = job.limits.length - 1) (hkeyed limit.zone)
  simp only
  generalize lookup (rate limit.zone) limit.burst now alloc key
    (n = job.limits.length - 1) (zones limit.zone) = r at hr ⊢
  split
  next hagain => exact turnRight_reserve h hjob hkeyed hphase hlimit hr hagain
  next hagain =>
    have hsame : ∀ key', counted key' r.queue = counted key' (zones limit.zone) := fun key' => by
      rw [hr.counted, if_neg fun hand => hagain hand.1, add_zero]
    by_cases hok : r.rc = .ok
    · -- the request is accounted for, and the zones before this one come next
      have hvisited := (h.job job hjob).visited
      rw [hindex] at hvisited
      have hnode := (h.job job hjob).node
      unfold ReqWorker.afterLookups
      rw [if_neg hr.declined, if_neg (by rw [hok]; simp)]
      refine ⟨⟨fun _ heq => ?_, fun heq => absurd heq (Option.some_ne_none _), h.returned⟩,
        keyed_update hkeyed hr.keyed, fun z key' => ?_⟩
      · obtain rfl := Option.some.inj heq
        exact ⟨(h.job job hjob).distinct, hvisited, hnode, fun _ heq => absurd heq (by simp),
          fun hnot => absurd rfl (hnot n _)⟩
      have hholds : ReqWorker.holds
        (w.goOn { job with charged := job.charged || changes (zones limit.zone) r.queue }
          (.accounting n (delayOf (rate limit.zone) limit.delay r.excess))) (z, key') =
            w.holds (z, key') := by
        unfold ReqWorker.holds ReqWorker.goOn
        rw [hjob]
        rfl
      rw [hholds]
      show counted key' (update zones limit.zone r.queue z) + _ = _
      by_cases hzone : z = limit.zone
      · rw [hzone, update_self, hsame]
      · rw [update_of_ne hzone]
    · have hcharged : (job.charged || changes (zones limit.zone) r.queue) = false := by
        rw [(h.job job hjob).charged hquiet, hr.changes hok, Bool.or_false]
      have hzone :=
        @turnRight_zone w job zones r.queue limit.zone
          (job.charged || changes (zones limit.zone) r.queue)
        h hjob hkeyed hr.keyed hsame fun _ => hcharged
      refine hzone.trans
        (turnRight_afterLookups hzone.right rfl hzone.keyed hindex (fun hdeclined => ?_) fun _ =>
        hcharged)
      exact absurd hdeclined hr.declined

/-- A job that has come to no zone has reserved nothing. -/
theorem reserved_nil (h : w.Right) (hjob : w.job = some job) (hindex : job.phase.index = 0) :
    job.reserved = [] := by
  refine eq_nil_iff_forall_not_mem.mpr fun x hx => ?_
  obtain ⟨other, hother, -⟩ := (h.job job hjob).visited x hx
  rw [hindex, take_zero] at hother
  exact not_mem_nil hother

/-- What `ctx->node` points to is counted. -/
theorem counted_ne_zero (h : w.Right) (hjob : w.job = some job) {z : Nat}
    (hcount : w.holds (z, key) ≤ counted key (zones z)) (hnode : w.node z = some key) :
    counted key (zones z) ≠ 0 := by
  rw [h.holds_eq hjob, if_pos (((h.job job hjob).node z key).mp hnode)] at hcount
  omega

variable {value : KeyValue} {readEvent : Bool}

/-- A turn of the lookups, zone by zone. -/
theorem turnRight_lookups (h : w.Right)
    (hjob : w.job = some job) (hkeyed : ∀ z, Keyed (zones z)) (hphase : job.phase = .lookups n rc)
    (hfailed : value = .failed → n < job.limits.length → job.reserved = []) :
    TurnRight zones w (turn rate now value alloc readEvent zones w job) := by
  have hright := h.job job hjob
  have hindex : job.phase.index = n := by
    rw [hphase]
    rfl
  have hquiet : job.charged = false := hright.charged fun _ _ heq => by
    rw [hphase] at heq
    exact absurd heq (by simp)
  unfold turn
  simp only [hphase]
  cases hlimit : job.limits[n]? with
  | none =>
    exact turnRight_afterLookups h hjob hkeyed hindex
      (fun hrc => hright.fresh n (hphase.trans (hrc ▸ rfl))) fun _ => hquiet
  | some limit =>
    cases value with
    | failed =>
      have hlt := (List.getElem?_eq_some_iff.mp hlimit).1
      exact turnRight_ret h hjob hkeyed (hfailed rfl hlt) fun _ => hquiet
    | value key =>
      simp only
      split
      next =>
        refine turnRight_goOn h hjob hkeyed (fun x hx => ?_) (fun m heq => ?_) fun _ => hquiet
        · obtain ⟨other, hother, heq⟩ := hright.visited x hx
          rw [hindex] at hother
          exact ⟨other, (take_sublist_take_left (Nat.le_succ n)).subset hother, heq⟩
        · refine hright.fresh n (hphase.trans ?_)
          rw [(ReqPhase.lookups.inj heq).2]
      next => exact turnRight_lookup h hjob hkeyed hphase hlimit

/-- A turn of the loop that gives the nodes back. -/
theorem turnRight_releasing (h : w.Right)
    (hjob : w.job = some job) (hkeyed : ∀ z, Keyed (zones z)) (hphase : job.phase = .releasing n)
    (hpos : ∀ z key, w.node z = some key → counted key (zones z) ≠ 0) :
    TurnRight zones w (turn rate now value alloc readEvent zones w job) := by
  have hright := h.job job hjob
  have hquiet : job.charged = false := hright.charged fun _ _ heq => by
    rw [hphase] at heq
    exact absurd heq (by simp)
  have hindex : job.phase.index = n := by
    rw [hphase]
    rfl
  unfold turn
  rw [hphase]
  cases n with
  | zero => exact turnRight_ret h hjob hkeyed (reserved_nil h hjob hindex) fun _ => hquiet
  | succ n =>
    simp only
    cases hlimit : job.limits[n]? with
    | none =>
      exact turnRight_goOn h hjob hkeyed (visited_of_none hright hindex hlimit) (by simp)
        fun _ => hquiet
    | some limit =>
      simp only
      unfold releaseTurn
      cases hnode : w.node limit.zone with
      | none =>
        exact turnRight_goOn h hjob hkeyed (visited_of_node_none hright hindex hlimit hnode)
          (by simp) fun _ => hquiet
      | some key =>
        have hrelease : ∀ lr : ReqNode, lr.release.key = lr.key ∧ lr.release.count = lr.count - 1 :=
          fun _ => ⟨rfl, rfl⟩
        refine turnRight_unreserve h hjob hkeyed hindex rfl (fun _ _ heq => ?_) hlimit hnode
          (hpos _ _ hnode) hrelease fun _ => ?_
        · exact absurd heq (by simp)
        · have hsame := @changes_setNode (zones limit.zone) ReqNode.release (hkeyed _)
            (fun _ => ⟨rfl, rfl, rfl⟩) key
          rw [hquiet, hsame]
          rfl

/-- A turn of the loop of the accounting. -/
theorem turnRight_accounting (h : w.Right)
    (hjob : w.job = some job) (hkeyed : ∀ z, Keyed (zones z))
    (hphase : job.phase = .accounting n maxDelay)
    (hpos : ∀ z key, w.node z = some key → counted key (zones z) ≠ 0)
    (hevent : readEvent = false → n = 0 → maxDelay = 0) :
    TurnRight zones w (turn rate now value alloc readEvent zones w job) := by
  have hright := h.job job hjob
  have hindex : job.phase.index = n := by
    rw [hphase]
    rfl
  unfold turn
  rw [hphase]
  cases n with
  | zero =>
    refine turnRight_ret h hjob hkeyed (reserved_nil h hjob hindex) fun hrc => ?_
    cases readEvent with
    | false =>
      rw [if_pos (hevent rfl rfl)] at hrc
      simp at hrc
    | true =>
      rw [if_pos rfl] at hrc
      split at hrc <;> simp at hrc
  | succ n =>
    simp only
    cases hlimit : job.limits[n]? with
    | none =>
      exact turnRight_goOn h hjob hkeyed (visited_of_none hright hindex hlimit) (by simp)
        fun hnot => absurd rfl (hnot n maxDelay)
    | some limit =>
      simp only
      unfold accountTurn
      cases hnode : w.node limit.zone with
      | none =>
        exact turnRight_goOn h hjob hkeyed (visited_of_node_none hright hindex hlimit hnode)
          (by simp) fun hnot => absurd rfl (hnot n maxDelay)
      | some key =>
        have haccount : ∀ lr : ReqNode, (lr.account (rate limit.zone) now).key = lr.key ∧
            (lr.account (rate limit.zone) now).count = lr.count - 1 := fun _ => ⟨rfl, rfl⟩
        refine turnRight_unreserve h hjob hkeyed hindex rfl (fun _ _ heq => ?_) hlimit hnode
          (hpos _ _ hnode) haccount fun hnot => absurd rfl (hnot n _)
        exact absurd heq (by simp)

/-- A turn keeps a worker right, unless a key fails behind a reserved zone or a delayed request has
no read event. -/
theorem turn_right (h : w.Right) (hjob : w.job = some job)
    (hkeyed : ∀ z, Keyed (zones z))
    (hcount : ∀ z key, w.holds (z, key) ≤ counted key (zones z))
    (hfailed : value = .failed → ∀ n rc, job.phase = .lookups n rc → n < job.limits.length →
      job.reserved = [])
    (hevent : readEvent = false → ∀ maxDelay, job.phase = .accounting 0 maxDelay → maxDelay = 0) :
    TurnRight zones w (turn rate now value alloc readEvent zones w job) := by
  have hpos : ∀ z key, w.node z = some key → counted key (zones z) ≠ 0 := fun z key =>
    counted_ne_zero h hjob (hcount z key)
  cases hphase : job.phase with
  | lookups n rc => exact turnRight_lookups h hjob hkeyed hphase fun heq => hfailed heq n rc hphase
  | releasing n => exact turnRight_releasing h hjob hkeyed hphase hpos
  | accounting n maxDelay =>
    exact turnRight_accounting h hjob hkeyed hphase hpos fun heq hn =>
      hevent heq maxDelay (hn ▸ hphase)

/-- A turn drops no node that another request has counted. -/
theorem turn_keeps (hkeyed : ∀ z, Keyed (zones z)) (z : Nat) :
    Keeps (zones z) ((turn rate now value alloc readEvent zones w job).1 z) := by
  have hrefl : Keeps (zones z) (zones z) := fun lr hlr _ => ⟨lr, hlr, rfl⟩
  have hupdate : ∀ z' queue, Keeps (zones z') queue →
    Keeps (zones z) (update zones z' queue z) := by
    intro z' queue hkeeps
    by_cases hzone : z = z'
    · subst hzone
      rwa [update_self]
    · rwa [update_of_ne hzone]
  have hset : ∀ (z' : Nat) (key : Bytes) (f : ReqNode → ReqNode), (∀ lr, (f lr).key = lr.key) →
      Keeps (zones z) (update zones z' (setNode key f (zones z')) z) :=
    fun z' key f hf => hupdate z' _ (keeps_setNode hf key (zones z'))
  unfold turn
  cases hphase : job.phase with
  | lookups n rc =>
    simp only
    cases job.limits[n]? with
    | none => exact hrefl
    | some limit =>
      cases value with
      | failed => exact hrefl
      | value key =>
        simp only
        split
        next => exact hrefl
        unfold lookupTurn
        have hr := @lookup_right (rate limit.zone) limit.burst now (zones limit.zone) key alloc
          (n = job.limits.length - 1) (hkeyed limit.zone)
        simp only
        split
        next => exact hupdate _ _ hr.keeps
        next => exact hupdate _ _ hr.keeps
  | releasing n =>
    cases n with
    | zero => exact hrefl
    | succ n =>
      simp only
      cases job.limits[n]? with
      | none => exact hrefl
      | some limit =>
        simp only
        unfold releaseTurn
        cases w.node limit.zone with
        | none => exact hrefl
        | some key => exact hset _ _ ReqNode.release fun _ => rfl
  | accounting n maxDelay =>
    cases n with
    | zero => exact hrefl
    | succ n =>
      simp only
      cases job.limits[n]? with
      | none => exact hrefl
      | some limit =>
        simp only
        unfold accountTurn
        cases w.node limit.zone with
        | none => exact hrefl
        | some key => exact hset _ _ (ReqNode.account (rate limit.zone) now) fun _ => rfl

end worker

/-! ## Runs -/

/-- How many of the requests, of all the workers, have looked up a node with `account` 0, and not
accounted for or released it. -/
def ReqState.reservers (s : ReqState) (z : Nat) (key : Bytes) :
    Nat := tally ReqWorker.holds s.workers (z, key)

/-- A condition on a step and the state before it: no key fails once the request has reserved
another, and the read event of a request that is to be delayed can be handled. -/
def Undisturbed (s : ReqState) : ReqEvent → Prop
  | .start _ _ => True
  | .turn i _ key _ readEvent => ∀ w job, s.workers[i]? = some w → w.job = some job →
      (key = .failed → ∀ n rc, job.phase = .lookups n rc → n < job.limits.length →
        job.reserved = []) ∧
      (readEvent = false → ∀ maxDelay, job.phase = .accounting 0 maxDelay → maxDelay = 0)

/-- All the steps of a run meet the condition. -/
def RunUndisturbed (rate : Nat → Nat) : ReqState → List ReqEvent → Prop
  | _, [] => True
  | s, event :: events => Undisturbed s event ∧ RunUndisturbed rate (reqStep rate s event) events

/-- `ngx_http_limit_req` refuses a second limit with the same zone. -/
def Configured : ReqEvent → Prop
  | .start _ limits => (limits.map ReqLimit.zone).Nodup
  | .turn _ _ _ _ _ => True

/-- What is true of the zones and the workers. -/
structure ReqState.Right (s : ReqState) : Prop where
  worker : ∀ w ∈ s.workers, w.Right
  keyed : ∀ z, Keyed (s.zones z)
  counted : ∀ z key, counted key (s.zones z) = s.reservers z key

section runs

variable {rate : Nat → Nat} {s : ReqState} {event : ReqEvent} {events : List ReqEvent}

theorem ReqState.Right.set {i : Nat} {w : ReqWorker} {result : TurnResult}
    (h : s.Right) (hw : s.workers[i]? = some w)
    (hturn : TurnRight s.zones w result) : ReqState.Right ⟨result.1, s.workers.set i result.2⟩ where
  worker := fun w' hw' => by
    rcases mem_or_eq_of_mem_set hw' with hmem | rfl
    · exact h.worker w' hmem
    · exact hturn.right
  keyed := hturn.keyed
  counted := fun z key => tally_set_eq hw (h.counted z key) (hturn.counted z key)

theorem reqStep_cases (rate : Nat → Nat) (s : ReqState) (event : ReqEvent) :
    reqStep rate s event = s ∨
      (∃ i limits w, event = .start i limits ∧ s.workers[i]? = some w ∧ w.job = none ∧
        reqStep rate s event = ⟨s.zones, s.workers.set i (w.enter limits)⟩) ∨
      ∃ i now key alloc readEvent w job, event = .turn i now key alloc readEvent ∧
        s.workers[i]? = some w ∧
        w.job = some job ∧
          reqStep rate s event = ⟨(turn rate now key alloc readEvent s.zones w job).1,
          s.workers.set i (turn rate now key alloc readEvent s.zones w job).2⟩ := by
  cases event with
  | start i limits =>
    rcases hw : s.workers[i]? with _ | w
    · left
      simp only [reqStep, hw]
    rcases hjob : w.job with _ | job
    · right
      left
      refine ⟨i, limits, w, rfl, hw, hjob, ?_⟩
      simp only [reqStep, hw, hjob]
    · left
      simp only [reqStep, hw, hjob]
  | turn i now key alloc readEvent =>
    rcases hw : s.workers[i]? with _ | w
    · left
      simp only [reqStep, hw]
    rcases hjob : w.job with _ | job
    · left
      simp only [reqStep, hw, hjob]
    · right
      right
      refine ⟨i, now, key, alloc, readEvent, w, job, rfl, hw, hjob, ?_⟩
      simp only [reqStep, hw, hjob]

theorem turnRight_enter {w : ReqWorker} {zones : Nat → List ReqNode}
    {limits : List ReqLimit} (h : w.Right)
    (hjob : w.job = none) (hkeyed : ∀ z, Keyed (zones z))
    (hdistinct : (limits.map ReqLimit.zone).Nodup) :
    TurnRight zones w (zones, w.enter limits) where
  right :=
    { job := fun _ heq => by
        obtain rfl := Option.some.inj heq
        refine ⟨hdistinct, fun x hx => absurd hx not_mem_nil, fun z key =>
          ?_, fun _ _ => rfl, fun _ => rfl⟩
        have hnode : (w.enter limits).node z = none := h.idle hjob z
        rw [hnode]
        exact iff_of_false (Option.some_ne_none _).symm not_mem_nil
      idle := fun heq => absurd heq (Option.some_ne_none _)
      returned := h.returned }
  keyed := hkeyed
  counted := fun z key => by
    have hholds : (w.enter limits).holds (z, key) = w.holds (z, key) := by
      unfold ReqWorker.holds ReqWorker.enter
      rw [hjob]
      rfl
    rw [hholds]

theorem ReqState.Right.step (h : s.Right) (hmeets : Undisturbed s event)
    (hconf : Configured event) :
    (reqStep rate s event).Right := by
  rcases reqStep_cases rate s event with hsame | ⟨i, limits, w, rfl, hw, hjob, hstep⟩ |
    ⟨i, now, key, alloc, readEvent, w, job, rfl, hw, hjob, hstep⟩
  · rwa [hsame]
  · rw [hstep]
    exact h.set hw (turnRight_enter (h.worker w (mem_of_getElem? hw)) hjob h.keyed hconf)
  have hmem := mem_of_getElem? hw
  obtain ⟨hfailed, hevent⟩ := hmeets w job hw hjob
  have hcount : ∀ z key', w.holds (z, key') ≤ Limit.counted key' (s.zones z) := fun z key' => by
    rw [h.counted]
    exact le_tally hmem (z, key')
  rw [hstep]
  exact h.set hw (turn_right (h.worker w hmem) hjob h.keyed hcount hfailed hevent)

theorem ReqState.Right.run (h : s.Right) (hmeets : RunUndisturbed rate s events)
    (hconf : ∀ event ∈ events, Configured event) :
    (reqRun rate s events).Right := by
  induction events generalizing s with
  | nil => exact h
  | cons event events ih =>
    exact ih (h.step hmeets.1 (hconf event mem_cons_self)) hmeets.2
      fun e he => hconf e (mem_cons_of_mem event he)

theorem reqInit_right (workers : Nat) : (reqInit workers).Right where
  worker := fun w hw => by
    rw [eq_of_mem_replicate hw]
    exact ⟨fun _ heq => absurd heq (Option.some_ne_none _).symm, fun _ _ =>
      rfl, fun r hr => absurd hr not_mem_nil⟩
  keyed := fun _ => nodup_nil
  counted := fun z key => by
    refine (tally_eq_zero fun w hw => ?_).symm
    rw [eq_of_mem_replicate hw]
    rfl

theorem reqStep_keeps (hkeyed : ∀ z, Keyed (s.zones z)) (event : ReqEvent) (z : Nat) :
    Keeps (s.zones z) ((reqStep rate s event).zones z) := by
  have hrefl : Keeps (s.zones z) (s.zones z) := fun lr hlr _ => ⟨lr, hlr, rfl⟩
  rcases reqStep_cases rate s event with hsame | ⟨i, limits, w, rfl, hw, hjob, hstep⟩ |
    ⟨i, now, key, alloc, readEvent, w, job, rfl, hw, hjob, hstep⟩
  · rwa [hsame]
  · rwa [hstep]
  · rw [hstep]
    exact turn_keeps hkeyed z

end runs

/-- The evaluation of the key and the read event succeed. -/
def ReqEvent.Succeeds : ReqEvent → Prop
  | .start _ _ => True
  | .turn _ _ key _ readEvent => key ≠ .failed ∧ readEvent = true

theorem runUndisturbed_of_succeeds (rate : Nat → Nat) {events : List ReqEvent}
    (h : ∀ event ∈ events, event.Succeeds)
    (s : ReqState) : RunUndisturbed rate s events := by
  induction events generalizing s with
  | nil => exact trivial
  | cons event events ih =>
    refine ⟨?_, ih (fun e he => h e (mem_cons_of_mem event he)) _⟩
    have hevent := h event mem_cons_self
    cases event with
    | start i limits => exact trivial
    | turn i now key alloc readEvent =>
      exact fun _ _ _ _ => ⟨fun hkey => absurd hkey hevent.1,
        fun hread => absurd (hread.symm.trans hevent.2) Bool.false_ne_true⟩

/-- Workers that run the handler, in any order of its turns, as long as no key fails after an
earlier limit of its request has been looked up, and no read event fails for a delayed request: the
count of every node is the number of requests that have it reserved, no step takes away a node that
is counted, no worker is left with a `ctx->node` when the handler has returned, and a request that
was refused or has failed has not changed a node. -/
theorem limitReq_balanced (rate : Nat → Nat) (workers : Nat) (events : List ReqEvent)
    (hconf : ∀ event ∈ events, Configured event)
    (hmeets : RunUndisturbed rate (reqInit workers) events) :
    (∀ z, ∀ lr ∈ (reqRun rate (reqInit workers) events).zones z,
        lr.count = (reqRun rate (reqInit workers) events).reservers z lr.key) ∧
      (∀ event z, Keeps ((reqRun rate (reqInit workers) events).zones z)
        ((reqStep rate (reqRun rate (reqInit workers) events) event).zones z)) ∧
      ∀ w ∈ (reqRun rate (reqInit workers) events).workers, (w.job = none → ∀ z, w.node z = none) ∧
        ∀ r ∈ w.returned, r.reserved = [] ∧
          (r.rc = .refused ∨ r.rc = .internalError → r.charged = false) := by
  have hright := (reqInit_right workers).run hmeets hconf
  refine ⟨fun z lr hlr => ?_, fun event z => reqStep_keeps hright.keyed event z,
    fun w hw => ⟨(hright.worker w hw).idle, (hright.worker w hw).returned⟩⟩
  rw [← hright.counted, counted_of_mem (hright.keyed z) hlr]

/-- A worker lets a request with two limits through, while another one looks up its key. -/
def twoWorkers : List ReqEvent :=
  [.start 0 [⟨0, 5000, 0⟩, ⟨1, 0, 0⟩], .start 1 [⟨0, 5000, 0⟩, ⟨1, 0, 0⟩],
    .turn 0 5 (.value (ascii "k")) (true, true) true,
      .turn 1 6 (.value (ascii "k")) (true, true) true,
    .turn 0 7 (.value (ascii "l")) (true, true) true, .turn 0 8 (.value []) (true, true) true,
    .turn 0 9 (.value []) (true, true) true]

theorem limitReq_balanced_twoWorkers :
    (reqRun (fun _ => 1000) (reqInit 2) twoWorkers).zones 0 = [⟨ascii "k", 8, 992, 1⟩] ∧
      ∀ z, ∀ lr ∈ (reqRun (fun _ => 1000) (reqInit 2) twoWorkers).zones z,
        lr.count = (reqRun (fun _ => 1000) (reqInit 2) twoWorkers).reservers z lr.key := by
  have hsucceeds : ∀ event ∈ twoWorkers, event.Succeeds := by
    simp [twoWorkers, ReqEvent.Succeeds]
  have hconf : ∀ event ∈ twoWorkers, Configured event := by
    simp [twoWorkers, Configured]
  exact ⟨by decide,
    (limitReq_balanced (fun _ => 1000) 2 twoWorkers hconf
    (runUndisturbed_of_succeeds _ hsucceeds _)).1⟩

/-- The key of the second limit fails after the first one has been looked up. -/
def secondKeyFails : List ReqEvent :=
  [.start 0 [⟨0, 0, 0⟩, ⟨1, 0, 0⟩], .turn 0 5 (.value (ascii "k")) (true, true) true,
    .turn 0 5 .failed (true, true) true]

/-- The handler has returned, and `ctx->node` still points to the node, which stays counted. -/
theorem limitReq_secondKeyFails :
    (∀ event ∈ secondKeyFails, Configured event) ∧
      ((reqRun (fun _ => 1000) (reqInit 1) secondKeyFails).workers[0]?.map fun w =>
        (w.job, w.node 0, w.returned.map Returned.rc)) =
          some (none, some (ascii "k"), [.internalError]) ∧
      (reqRun (fun _ => 1000) (reqInit 1) secondKeyFails).zones 0 = [⟨ascii "k", 0, 0, 1⟩] :=
  ⟨by simp [secondKeyFails, Configured], by decide, by decide⟩

end Nginx.Http.Limit
