/-
  Http/Limit/LimitReq.lean --- one zone of the request limit, and the handler of requests
  with several limits (`src/http/modules/ngx_http_limit_req_module.c`).

  A zone is the list of its nodes in the order of its queue, the node that was looked up
  last first.  The tree of the zone has the same nodes, and no two of one key, so that
  the key of a node stands for its address.  Whether the slab pool has memory is said by
  the two results of its allocator.  Workers run `ngx_http_limit_req_handler` at the
  same time, and each turn of a loop of the handler holds the lock of one zone;
  `ctx->node` is the worker's own.  With a request go what it has looked up and not
  accounted for or released, and whether it has changed any node: these two are not in
  the source.
-/
import Mathlib.Data.List.Nodup
import Mathlib.Logic.Function.Basic
import Nginx.Core.Base

set_option autoImplicit false

namespace Nginx.Http.Limit

open List Foundation Function
open Nginx.Core

/-! ## Numbers -/

/-- A word as a signed number. -/
def signed (n : Nat) : Int := if n < 2 ^ 63 then n else (n : Int) - wordRange

/-- The product of two words. -/
def mulWord (a b : Nat) : Nat := a * b % wordRange

theorem signed_of_lt {n : Nat} (h : n < 2 ^ 63) : signed n = n := if_pos h

theorem mulWord_of_lt {a b : Nat} (h : a * b < 2 ^ 63) : mulWord a b = a * b :=
  Nat.mod_eq_of_lt (by rw [wordRange]; omega)

theorem signed_subWord {a b : Nat} (ha : a < 2 ^ 63) (hb : b < 2 ^ 63) :
    signed (subWord a b) = (a : Int) - b := by
  unfold signed subWord wordRange
  split <;> omega

theorem addWord_subWord {a b c : Nat} (hle : b ≤ a + c) (hlt : a + c - b < wordRange) :
    addWord (subWord a b) c = a + c - b := by
  unfold addWord subWord
  unfold wordRange at *
  omega

/-! ## Nodes -/

/-- `ngx_http_limit_req_node_t` -/
structure ReqNode where
  key : Bytes
  last : Nat
  /-- 1 corresponds to 0.001 requests -/
  excess : Nat
  count : Nat
  deriving DecidableEq

/-- The milliseconds since `last`, as far as the clock can be believed. -/
def elapsed (now last : Nat) : Int :=
  let ms := signed (subWord now last)
  if ms < -60000 then 1
  else if ms < 0 then 0
  else ms

/-- What a node loses in `ms` milliseconds. -/
def leak (rate : Nat) (ms : Int) : Nat := mulWord rate ms.toNat / 1000

/-- The excess of a node with one more request. -/
def ReqNode.excessWith (rate : Nat) (ms : Int) (lr : ReqNode) : Nat :=
  let excess := signed (addWord (subWord lr.excess (leak rate ms)) 1000)
  if excess < 0 then 0 else excess.toNat

/-- `last` is only set when the clock has moved. -/
def ReqNode.lastAt (now : Nat) (ms : Int) (lr : ReqNode) : Nat := if ms ≠ 0 then now else lr.last

/-! ## Expiry -/

/-- A node that was taken away, and whether by force. -/
structure Removal where
  node : ReqNode
  forced : Bool
  deriving DecidableEq

/-- A node that was not used for a minute, and whose excess has leaked away. -/
def ReqNode.idle (rate now : Nat) (lr : ReqNode) : Bool :=
  let ms := signed (subWord now lr.last)
  let ms := if ms ≥ 0 then ms else -ms
  if ms < 60000 then false
  else signed (subWord lr.excess (leak rate ms)) ≤ 0

/-- The loop of `ngx_http_limit_req_expire`, with `3 - n` turns left. -/
def expireLoop (rate now : Nat) : Nat → List ReqNode → List ReqNode × List Removal
  | 0, queue => (queue, [])
  | left + 1, queue =>
    match queue.getLast? with
    | none => (queue, [])
    | some lr =>
      if lr.count ≠ 0 then (queue, [])
      -- `n == 0` does not ask whether the node is still in use
      else if left + 1 ≠ 3 ∧ lr.idle rate now = false then (queue, [])
      else
        let (queue, removed) := expireLoop rate now left queue.dropLast
        (queue, ⟨lr, left + 1 = 3⟩ :: removed)

/-- `ngx_http_limit_req_expire` -/
def expire (rate now n : Nat) (queue : List ReqNode) : List ReqNode × List Removal :=
  expireLoop rate now (3 - n) queue

/-! ## Looking up -/

/-- What `ngx_http_limit_req_lookup` does. -/
structure LookupResult where
  rc : Rc
  /-- `*ep` -/
  excess : Nat
  queue : List ReqNode
  /-- what is assigned to `ctx->node` -/
  node : Option Bytes
  removed : List Removal
  deriving DecidableEq

/-- A new node is put at the head of the queue. -/
def insertNode (now : Nat) (key : Bytes) (account : Bool) (queue : List ReqNode)
    (removed : List Removal) :
    LookupResult :=
  if account then ⟨.ok, 0, ⟨key, now, 0, 0⟩ :: queue, none, removed⟩
  else ⟨.again, 0, ⟨key, 0, 0, 1⟩ :: queue, some key, removed⟩

/-- `ngx_http_limit_req_lookup` -/
def lookup (rate burst now : Nat) (alloc : Bool × Bool) (key : Bytes)
    (account : Bool) (queue : List ReqNode) :
    LookupResult :=
  match queue.find? (·.key = key) with
  | some lr =>
    let rest := queue.eraseP (·.key = key)
    let ms := elapsed now lr.last
    let excess := lr.excessWith rate ms
    if excess > burst then ⟨.busy, excess, lr :: rest, none, []⟩
    else if account
      then ⟨.ok, excess, { lr with excess := excess, last := lr.lastAt now ms } :: rest, none, []⟩
    else ⟨.again, excess, { lr with count := lr.count + 1 } :: rest, some key, []⟩
  | none =>
    let (queue, removed) := expire rate now 1 queue
    if alloc.1 then insertNode now key account queue removed
    else
      let (queue, more) := expire rate now 0 queue
      if alloc.2 then insertNode now key account queue (removed ++ more)
      else ⟨.error, 0, queue, none, removed ++ more⟩

/-! ## What expiry takes away -/

variable {rate burst now : Nat} {queue : List ReqNode} {key : Bytes}

/-- The nodes go from the end of the queue; none of them is counted, and one that is not forced
out is idle. -/
structure Expires (rate now : Nat) (queue after : List ReqNode) (removed : List Removal) :
    Prop where
  split : queue = after ++ (removed.map Removal.node).reverse
  count : ∀ x ∈ removed, x.node.count = 0
  idle : ∀ x ∈ removed, x.forced = false → x.node.idle rate now = true

namespace Expires

variable {after later : List ReqNode} {removed more : List Removal}

theorem refl (queue : List ReqNode) : Expires rate now queue queue [] where
  split := (append_nil queue).symm
  count := fun _ hx => absurd hx not_mem_nil
  idle := fun _ hx => absurd hx not_mem_nil

theorem trans (h : Expires rate now queue after removed)
    (hmore : Expires rate now after later more) :
    Expires rate now queue later (removed ++ more) where
  split := by rw [map_append, reverse_append, ← append_assoc, ← hmore.split, ← h.split]
  count := fun x hx => (mem_append.mp hx).elim (h.count x) (hmore.count x)
  idle := fun x hx => (mem_append.mp hx).elim (h.idle x) (hmore.idle x)

theorem cons {lr : ReqNode} {forced : Bool} (hlast : queue.getLast? = some lr)
    (hcount : lr.count = 0)
    (hidle : forced = false → lr.idle rate now = true)
    (h : Expires rate now queue.dropLast after removed) :
    Expires rate now queue after (⟨lr, forced⟩ :: removed) where
  split := by
    obtain ⟨init, rfl⟩ := getLast?_eq_some_iff.mp hlast
    have hinit := h.split
    rw [dropLast_concat] at hinit
    rw [map_cons, reverse_cons, ← append_assoc, ← hinit]
  count := fun x hx => by
    rcases mem_cons.mp hx with rfl | hx
    · exact hcount
    · exact h.count x hx
  idle := fun x hx => by
    rcases mem_cons.mp hx with rfl | hx
    · exact hidle
    · exact h.idle x hx

end Expires

theorem expireLoop_spec (left : Nat) (queue : List ReqNode) :
    Expires rate now queue (expireLoop rate now left queue).1
      (expireLoop rate now left queue).2 := by
  induction left generalizing queue with
  | zero => exact .refl queue
  | succ left ih =>
    unfold expireLoop
    split
    next => exact .refl queue
    next lr hlast =>
      split
      next => exact .refl queue
      next hcount =>
        split
        next => exact .refl queue
        next hidle =>
          refine .cons hlast (not_not.mp hcount) (fun hforced => ?_) (ih queue.dropLast)
          by_contra hbusy
          exact hidle ⟨of_decide_eq_false hforced, eq_false_of_ne_true hbusy⟩

theorem expire_spec (n : Nat) (queue : List ReqNode) :
    Expires rate now queue (expire rate now n queue).1 (expire rate now n queue).2 :=
  expireLoop_spec (3 - n) queue

/-! ## What looking up does -/

/-- The two ways of a lookup: the node is found and moves to the head of the queue, or nodes expire
and there may be a new one. -/
theorem lookup_spec (alloc : Bool × Bool) (key : Bytes) (account : Bool) :
    (∃ lr, queue.find? (·.key = key) = some lr ∧ lr.key = key ∧
        let excess := lr.excessWith rate (elapsed now lr.last)
        let rest := queue.eraseP (·.key = key)
        lookup rate burst now alloc key account queue =
          if excess > burst then ⟨.busy, excess, lr :: rest, none, []⟩
          else if account then
            ⟨.ok, excess,
              { lr with excess := excess, last := lr.lastAt now (elapsed now lr.last) } :: rest,
              none, []⟩
          else ⟨.again, excess, { lr with count := lr.count + 1 } :: rest, some key, []⟩) ∨
      (∀ lr ∈ queue, lr.key ≠ key) ∧ ∃ after removed, Expires rate now queue after removed ∧
        (lookup rate burst now alloc key account queue = insertNode now key account after removed ∨
          lookup rate burst now alloc key account queue = ⟨.error, 0, after, none, removed⟩) := by
  rcases hfind : queue.find? (·.key = key) with _ | lr
  · right
    rw [find?_eq_none] at hfind
    refine ⟨fun lr hlr hkey => hfind lr hlr (decide_eq_true hkey), ?_⟩
    have hfirst := @expire_spec rate now 1 queue
    rcases hexpire : expire rate now 1 queue with ⟨after, removed⟩
    rw [hexpire] at hfirst
    have hsecond := @expire_spec rate now 0 after
    rcases hforce : expire rate now 0 after with ⟨later, more⟩
    rw [hforce] at hsecond
    have hnone : queue.find? (·.key = key) = none := find?_eq_none.mpr hfind
    unfold lookup
    simp only [hnone, hexpire, hforce]
    split
    · exact ⟨after, removed, hfirst, .inl rfl⟩
    · split
      · exact ⟨later, removed ++ more, hfirst.trans hsecond, .inl rfl⟩
      · exact ⟨later, removed ++ more, hfirst.trans hsecond, .inr rfl⟩
  · left
    have hkey := find?_some hfind
    refine ⟨lr, hfind, of_decide_eq_true hkey, ?_⟩
    unfold lookup
    simp only [hfind]

/-! ## The nodes by their keys -/

/-- No two nodes of one key. -/
def Keyed (queue : List ReqNode) : Prop := (queue.map ReqNode.key).Nodup

variable {lr : ReqNode}

theorem find_iff (h : Keyed queue) :
    queue.find? (·.key = key) = some lr ↔ lr ∈ queue ∧ lr.key = key := by
  constructor
  · intro hfind
    have hkey := find?_some hfind
    exact ⟨mem_of_find?_eq_some hfind, of_decide_eq_true hkey⟩
  rintro ⟨hmem, hkey⟩
  obtain ⟨x, hx⟩ : ∃ x, queue.find? (·.key = key) = some x :=
    Option.isSome_iff_exists.mp (find?_isSome.mpr ⟨lr, hmem, decide_eq_true hkey⟩)
  have hxkey := find?_some hx
  rw [hx, inj_on_of_nodup_map h (mem_of_find?_eq_some hx) hmem
    ((of_decide_eq_true hxkey).trans hkey.symm)]

theorem perm_found (hfind : queue.find? (·.key = key) = some lr) :
    List.Perm (lr :: queue.eraseP (·.key = key)) queue := by
  obtain ⟨hkey, before, after, rfl, hbefore⟩ := find?_eq_some_iff_append.mp hfind
  have herase : (lr :: after).eraseP (fun x => decide (x.key = key)) = after :=
    eraseP_cons_of_pos hkey
  rw [eraseP_append_right _ (fun x hx => by simpa using hbefore x hx), herase]
  exact perm_middle.symm

theorem Keyed.perm {other : List ReqNode} (h : Keyed queue) (hperm : List.Perm other queue) :
    Keyed other :=
  (hperm.map ReqNode.key).nodup_iff.mpr h

theorem Keyed.replace (h : Keyed queue) (hfind : queue.find? (·.key = key) = some lr)
    {lr' : ReqNode} (hkey : lr'.key = lr.key) : Keyed (lr' :: queue.eraseP (·.key = key)) := by
  have hkeyed := h.perm (perm_found hfind)
  unfold Keyed at hkeyed ⊢
  rwa [map_cons, hkey, ← map_cons]

theorem Expires.subset {after : List ReqNode} {removed : List Removal}
    (h : Expires rate now queue after removed)
    {x : ReqNode} (hx : x ∈ after) : x ∈ queue := by
  rw [h.split]
  exact mem_append_left _ hx

theorem Expires.keyed {after : List ReqNode} {removed : List Removal}
    (h : Expires rate now queue after removed)
    (hkeyed : Keyed queue) : Keyed after := by
  rw [h.split] at hkeyed
  unfold Keyed at hkeyed ⊢
  rw [map_append] at hkeyed
  exact (nodup_append.mp hkeyed).1

theorem Keyed.insert (h : Keyed queue) (hnew : ∀ x ∈ queue, x.key ≠ lr.key) :
    Keyed (lr :: queue) := by
  unfold Keyed at h ⊢
  rw [map_cons, nodup_cons]
  refine ⟨fun hmem => ?_, h⟩
  obtain ⟨x, hx, heq⟩ := mem_map.mp hmem
  exact hnew x hx heq

/-! ## Requests -/

/-- `ngx_http_limit_req_limit_t`; the zone stands for `shm_zone`. -/
structure ReqLimit where
  zone : Nat
  burst : Nat
  delay : Nat
  deriving DecidableEq

/-- What `ngx_http_complex_value` returns. -/
inductive KeyValue where
  | failed
  | value (key : Bytes)
  deriving DecidableEq

/-- What the handler returns. -/
inductive HandlerRc where
  /-- `NGX_DECLINED`: the request goes on -/
  | declined
  /-- `NGX_AGAIN`: it goes on after a delay -/
  | again
  /-- `lrcf->status_code` -/
  | refused
  /-- `NGX_HTTP_INTERNAL_SERVER_ERROR` -/
  | internalError
  deriving DecidableEq

/-- The loop a request is in, with the variables of the handler. -/
inductive ReqPhase where
  | lookups (n : Nat) (rc : Rc)
  | releasing (n : Nat)
  | accounting (n maxDelay : Nat)
  deriving DecidableEq

/-- A request in the handler. -/
structure ReqJob where
  limits : List ReqLimit
  phase : ReqPhase
  /-- what it has looked up with `account` 0, and not accounted for or released -/
  reserved : List (Nat × Bytes)
  /-- it has changed the `excess` or the `last` of a node -/
  charged : Bool
  deriving DecidableEq

/-- A request that the handler has returned for. -/
structure Returned where
  rc : HandlerRc
  reserved : List (Nat × Bytes)
  charged : Bool
  deriving DecidableEq

/-- A worker. -/
structure ReqWorker where
  /-- `ctx->node` of each zone -/
  node : Nat → Option Bytes
  job : Option ReqJob
  returned : List Returned

/-- The zones, and the workers. -/
structure ReqState where
  zones : Nat → List ReqNode
  workers : List ReqWorker

/-- A node of the same key has another `excess` or `last` than before. -/
def changes (before after : List ReqNode) : Bool :=
  before.any fun a => after.any fun b => a.key = b.key ∧ (a.excess ≠ b.excess ∨ a.last ≠ b.last)

/-- A change of the node that `ctx->node` points to. -/
def setNode (key : Bytes) (f : ReqNode → ReqNode) (queue : List ReqNode) : List ReqNode :=
  queue.map fun lr => if lr.key = key then f lr else lr

/-- The node after it is released. -/
def ReqNode.release (lr : ReqNode) : ReqNode := { lr with count := lr.count - 1 }

/-- The node after `ngx_http_limit_req_account`. -/
def ReqNode.account (rate now : Nat) (lr : ReqNode) : ReqNode :=
  let ms := elapsed now lr.last
  { lr with excess := lr.excessWith rate ms, last := lr.lastAt now ms, count := lr.count - 1 }

/-- How long a request with this excess is delayed. -/
def delayOf (rate delay excess : Nat) : Nat :=
  if excess ≤ delay then 0 else mulWord (subWord excess delay) 1000 / rate

/-! ## The handler -/

/-- The handler is called. -/
def ReqWorker.enter (w : ReqWorker) (limits : List ReqLimit) : ReqWorker :=
  { w with job := some ⟨limits, .lookups 0 .declined, [], false⟩ }

/-- The handler returns. -/
def ReqWorker.ret (w : ReqWorker) (job : ReqJob) (rc : HandlerRc) : ReqWorker :=
  { w with job := none, returned := ⟨rc, job.reserved, job.charged⟩ :: w.returned }

/-- The worker goes on with its request. -/
def ReqWorker.goOn (w : ReqWorker) (job : ReqJob) (phase : ReqPhase) : ReqWorker :=
  { w with job := some { job with phase := phase } }

/-- The handler after its loop of lookups. -/
def ReqWorker.afterLookups (w : ReqWorker) (job : ReqJob) (n : Nat) (rc : Rc) (maxDelay : Nat) :
    ReqWorker :=
  if rc = .declined then w.ret job .declined
  else if rc = .busy ∨ rc = .error then w.goOn job (.releasing n)
  else w.goOn job (.accounting n maxDelay)

/-- The zones and the worker after a turn. -/
abbrev TurnResult : Type := (Nat → List ReqNode) × ReqWorker

/-- A turn of the loop of lookups for a key. -/
def lookupTurn (rate : Nat → Nat) (now : Nat) (alloc : Bool × Bool)
    (zones : Nat → List ReqNode) (w : ReqWorker)
    (job : ReqJob) (n : Nat) (limit : ReqLimit) (key : Bytes) : TurnResult :=
  let queue := zones limit.zone
  let r := lookup (rate limit.zone) limit.burst now alloc key (n = job.limits.length - 1) queue
  let zones := update zones limit.zone r.queue
  let job := { job with charged := job.charged || changes queue r.queue }
  if r.rc = .again then
    let w := { w with node := update w.node limit.zone r.node }
    (zones, w.goOn
      { job with reserved := (limit.zone, key) :: job.reserved } (.lookups (n + 1) r.rc))
  else (zones, w.afterLookups job n r.rc (delayOf (rate limit.zone) limit.delay r.excess))

/-- A turn of the loop that releases the nodes. -/
def releaseTurn (zones : Nat → List ReqNode) (w : ReqWorker) (job : ReqJob)
    (n : Nat) (limit : ReqLimit) :
    TurnResult :=
  match w.node limit.zone with
  | none => (zones, w.goOn job (.releasing n))
  | some key =>
    let queue := zones limit.zone
    let after := setNode key ReqNode.release queue
    let job := { job with
      reserved := job.reserved.filter fun x => x.1 ≠ limit.zone
      charged := job.charged || changes queue after }
    (update zones limit.zone after,
      ReqWorker.goOn { w with node := update w.node limit.zone none } job (.releasing n))

/-- A turn of the loop of `ngx_http_limit_req_account`. -/
def accountTurn (rate : Nat → Nat) (now : Nat) (zones : Nat → List ReqNode)
    (w : ReqWorker) (job : ReqJob)
    (n maxDelay : Nat) (limit : ReqLimit) : TurnResult :=
  match w.node limit.zone with
  | none => (zones, w.goOn job (.accounting n maxDelay))
  | some key =>
    let queue := zones limit.zone
    let after := setNode key (ReqNode.account (rate limit.zone) now) queue
    let excess := ((after.find? (·.key = key)).map ReqNode.excess).getD 0
    let job := { job with
      reserved := job.reserved.filter fun x => x.1 ≠ limit.zone
      charged := job.charged || changes queue after }
    (update zones limit.zone after,
      ReqWorker.goOn { w with node := update w.node limit.zone none } job
        (.accounting n (max maxDelay (delayOf (rate limit.zone) limit.delay excess))))

/-- One turn of the loop that the handler is in: `key` is what the key of the limit evaluates to,
and `readEvent` whether `ngx_handle_read_event` succeeds. -/
def turn (rate : Nat → Nat) (now : Nat) (key : KeyValue) (alloc : Bool × Bool) (readEvent : Bool)
    (zones : Nat → List ReqNode) (w : ReqWorker) (job : ReqJob) : TurnResult :=
  match job.phase with
  | .lookups n rc =>
    match job.limits[n]? with
    | none => (zones, w.afterLookups job n rc 0)
    | some limit =>
      match key with
      | .failed => (zones, w.ret job .internalError)
      | .value key =>
        if key.length = 0 ∨ key.length > 65535 then (zones, w.goOn job (.lookups (n + 1) rc))
        else lookupTurn rate now alloc zones w job n limit key
  | .releasing 0 => (zones, w.ret job .refused)
  | .releasing (n + 1) =>
    match job.limits[n]? with
    | none => (zones, w.goOn job (.releasing n))
    | some limit => releaseTurn zones w job n limit
  | .accounting 0 maxDelay =>
    (zones, w.ret job
      (if maxDelay = 0 then .declined else if readEvent then .again else .internalError))
  | .accounting (n + 1) maxDelay =>
    match job.limits[n]? with
    | none => (zones, w.goOn job (.accounting n maxDelay))
    | some limit => accountTurn rate now zones w job n maxDelay limit

/-- What happens. -/
inductive ReqEvent where
  /-- a worker enters the handler -/
  | start (w : Nat) (limits : List ReqLimit)
  /-- it takes one turn of a loop -/
  | turn (w now : Nat) (key : KeyValue) (alloc : Bool × Bool) (readEvent : Bool)
  deriving DecidableEq

/-- One step; a step that the worker cannot make changes nothing. -/
def reqStep (rate : Nat → Nat) (s : ReqState) : ReqEvent → ReqState
  | .start i limits =>
    match s.workers[i]? with
    | none => s
    | some w =>
      match w.job with
      | none => { s with workers := s.workers.set i (w.enter limits) }
      | some _ => s
  | .turn i now key alloc readEvent =>
    match s.workers[i]? with
    | none => s
    | some w =>
      match w.job with
      | none => s
      | some job =>
        let result := turn rate now key alloc readEvent s.zones w job
        ⟨result.1, s.workers.set i result.2⟩

/-- Steps one after another. -/
def reqRun (rate : Nat → Nat) (s : ReqState) (events : List ReqEvent) :
    ReqState := events.foldl (reqStep rate) s

/-- The zones are empty, and `workers` workers wait for requests. -/
def reqInit (workers : Nat) :
    ReqState := ⟨fun _ => [], List.replicate workers ⟨fun _ => none, none, []⟩⟩

end Nginx.Http.Limit
