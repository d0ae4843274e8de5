/-
  Http/Cache/MinUses.lean --- the nodes of a cache, and when a key has been asked for often
  enough (`ngx_http_file_cache_exists` and `ngx_http_file_cache_free` in
  `src/http/ngx_http_file_cache.c`).

  The tree is what it finds for each key, and the queue is the keys in it.  A request that
  has a node already finds the same one again.
-/
import Mathlib.Logic.Function.Basic
import Nginx.Core.Base

set_option autoImplicit false

namespace Nginx.Http.Cache

open List Option Function

open Nginx.Core (Rc)

/-! ## Nodes -/

/-- `ngx_http_file_cache_node_t`; `file` is `exists`. -/
structure CacheNode where
  /-- a field of 20 bits -/
  count : Nat
  /-- a field of 10 bits -/
  uses : Nat
  validMsec : Nat := 0
  error : Nat := 0
  file : Bool := false
  uniq : Nat := 0
  expire : Int := 0
  validSec : Int := 0
  bodyStart : Nat := 0
  fsSize : Nat := 0
  deriving DecidableEq

/-- `ngx_http_file_cache_t`; `count` is `sh->count`. -/
structure FileCache (κ : Type) where
  nodes : κ → Option CacheNode
  queue : List κ
  count : Nat
  inactive : Int

/-- What is read and written of `ngx_http_cache_t`; `node` is whether it has one, and `file` is
`exists`. -/
structure CacheCtx (κ : Type) where
  key : κ
  minUses : Nat
  node : Bool := false
  file : Bool := false
  bodyStart : Nat := 0
  uniq : Nat := 0
  error : Nat := 0

namespace CacheNode

/-- `fcn->uses++` and `fcn->count++` -/
def use (fcn : CacheNode) :
    CacheNode := { fcn with uses := (fcn.uses + 1) % 2 ^ 10, count := (fcn.count + 1) % 2 ^ 20 }

/-- `renew:` -/
def renew (fcn : CacheNode) : CacheNode :=
  { fcn with
    validMsec := 0, error := 0, file := false, validSec := 0, uniq := 0, bodyStart := 0
    fsSize := 0 }

end CacheNode

variable {κ : Type} [DecidableEq κ]

/-- `done:` -/
def FileCache.done (cache : FileCache κ) (now : Int) (c : CacheCtx κ) (rc : Rc) (fcn : CacheNode) :
    Rc × FileCache κ × CacheCtx κ :=
  let fcn := { fcn with expire := now + cache.inactive }
  (rc, { cache with nodes := update cache.nodes c.key (some fcn), queue := c.key :: cache.queue },
    { c with uniq := fcn.uniq, error := fcn.error, node := true })

/-- `ngx_http_file_cache_exists`; `memory` is whether there is any for a node, at the second try at
the latest. -/
def FileCache.exists' (cache : FileCache κ) (now : Int) (memory : Bool) (c : CacheCtx κ) :
    Rc × FileCache κ × CacheCtx κ :=
  match cache.nodes c.key with
  | some fcn =>
    let cache := { cache with queue := cache.queue.erase c.key }
    let fcn := if c.node then fcn else fcn.use
    if fcn.error ≠ 0 then
      if fcn.validSec < now then cache.done now c .declined fcn.renew
      else cache.done now c .ok fcn
    else if fcn.file ∨ c.minUses ≤ fcn.uses then
      let c := { c with file := fcn.file, bodyStart := if fcn.bodyStart ≠
        0 then fcn.bodyStart else c.bodyStart }
      cache.done now c .ok fcn
    else cache.done now c .again fcn
  | none =>
    if memory then
      { cache with count := cache.count + 1 }.done now c .declined
        (CacheNode.renew { count := 1, uses := 1 })
    else (.error, cache, c)

/-- `ngx_http_file_cache_free` of a request with a node, that has no error, and that does not
update: `none` where the node is removed. -/
def FileCache.free (cache : FileCache κ) (c : CacheCtx κ) : Option (FileCache κ) :=
  (cache.nodes c.key).bind fun fcn =>
    let fcn := { fcn with count := (fcn.count + (2 ^ 20 - 1)) % 2 ^ 20 }
    if fcn.file = false ∧ fcn.count = 0 ∧ c.minUses = 1 then none
    else some { cache with nodes := update cache.nodes c.key (some fcn) }

/-! ## Histories -/

/-- What happens to a key. -/
inductive CacheEvent where
  /-- a request asks for it -/
  | request (now : Int)
  /-- a request that has the node asks again -/
  | again (now : Int)
  /-- a request ends -/
  | leave
  deriving DecidableEq

/-- It is a new request. -/
def CacheEvent.isRequest : CacheEvent → Bool
  | request _ => true
  | _ => false

/-- What is reported of a key at an event. -/
def report (minUses : Nat) (key : κ) (cache : FileCache κ) : CacheEvent → Option Rc
  | .request now => some (cache.exists' now true { key := key, minUses := minUses }).1
  | .again now => some (cache.exists' now true { key := key, minUses := minUses, node := true }).1
  | .leave => none

/-- An event of a key with a node that is not removed. -/
def step (minUses : Nat) (key : κ) (cache : FileCache κ) : CacheEvent → Option (FileCache κ)
  | .request now => some (cache.exists' now true { key := key, minUses := minUses }).2.1
  | .again now =>
    (cache.nodes key).map fun _ =>
      (cache.exists' now true { key := key, minUses := minUses, node := true }).2.1
  | .leave => cache.free { key := key, minUses := minUses, node := true }

/-- How many requests there were. -/
def requests (events : List CacheEvent) : Nat := events.countP CacheEvent.isRequest

/-- The response may be stored: `rc == NGX_OK`, or `NGX_DECLINED` without a `c->min_uses > 1`. -/
def Eligible (minUses : Nat) (rc : Rc) : Prop := rc = .ok ∨ rc = .declined ∧ minUses ≤ 1

/-- All that is reported is eligible from request number `minUses` on and not before. -/
def FromMinUses (minUses : Nat) (key : κ) (cache : FileCache κ) (events : List CacheEvent) : Prop :=
  ∀ init event rest, events = init ++ event :: rest →
    ∀ here, init.foldlM (step minUses key) cache = some here →
      ∀ rc, report minUses key here event = some rc →
        (Eligible minUses rc ↔ minUses ≤ requests (init ++ [event]))

/-! ## What is counted -/

/-- The node of a key that was asked for so many times. -/
def Counted (key : κ) (cache : FileCache κ) (n : Nat) : Prop :=
  match cache.nodes key with
  | none => n = 0
  | some fcn => fcn.error = 0 ∧ fcn.file = false ∧ fcn.uses = n % 2 ^ 10 ∧ 0 < n

variable {minUses n : Nat} {key : κ} {cache next : FileCache κ}

omit [DecidableEq κ] in
theorem Counted.none (h : cache.nodes key = none) : Counted key cache 0 := by
  rw [Counted, h]

theorem counted_done {c : CacheCtx κ} {now : Int} {rc : Rc} {fcn : CacheNode}
    (herror : fcn.error = 0) (hfile : fcn.file = false)
    (huses : fcn.uses = n % 2 ^ 10) (hn : 0 < n) :
    Counted c.key (cache.done now c rc fcn).2.1 n := by
  have hnode : (cache.done now c rc fcn).2.1.nodes c.key = some
    { fcn with expire := now + cache.inactive } :=
    update_self ..
  rw [Counted, hnode]
  exact ⟨herror, hfile, huses, hn⟩

theorem exists_of_node {c : CacheCtx κ} {now : Int} {memory : Bool}
    {fcn : CacheNode} (hnode : cache.nodes c.key = some fcn)
    (herror : fcn.error = 0) (hfile : fcn.file = false)
    (huses : (if c.node then fcn else fcn.use).uses = n % 2 ^ 10)
    (hn : 0 < n) :
    Counted c.key (cache.exists' now memory c).2.1 n ∧
      (cache.exists' now memory c).1 = if c.minUses ≤ n % 2 ^ 10 then .ok else .again := by
  have hkept : (if c.node then fcn else fcn.use).error = 0 ∧
    (if c.node then fcn else fcn.use).file = false := by
    split <;> exact ⟨herror, hfile⟩
  simp only [FileCache.exists', hnode, hkept.1, hkept.2, huses, ne_eq,
    not_true_eq_false, if_false, Bool.false_eq_true, false_or]
  split
  next => exact ⟨@counted_done κ _ n _ { c with .. } now .ok _ hkept.1 hkept.2 huses hn, rfl⟩
  next => exact ⟨counted_done hkept.1 hkept.2 huses hn, rfl⟩

theorem exists_request (h : Counted key cache n) (now : Int) :
    Counted key (cache.exists' now true { key := key, minUses := minUses }).2.1 (n + 1) ∧
      (cache.exists' now true { key := key, minUses := minUses }).1 =
        if n = 0 then .declined else if minUses ≤ (n + 1) % 2 ^ 10 then .ok else .again := by
  rcases hnode : cache.nodes key with _ | fcn
  · rw [Counted, hnode] at h
    subst h
    simp only [FileCache.exists', hnode]
    exact ⟨@counted_done κ _ 1 _
      { key := key, minUses := minUses } now .declined _ rfl rfl rfl one_pos, rfl⟩
  · rw [Counted, hnode] at h
    obtain ⟨herror, hfile, huses, hn⟩ := h
    rw [if_neg hn.ne']
    refine @exists_of_node κ _ (n + 1) cache
      { key := key, minUses := minUses } now true fcn hnode herror hfile ?_ n.succ_pos
    change (fcn.uses + 1) % 2 ^ 10 = _
    rw [huses, Nat.mod_add_mod]

theorem exists_again (h : Counted key cache n) (hn : 0 < n) (now : Int) :
    Counted key (cache.exists' now true { key := key, minUses := minUses, node := true }).2.1 n ∧
      (cache.exists' now true { key := key, minUses := minUses, node := true }).1 =
        if minUses ≤ n % 2 ^ 10 then .ok else .again := by
  rcases hnode : cache.nodes key with _ | fcn
  · rw [Counted, hnode] at h
    exact absurd h hn.ne'
  · rw [Counted, hnode] at h
    obtain ⟨herror, hfile, huses, -⟩ := h
    exact @exists_of_node κ _ n cache
      { key := key, minUses := minUses, node := true } now true fcn hnode herror hfile huses hn

theorem Counted.free (h : Counted key cache n)
    (hfree : cache.free { key := key, minUses := minUses, node := true } = some next) :
    Counted key next n := by
  rcases hnode : cache.nodes key with _ | fcn
  · rw [FileCache.free, hnode] at hfree
    cases hfree
  rw [Counted, hnode] at h
  rw [FileCache.free, hnode, bind_some] at hfree
  dsimp only at hfree
  split at hfree
  next => cases hfree
  next =>
    cases hfree
    simp only [Counted, update_self]
    exact h

theorem requests_append (events more : List CacheEvent) :
    requests (events ++ more) = requests events + requests more :=
  countP_append

theorem Counted.step {event : CacheEvent} (h : Counted key cache n)
    (hstep : step minUses key cache event = some next) :
    Counted key next (n + requests [event]) := by
  cases event with
  | request now =>
    obtain rfl := some.inj hstep
    exact (exists_request h now).1
  | again now =>
    obtain ⟨fcn, hnode, rfl⟩ := map_eq_some_iff.mp hstep
    have hn : 0 < n := by
      rw [Counted, hnode] at h
      exact h.2.2.2
    exact (exists_again h hn now).1
  | leave => exact h.free hstep

theorem counted_run {events : List CacheEvent} (h : Counted key cache n)
    (hrun : events.foldlM (step minUses key) cache = some next) :
    Counted key next (n + requests events) := by
  induction events generalizing cache n with
  | nil =>
    obtain rfl := some.inj hrun
    exact h
  | cons event events ih =>
    obtain ⟨mid, hstep, hrest⟩ := bind_eq_some_iff.mp hrun
    have hmid := ih (h.step hstep) hrest
    rwa [add_assoc, ← requests_append] at hmid

theorem report_of_counted {event : CacheEvent} {rc : Rc} (h : Counted key cache n)
    (hreport : report minUses key cache event = some rc)
    (hpossible : (step minUses key cache event).isSome) :
    rc = if n + requests [event] = 1 ∧ event.isRequest then .declined
      else if minUses ≤ (n + requests [event]) % 2 ^ 10 then .ok else .again := by
  cases event with
  | request now =>
    obtain rfl := some.inj hreport
    rw [(exists_request h now).2]
    have hfirst : n = 0 ↔ n + 1 = 1 ∧ (CacheEvent.request now).isRequest = true :=
      ⟨fun hzero => ⟨by omega, rfl⟩, fun hboth => by omega⟩
    simp only [hfirst]
    rfl
  | again now =>
    obtain rfl := some.inj hreport
    obtain ⟨next, hstep⟩ := isSome_iff_exists.mp hpossible
    obtain ⟨fcn, hnode, -⟩ := map_eq_some_iff.mp hstep
    have hn : 0 < n := by
      rw [Counted, hnode] at h
      exact h.2.2.2
    have hlater : ¬(n + requests [CacheEvent.again now] = 1 ∧
      (CacheEvent.again now).isRequest = true) :=
      fun hboth => Bool.false_ne_true hboth.2
    simp only [hlater, if_false]
    exact (exists_again h hn now).2
  | leave => cases hreport

theorem eligible_iff_of_lt {k : Nat} {first : Prop} [Decidable first] (hfirst : first → k = 1)
    (h : minUses = 0 ∨ k < max (2 ^ 10) minUses) :
    Eligible minUses (if first then .declined else if minUses ≤ k % 2 ^ 10 then .ok else .again) ↔
      minUses ≤ k := by
  by_cases hf : first
  · rw [if_pos hf, hfirst hf]
    exact ⟨fun h => (h.resolve_left Rc.noConfusion).2, fun h => .inr ⟨rfl, h⟩⟩
  have hmod : minUses ≤ k % 2 ^ 10 ↔ minUses ≤ k := by
    rcases h with rfl | h
    · exact iff_of_true (Nat.zero_le _) (Nat.zero_le _)
    · rcases lt_max_iff.mp h with hsmall | hbelow
      · rw [Nat.mod_eq_of_lt hsmall]
      · exact iff_of_false (fun hle =>
          absurd (hle.trans (Nat.mod_le ..)) (Nat.not_le_of_lt hbelow)) (Nat.not_le_of_lt hbelow)
  rw [if_neg hf]
  by_cases hle : minUses ≤ k
  · rw [if_pos (hmod.mpr hle)]
    exact iff_of_true (.inl rfl) hle
  · rw [if_neg fun h => hle (hmod.mp h)]
    exact iff_of_false (fun h => h.elim Rc.noConfusion fun h => Rc.noConfusion h.1) hle

theorem exists_request_number {events : List CacheEvent} {k : Nat} (hk : k < requests events) :
    ∃ init now rest, events = init ++ .request now :: rest ∧ requests init = k := by
  induction events generalizing k with
  | nil => exact absurd hk (Nat.not_lt_zero k)
  | cons event events ih =>
    rw [← singleton_append, requests_append] at hk
    by_cases hhere : k < requests [event]
    · cases event with
      | request now =>
        have hone : requests [CacheEvent.request now] = 1 := rfl
        exact ⟨[], now, events, rfl, by rw [requests, countP_nil]; omega⟩
      | again now => exact absurd hhere (Nat.not_lt_zero k)
      | leave => exact absurd hhere (Nat.not_lt_zero k)
    · obtain ⟨init, now, rest, rfl, hinit⟩ := @ih (k - requests [event]) (by omega)
      refine ⟨event :: init, now, rest, rfl, ?_⟩
      rw [← singleton_append, requests_append, hinit]
      omega

theorem foldlM_prefix {init rest : List CacheEvent} {event : CacheEvent}
    (hrun : ((init ++ event :: rest).foldlM (step minUses key) cache).isSome) :
    ∃ here, init.foldlM (step minUses key) cache = some here ∧
      (step minUses key here event).isSome := by
  obtain ⟨last, hlast⟩ := isSome_iff_exists.mp hrun
  rw [foldlM_append] at hlast
  obtain ⟨here, hhere, hrest⟩ := bind_eq_some_iff.mp hlast
  obtain ⟨next, hstep, -⟩ := bind_eq_some_iff.mp hrest
  exact ⟨here, hhere, isSome_iff_exists.mpr ⟨next, hstep⟩⟩

theorem not_eligible_of_wrapped {k : Nat} (hmin : minUses ≠ 0) (hk : k = max (2 ^ 10) minUses) :
    ¬Eligible minUses
      (if k = 1 ∧ True then .declined else if minUses ≤ k % 2 ^ 10 then .ok else .again) := by
  have hlarge : 2 ^ 10 ≤ k := hk ▸ le_max_left ..
  have hmod : ¬minUses ≤ k % 2 ^ 10 := by
    rcases le_total minUses (2 ^ 10) with hle | hle
    · rw [hk, max_eq_left hle, Nat.mod_self]
      omega
    · have hlt := Nat.mod_lt k (show 0 < 2 ^ 10 by decide)
      omega
  rw [if_neg (by omega), if_neg hmod]
  rintro (h | h)
  · exact Rc.noConfusion h
  · exact Rc.noConfusion h.1

/-- A key is eligible from request number `minUses` on as long as the requests fit in the ten bits
of `uses`, or are fewer than are asked for. -/
theorem fileCacheExists_minUses_iff (minUses : Nat) (key : κ) (cache : FileCache κ)
    (events : List CacheEvent)
    (hnew : cache.nodes key = none) (hkept : (events.foldlM (step minUses key) cache).isSome) :
    FromMinUses minUses key cache events ↔ minUses = 0 ∨
      requests events < max (2 ^ 10) minUses := by
  constructor
  · intro hexact
    by_contra hnot
    obtain ⟨hmin, hmany⟩ := not_or.mp hnot
    have hpos : 2 ^ 10 ≤ max (2 ^ 10) minUses := le_max_left ..
    obtain ⟨init, now, rest, rfl, hinit⟩ :=
      @exists_request_number events (max (2 ^ 10) minUses - 1) (by omega)
    obtain ⟨here, hhere, hpossible⟩ := foldlM_prefix hkept
    have hcounted := counted_run (Counted.none hnew) hhere
    rw [zero_add, hinit] at hcounted
    have hnumber : max (2 ^ 10) minUses - 1 + requests [CacheEvent.request now] =
      max (2 ^ 10) minUses := by
      have hone : requests [CacheEvent.request now] = 1 := rfl
      omega
    have hreport := report_of_counted hcounted rfl hpossible
    have hiff := hexact init (.request now) rest rfl here hhere _ rfl
    rw [hreport, hnumber, requests_append, hinit, hnumber] at hiff
    exact not_eligible_of_wrapped hmin rfl
      (by simpa [CacheEvent.isRequest] using hiff.mpr (le_max_right ..))
  · rintro hfew init event rest rfl here hhere rc hreport
    obtain ⟨here', hhere', hpossible⟩ := foldlM_prefix hkept
    obtain rfl := some.inj (hhere.symm.trans hhere')
    have hcounted := counted_run (Counted.none hnew) hhere
    rw [zero_add] at hcounted
    have hall : requests (init ++ event :: rest) =
      requests init + requests [event] + requests rest := by
      rw [← singleton_append, requests_append, requests_append, add_assoc]
    rw [report_of_counted hcounted hreport hpossible, requests_append]
    exact eligible_iff_of_lt And.left (hfew.imp_right fun hlt => by omega)

/-- A cache with nothing in it. -/
def emptyCache : FileCache Bool := ⟨fun _ => none, [], 0, 600⟩

theorem fileCacheExists_minUses_two :
    FromMinUses 2 true emptyCache [.request 0, .request 1, .leave, .request 2] :=
  (fileCacheExists_minUses_iff 2 true emptyCache
    [.request 0, .request 1, .leave, .request 2] rfl rfl).mpr (.inr (by decide))

theorem requests_replicate (k : Nat) (now : Int) :
    requests (List.replicate k (.request now)) = k := by
  rw [requests, countP_replicate]
  exact if_pos rfl

theorem run_requests {minUses : Nat} {key : κ} (k : Nat) (now : Int) (cache : FileCache κ) :
    ((List.replicate k (CacheEvent.request now)).foldlM (step minUses key) cache).isSome := by
  induction k generalizing cache with
  | zero => rfl
  | succ k ih => exact ih _

/-- Request number 1024 is not eligible where one is enough. -/
theorem fileCacheExists_wrapped :
    ¬FromMinUses 1 true emptyCache (List.replicate 1024 (.request 0)) := by
  intro hexact
  obtain ⟨here, hhere⟩ := isSome_iff_exists.mp (@run_requests Bool _ 1 true 1023 0 emptyCache)
  have hcounted := counted_run (Counted.none rfl) hhere
  rw [Nat.zero_add, requests_replicate] at hcounted
  have hreport := (@exists_request Bool _ 1 1023 true here hcounted 0).2
  have hsplit : List.replicate 1024 (CacheEvent.request 0) =
    List.replicate 1023 (.request 0) ++ .request 0 :: [] :=
    replicate_succ'
  have hiff := hexact _ _ _ hsplit here hhere _ rfl
  rw [requests_append, requests_replicate] at hiff
  rcases hiff.mpr (by decide) with h | h
  · exact Rc.noConfusion (hreport.symm.trans h)
  · exact Rc.noConfusion (hreport.symm.trans h.1)

end Nginx.Http.Cache
