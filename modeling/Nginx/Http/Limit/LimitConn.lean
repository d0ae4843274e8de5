/-
  Http/Limit/LimitConn.lean --- the limit of connections
  (`src/http/modules/ngx_http_limit_conn_module.c`), and what holds while requests are
  counted.

  Requests run `ngx_http_limit_conn_handler`, and have their pools destroyed, at the
  same time; each turn of a loop, and each cleanup, holds the lock of one zone.  The
  tree of a zone is what it finds for each key.  With a request goes where it was
  counted, which is not in the source.  The connections of a node are the tally of the
  requests that were counted in it.  What a request was counted in is what its pool has
  cleanups for, so that either the unwinding after a refusal or the destruction of the
  pool takes all of it back.
-/
import Mathlib.Data.List.Nodup
import Mathlib.Logic.Function.Basic
import Nginx.Core.Base
import Nginx.Foundation.Handles

set_option autoImplicit false

namespace Nginx.Http.Limit

open List Foundation Option Function

/-! ## Requests -/

/-- The `conn` of the node of each key, where there is a node. -/
abbrev ConnTree : Type := Bytes → Option Nat

/-- `ngx_http_limit_conn_limit_t`; the zone stands for `shm_zone`. -/
structure ConnLimit where
  zone : Nat
  conn : Nat
  deriving DecidableEq

/-- An entry of `pool->cleanup`. -/
inductive PoolCleanup where
  /-- `ngx_http_limit_conn_cleanup`, with the zone and the node -/
  | limitConn (zone : Nat) (key : Bytes)
  /-- another handler -/
  | other
  deriving DecidableEq

/-- Where a request is. -/
inductive ConnPhase where
  /-- outside of the handler -/
  | alive
  /-- in the loop of the handler -/
  | counting (limits : List ConnLimit) (i : Nat)
  /-- in `ngx_http_limit_conn_cleanup_all` -/
  | unwinding
  /-- in `ngx_destroy_pool` -/
  | destroying
  | dead
  deriving DecidableEq

/-- A request with its pool. -/
structure ConnRequest where
  phase : ConnPhase
  /-- `pool->cleanup` -/
  cleanup : List PoolCleanup
  /-- `limit_conn_set` -/
  limitConnSet : Bool
  /-- the handler has returned `lccf->status_code` -/
  refused : Bool
  /-- the nodes that it was counted in -/
  counted : List (Nat × Bytes)
  deriving DecidableEq

/-- The zones, and the requests of all workers. -/
structure ConnState where
  zones : Nat → ConnTree
  requests : List ConnRequest

/-- What a turn of the handler meets: what the key evaluates to, if it can be evaluated, how many
cleanups that registers, and whether there is memory for a node and for a cleanup. -/
structure ConnInput where
  key : Option Bytes
  registered : Nat
  nodeAlloc : Bool
  cleanupAlloc : Bool
  deriving DecidableEq

/-! ## The handler -/

/-- The limit has no place for one more connection, or the pool of the zone has none for a node. -/
def ConnLimit.refuses (limit : ConnLimit) (tree : ConnTree) (key : Bytes) (nodeAlloc : Bool) :
    Bool :=
  match tree key with
  | none => !nodeAlloc
  | some conn => conn ≥ limit.conn

/-- A node is created with one connection, or counts one more. -/
def countIn (tree : ConnTree) (key : Bytes) : ConnTree :=
  update tree key (match tree key with
    | none => some 1
    | some conn => some (conn + 1))

/-- `ngx_http_limit_conn_cleanup` -/
def countOut (tree : ConnTree) (key : Bytes) : ConnTree :=
  match tree key with
  | none => tree
  | some conn => update tree key (if conn - 1 = 0 then none else some (conn - 1))

/-- The zones and the request after a turn. -/
abbrev ConnResult : Type := (Nat → ConnTree) × ConnRequest

/-- A turn of the loop of `ngx_http_limit_conn_handler`. -/
def countTurn (zones : Nat → ConnTree) (q : ConnRequest) (limits : List ConnLimit)
    (i : Nat) (input : ConnInput) :
    ConnResult :=
  match limits[i]? with
  | none => (zones, { q with phase := .alive })
  | some limit =>
    let q := { q with cleanup := List.replicate input.registered PoolCleanup.other ++ q.cleanup }
    match input.key with
    | none => (zones, { q with phase := .alive })
    | some key =>
      if key.length = 0 ∨
        key.length > 255 then (zones, { q with phase := .counting limits (i + 1) })
      else
        let q := { q with limitConnSet := true }
        if limit.refuses (zones limit.zone) key input.nodeAlloc
          then (zones, { q with phase := .unwinding })
        else
          let zones := update zones limit.zone (countIn (zones limit.zone) key)
          let q := { q with counted := (limit.zone, key) :: q.counted }
          if input.cleanupAlloc then
            (zones, { q with
              phase := .counting limits (i + 1),
              cleanup := .limitConn limit.zone key :: q.cleanup })
          else (zones, { q with phase := .alive })

/-- The first cleanup is run. -/
def runCleanup (zones : Nat → ConnTree) (q : ConnRequest) (zone : Nat)
    (key : Bytes) (rest : List PoolCleanup) :
    ConnResult :=
  (update zones zone (countOut (zones zone) key),
    { q with cleanup := rest, counted := q.counted.erase (zone, key) })

/-- One turn of the loop that the request is in. -/
def connTurn (zones : Nat → ConnTree) (q : ConnRequest) (input : ConnInput) : ConnResult :=
  match q.phase with
  | .counting limits i => countTurn zones q limits i input
  | .unwinding =>
    match q.cleanup with
    | .limitConn zone key :: rest => runCleanup zones q zone key rest
    | _ => (zones, { q with phase := .alive, refused := true })
  | .destroying =>
    match q.cleanup with
    | .limitConn zone key :: rest => runCleanup zones q zone key rest
    | .other :: rest => (zones, { q with cleanup := rest })
    | [] => (zones, { q with phase := .dead })
  | .alive => (zones, q)
  | .dead => (zones, q)

/-- What happens. -/
inductive ConnEvent where
  /-- a request comes -/
  | create
  /-- the handler is called for a request, or for one of its subrequests -/
  | enter (r : Nat) (limits : List ConnLimit)
  /-- one turn of the loop that the request is in -/
  | turn (r : Nat) (input : ConnInput)
  /-- another cleanup is registered -/
  | register (r : Nat)
  /-- the pool is destroyed -/
  | destroy (r : Nat)
  deriving DecidableEq

/-- What an event does to the request that it is about. -/
def connReact (zones : Nat → ConnTree) (q : ConnRequest) : ConnEvent → ConnResult
  | .create => (zones, q)
  | .enter _ limits =>
    if q.phase = .alive ∧
      q.limitConnSet = false then (zones, { q with phase := .counting limits 0 }) else (zones, q)
  | .turn _ input => connTurn zones q input
  | .register _ =>
    if q.phase = .alive then (zones, { q with cleanup := .other :: q.cleanup }) else (zones, q)
  | .destroy _ => if q.phase = .alive then (zones, { q with phase := .destroying }) else (zones, q)

/-- The request that an event is about. -/
def ConnEvent.request : ConnEvent → Option Nat
  | create => none
  | enter r _ => some r
  | turn r _ => some r
  | register r => some r
  | destroy r => some r

/-- One step; a step that the request cannot make changes nothing. -/
def connStep (s : ConnState) (event : ConnEvent) : ConnState :=
  match event.request with
  | none => { s with requests := s.requests ++ [⟨.alive, [], false, false, []⟩] }
  | some r =>
    match s.requests[r]? with
    | none => s
    | some q =>
      let result := connReact s.zones q event
      ⟨result.1, s.requests.set r result.2⟩

/-- Steps one after another. -/
def connRun (s : ConnState) (events : List ConnEvent) : ConnState := events.foldl connStep s

/-- Empty zones. -/
def connInit : ConnState := ⟨fun _ _ => none, []⟩

/-! ## One request -/

/-- What a cleanup takes back. -/
def PoolCleanup.entry : PoolCleanup → Option (Nat × Bytes)
  | limitConn zone key => some (zone, key)
  | other => none

/-- Whether a live request was counted in a node. -/
def ConnRequest.holds (q : ConnRequest) (x : Nat × Bytes) :
    Nat := if q.phase ≠ .dead ∧ x ∈ q.counted then 1 else 0

/-- No cleanup of another kind lies above one of `ngx_http_limit_conn_cleanup`. -/
def Leading (cleanup : List PoolCleanup) : Prop :=
  ∀ x ∈ cleanup.dropWhile fun x => x.entry.isSome, x.entry = none

/-- What is true of a request; `most` bounds the limits of each zone. -/
structure ConnRequest.Right (most : Nat → Nat) (q : ConnRequest) : Prop where
  registered : q.cleanup.filterMap PoolCleanup.entry = q.counted
  once : (q.counted.map Prod.fst).Nodup
  unset : q.limitConnSet = false → q.counted = []
  counting : ∀ limits i, q.phase = .counting limits i → (limits.map ConnLimit.zone).Nodup ∧
    (∀ x ∈ q.counted, ∃ limit ∈ limits.take i, limit.zone = x.1) ∧
    ∀ limit ∈ limits, 0 < limit.conn ∧ limit.conn ≤ most limit.zone
  unwinding : q.phase = .unwinding → Leading q.cleanup ∧ q.limitConnSet = true
  dead : q.phase = .dead → q.counted = []
  refused : q.refused = true → q.counted = [] ∧ q.limitConnSet = true ∧
    (∀ limits i, q.phase ≠ .counting limits i) ∧ q.phase ≠ .unwinding

/-- What a step does to the zones and to the request: the connections move with what the request
was counted in. -/
structure ConnRight (most : Nat → Nat) (zones : Nat → ConnTree) (q : ConnRequest)
    (result : ConnResult) : Prop where
  right : result.2.Right most
  moved : ∀ z key,
    (result.1 z key).getD 0 + q.holds (z, key) = (zones z key).getD 0 + result.2.holds (z, key)
  pos : ∀ z key, result.1 z key ≠ some 0
  most : ∀ z key conn, result.1 z key = some conn → conn ≤ most z

section request

variable {most : Nat → Nat} {zones : Nat → ConnTree} {q q' : ConnRequest} {z : Nat} {key : Bytes}
  {limits : List ConnLimit} {i : Nat} {limit : ConnLimit} {rest : List PoolCleanup}

theorem connRight_same (hright : q'.Right most) (hphase : q.phase ≠ .dead)
    (hcounted : q'.counted = q.counted)
    (hpos : ∀ z key, zones z key ≠ some 0)
    (hmost : ∀ z key conn, zones z key = some conn → conn ≤ most z) :
    ConnRight most zones q (zones, q') where
  right := hright
  moved := by
    intro z key
    have hholds : q'.holds (z, key) = q.holds (z, key) := by
      unfold ConnRequest.holds
      rw [hcounted]
      by_cases hdead : q'.phase = .dead
      · rw [← hcounted, hright.dead hdead]
        simp
      · simp only [ne_eq, hdead, hphase, not_false_eq_true]
    rw [hholds]
  pos := hpos
  most := hmost

theorem update_update_apply (zones : Nat → ConnTree) (z : Nat) (key : Bytes)
    (value : Option Nat) (z' : Nat) (key' : Bytes) :
    update zones z (update (zones z) key value) z' key' =
      if (z', key') = (z, key) then value else zones z' key' := by
  by_cases hz : z' = z
  · subst hz
    rw [update_self]
    by_cases hkey : key' = key
    · subst hkey
      rw [update_self, if_pos rfl]
    · rw [update_of_ne hkey, if_neg fun heq => hkey (Prod.mk.inj heq).2]
  · rw [update_of_ne hz, if_neg fun heq => hz (Prod.mk.inj heq).1]

/-- A cleanup takes a count back, and with the last one the node goes. -/
theorem connRight_runCleanup (h : q.Right most) (hphase : q.phase ≠ .dead)
    (hnotCounting : ∀ limits i, q.phase ≠ .counting limits i)
    (hcleanup : q.cleanup = .limitConn z key :: rest)
    (hcount : q.holds (z, key) ≤ (zones z key).getD 0)
    (hpos : ∀ z key, zones z key ≠ some 0)
    (hmost : ∀ z key conn, zones z key = some conn → conn ≤ most z) :
    ConnRight most zones q (runCleanup zones q z key rest) := by
  have hregistered := h.registered
  rw [hcleanup,
    filterMap_cons_some (show (PoolCleanup.limitConn z key).entry = some (z, key) from rfl)]
    at hregistered
  have honce := h.once
  rw [← hregistered, map_cons, nodup_cons] at honce
  have herase : q.counted.erase (z, key) = rest.filterMap PoolCleanup.entry := by
    rw [← hregistered, erase_cons_head]
  have hmem : ∀ x, x ∈ q.counted ↔ x = (z, key) ∨ x ∈ q.counted.erase (z, key) := by
    intro x
    rw [herase, ← hregistered, mem_cons]
  have hnot : (z, key) ∉ q.counted.erase (z, key) := by
    intro hin
    rw [herase] at hin
    exact honce.1 (mem_map_of_mem hin)
  -- the node is there, as the request was counted in it
  have hheld : q.holds (z, key) = 1 := if_pos ⟨hphase, (hmem _).mpr (.inl rfl)⟩
  obtain ⟨conn, hconn⟩ : ∃ conn, zones z key = some conn := by
    cases hnode : zones z key with
    | none =>
      rw [hheld, hnode] at hcount
      exact absurd hcount (by simp)
    | some conn => exact ⟨conn, rfl⟩
  have hout : (runCleanup zones q z key rest).1 =
      update zones z (update (zones z) key (if conn - 1 = 0 then none else some (conn - 1))) := by
    unfold runCleanup countOut
    rw [hconn]
  have hzero : conn ≠ 0 := by
    intro hzero
    exact hpos z key (hzero ▸ hconn)
  refine ⟨?_, ?_, ?_, ?_⟩
  · refine ⟨herase.symm, ?_, ?_, ?_, ?_, ?_, ?_⟩
    · show ((q.counted.erase (z, key)).map Prod.fst).Nodup
      rw [herase]
      exact honce.2
    · intro hunset
      have hnil := h.unset hunset
      show q.counted.erase (z, key) = []
      rw [hnil]
      rfl
    · intro limits i hcounting
      exact absurd hcounting (hnotCounting limits i)
    · intro hunwinding
      obtain ⟨hleading, hset⟩ := h.unwinding hunwinding
      refine ⟨?_, hset⟩
      unfold Leading at hleading ⊢
      rw [hcleanup, dropWhile_cons_of_pos rfl] at hleading
      exact hleading
    · intro hdead
      exact absurd hdead hphase
    · intro hrefused
      obtain ⟨hnil, hset, hphase⟩ := h.refused hrefused
      refine ⟨?_, hset, hphase⟩
      show q.counted.erase (z, key) = []
      rw [hnil]
      rfl
  · intro z' key'
    rw [hout, update_update_apply]
    have hafter : (runCleanup zones q z key rest).2.holds (z', key') =
        if (z', key') ∈ q.counted.erase (z, key) then 1 else 0 := by
      unfold ConnRequest.holds runCleanup
      simp only [ne_eq, hphase, not_false_eq_true, true_and]
    by_cases hsame : (z', key') = (z, key)
    · rw [if_pos hsame, hafter, hsame, if_neg hnot, hheld, (Prod.mk.inj hsame).1,
        (Prod.mk.inj hsame).2, hconn]
      split <;> simp only [getD_none, getD_some] <;> omega
    · have hbefore : q.holds (z', key') =
        if (z', key') ∈ q.counted.erase (z, key) then 1 else 0 := by
        unfold ConnRequest.holds
        simp only [ne_eq, hphase, not_false_eq_true, true_and, hmem, hsame, false_or]
      rw [if_neg hsame, hafter, hbefore]
  · intro z' key'
    rw [hout, update_update_apply]
    split
    · split <;> simp
      assumption
    · exact hpos z' key'
  · intro z' key' conn'
    rw [hout, update_update_apply]
    split
    next hsame =>
      intro hnew
      have hle := hmost z key conn hconn
      rw [(Prod.mk.inj hsame).1]
      split at hnew
      · exact absurd hnew.symm (some_ne_none _)
      · have hvalue := some.inj hnew
        omega
    next => exact hmost z' key' conn'

theorem filterMap_others (n : Nat) (cleanup : List PoolCleanup) :
    (List.replicate n PoolCleanup.other ++ cleanup).filterMap PoolCleanup.entry =
      cleanup.filterMap PoolCleanup.entry := by
  rw [filterMap_append, filterMap_replicate_of_none (show PoolCleanup.other.entry = none from rfl),
    nil_append]

/-- A condition on what a turn meets: there is memory for a cleanup when the request is counted, and
when it is refused, the cleanups to be run are the first ones. -/
def ConnInput.Fits (zones : Nat → ConnTree) (q : ConnRequest) (input : ConnInput) : Prop :=
  ∀ limits i limit key, q.phase = .counting limits i → limits[i]? = some limit →
    input.key = some key →
    ¬ (key.length = 0 ∨ key.length > 255) →
      if limit.refuses (zones limit.zone) key input.nodeAlloc then
        Leading (List.replicate input.registered .other ++ q.cleanup)
      else input.cleanupAlloc = true

theorem connRight_count (h : q.Right most) (hphase : q.phase = .counting limits i)
    (hlimit : limits[i]? = some limit)
    {nodeAlloc : Bool} (hrefuses : limit.refuses (zones limit.zone) key nodeAlloc = false)
    {others : List PoolCleanup}
    (hothers : others.filterMap PoolCleanup.entry = q.counted)
    (hpos : ∀ z key, zones z key ≠ some 0)
    (hmost : ∀ z key conn, zones z key = some conn → conn ≤ most z) :
    ConnRight most zones q (update zones limit.zone (countIn (zones limit.zone) key),
      { q with
        limitConnSet := true
        counted := (limit.zone, key) :: q.counted
        phase := .counting limits (i + 1)
        cleanup := .limitConn limit.zone key :: others }) := by
  obtain ⟨hdistinct, hvisited, hlimits⟩ := h.counting limits i hphase
  have hlimitMost := hlimits limit (mem_of_getElem? hlimit)
  have htake : limits.take (i + 1) = limits.take i ++ [limit] := by
    rw [take_add_one, hlimit, toList_some]
  -- the zone is not one of those before
  have hnew : limit.zone ∉ q.counted.map Prod.fst := by
    intro hin
    obtain ⟨x, hx, hzone⟩ := mem_map.mp hin
    obtain ⟨other, hother, heq⟩ := hvisited x hx
    have hsub : ((limits.take (i + 1)).map ConnLimit.zone).Nodup :=
      hdistinct.sublist ((take_sublist _ _).map _)
    rw [htake, map_append] at hsub
    exact (nodup_append.mp hsub).2.2 _ (mem_map_of_mem hother) _
      (mem_map_of_mem (mem_singleton.mpr rfl)) (heq.trans hzone)
  have hnotIn : ∀ key', (limit.zone, key') ∉ q.counted := fun key' hin => hnew (mem_map_of_mem hin)
  have hdead : q.phase ≠ .dead := by
    rw [hphase]
    simp
  have hin : countIn (zones limit.zone) key =
      update (zones limit.zone) key (some ((zones limit.zone key).getD 0 + 1)) := by
    unfold countIn
    cases zones limit.zone key <;> rfl
  rw [hin]
  refine ⟨⟨?_, ?_, ?_, ?_, ?_, ?_, ?_⟩, ?_, ?_, ?_⟩
  · show (PoolCleanup.limitConn limit.zone key :: others).filterMap PoolCleanup.entry =
      (limit.zone, key) :: q.counted
    rw [filterMap_cons_some
      (show (PoolCleanup.limitConn limit.zone key).entry = some (limit.zone, key) from rfl),
      hothers]
  · exact nodup_cons.mpr ⟨hnew, h.once⟩
  · intro hunset
    exact absurd hunset.symm Bool.false_ne_true
  · intro limits' i' hcounting
    obtain ⟨rfl, rfl⟩ := ConnPhase.counting.inj hcounting
    refine ⟨hdistinct, ?_, hlimits⟩
    intro x hx
    rw [htake]
    rcases mem_cons.mp hx with rfl | hx
    · exact ⟨limit, mem_append_right _ (mem_singleton.mpr rfl), rfl⟩
    · obtain ⟨other, hother, heq⟩ := hvisited x hx
      exact ⟨other, mem_append_left _ hother, heq⟩
  · intro hunwinding
    simp at hunwinding
  · intro hdead
    simp at hdead
  · intro hrefused
    exact absurd hphase ((h.refused hrefused).2.2.1 limits i)
  · intro z key'
    show (update zones limit.zone _ z key').getD 0 + _ = _
    rw [update_update_apply]
    unfold ConnRequest.holds
    simp only [ne_eq, hdead, not_false_eq_true, true_and, mem_cons]
    by_cases hsame : (z, key') = (limit.zone, key)
    · obtain ⟨rfl, rfl⟩ := Prod.mk.inj hsame
      simp [hnotIn]
    · simp [hsame]
  · intro z key'
    show update zones limit.zone _ z key' ≠ _
    rw [update_update_apply]
    split
    · simp
    · exact hpos z key'
  · intro z key' conn
    show update zones limit.zone _ z key' = _ → _
    rw [update_update_apply]
    split
    next hsame =>
      intro hconn
      have hvalue := some.inj hconn
      unfold ConnLimit.refuses at hrefuses
      rw [(Prod.mk.inj hsame).1]
      cases hnode : zones limit.zone key with
      | none =>
        rw [hnode, getD_none] at hvalue
        omega
      | some conn' =>
        rw [hnode] at hrefuses hvalue
        have hlt := of_decide_eq_false hrefuses
        rw [getD_some] at hvalue
        omega
    next => exact hmost z key' conn

theorem countTurn_right {input : ConnInput} (h : q.Right most)
    (hphase : q.phase = .counting limits i)
    (hfits : input.Fits zones q) (hpos : ∀ z key, zones z key ≠ some 0)
    (hmost : ∀ z key conn, zones z key = some conn → conn ≤ most z) :
    ConnRight most zones q (countTurn zones q limits i input) := by
  obtain ⟨hdistinct, hvisited, hlimits⟩ := h.counting limits i hphase
  have hdead : q.phase ≠ .dead := by
    rw [hphase]
    simp
  have hnever : q.refused = false := by
    apply eq_false_of_ne_true
    intro hrefused
    exact (h.refused hrefused).2.2.1 limits i hphase
  have hregistered :
    (List.replicate input.registered PoolCleanup.other ++ q.cleanup).filterMap PoolCleanup.entry =
      q.counted := (filterMap_others _ _).trans h.registered
  -- the request leaves the loop, with what is registered
  have hleave : ∀ cleanup : List PoolCleanup, cleanup.filterMap PoolCleanup.entry = q.counted →
      ConnRight most zones q (zones, { q with phase := .alive, cleanup := cleanup }) := by
    intro cleanup hcleanup
    refine connRight_same ⟨hcleanup, h.once, h.unset, ?_, ?_, ?_, ?_⟩ hdead rfl hpos hmost
    · intro _ _ heq
      simp at heq
    · intro heq
      simp at heq
    · intro heq
      simp at heq
    · intro hrefused
      exact absurd (hnever.symm.trans hrefused) Bool.false_ne_true
  unfold countTurn
  split
  next => exact hleave q.cleanup h.registered
  next limit hlimit =>
    simp only
    split
    next => exact hleave _ hregistered
    next key hkey =>
      split
      next =>
        refine connRight_same ⟨hregistered, h.once, h.unset, ?_, ?_, ?_, ?_⟩ hdead rfl hpos hmost
        · intro limits' i' heq
          obtain ⟨rfl, rfl⟩ := ConnPhase.counting.inj heq
          refine ⟨hdistinct, ?_, hlimits⟩
          intro x hx
          obtain ⟨other, hother, hzone⟩ := hvisited x hx
          exact ⟨other, (take_sublist_take_left (Nat.le_succ i)).subset hother, hzone⟩
        · intro heq
          simp at heq
        · intro heq
          simp at heq
        · intro hrefused
          exact absurd (hnever.symm.trans hrefused) Bool.false_ne_true
      next hlength =>
        have hmeets := hfits limits i limit key hphase hlimit hkey hlength
        split
        next hrefuses =>
          rw [if_pos hrefuses] at hmeets
          refine connRight_same ⟨hregistered, h.once, ?_, ?_, fun _ =>
            ⟨hmeets, rfl⟩, ?_, ?_⟩ hdead rfl hpos hmost
          · intro hunset
            exact absurd hunset.symm Bool.false_ne_true
          · intro _ _ heq
            simp at heq
          · intro heq
            simp at heq
          · intro hrefused
            exact absurd (hnever.symm.trans hrefused) Bool.false_ne_true
        next hrefuses =>
          rw [if_neg hrefuses] at hmeets
          rw [if_pos hmeets]
          exact connRight_count h hphase hlimit (eq_false_of_ne_true hrefuses)
            hregistered hpos hmost

/-- What `ngx_http_limit_conn` accepts: no second limit with the same zone, and a positive number of
connections; `most` bounds the limits of each zone. -/
def ConnEvent.Configured (most : Nat → Nat) : ConnEvent → Prop
  | enter _ limits =>
    (limits.map ConnLimit.zone).Nodup ∧ ∀ limit ∈ limits, 0 < limit.conn ∧
      limit.conn ≤ most limit.zone
  | _ => True

/-- The condition on the turns of a request. -/
def ConnEvent.Fits (zones : Nat → ConnTree) (q : ConnRequest) : ConnEvent → Prop
  | turn _ input => input.Fits zones q
  | _ => True

/-- A turn of the handler keeps a request right. -/
theorem connTurn_right {input : ConnInput} (h : q.Right most) (hfits : input.Fits zones q)
    (hcount : ∀ z key, q.holds (z, key) ≤ (zones z key).getD 0)
    (hpos : ∀ z key, zones z key ≠ some 0)
    (hmost : ∀ z key conn, zones z key = some conn → conn ≤ most z) :
    ConnRight most zones q (connTurn zones q input) := by
  unfold connTurn
  cases hphase : q.phase with
  | alive => exact connRight_same h (by rw [hphase]; simp) rfl hpos hmost
  | dead => exact ⟨h, fun _ _ => rfl, hpos, hmost⟩
  | counting limits i => exact countTurn_right h hphase hfits hpos hmost
  | unwinding =>
    have hdead : q.phase ≠ .dead := by
      rw [hphase]
      simp
    have hcounting : ∀ limits i, q.phase ≠ .counting limits i := by
      rw [hphase]
      simp
    obtain ⟨hleading, hset⟩ := h.unwinding hphase
    -- what lies below the first other cleanup is not one of these
    have hdone : q.cleanup.dropWhile (fun x => x.entry.isSome) = q.cleanup → q.counted = [] := by
      intro hsame
      unfold Leading at hleading
      rw [hsame] at hleading
      rw [← h.registered]
      exact filterMap_eq_nil_iff.mpr hleading
    have hreturn : q.counted = [] →
      ConnRight most zones q (zones, { q with phase := .alive, refused := true }) := by
      intro hnil
      refine connRight_same ⟨h.registered, h.once, h.unset, ?_, ?_, ?_, fun _ =>
        ⟨hnil, hset, ?_⟩⟩ hdead rfl hpos hmost
      · intro _ _ heq
        simp at heq
      · intro heq
        simp at heq
      · intro heq
        simp at heq
      · simp
    simp only
    split
    next z key rest hcleanup =>
      exact connRight_runCleanup h hdead hcounting hcleanup (hcount z key) hpos hmost
    next hother =>
      apply hreturn
      apply hdone
      cases hcleanup : q.cleanup with
      | nil => rfl
      | cons x rest =>
        cases x with
        | other => rfl
        | limitConn z key => exact absurd hcleanup (hother z key rest)
  | destroying =>
    have hdead : q.phase ≠ .dead := by
      rw [hphase]
      simp
    have hcounting : ∀ limits i, q.phase ≠ .counting limits i := by
      rw [hphase]
      simp
    simp only
    split
    next z key rest hcleanup =>
      exact connRight_runCleanup h hdead hcounting hcleanup (hcount z key) hpos hmost
    next rest hcleanup =>
      have hregistered := h.registered
      rw [hcleanup, filterMap_cons_none (show PoolCleanup.other.entry = none from rfl)]
        at hregistered
      refine connRight_same ⟨hregistered, h.once, h.unset, ?_, ?_, ?_, ?_⟩ hdead rfl hpos hmost
      · intro _ _ heq
        simp at heq
      · intro heq
        simp at heq
      · intro heq
        simp at heq
      · intro hrefused
        obtain ⟨hnil, hset, -, -⟩ := h.refused hrefused
        exact ⟨hnil, hset, by simp, by simp⟩
    next hcleanup =>
      have hregistered := h.registered
      rw [hcleanup, filterMap_nil] at hregistered
      refine connRight_same ⟨h.registered, h.once, h.unset, ?_, ?_, fun _ =>
        hregistered.symm, ?_⟩ hdead rfl hpos hmost
      · intro _ _ heq
        simp at heq
      · intro heq
        simp at heq
      · intro hrefused
        obtain ⟨hnil, hset, -, -⟩ := h.refused hrefused
        exact ⟨hnil, hset, by simp, by simp⟩

/-- Every event keeps a request right, as long as its cleanup records can be had. -/
theorem connReact_right {event : ConnEvent} (h : q.Right most)
    (hconf : event.Configured most) (hfits : event.Fits zones q)
    (hcount : ∀ z key, q.holds (z, key) ≤ (zones z key).getD 0)
    (hpos : ∀ z key, zones z key ≠ some 0)
    (hmost : ∀ z key conn, zones z key = some conn → conn ≤ most z) :
    ConnRight most zones q (connReact zones q event) := by
  have hrefl : ConnRight most zones q (zones, q) := ⟨h, fun _ _ => rfl, hpos, hmost⟩
  cases event with
  | create => exact hrefl
  | turn r input => exact connTurn_right h hfits hcount hpos hmost
  | enter r limits =>
    unfold connReact
    simp only
    split
    next hand =>
      obtain ⟨halive, hunset⟩ := hand
      have hnil := h.unset hunset
      refine connRight_same ⟨h.registered, h.once, h.unset, ?_, ?_, ?_, ?_⟩
        (by rw [halive]; simp) rfl hpos hmost
      · intro limits' i heq
        obtain ⟨rfl, rfl⟩ := ConnPhase.counting.inj heq
        refine ⟨hconf.1, ?_, hconf.2⟩
        intro x hx
        have hx' : x ∈ q.counted := hx
        rw [hnil] at hx'
        exact absurd hx' not_mem_nil
      · intro heq
        simp at heq
      · intro heq
        simp at heq
      · intro hrefused
        exact absurd (hunset.symm.trans (h.refused hrefused).2.1) Bool.false_ne_true
    next => exact hrefl
  | register r =>
    unfold connReact
    simp only
    split
    next halive =>
      refine connRight_same ⟨?_, h.once, h.unset, ?_, ?_, h.dead, h.refused⟩
        (by rw [halive]; simp) rfl hpos hmost
      · show (PoolCleanup.other :: q.cleanup).filterMap PoolCleanup.entry = q.counted
        rw [filterMap_cons_none (show PoolCleanup.other.entry = none from rfl), h.registered]
      · intro limits i heq
        exact h.counting limits i heq
      · intro heq
        exact absurd (halive.symm.trans heq) (by simp)
    next => exact hrefl
  | destroy r =>
    unfold connReact
    simp only
    split
    next halive =>
      refine connRight_same ⟨h.registered, h.once, h.unset, ?_, ?_, ?_, ?_⟩
        (by rw [halive]; simp) rfl hpos hmost
      · intro _ _ heq
        simp at heq
      · intro heq
        simp at heq
      · intro heq
        simp at heq
      · intro hrefused
        obtain ⟨hnil, hset, -, -⟩ := h.refused hrefused
        exact ⟨hnil, hset, by simp, by simp⟩
    next => exact hrefl

end request

/-! ## Runs -/

/-- How many live requests were counted in a node. -/
def ConnState.live (s : ConnState) (z : Nat) (key : Bytes) :
    Nat := tally ConnRequest.holds s.requests (z, key)

/-- All the turns of a run meet the condition. -/
def RunFits : ConnState → List ConnEvent → Prop
  | _, [] => True
  | s, event :: events =>
    (∀ r q, event.request = some r → s.requests[r]? = some q → event.Fits s.zones q) ∧
      RunFits (connStep s event) events

/-- What is true of the zones and the requests. -/
structure ConnState.Right (most : Nat → Nat) (s : ConnState) : Prop where
  request : ∀ q ∈ s.requests, q.Right most
  count : ∀ z key, (s.zones z key).getD 0 = s.live z key
  pos : ∀ z key, s.zones z key ≠ some 0
  most : ∀ z key conn, s.zones z key = some conn → conn ≤ most z

section runs

variable {most : Nat → Nat} {s : ConnState} {event : ConnEvent} {events : List ConnEvent}

theorem connInit_right (most : Nat → Nat) : connInit.Right most where
  request := fun _ hq => absurd hq not_mem_nil
  count := fun _ _ => rfl
  pos := fun _ _ => (some_ne_none 0).symm
  most := fun _ _ _ heq => absurd heq.symm (some_ne_none _)

theorem ConnState.Right.create (h : s.Right most) (hevent : event.request = none) :
    (connStep s event).Right most := by
  unfold connStep
  rw [hevent]
  refine ⟨?_, ?_, h.pos, h.most⟩
  · intro q hq
    rcases mem_append.mp hq with hq | hq
    · exact h.request q hq
    · obtain rfl := mem_singleton.mp hq
      exact ⟨rfl, nodup_nil, fun _ => rfl, by simp, by simp, fun _ => rfl, by simp⟩
  · intro z key
    have hnew : ConnRequest.holds ⟨.alive, [], false, false, []⟩ (z, key) = 0 :=
      if_neg fun hand => not_mem_nil hand.2
    unfold ConnState.live
    simp only [tally_append, tally_cons, tally_nil, hnew]
    exact h.count z key

theorem connStep_of_some {r : Nat} (s : ConnState) (hevent : event.request = some r) :
    s.requests[r]? = none ∧ connStep s event = s ∨
      ∃ q, s.requests[r]? = some q ∧
        connStep s event =
          ⟨(connReact s.zones q event).1, s.requests.set r (connReact s.zones q event).2⟩ := by
  cases hq : s.requests[r]? with
  | none =>
    left
    refine ⟨rfl, ?_⟩
    unfold connStep
    simp only [hevent, hq]
  | some q =>
    right
    refine ⟨q, rfl, ?_⟩
    unfold connStep
    simp only [hevent, hq]

theorem ConnState.Right.step (h : s.Right most) (hconf : event.Configured most)
    (hfits : ∀ r q, event.request = some r → s.requests[r]? = some q → event.Fits s.zones q) :
    (connStep s event).Right most := by
  cases hevent : event.request with
  | none => exact h.create hevent
  | some r =>
    rcases connStep_of_some s hevent with ⟨-, hsame⟩ | ⟨q, hq, hstep⟩
    · rwa [hsame]
    have hmem := mem_of_getElem? hq
    have hcount : ∀ z key, q.holds (z, key) ≤ (s.zones z key).getD 0 := by
      intro z key
      rw [h.count]
      exact le_tally hmem (z, key)
    have hreact :=
      connReact_right (h.request q hmem) hconf (hfits r q hevent hq) hcount h.pos h.most
    rw [hstep]
    refine ⟨?_, ?_, hreact.pos, hreact.most⟩
    · intro q' hq'
      rcases mem_or_eq_of_mem_set hq' with hq' | rfl
      · exact h.request q' hq'
      · exact hreact.right
    · intro z key
      exact tally_set_eq hq (h.count z key) (hreact.moved z key)

theorem ConnState.Right.run (h : s.Right most) (hconf : ∀ event ∈ events, event.Configured most)
    (hfits : RunFits s events) : (connRun s events).Right most := by
  induction events generalizing s with
  | nil => exact h
  | cons event events ih =>
    exact ih
      (h.step (hconf event mem_cons_self) hfits.1)
      (fun e he => hconf e (mem_cons_of_mem event he)) hfits.2

end runs

/-- Requests that are counted, refused and ended in any order of these turns, as long as there is
memory for the cleanup of a request that was counted, and the cleanups of a request that is refused
lie above all others: a node is there just as long as live requests were counted in it, its
connections are these requests, and are never more than the largest limit of the zone; what a
request was counted in is what its pool has cleanups for, once each; and a request that was refused
is not counted in any zone. -/
theorem limitConn_balanced (most : Nat → Nat) (events : List ConnEvent)
    (hconf : ∀ event ∈ events, event.Configured most) (hfits : RunFits connInit events) :
    (∀ z key, (connRun connInit events).zones z key =
        if (connRun connInit events).live z key =
          0 then none else some ((connRun connInit events).live z key)) ∧
      (∀ z key conn, (connRun connInit events).zones z key = some conn → conn ≤ most z) ∧
      ∀ q ∈ (connRun connInit events).requests, q.cleanup.filterMap PoolCleanup.entry = q.counted ∧
        (q.counted.map Prod.fst).Nodup ∧ (q.refused = true → q.counted = []) := by
  have hright := (connInit_right most).run hconf hfits
  refine ⟨?_, hright.most, ?_⟩
  · intro z key
    have hcount := hright.count z key
    cases hnode : (connRun connInit events).zones z key with
    | none =>
      rw [hnode, getD_none] at hcount
      rw [if_pos hcount.symm]
    | some conn =>
      rw [hnode, getD_some] at hcount
      rw [if_neg, hcount]
      rw [← hcount]
      rintro rfl
      exact hright.pos z key hnode
  · intro q hq
    have hrequest := hright.request q hq
    exact ⟨hrequest.registered, hrequest.once, fun hrefused => (hrequest.refused hrefused).1⟩

/-- There is memory, and no key registers a cleanup. -/
def plainInput (key : Bytes) : ConnInput := ⟨some key, 0, true, true⟩

/-- A request is refused while another one is counted. -/
def secondRefused : List ConnEvent :=
  [.create, .enter 0 [⟨0, 1⟩], .turn 0 (plainInput (ascii "k")), .create, .enter 1 [⟨0, 1⟩],
    .turn 1 (plainInput (ascii "k")), .turn 1 (plainInput (ascii "k"))]

theorem ConnInput.fits_plain (zones : Nat → ConnTree) {q : ConnRequest}
    (hcleanup : q.cleanup = []) (key : Bytes) :
    (plainInput key).Fits zones q := by
  intro limits i limit key' _ _ _ _
  split
  · intro x hx
    rw [hcleanup] at hx
    exact absurd hx not_mem_nil
  · rfl

theorem limitConn_balanced_secondRefused :
    (connRun connInit secondRefused).zones 0 (ascii "k") = some 1 ∧
      ((connRun connInit secondRefused).requests.map ConnRequest.refused) = [false, true] ∧
      ∀ q ∈ (connRun connInit secondRefused).requests,
        q.cleanup.filterMap PoolCleanup.entry = q.counted ∧
        (q.counted.map Prod.fst).Nodup ∧ (q.refused = true → q.counted = []) := by
  refine ⟨by decide, by decide, (limitConn_balanced (fun _ => 1) secondRefused ?_ ?_).2.2⟩
  · simp [secondRefused, ConnEvent.Configured]
  refine ⟨?_, ?_, ?_, ?_, ?_, ?_, ?_, trivial⟩ <;> intro r q hr hq
  all_goals first
    | trivial
    | obtain rfl := some.inj hr
      obtain rfl := some.inj hq
      exact ConnInput.fits_plain _ rfl _

/-- There is no memory for the cleanup of a request that was counted. -/
def cleanupFails : List ConnEvent :=
  [.create, .enter 0 [⟨0, 1⟩], .turn 0 ⟨some (ascii "k"), 0, true, false⟩,
    .destroy 0, .turn 0 (plainInput [])]

/-- The key of the second zone registers a cleanup, and the zone refuses the request. -/
def keyRegisters : List ConnEvent :=
  [.create, .enter 0 [⟨0, 1⟩, ⟨1, 1⟩], .turn 0 (plainInput (ascii "k")),
    .turn 0 ⟨some (ascii "k"), 1, false, true⟩,
    .turn 0 (plainInput [])]

/-- The node keeps the count when the request has ended; and the request that was refused keeps the
count of the first zone. -/
theorem limitConn_leaks :
    (connRun connInit cleanupFails).requests.map ConnRequest.phase = [.dead] ∧
      (connRun connInit cleanupFails).zones 0 (ascii "k") = some 1 ∧
      (connRun connInit cleanupFails).live 0 (ascii "k") = 0 ∧
      ((connRun connInit keyRegisters).requests.map fun q => (q.refused, q.counted)) = [(true,
        [(0, ascii "k")])] := by
  decide

end Nginx.Http.Limit
