/-
  Http/Limit/LimitReqRate.lean --- how many requests of a key a zone lets through.

  The zone is the only limit of the requests, so that a lookup accounts for a
  request at once.  The requests of a key within some interval are held against a
  `Ledger`: the node of the key is the bucket, and each event that concerns the
  node is one rule of the ledger.
-/
import Nginx.Foundation.Bucket
import Nginx.Http.Limit.LimitReq

set_option autoImplicit false

namespace Nginx.Http.Limit

open List Foundation Option

/-! ## Runs -/

/-- A request with its key, the time it comes at, and whether the slab pool has memory for it. -/
structure Arrival where
  key : Bytes
  now : Nat
  alloc : Bool × Bool
  deriving DecidableEq

/-- The lookup for a request that has no other limit. -/
def arrive (rate burst : Nat) (queue : List ReqNode) (a : Arrival) : LookupResult :=
  lookup rate burst a.now a.alloc a.key true queue

/-- Requests one after another: the zone after them, and what each lookup did. -/
def serve (rate burst : Nat) :
    List ReqNode → List Arrival → List ReqNode × List (Arrival × LookupResult)
  | queue, [] => (queue, [])
  | queue, a :: arrivals =>
    let result := arrive rate burst queue a
    let (after, log) := serve rate burst result.queue arrivals
    (after, (a, result) :: log)

/-- The request is not refused. -/
def LookupResult.admits (result : LookupResult) : Bool := result.rc ≠ .busy ∧ result.rc ≠ .error

/-- How many requests of a key are let through. -/
def admitted (key : Bytes) (log : List (Arrival × LookupResult)) : Nat :=
  log.countP fun x => x.1.key = key ∧ x.2.admits

/-- How often the node of a key is taken away. -/
def LookupResult.removals (key : Bytes) (result : LookupResult) : Nat :=
  result.removed.countP fun x => x.node.key = key

/-- How often the node of a key is taken away in a run. -/
def removals (key : Bytes) (log : List (Arrival × LookupResult)) :
    Nat := (log.map fun x => x.2.removals key).sum

/-- The node of a key is not taken away by force. -/
def Unforced (key : Bytes) (result : LookupResult) : Prop :=
  ∀ x ∈ result.removed, x.node.key = key → x.forced = false

/-- What is stored for a key. -/
def stored (key : Bytes) (queue : List ReqNode) : Option Bucket :=
  (queue.find? (·.key = key)).map fun lr => ⟨lr.excess, lr.last⟩

/-- The clock does not go back, and what leaks between two requests is a signed number. -/
structure Timely (rate : Nat) (arrivals : List Arrival) : Prop where
  sorted : arrivals.Pairwise fun a b => a.now ≤ b.now
  word : ∀ a ∈ arrivals, a.now < wordRange
  leak : ∀ a ∈ arrivals, ∀ b ∈ arrivals, rate * (b.now - a.now) < 2 ^ 63

/-- What the limit is for: in `d` milliseconds no more requests of a key are let through than the
burst and the rate allow, one being free for every node that is put up; no node has more than the
burst; and a request that is refused does not count. -/
structure RateBound (rate burst : Nat) : Prop where
  admitted_le : ∀ (before during : List Arrival) (key : Bytes) (start d : Nat),
    Timely rate (before ++ during) → (∀ a ∈ during, start ≤ a.now ∧ a.now ≤ start + d) →
    ∀ log, log = (serve rate burst (serve rate burst [] before).1 during).2 →
      (∀ x ∈ log, Unforced key x.2) →
      1000 * admitted key log ≤ 1000 * (1 + removals key log) + burst + rate * d / 1000
  excess_le : ∀ arrivals : List Arrival, Timely rate arrivals →
    ∀ lr ∈ (serve rate burst [] arrivals).1,
    lr.excess ≤ burst
  refused : ∀ (arrivals : List Arrival) (a : Arrival), Timely rate (arrivals ++ [a]) → ∀ queue,
    queue = (serve rate burst [] arrivals).1 → (arrive rate burst queue a).admits = false →
      stored a.key (arrive rate burst queue a).queue = stored a.key queue

/-! ## Numbers -/

variable {rate burst now : Nat} {lr : ReqNode}

theorem leak_lt (rate : Nat) (ms : Int) : leak rate ms < 2 ^ 63 := by
  have hmul : mulWord rate ms.toNat < wordRange := Nat.mod_lt _ (by decide)
  unfold leak
  unfold wordRange at hmul
  omega

theorem excessWith_eq (ms : Int) (h : lr.excess + 1000 < 2 ^ 63) :
    lr.excessWith rate ms = lr.excess + 1000 - leak rate ms := by
  have hleak := leak_lt rate ms
  unfold ReqNode.excessWith addWord subWord signed wordRange
  simp only
  split <;> split <;> omega

variable {last : Nat}

theorem rate_cases (hleak : rate * (now - last) < 2 ^ 63) : rate = 0 ∨ now - last < 2 ^ 63 := by
  rcases eq_zero_or_pos rate with hzero | hpos
  · exact .inl hzero
  · exact .inr (lt_of_le_of_lt (Nat.le_mul_of_pos_left _ hpos) hleak)

theorem leak_zero (ms : Int) : leak 0 ms = 0 := by
  unfold leak mulWord
  rw [zero_mul]
  rfl

theorem signed_since (hle : last ≤ now) (hnow : now < wordRange) (hlt : now - last < 2 ^ 63) :
    signed (subWord now last) = ((now - last : Nat) : Int) := by
  rw [subWord_of_le hle hnow, signed_of_lt hlt]

theorem leak_since (hleak : rate * (now - last) < 2 ^ 63) :
    leak rate ((now - last : Nat) : Int) = rate * (now - last) / 1000 := by
  unfold leak
  rw [Int.toNat_natCast, mulWord_of_lt hleak]

theorem leak_elapsed (hlast : lr.last ≤ now) (hnow : now < wordRange)
    (hleak : rate * (now - lr.last) < 2 ^ 63) :
    1000 * leak rate (elapsed now lr.last) + rate * lr.last ≤ rate * now ∧
      rate * lr.lastAt now (elapsed now lr.last) = rate * now := by
  rcases rate_cases hleak with rfl | hlt
  · rw [leak_zero]
    omega
  have hms : elapsed now lr.last = ((now - lr.last : Nat) : Int) := by
    unfold elapsed
    rw [signed_since hlast hnow hlt]
    simp only
    rw [if_neg (by omega), if_neg (by omega)]
  rw [hms, leak_since hleak]
  have hmul : rate * (now - lr.last) + rate * lr.last = rate * now := by
    rw [← Nat.mul_add, Nat.sub_add_cancel hlast]
  refine ⟨by omega, ?_⟩
  unfold ReqNode.lastAt
  split
  · rfl
  · rw [show lr.last = now by omega]

theorem dry_of_idle (hlast : lr.last ≤ now) (hnow : now < wordRange)
    (hleak : rate * (now - lr.last) < 2 ^ 63)
    (hexcess : lr.excess < 2 ^ 63) (hidle : lr.idle rate now = true) :
    1000 * lr.excess + rate * lr.last ≤ rate * now := by
  have hdry : ∀ ms, signed (subWord lr.excess (leak rate ms)) ≤ 0 → lr.excess ≤ leak rate ms :=
    fun ms hle => by
    rw [signed_subWord hexcess (leak_lt rate ms)] at hle
    omega
  unfold ReqNode.idle at hidle
  simp only at hidle
  generalize hms : (if signed (subWord now lr.last) ≥ 0 then signed (subWord now lr.last)
    else -signed (subWord now lr.last)) = ms at hidle
  split at hidle
  · exact absurd hidle Bool.false_ne_true
  have hle := hdry _ (of_decide_eq_true hidle)
  rcases rate_cases hleak with rfl | hlt
  · rw [leak_zero] at hle
    omega
  rw [signed_since hlast hnow hlt, if_pos (by omega)] at hms
  rw [← hms, leak_since hleak] at hle
  have hmul : rate * (now - lr.last) + rate * lr.last = rate * now := by
    rw [← Nat.mul_add, Nat.sub_add_cancel hlast]
  omega

/-! ## What is stored -/

section stored

variable {queue after : List ReqNode} {removed : List Removal} {key : Bytes}

theorem stored_cons_self (hkey : lr.key = key) :
    stored key (lr :: queue) = some ⟨lr.excess, lr.last⟩ := by
  have hfind : (lr :: queue).find? (fun x => decide (x.key = key)) = some lr :=
    find?_cons_of_pos (decide_eq_true hkey)
  unfold stored
  rw [hfind]
  rfl

theorem stored_cons_ne (hkey : lr.key ≠ key) : stored key (lr :: queue) = stored key queue := by
  unfold stored
  rw [find?_cons_of_neg (by simpa using hkey)]

theorem stored_eq_none (hnone : ∀ lr ∈ queue, lr.key ≠ key) : stored key queue = none := by
  unfold stored
  rw [find?_eq_none.mpr fun lr hlr => by simpa using hnone lr hlr]
  rfl

theorem stored_of_mem (h : Keyed queue) (hmem : lr ∈ queue) (hkey : lr.key = key) :
    stored key queue = some ⟨lr.excess, lr.last⟩ := by
  unfold stored
  rw [(find_iff h).mpr ⟨hmem, hkey⟩]
  rfl

theorem mem_of_stored {b : Bucket} (hstored : stored key queue = some b) :
    ∃ lr ∈ queue, lr.key = key ∧ b = ⟨lr.excess, lr.last⟩ := by
  obtain ⟨lr, hfind, rfl⟩ := map_eq_some_iff.mp hstored
  have hkey := find?_some hfind
  exact ⟨lr, mem_of_find?_eq_some hfind, of_decide_eq_true hkey, rfl⟩

theorem stored_found (h : Keyed queue) {found : Bytes}
    (hfind : queue.find? (·.key = found) = some lr) :
    stored key (lr :: queue.eraseP (·.key = found)) = stored key queue := by
  have hmoved := h.perm (perm_found hfind)
  unfold stored
  congr 1
  ext x
  rw [find_iff hmoved, find_iff h, (perm_found hfind).mem_iff]

theorem stored_replace (h : Keyed queue) {found : Bytes}
    (hfind : queue.find? (·.key = found) = some lr)
    {lr' : ReqNode} (hkey : lr'.key = lr.key) (hne : lr.key ≠ key) :
    stored key (lr' :: queue.eraseP (·.key = found)) = stored key queue := by
  rw [stored_cons_ne (hkey.trans_ne hne), ← stored_found h hfind, stored_cons_ne hne]

end stored

/-! ## One request -/

/-- A node after a request that was let through. -/
def ReqNode.granted (rate now : Nat) (lr : ReqNode) : ReqNode :=
  { lr with
    excess := lr.excessWith rate (elapsed now lr.last),
    last := lr.lastAt now (elapsed now lr.last) }

theorem arrive_spec (queue : List ReqNode) (a : Arrival) :
    (∃ lr, queue.find? (·.key = a.key) = some lr ∧
        (burst < lr.excessWith rate (elapsed a.now lr.last) ∧
            arrive rate burst queue a = ⟨.busy, lr.excessWith rate (elapsed a.now lr.last),
              lr :: queue.eraseP (·.key = a.key), none, []⟩ ∨
          (lr.granted rate a.now).excess ≤ burst ∧
            arrive rate burst queue a = ⟨.ok, lr.excessWith rate (elapsed a.now lr.last),
              lr.granted rate a.now :: queue.eraseP (·.key = a.key), none, []⟩)) ∨
      (∀ lr ∈ queue, lr.key ≠ a.key) ∧ ∃ after removed, Expires rate a.now queue after removed ∧
        (arrive rate burst queue a = ⟨.ok, 0, ⟨a.key, a.now, 0, 0⟩ :: after, none, removed⟩ ∨
          arrive rate burst queue a = ⟨.error, 0, after, none, removed⟩) := by
  rcases @lookup_spec rate burst a.now queue a.alloc a.key true with
    ⟨lr, hfind, -, hresult⟩ | ⟨hnew, after, removed, hexpires, hresult⟩
  · simp only at hresult
    refine .inl ⟨lr, hfind, ?_⟩
    by_cases hbusy : burst < lr.excessWith rate (elapsed a.now lr.last)
    · rw [if_pos hbusy] at hresult
      exact .inl ⟨hbusy, hresult⟩
    · rw [if_neg hbusy, if_pos trivial] at hresult
      refine .inr ⟨?_, hresult⟩
      simp only [ReqNode.granted]
      omega
  · exact .inr ⟨hnew, after, removed, hexpires, hresult⟩

/-- The nodes of a zone between two requests. -/
structure Stocked (burst first now : Nat) (queue : List ReqNode) : Prop where
  keyed : Keyed queue
  excess : ∀ lr ∈ queue, lr.excess ≤ burst
  last : ∀ lr ∈ queue, first ≤ lr.last ∧ lr.last ≤ now

namespace Stocked

variable {first : Nat} {queue after : List ReqNode} {removed : List Removal} {a : Arrival}

theorem nil : Stocked burst first now [] where
  keyed := nodup_nil
  excess := fun _ hlr => absurd hlr not_mem_nil
  last := fun _ hlr => absurd hlr not_mem_nil

theorem later {now' : Nat} (h : Stocked burst first now queue) (hnow : now ≤ now') :
    Stocked burst first now' queue where
  keyed := h.keyed
  excess := h.excess
  last := fun lr hlr => ⟨(h.last lr hlr).1, (h.last lr hlr).2.trans hnow⟩

theorem expires {t : Nat} (h : Stocked burst first now queue)
    (hexpires : Expires rate t queue after removed) :
    Stocked burst first now after where
  keyed := hexpires.keyed h.keyed
  excess := fun lr hlr => h.excess lr (hexpires.subset hlr)
  last := fun lr hlr => h.last lr (hexpires.subset hlr)

theorem cons (h : Stocked burst first now queue) (hkeyed : Keyed (lr :: after))
    (hsub : ∀ x ∈ after, x ∈ queue) (hexcess : lr.excess ≤ burst)
    (hlast : first ≤ lr.last ∧ lr.last ≤ now) :
    Stocked burst first now (lr :: after) where
  keyed := hkeyed
  excess := fun x hx => (mem_cons.mp hx).elim (fun heq => heq ▸ hexcess) fun hx =>
    h.excess x (hsub x hx)
  last := fun x hx => (mem_cons.mp hx).elim (fun heq => heq ▸ hlast) fun hx => h.last x (hsub x hx)

theorem arrive (h : Stocked burst first now queue) (hnow : now ≤ a.now) (hfirst : first ≤ a.now) :
    Stocked burst first a.now (arrive rate burst queue a).queue := by
  have hlater := h.later hnow
  rcases @arrive_spec rate burst queue a with
    ⟨lr, hfind, ⟨-, hresult⟩ | ⟨hle, hresult⟩⟩ | ⟨hnew, after, removed, hexpires, hresult | hresult⟩
  · have hmem := mem_of_find?_eq_some hfind
    rw [hresult]
    exact hlater.cons (h.keyed.perm (perm_found hfind)) (fun x hx => mem_of_mem_eraseP hx)
      (hlater.excess lr hmem) (hlater.last lr hmem)
  · have hmem := mem_of_find?_eq_some hfind
    rw [hresult]
    refine hlater.cons (h.keyed.replace hfind rfl) (fun x hx => mem_of_mem_eraseP hx) hle ?_
    unfold ReqNode.granted ReqNode.lastAt
    simp only
    split
    · exact ⟨hfirst, le_rfl⟩
    · exact hlater.last lr hmem
  · have hafter := hlater.expires hexpires
    rw [hresult]
    exact hafter.cons (hafter.keyed.insert fun x hx => hnew x (hexpires.subset hx)) (fun x hx => hx)
      (Nat.zero_le _) ⟨hfirst, le_rfl⟩
  · rw [hresult]
    exact hlater.expires hexpires

end Stocked

/-! ## The account of a key -/

section account

variable {first start n dropped : Nat} {queue after : List ReqNode}
    {removed : List Removal} {key : Bytes}

/-- The ledger goes on where nodes expire. -/
theorem ledger_expires (hburst : burst < 2 ^ 63) (h : Stocked burst first now queue)
    (hword : now < wordRange)
    (hrate : rate * (now - first) < 2 ^ 63) (hstart : start ≤ now)
    (hledger : Ledger 1000000 1000 rate start n dropped now (stored key queue))
    (hexpires : Expires rate now queue after removed)
    (hunforced : ∀ x ∈ removed, x.node.key = key → x.forced = false) :
    Ledger 1000000 1000 rate start n (dropped + removed.countP fun x =>
      x.node.key = key) now (stored key after) := by
  have hkeyed := h.keyed
  have hcount : (removed.countP fun x => x.node.key = key) =
      ((removed.map Removal.node).reverse.map ReqNode.key).count key := by
    rw [List.count, countP_map, countP_reverse, countP_map]
    exact countP_congr fun x _ => by simp
  unfold Keyed at hkeyed
  rw [hexpires.split, map_append] at hkeyed
  have hdisjoint := nodup_append.mp hkeyed
  by_cases hgone : ∃ x ∈ removed, x.node.key = key
  · -- the node of the key is taken away, once
    obtain ⟨x, hx, hkey⟩ := hgone
    have hmem : x.node ∈ (removed.map Removal.node).reverse := mem_reverse.mpr (mem_map_of_mem hx)
    have hqueue : x.node ∈ queue := hexpires.split ▸ mem_append_right _ hmem
    have hkeymem : key ∈ (removed.map Removal.node).reverse.map ReqNode.key :=
      hkey ▸ mem_map_of_mem hmem
    rw [hcount, count_eq_one_of_mem hdisjoint.2.1 hkeymem, stored_eq_none fun lr hlr heq =>
      hdisjoint.2.2 lr.key (mem_map_of_mem hlr) key hkeymem heq]
    rw [stored_of_mem h.keyed hqueue hkey] at hledger
    have hlast := h.last _ hqueue
    have hleak : rate * (now - x.node.last) < 2 ^ 63 :=
      lt_of_le_of_lt (Nat.mul_le_mul_left rate (Nat.sub_le_sub_left hlast.1 now)) hrate
    exact hledger.drop hstart
      (dry_of_idle hlast.2 hword hleak (lt_of_le_of_lt (h.excess _ hqueue) hburst)
      (hexpires.idle x hx (hunforced x hx hkey)))
  · -- the others do not concern the key
    have hother : ∀ lr ∈ (removed.map Removal.node).reverse, lr.key ≠ key := fun lr hlr heq => by
      obtain ⟨x, hx, rfl⟩ := mem_map.mp (mem_reverse.mp hlr)
      exact hgone ⟨x, hx, heq⟩
    have hsame : stored key after = stored key queue := by
      have hnone : (removed.map Removal.node).reverse.find? (·.key = key) = none :=
        find?_eq_none.mpr fun lr hlr => by simpa using hother lr hlr
      unfold stored
      rw [hexpires.split, find?_append, hnone, or_none]
    rw [hsame, countP_eq_zero.mpr fun x hx => by simpa using fun heq => hgone ⟨x, hx, heq⟩]
    exact hledger

/-- The ledger of a key goes on over an arrival. -/
theorem ledger_arrive {a : Arrival} (hburst : burst + 1000 < 2 ^ 63)
    (h : Stocked burst first now queue)
    (hnow : now ≤ a.now) (hword : a.now < wordRange)
    (hrate : rate * (a.now - first) < 2 ^ 63) (hstart : start ≤ a.now)
    (hledger : Ledger 1000000 1000 rate start n dropped now (stored key queue))
    (hunforced : Unforced key (arrive rate burst queue a)) :
    Ledger 1000000 1000 rate start
      (n + if a.key = key ∧ (arrive rate burst queue a).admits then 1 else 0)
      (dropped + (arrive rate burst queue a).removals key) a.now
        (stored key (arrive rate burst queue a).queue) := by
  have hlater := h.later hnow
  have hledger := hledger.later hnow
  rcases @arrive_spec rate burst queue a with
    ⟨lr, hfind, ⟨-, hresult⟩ | ⟨hle, hresult⟩⟩ | ⟨hnew, after, removed, hexpires, hresult⟩
  · -- refused
    rw [hresult, if_neg fun h => Bool.false_ne_true h.2]
    simp only [stored_found h.keyed hfind]
    exact hledger
  · rw [hresult]
    obtain ⟨hmem, hkey⟩ := (find_iff h.keyed).mp hfind
    by_cases hsame : a.key = key
    · -- the bucket is filled
      have hlast := hlater.last lr hmem
      have hleak : rate * (a.now - lr.last) < 2 ^ 63 :=
        lt_of_le_of_lt (Nat.mul_le_mul_left rate (Nat.sub_le_sub_left hlast.1 a.now)) hrate
      obtain ⟨hfill, hclock⟩ := leak_elapsed hlast.2 hword hleak
      have hexcess : lr.excess + 1000 < 2 ^ 63 :=
        lt_of_le_of_lt (Nat.add_le_add_right (h.excess lr hmem) 1000) hburst
      have hnew := @excessWith_eq rate lr (elapsed a.now lr.last) hexcess
      have hstartle : rate * start ≤ rate * a.now := Nat.mul_le_mul_left rate hstart
      rw [stored_of_mem h.keyed hmem (hkey.trans hsame)] at hledger
      rw [stored_cons_self (show (lr.granted rate a.now).key = key from hkey.trans
        hsame), if_pos ⟨hsame, rfl⟩]
      refine hledger.fill (hclock.symm ▸ hstartle) ?_
      simp only [ReqNode.granted, hnew, hclock]
      omega
    · rw [if_neg fun h => hsame h.1]
      simp only [stored_replace h.keyed hfind (show (lr.granted rate a.now).key = lr.key from rfl)
        (hkey ▸ hsame)]
      exact hledger
  · have hremoved : (arrive rate burst queue a).removed = removed := by
      rcases hresult with hresult | hresult <;> rw [hresult]
    unfold Unforced at hunforced
    rw [hremoved] at hunforced
    have hdropped := ledger_expires (by omega) hlater hword hrate hstart hledger hexpires hunforced
    unfold LookupResult.removals
    rw [hremoved]
    rcases hresult with hresult | hresult
    · rw [hresult]
      by_cases hsame : a.key = key
      · -- a node is put up
        rw [stored_eq_none fun lr hlr => hsame ▸ hnew lr (hexpires.subset hlr)] at hdropped
        rw [if_pos ⟨hsame, rfl⟩,
          stored_cons_self (show (ReqNode.mk a.key a.now 0 0).key = key from hsame)]
        exact hdropped.put hstart 0
      · rw [if_neg fun h =>
          hsame h.1, stored_cons_ne (show (ReqNode.mk a.key a.now 0 0).key ≠ key from hsame)]
        exact hdropped
    · rw [hresult, if_neg fun h => Bool.false_ne_true h.2]
      exact hdropped

end account

/-! ## Runs of requests -/

section runs

variable {first start d n dropped : Nat} {queue : List ReqNode}
    {arrivals : List Arrival} {key : Bytes} {a : Arrival}

theorem serve_cons (queue : List ReqNode) (a : Arrival) (arrivals : List Arrival) :
    serve rate burst queue (a :: arrivals) =
      ((serve rate burst (arrive rate burst queue a).queue arrivals).1,
        (a, arrive rate burst queue a) ::
          (serve rate burst (arrive rate burst queue a).queue arrivals).2) := rfl

theorem admitted_cons (result : LookupResult) (log : List (Arrival × LookupResult)) :
    admitted key ((a, result) :: log) =
      (if a.key = key ∧ result.admits then 1 else 0) + admitted key log := by
  unfold admitted
  rw [countP_cons, add_comm]
  simp

theorem removals_cons (result : LookupResult) (log : List (Arrival × LookupResult)) :
    removals key ((a, result) :: log) = result.removals key + removals key log := by
  unfold removals
  rw [map_cons, sum_cons]

theorem Timely.exists_first (h : Timely rate arrivals) :
    ∃ first, ∀ a ∈ arrivals, first ≤ a.now ∧ rate * (a.now - first) < 2 ^ 63 := by
  cases arrivals with
  | nil => exact ⟨0, fun a ha => absurd ha not_mem_nil⟩
  | cons a arrivals =>
    refine ⟨a.now, fun b hb => ⟨?_, h.leak a mem_cons_self b hb⟩⟩
    rcases mem_cons.mp hb with rfl | hb
    · exact le_rfl
    · exact (pairwise_cons.mp h.sorted).1 b hb

theorem serve_stocked {t : Nat} (hsorted : arrivals.Pairwise fun a b => a.now ≤ b.now)
    (hnow : ∀ a ∈ arrivals, now ≤ a.now ∧ first ≤ a.now ∧ a.now ≤ t) (hle : now ≤ t)
    (h : Stocked burst first now queue) :
    Stocked burst first t (serve rate burst queue arrivals).1 := by
  induction arrivals generalizing queue now with
  | nil => exact h.later hle
  | cons a arrivals ih =>
    obtain ⟨hafter, hsorted⟩ := pairwise_cons.mp hsorted
    obtain ⟨ha, hfirst, hat⟩ := hnow a mem_cons_self
    rw [serve_cons]
    exact ih hsorted (fun b hb => ⟨hafter b hb, (hnow b (mem_cons_of_mem a hb)).2⟩) hat
      (h.arrive ha hfirst)

theorem serve_ledger (hburst : burst + 1000 < 2 ^ 63)
    (hsorted : arrivals.Pairwise fun a b => a.now ≤ b.now)
    (hword : ∀ a ∈ arrivals, a.now < wordRange)
    (hfirst : ∀ a ∈ arrivals, first ≤ a.now ∧ rate * (a.now - first) < 2 ^ 63)
    (hnow : ∀ a ∈ arrivals, now ≤ a.now ∧ a.now ≤ start + d) (hle : start ≤ now ∧ now ≤ start + d)
    (h : Stocked burst first now queue)
    (hledger : Ledger 1000000 1000 rate start n dropped now (stored key queue))
    (hunforced : ∀ x ∈ (serve rate burst queue arrivals).2, Unforced key x.2) :
    ∃ t, t ≤ start + d ∧ Stocked burst first t (serve rate burst queue arrivals).1 ∧
      Ledger 1000000 1000 rate start (n + admitted key (serve rate burst queue arrivals).2)
        (dropped + removals key (serve rate burst queue arrivals).2) t
        (stored key (serve rate burst queue arrivals).1) := by
  induction arrivals generalizing queue now n dropped with
  | nil => exact ⟨now, hle.2, h, hledger⟩
  | cons a arrivals ih =>
    obtain ⟨hafter, hsorted⟩ := pairwise_cons.mp hsorted
    obtain ⟨ha, hat⟩ := hnow a mem_cons_self
    obtain ⟨hafirst, harate⟩ := hfirst a mem_cons_self
    rw [serve_cons] at hunforced ⊢
    have hstart := hle.1.trans ha
    have hstep := ledger_arrive hburst h ha (hword a mem_cons_self) harate hstart hledger
      (hunforced _ mem_cons_self)
    obtain ⟨t, ht, hstocked, hrest⟩ := ih hsorted (fun b hb => hword b (mem_cons_of_mem a hb))
      (fun b hb => hfirst b (mem_cons_of_mem a hb))
      (fun b hb => ⟨hafter b hb, (hnow b (mem_cons_of_mem a hb)).2⟩) ⟨hstart, hat⟩
        (h.arrive ha hafirst) hstep
      fun x hx => hunforced x (mem_cons_of_mem _ hx)
    refine ⟨t, ht, hstocked, ?_⟩
    simp only [admitted_cons, removals_cons]
    rwa [← add_assoc, ← add_assoc]

end runs

/-! ## The bound -/

/-- What a window of time admits of a key that is never forced out. -/
theorem admitted_le_of_lt {before during : List Arrival} {key : Bytes}
    {start d : Nat} (hburst : burst + 1000 < 2 ^ 63)
    (h : Timely rate (before ++ during)) (hduring : ∀ a ∈ during, start ≤ a.now ∧ a.now ≤ start + d)
    (hunforced : ∀ x ∈ (serve rate burst (serve rate burst [] before).1 during).2,
      Unforced key x.2) :
    1000 * admitted key (serve rate burst (serve rate burst [] before).1 during).2 ≤
      1000 * (1 + removals key (serve rate burst (serve rate burst [] before).1 during).2) +
        burst + rate * d / 1000 := by
  obtain ⟨first, hfirst⟩ := h.exists_first
  obtain ⟨hbefore, hsorted, hcross⟩ := pairwise_append.mp h.sorted
  cases hlist : during with
  | nil => exact Nat.zero_le _
  | cons a rest =>
    have ha : a ∈ during := hlist ▸ mem_cons_self
    obtain ⟨hstart, hend⟩ := hduring a ha
    have hempty : Stocked burst first 0 [] := .nil
    have hstocked : Stocked burst first a.now (serve rate burst [] before).1 :=
      serve_stocked hbefore (fun b hb => ⟨Nat.zero_le _, (hfirst b (mem_append_left _ hb)).1,
        hcross b hb a ha⟩) (Nat.zero_le _) hempty
    have hhead : ∀ b ∈ during, a.now ≤ b.now := fun b hb => by
      rw [hlist] at hb hsorted
      rcases mem_cons.mp hb with rfl | hb
      · exact le_rfl
      · exact (pairwise_cons.mp hsorted).1 b hb
    have hopen : Ledger 1000000 1000 rate start 0 0 a.now
      (stored key (serve rate burst [] before).1) :=
      .init _ hstart
    obtain ⟨t, ht, hafter, hledger⟩ := serve_ledger hburst hsorted
      (fun b hb => h.word b (mem_append_right _ hb)) (fun b hb => hfirst b (mem_append_right _ hb))
      (fun b hb => ⟨hhead b hb, (hduring b hb).2⟩) ⟨hstart, hend⟩ hstocked hopen hunforced
    rw [zero_add, zero_add] at hledger
    have hfull : ∀ b,
      stored key (serve rate burst (serve rate burst [] before).1 during).1 = some b →
        b.level ≤ burst ∧ b.last ≤ t := fun b hb => by
      obtain ⟨lr, hlr, -, rfl⟩ := mem_of_stored hb
      exact ⟨hafter.excess lr hlr, (hafter.last lr hlr).2⟩
    have hle := hledger.admitted_le hfull
    have htime : rate * t ≤ rate * start + rate * d := by
      rw [← Nat.mul_add]
      exact Nat.mul_le_mul_left rate ht
    rw [← hlist]
    omega

theorem stored_of_refused {queue : List ReqNode} {a : Arrival} (hkeyed : Keyed queue)
    (hrefused : (arrive rate burst queue a).admits = false) :
    stored a.key (arrive rate burst queue a).queue = stored a.key queue := by
  rcases @arrive_spec rate burst queue a with
    ⟨lr, hfind, ⟨-, hresult⟩ | ⟨-, hresult⟩⟩ | ⟨hnew, after, removed, hexpires, hresult | hresult⟩
  · rw [hresult]
    exact stored_found hkeyed hfind
  · rw [hresult] at hrefused
    exact absurd hrefused.symm Bool.false_ne_true
  · rw [hresult] at hrefused
    exact absurd hrefused.symm Bool.false_ne_true
  · rw [hresult, stored_eq_none hnew]
    exact stored_eq_none fun lr hlr => hnew lr (hexpires.subset hlr)

theorem exists_stocked {arrivals : List Arrival} (h : Timely rate arrivals) :
    ∃ first t, Stocked burst first t (serve rate burst [] arrivals).1 := by
  obtain ⟨first, hfirst⟩ := h.exists_first
  obtain ⟨t, ht⟩ : ∃ t, ∀ a ∈ arrivals, a.now ≤ t := by
    refine ⟨wordRange, fun a ha => (h.word a ha).le⟩
  have hempty : Stocked burst first 0 [] := .nil
  exact ⟨first, t,
    serve_stocked h.sorted (fun a ha => ⟨Nat.zero_le _, (hfirst a ha).1, ht a ha⟩) (Nat.zero_le _)
    hempty⟩

theorem Timely.left {arrivals more : List Arrival} (h : Timely rate (arrivals ++ more)) :
    Timely rate arrivals where
  sorted := (pairwise_append.mp h.sorted).1
  word := fun a ha => h.word a (mem_append_left _ ha)
  leak := fun a ha b hb => h.leak a (mem_append_left _ ha) b (mem_append_left _ hb)

theorem rateBound_of_lt (hburst : burst + 1000 < 2 ^ 63) : RateBound rate burst where
  admitted_le := fun _ _ _ _ _ htimely hduring _ hlog hunforced => by
    subst hlog
    exact admitted_le_of_lt hburst htimely hduring hunforced
  excess_le := fun _ htimely lr hlr => by
    obtain ⟨_, _, hstocked⟩ := exists_stocked htimely
    exact hstocked.excess lr hlr
  refused := fun _ _ htimely _ hqueue hrefused => by
    subst hqueue
    obtain ⟨_, _, hstocked⟩ := exists_stocked htimely.left
    exact stored_of_refused hstocked.keyed hrefused

/-! ## A burst whose sum with one more request has no sign -/

section overflow

variable {n j : Nat}

/-- A request at time 0. -/
def atZero : Arrival := ⟨ascii "k", 0, (true, true)⟩

/-- The zone with one node that was used at time 0. -/
def oneNode (excess : Nat) : List ReqNode := [⟨ascii "k", 0, excess, 0⟩]

theorem arrive_first (rate burst : Nat) :
    arrive rate burst [] atZero = ⟨.ok, 0, oneNode 0, none, []⟩ := rfl

theorem leak_none (rate : Nat) : leak rate 0 = 0 := by
  unfold leak mulWord
  rw [Int.toNat_zero, Nat.mul_zero]
  rfl

theorem arrive_again (hlow : 2 ^ 63 ≤ 1000 * n + 1000) (hhigh : 1000 * n < 2 ^ 63) (hj : j ≤ n) :
    ∃ excess, arrive rate (1000 * n) (oneNode (1000 * j)) atZero =
      ⟨.ok, excess, oneNode (1000 * if j < n then j + 1 else 0), none, []⟩ := by
  have hms : elapsed 0 0 = 0 := by decide
  have hexcess : ReqNode.excessWith rate 0 ⟨ascii "k", 0, 1000 * j, 0⟩ =
    1000 * if j < n then j + 1 else 0 := by
    have hsum : addWord (subWord (1000 * j) 0) 1000 = 1000 * j + 1000 :=
      addWord_subWord (Nat.zero_le _) (by rw [wordRange]; omega)
    unfold ReqNode.excessWith
    rw [leak_none, hsum]
    rcases hj.lt_or_eq with hlt | rfl
    · rw [if_pos hlt, signed_of_lt (by omega)]
      simp only
      rw [if_neg (by omega), Int.toNat_natCast, Nat.mul_succ]
    have hsigned : signed (1000 * j + 1000) < 0 := by
      rw [signed, if_neg (show ¬ 1000 * j + 1000 < 2 ^ 63 by omega), wordRange]
      omega
    rw [if_neg (lt_irrefl _), Nat.mul_zero]
    exact if_pos hsigned
  have hle : 1000 * (if j < n then j + 1 else 0) ≤ 1000 * n := by
    split <;> omega
  have hfind : (oneNode (1000 * j)).find? (·.key = atZero.key) =
    some ⟨ascii "k", 0, 1000 * j, 0⟩ := by
    simp [oneNode, atZero]
  have hrest : (oneNode (1000 * j)).eraseP (·.key = atZero.key) = [] := by
    simp [oneNode, atZero]
  rcases @arrive_spec rate (1000 * n) (oneNode (1000 * j)) atZero with
    ⟨lr, hfound, ⟨hbusy, -⟩ | ⟨-, hresult⟩⟩ | ⟨hnew, -⟩
  · obtain rfl := some.inj (hfound.symm.trans hfind)
    rw [atZero, hms, hexcess] at hbusy
    omega
  · obtain rfl := some.inj (hfound.symm.trans hfind)
    rw [hrest, ReqNode.granted, atZero, hms, hexcess] at hresult
    exact ⟨_, hresult⟩
  · exact absurd rfl (hnew _ (mem_singleton.mpr rfl))

theorem removals_eq_zero {log : List (Arrival × LookupResult)} (key : Bytes)
    (hnone : ∀ x ∈ log, x.2.removed = []) : removals key log = 0 := by
  induction log with
  | nil => rfl
  | cons x log ih =>
    rw [removals_cons, ih fun y hy => hnone y (mem_cons_of_mem x hy), LookupResult.removals,
      hnone x mem_cons_self]
    rfl

theorem serve_again (hlow : 2 ^ 63 ≤ 1000 * n + 1000) (hhigh : 1000 * n < 2 ^ 63)
    (m : Nat) (hj : j ≤ n) :
    admitted (ascii "k") (serve rate (1000 * n) (oneNode (1000 * j)) (List.replicate m atZero)).2 =
      m ∧
      ∀ x ∈ (serve rate (1000 * n) (oneNode (1000 * j)) (List.replicate m atZero)).2,
        x.2.removed = [] := by
  induction m generalizing j with
  | zero => exact ⟨rfl, fun x hx => absurd hx not_mem_nil⟩
  | succ m ih =>
    obtain ⟨excess, hstep⟩ := @arrive_again rate n j hlow hhigh hj
    have hnext : (if j < n then j + 1 else 0) ≤ n := by
      split <;> omega
    obtain ⟨hcount, hnone⟩ := ih hnext
    rw [replicate_succ, serve_cons, hstep]
    simp only
    rw [admitted_cons, hcount, if_pos ⟨rfl, rfl⟩, add_comm]
    refine ⟨rfl, fun x hx => ?_⟩
    rcases mem_cons.mp hx with rfl | hx
    · rfl
    · exact hnone x hx

theorem timely_zero (m : Nat) : Timely rate (List.replicate m atZero) where
  sorted := pairwise_replicate.mpr (.inr le_rfl)
  word := fun a ha => by
    rw [eq_of_mem_replicate ha]
    decide
  leak := fun a ha b hb => by
    rw [eq_of_mem_replicate ha, eq_of_mem_replicate hb, Nat.sub_self, Nat.mul_zero]
    exact Nat.two_pow_pos 63

theorem not_rateBound (hlow : 2 ^ 63 ≤ 1000 * n + 1000) (hhigh : 1000 * n < 2 ^ 63) :
    ¬ RateBound rate (1000 * n) := by
  intro h
  obtain ⟨hcount, hnone⟩ := @serve_again rate n 0 hlow hhigh (n + 1) (Nat.zero_le n)
  rw [Nat.mul_zero] at hcount hnone
  have hserve : serve rate (1000 * n) [] (List.replicate (n + 2) atZero) =
      ((serve rate (1000 * n) (oneNode 0) (List.replicate (n + 1) atZero)).1,
        (atZero, ⟨.ok, 0, oneNode 0, none, []⟩) ::
          (serve rate (1000 * n) (oneNode 0) (List.replicate (n + 1) atZero)).2) := by
    rw [replicate_succ, serve_cons, arrive_first]
  have hremoved : ∀ x ∈ (serve rate (1000 * n) [] (List.replicate (n + 2) atZero)).2,
    x.2.removed = [] := by
    rw [hserve]
    intro x hx
    rcases mem_cons.mp hx with rfl | hx
    · rfl
    · exact hnone x hx
  have hzero : ∀ a ∈ List.replicate (n + 2) atZero, 0 ≤ a.now ∧ a.now ≤ 0 + 0 := fun a ha => by
    rw [eq_of_mem_replicate ha]
    exact ⟨le_rfl, le_rfl⟩
  have hbound : 1000 * admitted (ascii "k")
    (serve rate (1000 * n) [] (List.replicate (n + 2) atZero)).2 ≤
      1000 * (1 + removals (ascii "k")
        (serve rate (1000 * n) [] (List.replicate (n + 2) atZero)).2) + 1000 * n +
        rate * 0 / 1000 :=
    h.admitted_le [] (List.replicate (n + 2) atZero) (ascii "k") 0 0
      (timely_zero (n + 2)) hzero _ rfl
      fun x hx y hy => absurd (hremoved x hx ▸ hy) not_mem_nil
  have hgone := removals_eq_zero (ascii "k") hremoved
  have hall : admitted (ascii "k") (serve rate (1000 * n) [] (List.replicate (n + 2) atZero)).2 =
    n + 2 := by
    rw [hserve, admitted_cons, hcount, if_pos ⟨rfl, rfl⟩]
    omega
  rw [hall, hgone, Nat.mul_zero rate, Nat.zero_div] at hbound
  omega

/-- The largest burst that the configuration can have is no limit at all. -/
theorem rateBound_overflow : ¬ RateBound 1000 (1000 * 9223372036854775) :=
  not_rateBound (by norm_num) (by norm_num)

end overflow

/-- A burst of `n` requests, whose product with 1000 is a signed number, holds the requests of every
key to the rate just when the sum with one more request is a signed number too. -/
theorem rateBound_iff (rate n : Nat) (hn : 1000 * n < 2 ^ 63) :
    RateBound rate (1000 * n) ↔ 1000 * n + 1000 < 2 ^ 63 := by
  refine ⟨fun h => ?_, rateBound_of_lt⟩
  by_contra hlow
  exact not_rateBound (not_lt.mp hlow) hn h

/-- `rate=1r/s burst=5`: of seven requests at once six are let through. -/
theorem rateBound_five : RateBound 1000 (1000 * 5) ∧
    admitted (ascii "k") (serve 1000 (1000 * 5) [] (List.replicate 7 atZero)).2 = 6 :=
  ⟨(rateBound_iff 1000 5 (by norm_num)).mpr (by norm_num), by decide⟩

end Nginx.Http.Limit
