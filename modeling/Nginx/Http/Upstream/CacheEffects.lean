/-
  Http/Upstream/CacheEffects.lean --- what a response says of how long it may be cached
  (`src/http/ngx_http_upstream.c`), with a cache and without `ignore_headers`, and when
  the order of the lines that say so makes no difference.

  The functions are given what is done with a number that does not fit: `toInt64`, as
  the program does, or nothing.  A line is skipped when a time is set already: `Expires`
  always, `Cache-Control` behind an `X-Accel-Expires`, which itself is never skipped.
-/
import Nginx.Core.Hash
import Nginx.Core.HttpTime

set_option autoImplicit false

namespace Nginx.Http.Upstream

open List Foundation
open Nginx.Core

/-- `u->cacheable`, of `r->cache` the times, and whether `u->headers_in.x_accel_expires` is set. -/
structure CacheTimes where
  cacheable : Bool
  validSec : Int
  updatingSec : Int
  errorSec : Int
  accelExpires : Bool
  deriving DecidableEq

/-- Before the header of the response. -/
def CacheTimes.init : CacheTimes := ⟨true, 0, 0, 0, false⟩

/-- `ngx_strlcasestrn`, with a pattern in lower case: what is left from the first occurrence on. -/
def strlcasestrn (pattern : Bytes) : Bytes → Option Bytes
  | [] => none
  | ch :: text =>
    if pattern <+: strlow (ch :: text) then some (ch :: text) else strlcasestrn pattern text

section number

variable (fit : Int → Int)

/-- The loop that reads a number of seconds; `none` is a byte that does not belong there. -/
def readSeconds : Int → Bytes → Option Int
  | n, [] => some n
  | n, ch :: p =>
    if ch = chr ',' ∨ ch = chr ';' ∨ ch = chr ' ' then some n
    else if isDecimal ch then readSeconds (fit (n * 10 + decimalValue ch)) p
    else none

/-- The number behind a name, if the name is there. -/
def secondsAfter (name : Bytes) (value : Bytes) : Option (Option Int) :=
  (strlcasestrn name value).map fun p => readSeconds fit 0 (p.drop name.length)

/-- `s-maxage=`, or else `max-age=`. -/
def maxAge (value : Bytes) : Option (Option Int) :=
  match secondsAfter fit (ascii "s-maxage=") value with
  | some n => some n
  | none => secondsAfter fit (ascii "max-age=") value

/-- `stale-if-error=`, at the end of `ngx_http_upstream_process_cache_control`. -/
def staleIfError (value : Bytes) (s : CacheTimes) : CacheTimes :=
  match secondsAfter fit (ascii "stale-if-error=") value with
  | none => s
  | some none => { s with cacheable := false }
  | some (some n) => { s with errorSec := n }

/-- `stale-while-revalidate=`, and what comes after it. -/
def staleWhileRevalidate (value : Bytes) (s : CacheTimes) : CacheTimes :=
  match secondsAfter fit (ascii "stale-while-revalidate=") value with
  | none => staleIfError fit value s
  | some none => { s with cacheable := false }
  | some (some n) => staleIfError fit value { s with updatingSec := n, errorSec := n }

/-- `no-cache`, `no-store` or `private`. -/
def forbidsCaching (value : Bytes) : Bool :=
  (strlcasestrn (ascii "no-cache") value).isSome || (strlcasestrn
    (ascii "no-store") value).isSome ||
    (strlcasestrn (ascii "private") value).isSome

/-- What `ngx_http_upstream_process_cache_control` does when the line counts. -/
def cacheControl (now : Int) (value : Bytes) (s : CacheTimes) : CacheTimes :=
  if forbidsCaching value then { s with cacheable := false }
  else
    match maxAge fit value with
    | none => staleWhileRevalidate fit value s
    | some none => { s with cacheable := false }
    | some (some n) =>
      if n = 0 then { s with cacheable := false }
      else staleWhileRevalidate fit value { s with validSec := fit (now + n) }

/-- `ngx_http_upstream_process_cache_control` -/
def processCacheControl (now : Int) (value : Bytes) (s : CacheTimes) : CacheTimes :=
  if s.validSec ≠ 0 ∧ s.accelExpires then s else cacheControl fit now value s

/-- What `ngx_http_upstream_process_expires` does when the line counts. -/
def expires (now : Int) (value : Bytes) (s : CacheTimes) : CacheTimes :=
  match parseHttpTime value with
  | none => { s with cacheable := false }
  | some t => if t = -1 ∨ t < now then { s with cacheable := false } else { s with validSec := t }

/-- `ngx_http_upstream_process_expires` -/
def processExpires (now : Int) (value : Bytes) (s : CacheTimes) : CacheTimes :=
  if s.validSec ≠ 0 then s else expires now value s

/-- What `ngx_http_upstream_process_accel_expires` does with the value. -/
def accelExpires (now : Int) (value : Bytes) (s : CacheTimes) : CacheTimes :=
  if value.head? ≠ some (chr '@') then
    match atoi value with
    | none => s
    | some n =>
      if n = 0 then { s with cacheable := false } else { s with validSec := fit (now + n) }
  else
    match atoi (value.drop 1) with
    | none => s
    | some n => { s with validSec := n }

/-- `ngx_http_upstream_process_accel_expires` -/
def processAccelExpires (now : Int) (value : Bytes) (s : CacheTimes) : CacheTimes :=
  accelExpires fit now value { s with accelExpires := true }

end number

/-! ## The lines -/

/-- The fields of the header. -/
inductive CacheField where
  | accelExpires
  | cacheControl
  | expires
  deriving DecidableEq

/-- A line of the header. -/
structure CacheLine where
  field : CacheField
  value : Bytes
  deriving DecidableEq

/-- The handler of a line. -/
def processLine (now : Int) (s : CacheTimes) (line : CacheLine) : CacheTimes :=
  match line.field with
  | .accelExpires => processAccelExpires toInt64 now line.value s
  | .cacheControl => processCacheControl toInt64 now line.value s
  | .expires => processExpires now line.value s

/-- The lines in the order in which they come. -/
def processLines (now : Int) (lines : List CacheLine) :
    CacheTimes := lines.foldl (processLine now) .init

/-- What a line does if it is not skipped. -/
structure Effect where
  field : CacheField
  deny : Bool
  set : Option Int
  deriving DecidableEq

/-- Of the times what the order can make a difference to. -/
structure CacheState where
  cacheable : Bool
  validSec : Int
  accel : Bool
  deriving DecidableEq

def CacheState.init : CacheState := ⟨true, 0, false⟩

namespace Effect

/-- The line does not count any more. -/
def skipped (e : Effect) (s : CacheState) : Bool :=
  match e.field with
  | .accelExpires => false
  | .cacheControl => s.validSec ≠ 0 ∧ s.accel
  | .expires => s.validSec ≠ 0

def apply (s : CacheState) (e : Effect) : CacheState :=
  { cacheable := s.cacheable && (e.skipped s || !e.deny)
    validSec := if e.skipped s then s.validSec else e.set.getD s.validSec
    accel := s.accel || e.field = .accelExpires }

def run (s : CacheState) (l : List Effect) : CacheState := l.foldl apply s

@[simp] theorem run_nil (s : CacheState) : run s [] = s := rfl

@[simp] theorem run_cons (s : CacheState) (e : Effect) (l : List Effect) :
    run s (e :: l) = run (e.apply s) l := rfl

theorem run_append (s : CacheState) (l₁ l₂ : List Effect) : run s (l₁ ++ l₂) = run (run s l₁) l₂ :=
  foldl_append

variable {e : Effect} {s : CacheState}

theorem skipped_of_validSec_eq_zero (h : s.validSec = 0) : e.skipped s = false := by
  unfold skipped
  cases e.field <;> simp [h]

theorem skipped_accelExpires (s : CacheState) (he : e.field = .accelExpires) :
    e.skipped s = false := by
  unfold skipped
  rw [he]

theorem skipped_cacheControl (he : e.field = .cacheControl) (hs : s.accel = false) :
    e.skipped s = false := by
  unfold skipped
  rw [he]
  simp [hs]

theorem apply_of_skipped (h : e.skipped s) : e.apply s = s := by
  have he : e.field ≠ .accelExpires := by
    intro he
    rw [skipped_accelExpires s he] at h
    exact absurd h Bool.false_ne_true
  simp [apply, h, he]

theorem apply_of_not_skipped (h : e.skipped s = false) :
    e.apply s =
      ⟨s.cacheable && !e.deny, e.set.getD s.validSec, s.accel || e.field = .accelExpires⟩ := by
  simp [apply, h]

theorem apply_accel (e : Effect) (s : CacheState) :
    (e.apply s).accel = (s.accel || e.field = .accelExpires) := rfl

theorem run_accel_iff {l : List Effect} :
    (run s l).accel ↔ s.accel ∨ ∃ x ∈ l, x.field = .accelExpires := by
  induction l generalizing s with
  | nil => simp
  | cons e l ih =>
    rw [run_cons, ih, apply_accel]
    simp [or_assoc]

/-! ## Which lines decide -/

/-- The line denies caching, or sets a time. -/
def Verdict (e : Effect) : Prop := e.deny ∨ e.set ≠ none

/-- A line of this field sets a time. -/
def Sets (field : CacheField) (l : List Effect) : Prop := ∃ x ∈ l, x.field = field ∧ x.set ≠ none

/-- Some line is an `X-Accel-Expires`. -/
def HasAccel (l : List Effect) : Prop := ∃ x ∈ l, x.field = .accelExpires

/-- No line of another field keeps the time of this one from staying. -/
def Counts (l : List Effect) (e : Effect) : Prop :=
  (Sets .accelExpires l → e.field = .accelExpires) ∧
    (¬HasAccel l → Sets .cacheControl l → e.field = .cacheControl)

/-- The line is skipped in no order of them. -/
def Unskippable (l : List Effect) (e : Effect) : Prop :=
  e.field = .accelExpires ∨ (e.field = .cacheControl ∧ ¬HasAccel l)

/-- The order of the lines makes no difference: those that count set the same time `v`;
where it is 0, no line sets another; and where lines that deny may be skipped, there are
none, or every line that counts and sets a time denies too. -/
def OneOrder (l : List Effect) : Prop :=
  ∃ v : Int, (∀ e ∈ l, Counts l e → e.set = none ∨ e.set = some v) ∧
    (v = 0 → ∀ e ∈ l, e.set = none ∨ e.set = some 0) ∧
    (v ≠ 0 → (∃ e ∈ l, e.deny ∧ Unskippable l e) ∨ (∀ e ∈ l, e.deny = false) ∨
      ∀ e ∈ l, Counts l e → e.set ≠ none → e.deny)

theorem exists_counts {l : List Effect} (h : ∃ x ∈ l, x.set ≠ none) :
    ∃ e ∈ l, Counts l e ∧ e.set ≠ none := by
  obtain ⟨x, hx, hset⟩ := h
  by_cases ha : Sets .accelExpires l
  · obtain ⟨e, he, hfield, hset'⟩ := ha
    refine ⟨e, he, ⟨fun _ => hfield, fun hno => ?_⟩, hset'⟩
    exact absurd ⟨e, he, hfield⟩ hno
  · by_cases hc : ¬HasAccel l ∧ Sets .cacheControl l
    · obtain ⟨e, he, hfield, hset'⟩ := hc.2
      exact ⟨e, he, ⟨fun h => absurd h ha, fun _ _ => hfield⟩, hset'⟩
    · exact ⟨x, hx, ⟨fun h => absurd h ha, fun hno hs => absurd ⟨hno, hs⟩ hc⟩, hset⟩

/-! ## When the order makes no difference -/

/-- What the states have in common when each line that counts sets `v` or no time: only
where every line counts can one be skipped before the time is `v`. -/
structure Open (l : List Effect) (v : Int) (s : CacheState) : Prop where
  accel : s.accel → HasAccel l
  time : (∀ x ∈ l, Counts l x) → s.validSec = 0 ∨ s.validSec = v

/-- The time is `v`, and only lines that count can set another. -/
structure Fixed (l : List Effect) (v : Int) (s : CacheState) : Prop where
  time : s.validSec = v
  accel : Sets .accelExpires l → s.accel

section order

variable {l : List Effect} {v : Int} (hv : ∀ e ∈ l, Counts l e → e.set = none ∨ e.set = some v)

include hv

theorem Open.step {s : CacheState} {e : Effect} (hs : Open l v s) (he : e ∈ l) :
    Open l v (e.apply s) := by
  refine ⟨fun h => ?_, fun hall => ?_⟩
  · rw [apply_accel, Bool.or_eq_true, decide_eq_true_eq] at h
    rcases h with h | h
    · exact hs.accel h
    · exact ⟨e, he, h⟩
  · rcases hk : e.skipped s with _ | _
    · rw [apply_of_not_skipped hk]
      rcases hv e he (hall e he) with h | h
      · simpa [h] using hs.time hall
      · simp [h]
    · rw [apply_of_skipped hk]
      exact hs.time hall

theorem Fixed.step {s : CacheState} {e : Effect} (hv0 : v ≠ 0) (hs : Fixed l v s) (he : e ∈ l) :
    Fixed l v (e.apply s) := by
  refine ⟨?_, fun h => by simp [apply_accel, hs.accel h]⟩
  rcases hk : e.skipped s with _ | _
  · rw [apply_of_not_skipped hk]
    have hc : Counts l e := by
      -- a line that does not count is skipped by now
      have hnz : s.validSec ≠ 0 := by rw [hs.time]; exact hv0
      unfold skipped at hk
      refine ⟨fun ha => ?_, fun hno _ => ?_⟩
      · have hacc := hs.accel ha
        cases hf : e.field <;> simp_all
      · cases hf : e.field with
        | accelExpires => exact absurd ⟨e, he, hf⟩ hno
        | cacheControl => rfl
        | expires => simp [hf, hnz] at hk
    rcases hv e he hc with h | h
    · simpa [h] using hs.time
    · simp [h]
  · rw [apply_of_skipped hk]
    exact hs.time

theorem Open.fixed {s : CacheState} {e : Effect} (hs : Open l v s)
    (he : e ∈ l) (hc : Counts l e) (hset : e.set ≠ none) :
    Fixed l v (e.apply s) := by
  have hsv : e.set = some v := (hv e he hc).resolve_left hset
  refine ⟨?_, fun ha => by simp [apply_accel, hc.1 ha]⟩
  rcases hk : e.skipped s with _ | _
  · simp [apply_of_not_skipped hk, hsv]
  rw [apply_of_skipped hk]
  have hnz : s.validSec ≠ 0 := by
    intro h0
    rw [skipped_of_validSec_eq_zero h0] at hk
    exact absurd hk Bool.false_ne_true
  have hnot : e.field ≠ .accelExpires := by
    intro hf
    rw [skipped_accelExpires s hf] at hk
    exact absurd hk Bool.false_ne_true
  have hno : ¬Sets .accelExpires l := fun ha => hnot (hc.1 ha)
  have hall : ∀ x ∈ l, Counts l x := by
    intro x _
    refine ⟨fun ha => absurd ha hno, fun hna hs' => ?_⟩
    -- without `X-Accel-Expires` a `Cache-Control` line is never skipped
    have hacc : s.accel = false := by
      rcases h : s.accel with _ | _
      · rfl
      · exact absurd (hs.accel h) hna
    rw [skipped_cacheControl (hc.2 hna hs') hacc] at hk
    exact absurd hk Bool.false_ne_true
  exact (hs.time hall).resolve_left hnz

theorem Open.run {s : CacheState} (hs : Open l v s) {l' : List Effect} (hl : ∀ e ∈ l', e ∈ l) :
    Open l v (run s l') := by
  induction l' generalizing s with
  | nil => exact hs
  | cons e l' ih =>
    rw [forall_mem_cons] at hl
    exact ih (hs.step hv hl.1) hl.2

theorem Fixed.run {s : CacheState} (hv0 : v ≠ 0) (hs : Fixed l v s)
    {l' : List Effect} (hl : ∀ e ∈ l', e ∈ l) : Fixed l v (run s l') := by
  induction l' generalizing s with
  | nil => exact hs
  | cons e l' ih =>
    rw [forall_mem_cons] at hl
    exact ih (hs.step hv hv0 hl.1) hl.2

theorem run_validSec {s : CacheState} (hv0 : v ≠ 0) (hs : Open l v s)
    {l' : List Effect} (hl : ∀ e ∈ l', e ∈ l)
    (hset : ∃ e ∈ l', Counts l e ∧ e.set ≠ none) : (run s l').validSec = v := by
  obtain ⟨e, he, hc, hset⟩ := hset
  obtain ⟨front, back, rfl⟩ := append_of_mem he
  have hfront : Open l v (Effect.run s front) := hs.run hv fun x hx => hl x (mem_append_left _ hx)
  have hel : e ∈ l := hl e he
  rw [run_append, run_cons]
  exact (Fixed.run hv hv0 (hfront.fixed hv hel hc hset) fun x hx =>
    hl x (mem_append_right _ (mem_cons_of_mem _ hx))).time

end order

theorem run_no_deny {l : List Effect} (h : ∀ e ∈ l, e.deny = false) :
    (run s l).cacheable = s.cacheable := by
  induction l generalizing s with
  | nil => rfl
  | cons e l ih =>
    rw [forall_mem_cons] at h
    rw [run_cons, ih h.2]
    simp [apply, h.1]

theorem run_denied {l : List Effect} (h : s.cacheable = false) : (run s l).cacheable = false := by
  induction l generalizing s with
  | nil => exact h
  | cons e l ih => exact ih (by simp [apply, h])

theorem run_unskippable {l l' : List Effect} (hs : s.accel → HasAccel l) (hl : ∀ e ∈ l', e ∈ l)
    (h : ∃ e ∈ l', e.deny ∧ Unskippable l e) : (run s l').cacheable = false := by
  obtain ⟨e, he, hd, hu⟩ := h
  obtain ⟨front, back, rfl⟩ := append_of_mem he
  rw [run_append, run_cons]
  refine run_denied ?_
  have hk : e.skipped (run s front) = false := by
    rcases hu with hf | ⟨hf, hno⟩
    · exact skipped_accelExpires _ hf
    · refine skipped_cacheControl hf (Bool.eq_false_iff.mpr fun h => hno ?_)
      rcases run_accel_iff.mp h with h | ⟨x, hx, hxf⟩
      · exact hs h
      · exact ⟨x, hl x (mem_append_left _ hx), hxf⟩
  simp [apply_of_not_skipped hk, hd]

theorem run_all_zero {l : List Effect} (h : ∀ e ∈ l, e.set = none ∨ e.set = some 0)
    (h0 : s.validSec = 0) :
    (run s l).validSec = 0 ∧ (run s l).cacheable = (s.cacheable && l.all (!·.deny)) := by
  induction l generalizing s with
  | nil => simp [h0]
  | cons e l ih =>
    rw [forall_mem_cons] at h
    have hk := apply_of_not_skipped (skipped_of_validSec_eq_zero (e := e) h0)
    have h0' : (e.apply s).validSec = 0 := by
      rw [hk]
      rcases h.1 with h | h <;> simp [h, h0]
    obtain ⟨hval, hca⟩ := ih h.2 h0'
    refine ⟨hval, ?_⟩
    rw [run_cons, hca, hk, all_cons, Bool.and_assoc]

theorem run_setters_deny {l : List Effect} (h : ∀ e ∈ l, e.set ≠ none → e.deny)
    (hs : s.validSec ≠ 0 → s.cacheable = false) :
    (run s l).validSec ≠ 0 → (run s l).cacheable = false := by
  induction l generalizing s with
  | nil => exact hs
  | cons e l ih =>
    rw [forall_mem_cons] at h
    refine ih h.2 fun hnz => ?_
    rcases hk : e.skipped s with _ | _
    · rw [apply_of_not_skipped hk] at hnz ⊢
      rcases hset : e.set with _ | t
      · simp only [hset, Option.getD_none] at hnz
        simp [hs hnz]
      · simp [h.1 (by simp [hset])]
    · rw [apply_of_skipped hk] at hnz ⊢
      exact hs hnz

/-- The time that the lines leave: that of the lines that count, if they set one. -/
def Leaves (l : List Effect) (t : Int) : Prop :=
  (∀ e ∈ l, Counts l e → e.set ≠ none → e.set = some t) ∧ ((∀ e ∈ l, e.set = none) → t = 0)

theorem Leaves.unique {l : List Effect} {t t' : Int} (h : Leaves l t) (h' : Leaves l t') :
    t = t' := by
  by_cases hset : ∃ x ∈ l, x.set ≠ none
  · obtain ⟨e, he, hc, hne⟩ := exists_counts hset
    exact Option.some.inj ((h.1 e he hc hne).symm.trans (h'.1 e he hc hne))
  · push Not at hset
    rw [h.2 hset, h'.2 hset]

/-- Where the order does not matter, what every order leaves behind. -/
theorem run_of_oneOrder {l l' : List Effect} (h : OneOrder l) (hp : l'.Perm l) :
    (run .init l').cacheable = l.all (!·.deny) ∧ Leaves l (run .init l').validSec := by
  obtain ⟨v, hv, hzero, hnz⟩ := h
  have hmem : ∀ e ∈ l', e ∈ l := fun e he => hp.mem_iff.mp he
  have hall : l'.all (!·.deny) = l.all (!·.deny) := hp.all_eq
  have hset : (∀ e ∈ l, e.set = none ∨ e.set = some 0) →
      (run .init l').cacheable = l.all (!·.deny) ∧ Leaves l (run .init l').validSec := by
    intro h0
    obtain ⟨hval, hca⟩ := run_all_zero (s := .init) (fun e he => h0 e (hmem e he)) rfl
    refine ⟨by rw [hca, hall]; rfl, fun e he _ hne => ?_, fun _ => hval⟩
    rw [hval]
    exact (h0 e he).resolve_left hne
  by_cases hv0 : v = 0
  · exact hset (hzero hv0)
  by_cases hsome : ∃ x ∈ l, x.set ≠ none
  swap
  · push Not at hsome
    exact hset fun e he => .inl (hsome e he)
  have hopen : Open l v .init := ⟨fun h => absurd h Bool.false_ne_true, fun _ => .inl rfl⟩
  have hval : (run .init l').validSec = v := by
    obtain ⟨e, he, hc, hne⟩ := exists_counts hsome
    exact run_validSec hv hv0 hopen hmem ⟨e, hp.mem_iff.mpr he, hc, hne⟩
  refine ⟨?_, fun e he hc hne => ?_, fun hno => ?_⟩
  · by_cases hd : ∀ e ∈ l, e.deny = false
    · rw [run_no_deny fun e he => hd e (hmem e he)]
      exact (all_eq_true.mpr fun e he => by simp [hd e he]).symm
    have hfalse : l.all (!·.deny) = false := by
      rw [Bool.eq_false_iff, ne_eq, all_eq_true]
      intro hall
      exact hd fun e he => by simpa using hall e he
    rw [hfalse]
    rcases hnz hv0 with ⟨e, he, hu⟩ | hnone | hdeny
    · exact run_unskippable (fun h => absurd h Bool.false_ne_true) hmem ⟨e, hp.mem_iff.mpr he, hu⟩
    · exact absurd hnone hd
    by_cases hc : ∀ e ∈ l, Counts l e
    · -- a time is set, and the line that sets it denies
      have hvne : (run .init l').validSec ≠ 0 := by rw [hval]; exact hv0
      exact run_setters_deny (fun e he hne => hdeny e (hmem e he) (hc e (hmem e he)) hne) (fun h =>
        absurd rfl h) hvne
    -- a line that counts is never skipped
    obtain ⟨e, he, hce, hne⟩ := exists_counts hsome
    refine run_unskippable (fun h => absurd h Bool.false_ne_true) hmem
      ⟨e, hp.mem_iff.mpr he, hdeny e he hce hne, ?_⟩
    by_cases ha : Sets .accelExpires l
    · exact .inl (hce.1 ha)
    · by_cases hno : ¬HasAccel l ∧ Sets .cacheControl l
      · exact .inr ⟨hce.2 hno.1 hno.2, hno.1⟩
      · exact absurd (fun x _ => ⟨fun h => absurd h ha, fun h₁ h₂ => absurd ⟨h₁, h₂⟩ hno⟩) hc
  · rw [hval]
    exact (hv e he hc).resolve_left hne
  · obtain ⟨x, hx, hne⟩ := hsome
    exact absurd (hno x hx) hne

/-! ## Only then -/

theorem skipped_of_behind (h0 : s.validSec ≠ 0)
    (he : e.field = .expires ∨ (s.accel ∧ e.field = .cacheControl)) : e.skipped s := by
  unfold skipped
  rcases he with he | ⟨hacc, he⟩ <;> simp_all

theorem run_no_set {l : List Effect} (h : ∀ e ∈ l, e.set = none) :
    (run s l).validSec = s.validSec := by
  induction l generalizing s with
  | nil => rfl
  | cons e l ih =>
    rw [forall_mem_cons] at h
    rw [run_cons, ih h.2]
    simp [apply, h.1]

theorem run_keeps {l : List Effect} {v : Int} (hv0 : v ≠ 0) (hs : s.validSec = v)
    (h : ∀ e ∈ l, e.set = none ∨ e.set = some v ∨ e.field = .expires ∨
      (s.accel ∧ e.field = .cacheControl)) :
    (run s l).validSec = v := by
  induction l generalizing s with
  | nil => exact hs
  | cons e l ih =>
    rw [forall_mem_cons] at h
    refine ih ?_ fun x hx => ?_
    · rcases hk : e.skipped s with _ | _
      · rw [apply_of_not_skipped hk]
        rcases h.1 with hset | hset | hbehind
        · simpa [hset] using hs
        · simp [hset]
        · rw [skipped_of_behind (by rw [hs]; exact hv0) hbehind] at hk
          exact absurd hk.symm Bool.false_ne_true
      · rw [apply_of_skipped hk]
        exact hs
    · rw [apply_accel]
      refine (h.2 x hx).imp_right (Or.imp_right (Or.imp_right fun h => ⟨?_, h.2⟩))
      simp [h.1]

theorem run_calm {l : List Effect} {v : Int} (hv0 : v ≠ 0) (hs : s.validSec = v)
    (h : ∀ e ∈ l, (e.deny = false ∧ (e.set = none ∨ e.set = some v)) ∨ e.field = .expires ∨
      (s.accel ∧ e.field = .cacheControl)) :
    (run s l).cacheable = s.cacheable := by
  induction l generalizing s with
  | nil => rfl
  | cons e l ih =>
    rw [forall_mem_cons] at h
    have hstep : (e.apply s).cacheable = s.cacheable ∧ (e.apply s).validSec = v := by
      rcases h.1 with ⟨hd, hset⟩ | hbehind
      · refine ⟨by simp [apply, hd], ?_⟩
        exact run_keeps (l := [e]) hv0 hs (by simpa using hset.imp_right .inl)
      · rw [apply_of_skipped (skipped_of_behind (by rw [hs]; exact hv0) hbehind)]
        exact ⟨rfl, hs⟩
    rw [run_cons, ih hstep.2 ?_, hstep.1]
    intro x hx
    rw [apply_accel]
    exact (h.2 x hx).imp_right (Or.imp_right fun h => ⟨by simp [h.1], h.2⟩)

theorem run_nonzero {l : List Effect}
    (h : ∀ e ∈ l, e.field = .expires ∨ (s.accel ∧ e.field = .cacheControl))
    (hset : s.validSec ≠ 0 ∨ ∃ e ∈ l, ∃ t, e.set = some t ∧ t ≠ 0) : (run s l).validSec ≠ 0 := by
  induction l generalizing s with
  | nil => exact hset.resolve_right (by simp)
  | cons e l ih =>
    rw [forall_mem_cons] at h
    refine ih (fun x hx => ?_) ?_
    · rw [apply_accel]
      exact (h.2 x hx).imp_right fun h => ⟨by simp [h.1], h.2⟩
    by_cases h0 : s.validSec = 0
    · obtain ⟨x, hx, t, hxt, ht⟩ := hset.resolve_left (fun h => h h0)
      rcases mem_cons.mp hx with rfl | hx
      · left
        rw [apply_of_not_skipped (skipped_of_validSec_eq_zero h0)]
        simpa [hxt] using ht
      · exact .inr ⟨x, hx, t, hxt, ht⟩
    · rw [apply_of_skipped (skipped_of_behind h0 h.1)]
      exact .inl h0

theorem accel_first (l : List Effect) :
    (l.filter (fun e => decide (e.field = .accelExpires)) ++ l.filter fun e =>
      !decide (e.field = .accelExpires)).Perm l :=
  filter_append_perm _ l

section orders

variable {l : List Effect} {c : Bool} {v : Int}
  (h : ∀ l' : List Effect, l'.Perm l → (run .init l').cacheable = c ∧ (run .init l').validSec = v)

include h

theorem set_of_orders (hexp : ∀ e ∈ l, e.field = .expires → e.set ≠ some 0)
    {e : Effect} (he : e ∈ l) (hc : Counts l e) :
    e.set = none ∨ e.set = some v := by
  rcases hset : e.set with _ | t
  · exact .inl rfl
  right
  congr
  have hperm : (e :: l.erase e).Perm l := (perm_cons_erase he).symm
  have hmem : ∀ x ∈ l.erase e, x ∈ l := fun x hx => mem_of_mem_erase hx
  have hna : e.field ≠ .accelExpires → ∀ x ∈ l, x.field = .accelExpires → x.set = none := by
    intro hf x hx hxa
    by_contra hne
    exact hf (hc.1 ⟨x, hx, hxa, hne⟩)
  cases hf : e.field with
  | accelExpires =>
    -- at the end it is not skipped
    have := (h _ ((perm_append_singleton e (l.erase e)).trans hperm)).2
    rw [run_append, run_cons, run_nil, apply_of_not_skipped (skipped_accelExpires _ hf), hset]
      at this
    exact this
  | cacheControl =>
    -- in front of `X-Accel-Expires` it is not skipped, and these set no time
    have hsplit := accel_first (l.erase e)
    generalize hA : (l.erase e).filter (fun e => decide (e.field = .accelExpires)) =
      accels at hsplit
    generalize hB : (l.erase e).filter (fun e => !decide (e.field = .accelExpires)) =
      others at hsplit
    have hp : (others ++ e :: accels).Perm l := by
      refine (perm_middle.trans ?_).trans hperm
      exact (perm_append_comm.trans hsplit).cons e
    have hacc : (run .init others).accel = false := by
      rw [Bool.eq_false_iff]
      intro hacc
      obtain ⟨x, hx, hxf⟩ := (run_accel_iff.mp hacc).resolve_left Bool.false_ne_true
      rw [← hB, mem_filter] at hx
      simp [hxf] at hx
    have := (h _ hp).2
    rw [run_append, run_cons, apply_of_not_skipped (skipped_cacheControl hf hacc), hset] at this
    rw [← this, run_no_set]
    · rfl
    intro x hx
    rw [← hA, mem_filter, decide_eq_true_eq] at hx
    exact hna (by simp [hf]) x (hmem x hx.1) hx.2
  | expires =>
    have ht : t ≠ 0 := fun h0 => hexp e he hf (by rw [hset, h0])
    have hk := apply_of_not_skipped (e := e) (s := .init) (skipped_of_validSec_eq_zero rfl)
    have hval : (e.apply .init).validSec = t := by rw [hk, hset]; rfl
    by_cases ha : HasAccel l
    · -- `X-Accel-Expires` right behind it, and all others are skipped
      have hsplit := accel_first (l.erase e)
      have := (h _ ((hsplit.cons e).trans hperm)).2
      rw [run_cons, run_append] at this
      rw [← this]
      symm
      refine run_keeps ht (run_keeps ht hval fun x hx => .inl ?_) fun x hx => ?_
      · rw [mem_filter, decide_eq_true_eq] at hx
        exact hna (by simp [hf]) x (hmem x hx.1) hx.2
      have hacc :
        (run (e.apply .init)
        ((l.erase e).filter fun e => decide (e.field = .accelExpires))).accel := by
        obtain ⟨a, ha, haf⟩ := ha
        refine run_accel_iff.mpr (.inr ⟨a, mem_filter.mpr ⟨?_, by simp [haf]⟩, haf⟩)
        exact (mem_erase_of_ne (by rintro rfl; simp [hf] at haf)).mpr ha
      rw [mem_filter] at hx
      cases hxf : x.field with
      | accelExpires => simp [hxf] at hx
      | cacheControl => exact .inr (.inr (.inr ⟨hacc, rfl⟩))
      | expires => exact .inr (.inr (.inl rfl))
    · have := (h _ hperm).2
      rw [run_cons] at this
      rw [← this]
      symm
      refine run_keeps ht hval fun x hx => ?_
      cases hxf : x.field with
      | accelExpires => exact absurd ⟨x, hmem x hx, hxf⟩ ha
      | cacheControl =>
        left
        by_contra hne
        have := hc.2 ha ⟨x, hmem x hx, hxf, hne⟩
        simp [hf] at this
      | expires => exact .inr (.inr (.inl rfl))

theorem zero_of_orders (hexp : ∀ e ∈ l, e.field = .expires → e.set ≠ some 0)
    (hv0 : v = 0) {e : Effect} (he : e ∈ l) :
    e.set = none ∨ e.set = some 0 := by
  rcases hset : e.set with _ | t
  · exact .inl rfl
  right
  congr
  by_contra ht
  by_cases hc : Counts l e
  · have := set_of_orders h hexp he hc
    simp_all
  -- a line that does not count sets it behind those that do
  have hlast : ∀ first others : List Effect, (first ++ others).Perm l → e ∈ others →
      (∀ x ∈ others, x.field = .expires ∨ ((run .init first).accel ∧ x.field = .cacheControl)) →
        False := by
    intro first others hp heo hbehind
    have hval := (h _ hp).2
    rw [run_append, hv0] at hval
    exact run_nonzero hbehind (.inr ⟨e, heo, t, hset, ht⟩) hval
  by_cases ha : Sets .accelExpires l ∧ e.field ≠ .accelExpires
  · obtain ⟨⟨a, hal, haf, _⟩, hne⟩ := ha
    refine hlast _ _ (accel_first l) (mem_filter.mpr ⟨he, by simp [hne]⟩) fun x hx => ?_
    have hacc : (run .init (l.filter fun e => decide (e.field = .accelExpires))).accel :=
      run_accel_iff.mpr (.inr ⟨a, mem_filter.mpr ⟨hal, by simp [haf]⟩, haf⟩)
    rw [mem_filter] at hx
    cases hxf : x.field with
    | accelExpires => simp [hxf] at hx
    | cacheControl => exact .inr ⟨hacc, rfl⟩
    | expires => exact .inl rfl
  · have hno : ¬HasAccel l ∧ e.field ≠ .cacheControl := by
      by_contra hno
      refine hc ⟨fun hs => ?_, fun hna _ => ?_⟩
      · by_contra hf
        exact ha ⟨hs, hf⟩
      · by_contra hf
        exact hno ⟨hna, hf⟩
    have hef : e.field = .expires := by
      cases hf : e.field with
      | accelExpires => exact absurd ⟨e, he, hf⟩ hno.1
      | cacheControl => exact absurd hf hno.2
      | expires => rfl
    refine hlast (l.filter fun e => !decide (e.field = .expires)) (l.filter fun e =>
      decide (e.field = .expires))
      (perm_append_comm.trans (filter_append_perm _ l))
        (mem_filter.mpr ⟨he, by simp [hef]⟩) fun x hx => .inl ?_
    rw [mem_filter, decide_eq_true_eq] at hx
    exact hx.2

/-- Orders that agree: a header denies in every order, none denies, or all that set a time do. -/
theorem deny_of_orders (hexp : ∀ e ∈ l, e.field = .expires → e.set ≠ some 0) (hv0 : v ≠ 0) :
    (∃ e ∈ l, e.deny ∧ Unskippable l e) ∨ (∀ e ∈ l, e.deny = false) ∨
      ∀ e ∈ l, Counts l e → e.set ≠ none → e.deny := by
  by_contra hnot
  simp only [not_or, not_exists, not_and, not_forall, Bool.not_eq_false, Bool.not_eq_true] at hnot
  obtain ⟨hunsk, ⟨d, hd, hdeny⟩, e, he, hc, hset, hed⟩ := hnot
  have hev : e.set = some v := (set_of_orders h hexp he hc).resolve_left hset
  have hfalse : c = false := by
    have := (h _ (perm_cons_erase hd).symm).1
    rw [← this, run_cons]
    refine run_denied ?_
    rw [apply_of_not_skipped (skipped_of_validSec_eq_zero rfl)]
    simp [hdeny]
  have haccel : ∀ x ∈ l, x.field = .accelExpires → x.deny = false := by
    intro x hx hf
    rw [Bool.eq_false_iff]
    exact fun hdx => hunsk x hx hdx (.inl hf)
  have htime : ∀ x ∈ l, Counts l x → x.set = none ∨ x.set = some v :=
    fun x hx hcx => set_of_orders h hexp hx hcx
  have hmem : ∀ x ∈ l.erase e, x ∈ l := fun x hx => mem_of_mem_erase hx
  have hperm : (e :: l.erase e).Perm l := (perm_cons_erase he).symm
  suffices htrue : c = true by
    rw [hfalse] at htrue
    exact absurd htrue Bool.false_ne_true
  have hk := apply_of_not_skipped (e := e) (s := .init) (skipped_of_validSec_eq_zero rfl)
  have hval : (e.apply .init).validSec = v := by rw [hk, hev]; rfl
  by_cases hsa : Sets .accelExpires l
  · have hef := hc.1 hsa
    rw [← (h _ hperm).1, run_cons, run_calm hv0 hval]
    · rw [hk, hed]
      rfl
    intro x hx
    cases hxf : x.field with
    | accelExpires =>
      refine .inl ⟨haccel x (hmem x hx) hxf, htime x (hmem x hx) ⟨fun _ => hxf, fun hno => ?_⟩⟩
      exact absurd ⟨e, he, hef⟩ hno
    | cacheControl => exact .inr (.inr ⟨by simp [apply_accel, hef], rfl⟩)
    | expires => exact .inr (.inl rfl)
  by_cases hha : HasAccel l
  · -- the `X-Accel-Expires` lines set no time; behind them and `e` all others are skipped
    obtain ⟨a, hal, haf⟩ := hha
    have hnone : ∀ x ∈ l, x.field = .accelExpires → x.set = none := by
      intro x hx hxf
      by_contra hne
      exact hsa ⟨x, hx, hxf, hne⟩
    have hef : e.field ≠ .accelExpires := fun hf => hset (hnone e he hf)
    have hsplit := accel_first (l.erase e)
    have hp : ((l.erase e).filter (fun e => decide (e.field = .accelExpires)) ++
        e :: (l.erase e).filter fun e => !decide (e.field = .accelExpires)).Perm l :=
      (perm_middle.trans (hsplit.cons e)).trans hperm
    rw [← (h _ hp).1, run_append, run_cons]
    have hfirst : ∀ x ∈ (l.erase e).filter (fun e => decide (e.field = .accelExpires)), x ∈ l ∧
      x.field = .accelExpires := by
      intro x hx
      rw [mem_filter, decide_eq_true_eq] at hx
      exact ⟨hmem x hx.1, hx.2⟩
    have hca := run_no_deny (s := .init) fun x hx => haccel x (hfirst x hx).1 (hfirst x hx).2
    have hva := run_no_set (s := .init) fun x hx => hnone x (hfirst x hx).1 (hfirst x hx).2
    have hacc :
      (run .init ((l.erase e).filter fun e => decide (e.field = .accelExpires))).accel := by
      refine run_accel_iff.mpr (.inr ⟨a, mem_filter.mpr ⟨?_, by simp [haf]⟩, haf⟩)
      exact (mem_erase_of_ne (by rintro rfl; exact hef haf)).mpr hal
    generalize run .init ((l.erase e).filter fun e => decide (e.field = .accelExpires)) =
      st at hca hva hacc ⊢
    have hke := apply_of_not_skipped (e := e) (s := st) (skipped_of_validSec_eq_zero hva)
    rw [run_calm hv0 (by rw [hke, hev]; rfl)]
    · rw [hke, hca, hed]
      rfl
    intro x hx
    rw [mem_filter] at hx
    cases hxf : x.field with
    | accelExpires => simp [hxf] at hx
    | cacheControl => exact .inr (.inr ⟨by simp [apply_accel, hacc], rfl⟩)
    | expires => exact .inr (.inl rfl)
  · rw [← (h _ hperm).1, run_cons, run_calm hv0 hval]
    · rw [hk, hed]
      rfl
    intro x hx
    cases hxf : x.field with
    | accelExpires => exact absurd ⟨x, hmem x hx, hxf⟩ hha
    | cacheControl =>
      refine .inl ⟨?_, htime x (hmem x hx) ⟨fun hs => absurd hs hsa, fun _ _ => hxf⟩⟩
      rw [Bool.eq_false_iff]
      exact fun hdx => hunsk x (hmem x hx) hdx (.inr ⟨hxf, hha⟩)
    | expires => exact .inr (.inl rfl)

end orders

theorem orders_agree_iff {l : List Effect} (hexp : ∀ e ∈ l, e.field = .expires → e.set ≠ some 0) :
    (∀ l' : List Effect, l'.Perm l →
      (run .init l').cacheable = (run .init l).cacheable ∧
        (run .init l').validSec = (run .init l).validSec) ↔
    OneOrder l := by
  constructor
  · intro h
    refine ⟨_, fun e he hc => set_of_orders h hexp he hc, fun hv0 e he =>
      zero_of_orders h hexp hv0 he, fun hv0 => ?_⟩
    exact deny_of_orders h hexp hv0
  · intro h l' hp
    obtain ⟨hca, hval⟩ := run_of_oneOrder h hp
    obtain ⟨hca', hval'⟩ := run_of_oneOrder h (List.Perm.refl l)
    exact ⟨by rw [hca, hca'], hval.unique hval'⟩

end Effect

end Nginx.Http.Upstream
