/-
  Http/Upstream/CacheOrder.lean --- the lines of a response in any order, and what their
  documented priority says.

  Each handler does to `cacheable` and `valid_sec` what one effect does, so that the orders
  of the lines are those of their effects.
-/
import Mathlib.Data.List.Perm.Basic
import Nginx.Http.Upstream.CacheEffects

set_option autoImplicit false

namespace Nginx.Http.Upstream

open Foundation List
open Nginx.Core

section number

variable (fit : Int → Int)

/-- The time that a line sets. An `Expires` of the time 0 sets what is set already. -/
def lineTime (now : Int) (line : CacheLine) : Option Int :=
  match line.field with
  | .accelExpires =>
    if line.value.head? ≠ some (chr '@') then (atoi line.value).bind fun n =>
      if n = 0 then none else some (fit (now + n))
    else (atoi (line.value.drop 1)).map fun n => (n : Int)
  | .cacheControl =>
    if forbidsCaching line.value then none
    else (maxAge fit line.value).bind fun n => n.bind fun n =>
      if n = 0 then none else some (fit (now + n))
  | .expires => (parseHttpTime line.value).bind fun t =>
    if t = -1 ∨ t < now ∨ t = 0 then none else some t

/-- The handler of a line that is not skipped. -/
def handleLine (now : Int) (line : CacheLine) (s : CacheTimes) : CacheTimes :=
  match line.field with
  | .accelExpires => processAccelExpires fit now line.value s
  | .cacheControl => cacheControl fit now line.value s
  | .expires => expires now line.value s

/-- What a line does. -/
def effectOf (now : Int) (line : CacheLine) : Effect :=
  ⟨line.field, !(handleLine fit now line .init).cacheable, lineTime fit now line⟩

/-! ## The handlers do what the effects do -/

theorem staleIfError_validSec (value : Bytes) (s : CacheTimes) :
    (staleIfError fit value s).validSec = s.validSec ∧
      (staleIfError fit value s).accelExpires = s.accelExpires := by
  unfold staleIfError
  split <;> exact ⟨rfl, rfl⟩

theorem staleIfError_cacheable (value : Bytes) (s s' : CacheTimes) (hs' : s'.cacheable = true) :
    (staleIfError fit value s).cacheable =
      (s.cacheable && (staleIfError fit value s').cacheable) := by
  unfold staleIfError
  split <;> simp [hs']

theorem staleWhileRevalidate_validSec (value : Bytes) (s : CacheTimes) :
    (staleWhileRevalidate fit value s).validSec = s.validSec ∧
      (staleWhileRevalidate fit value s).accelExpires = s.accelExpires := by
  unfold staleWhileRevalidate
  split
  · exact staleIfError_validSec fit value s
  · exact ⟨rfl, rfl⟩
  · exact staleIfError_validSec fit value _

theorem staleWhileRevalidate_cacheable (value : Bytes) (s s' : CacheTimes)
    (hs' : s'.cacheable = true) :
    (staleWhileRevalidate fit value s).cacheable =
      (s.cacheable && (staleWhileRevalidate fit value s').cacheable) := by
  unfold staleWhileRevalidate
  split
  · exact staleIfError_cacheable fit value s s' hs'
  · simp
  · exact staleIfError_cacheable fit value _ _ hs'

theorem cacheControl_effect (now : Int) (value : Bytes) (s : CacheTimes) :
    (cacheControl fit now value s).cacheable =
      (s.cacheable && (cacheControl fit now value .init).cacheable) ∧
      (cacheControl fit now value s).validSec =
        (lineTime fit now ⟨.cacheControl, value⟩).getD s.validSec ∧
      (cacheControl fit now value s).accelExpires = s.accelExpires := by
  unfold cacheControl lineTime
  by_cases hf : forbidsCaching value
  · simp [hf]
  rcases hm : maxAge fit value with _ | _ | n
  · simp only [hf, Bool.false_eq_true, if_false]
    exact ⟨staleWhileRevalidate_cacheable fit value s .init rfl,
      staleWhileRevalidate_validSec fit value s⟩
  · simp [hf]
  by_cases hn : n = 0
  · simp [hf, hn]
  · simp only [hf, hn, Bool.false_eq_true, if_false, Option.bind_some, Option.getD_some]
    obtain ⟨hval, hacc⟩ :=
      staleWhileRevalidate_validSec fit value { s with validSec := fit (now + n) }
    exact ⟨staleWhileRevalidate_cacheable fit value _ _ rfl, hval, hacc⟩

theorem accelExpires_effect (now : Int) (value : Bytes) (s : CacheTimes) :
    (accelExpires fit now value s).cacheable =
      (s.cacheable && (accelExpires fit now value .init).cacheable) ∧
      (accelExpires fit now value s).validSec =
        (lineTime fit now ⟨.accelExpires, value⟩).getD s.validSec ∧
      (accelExpires fit now value s).accelExpires = s.accelExpires := by
  unfold accelExpires lineTime
  by_cases hv : value.head? ≠ some (chr '@')
  · rcases ha : atoi value with _ | n
    · simp [hv, CacheTimes.init]
    · by_cases hn : n = 0
      · simp [hv, hn]
      · simp [hv, hn, CacheTimes.init]
  · rcases ha : atoi (value.drop 1) with _ | n <;> simp [hv, CacheTimes.init]

end number

theorem expires_effect (now : Int) (value : Bytes) (s : CacheTimes)
    (h0 : s.validSec = 0) (fit : Int → Int) :
    (expires now value s).cacheable = (s.cacheable && (expires now value .init).cacheable) ∧
      (expires now value s).validSec = (lineTime fit now ⟨.expires, value⟩).getD s.validSec ∧
      (expires now value s).accelExpires = s.accelExpires := by
  unfold expires lineTime
  rcases hp : parseHttpTime value with _ | t
  · simp
  by_cases ht : t = -1 ∨ t < now
  · have ht' : t = -1 ∨ t < now ∨ t = 0 := ht.imp_right .inl
    simp [ht, ht']
  by_cases h : t = 0
  · subst h
    simp only [Option.bind_some, if_neg ht, or_true, if_true, Option.getD_none]
    exact ⟨by simp [CacheTimes.init], h0.symm, trivial⟩
  have ht' : ¬(t = -1 ∨ t < now ∨ t = 0) := by
    rintro (h₁ | h₂ | h₃)
    · exact ht (.inl h₁)
    · exact ht (.inr h₂)
    · exact h h₃
  simp [ht, ht', CacheTimes.init]

/-- Of the times what the effects are about. -/
def CacheTimes.view (s : CacheTimes) : CacheState := ⟨s.cacheable, s.validSec, s.accelExpires⟩

theorem view_processLine (now : Int) (s : CacheTimes) (line : CacheLine) :
    (processLine now s line).view = (effectOf toInt64 now line).apply s.view := by
  obtain ⟨field, value⟩ := line
  cases field with
  | accelExpires =>
    rw [Effect.apply_of_not_skipped (Effect.skipped_accelExpires _ rfl)]
    obtain ⟨hca, hval, hacc⟩ :=
      accelExpires_effect toInt64 now value { s with accelExpires := true }
    obtain ⟨hca', -, -⟩ :=
      accelExpires_effect toInt64 now value { CacheTimes.init with accelExpires := true }
    simp only [processLine, processAccelExpires, CacheTimes.view, CacheState.mk.injEq]
    refine ⟨?_, hval, by simp [hacc, effectOf]⟩
    simp only [effectOf, handleLine, processAccelExpires, Bool.not_not]
    rw [hca, hca']
    simp [CacheTimes.init]
  | cacheControl =>
    by_cases hk : s.validSec ≠ 0 ∧ s.accelExpires
    · rw [Effect.apply_of_skipped (Effect.skipped_of_behind hk.1 (.inr ⟨hk.2, rfl⟩))]
      simp [processLine, processCacheControl, hk]
    have hns : (effectOf toInt64 now ⟨.cacheControl, value⟩).skipped s.view = false := by
      exact decide_eq_false hk
    rw [Effect.apply_of_not_skipped hns]
    obtain ⟨hca, hval, hacc⟩ := cacheControl_effect toInt64 now value s
    simp only [processLine, processCacheControl, if_neg hk, CacheTimes.view, CacheState.mk.injEq]
    exact ⟨by simp [hca, effectOf, handleLine], hval, by simp [hacc, effectOf]⟩
  | expires =>
    by_cases h0 : s.validSec = 0
    · rw [Effect.apply_of_not_skipped (Effect.skipped_of_validSec_eq_zero h0)]
      obtain ⟨hca, hval, hacc⟩ := expires_effect now value s h0 toInt64
      simp only [processLine, processExpires, h0, ne_eq, not_true_eq_false,
        if_false, CacheTimes.view,
        CacheState.mk.injEq]
      exact ⟨by simp [hca, effectOf, handleLine], by rw [hval, h0]; rfl, by simp [hacc, effectOf]⟩
    · rw [Effect.apply_of_skipped (Effect.skipped_of_behind h0 (.inl rfl))]
      simp [processLine, processExpires, h0]

/-- The effects of the lines, as the program reads them. -/
def effects (now : Int) (lines : List CacheLine) : List Effect := lines.map (effectOf toInt64 now)

theorem view_foldl (now : Int) (lines : List CacheLine) (s : CacheTimes) :
    (lines.foldl (processLine now) s).view = Effect.run s.view (effects now lines) := by
  induction lines generalizing s with
  | nil => rfl
  | cons line lines ih => rw [foldl_cons, ih, view_processLine]; rfl

theorem view_processLines (now : Int) (lines : List CacheLine) :
    (processLines now lines).view = Effect.run .init (effects now lines) :=
      view_foldl now lines .init

theorem cacheable_processLines (now : Int) (lines : List CacheLine) :
    (processLines now lines).cacheable = (Effect.run .init (effects now lines)).cacheable :=
  congrArg CacheState.cacheable (view_processLines now lines)

theorem validSec_processLines (now : Int) (lines : List CacheLine) :
    (processLines now lines).validSec = (Effect.run .init (effects now lines)).validSec :=
  congrArg CacheState.validSec (view_processLines now lines)

theorem exists_perm_effects {now : Int} {lines : List CacheLine}
    {l : List Effect} (h : l.Perm (effects now lines)) :
    ∃ lines', lines'.Perm lines ∧ effects now lines' = l := by
  have := (congrFun₂ (eq_map_comp_perm (effectOf toInt64 now)) l lines).mpr h
  obtain ⟨lines', heq, hp⟩ := this
  exact ⟨lines', hp, heq.symm⟩

theorem expires_set_ne_zero (now : Int) (lines : List CacheLine) :
    ∀ e ∈ effects now lines, e.field = .expires → e.set ≠ some 0 := by
  intro e he hf hset
  obtain ⟨⟨field, value⟩, -, rfl⟩ := mem_map.mp he
  obtain rfl : field = .expires := hf
  simp only [effectOf, lineTime] at hset
  rcases hp : parseHttpTime value with _ | t
  · simp [hp] at hset
  · by_cases ht : t = -1 ∨ t < now ∨ t = 0
    · simp [hp, ht] at hset
    · simp only [hp, Option.bind_some, if_neg ht, Option.some.injEq] at hset
      exact ht (.inr (.inr hset))

/-! ## A number that fits, and one that does not -/

section reading

variable (fit : Int → Int)

theorem readSeconds_isSome (n m : Int) (p : Bytes) :
    (readSeconds fit n p).isSome = (readSeconds id m p).isSome := by
  induction p generalizing n m with
  | nil => rfl
  | cons ch p ih =>
    unfold readSeconds
    by_cases h : ch = chr ',' ∨ ch = chr ';' ∨ ch = chr ' '
    · simp [h]
    · by_cases hd : isDecimal ch
      · simp only [h, hd, if_false, if_true]
        exact ih _ _
      · simp [h, hd]

theorem secondsAfter_shape (name value : Bytes) :
    (secondsAfter fit name value).map Option.isSome =
      (secondsAfter id name value).map Option.isSome := by
  simp only [secondsAfter, Option.map_map]
  congr 1
  funext p
  exact readSeconds_isSome fit 0 0 _

theorem maxAge_shape (value : Bytes) :
    (maxAge fit value).map Option.isSome = (maxAge id value).map Option.isSome := by
  have h₁ := secondsAfter_shape fit (ascii "s-maxage=") value
  have h₂ := secondsAfter_shape fit (ascii "max-age=") value
  unfold maxAge
  rcases hf : secondsAfter fit (ascii "s-maxage=") value with _ | n <;>
    rcases hi : secondsAfter id (ascii "s-maxage=") value with _ | m <;> simp_all

theorem staleIfError_shape (value : Bytes) {s s' : CacheTimes} (h : s.cacheable = s'.cacheable) :
    (staleIfError fit value s).cacheable = (staleIfError id value s').cacheable := by
  have hshape := secondsAfter_shape fit (ascii "stale-if-error=") value
  unfold staleIfError
  rcases hf : secondsAfter fit (ascii "stale-if-error=") value with _ | _ | n <;>
    rcases hi : secondsAfter id (ascii "stale-if-error=") value with _ | _ | m <;> simp_all

theorem staleWhileRevalidate_shape (value : Bytes) {s s' : CacheTimes}
    (h : s.cacheable = s'.cacheable) :
    (staleWhileRevalidate fit value s).cacheable =
      (staleWhileRevalidate id value s').cacheable := by
  have hshape := secondsAfter_shape fit (ascii "stale-while-revalidate=") value
  unfold staleWhileRevalidate
  rcases hf : secondsAfter fit (ascii "stale-while-revalidate=") value with _ | _ | n <;>
    rcases hi : secondsAfter id (ascii "stale-while-revalidate=") value with _ | _ | m <;>
    simp only [hf, hi, Option.map_none, Option.map_some, Option.isSome_none,
      Option.isSome_some, reduceCtorEq,
      Option.some.injEq] at hshape ⊢
  · exact staleIfError_shape fit value h
  · exact staleIfError_shape fit value h

theorem accelExpires_shape (now : Int) (value : Bytes) (s : CacheTimes) :
    (accelExpires fit now value s).cacheable = (accelExpires id now value s).cacheable := by
  unfold accelExpires
  by_cases hv : value.head? ≠ some (chr '@')
  · rw [if_pos hv, if_pos hv]
    rcases atoi value with _ | n
    · rfl
    · by_cases hn : n = 0
      · simp [hn]
      · simp [hn]
  · rw [if_neg hv, if_neg hv]

theorem readSeconds_zero (h0 : fit 0 = 0) {n : Int} (hn : 0 ≤ n) {p : Bytes}
    (h : readSeconds id n p = some 0) :
    n = 0 ∧ readSeconds fit 0 p = some 0 := by
  induction p generalizing n with
  | nil => exact ⟨Option.some.inj h, rfl⟩
  | cons ch p ih =>
    unfold readSeconds at h ⊢
    by_cases hend : ch = chr ',' ∨ ch = chr ';' ∨ ch = chr ' '
    · rw [if_pos hend] at h ⊢
      exact ⟨Option.some.inj h, rfl⟩
    rw [if_neg hend] at h ⊢
    by_cases hd : isDecimal ch
    · rw [if_pos hd] at h ⊢
      obtain ⟨hz, hp⟩ := ih (by simp only [id]; omega) h
      simp only [id] at hz
      have hdig : decimalValue ch = 0 := by omega
      refine ⟨by omega, ?_⟩
      simpa [hdig, h0] using hp
    · rw [if_neg hd] at h
      exact absurd h (Option.some_ne_none 0).symm

theorem secondsAfter_zero (h0 : fit 0 = 0) {name value : Bytes}
    (h : secondsAfter id name value = some (some 0)) :
    secondsAfter fit name value = some (some 0) := by
  unfold secondsAfter at h ⊢
  obtain ⟨p, hp, hn⟩ := Option.map_eq_some_iff.mp h
  exact Option.map_eq_some_iff.mpr ⟨p, hp, (readSeconds_zero fit h0 le_rfl hn).2⟩

theorem maxAge_zero (h0 : fit 0 = 0) {value : Bytes} (h : maxAge id value = some (some 0)) :
    maxAge fit value = some (some 0) := by
  have hshape := secondsAfter_shape fit (ascii "s-maxage=") value
  unfold maxAge at h ⊢
  rcases hi : secondsAfter id (ascii "s-maxage=") value with _ | n
  · rw [hi] at h hshape
    rw [Option.map_eq_none_iff.mp hshape]
    exact secondsAfter_zero fit h0 h
  · rw [hi] at h
    rw [secondsAfter_zero fit h0 (hi.trans h)]

theorem deny_of_exact (h0 : fit 0 = 0) {now : Int} {line : CacheLine}
    (h : (effectOf id now line).deny) :
    (effectOf fit now line).deny := by
  obtain ⟨field, value⟩ := line
  cases field with
  | expires => exact h
  | accelExpires =>
    simp only [effectOf, handleLine, processAccelExpires] at h ⊢
    rw [accelExpires_shape fit]
    exact h
  | cacheControl =>
    simp only [effectOf, handleLine, cacheControl] at h ⊢
    have hshape := maxAge_shape fit value
    by_cases hf : forbidsCaching value
    · simp [hf]
    simp only [hf, Bool.false_eq_true, if_false] at h ⊢
    rcases hi : maxAge id value with _ | _ | n
    · rw [hi] at h hshape
      rw [Option.map_eq_none_iff.mp hshape]
      simpa [staleWhileRevalidate_shape fit value
        (rfl : CacheTimes.init.cacheable = CacheTimes.init.cacheable)] using h
    · rw [hi] at hshape
      rcases hf' : maxAge fit value with _ | _ | n <;> simp_all
    by_cases hn : n = 0
    · rw [hn] at hi
      simp [maxAge_zero fit h0 hi]
    rw [hi] at h hshape
    rcases hf' : maxAge fit value with _ | _ | m <;> simp_all
    by_cases hm : m = 0
    · simp [hm]
    · simp only [hm, if_false]
      rw [← h]
      exact staleWhileRevalidate_shape fit value rfl

/-- A line denies caching or sets a time, or it does neither, however the numbers are read. -/
theorem verdict_iff {now : Int} {line : CacheLine} :
    (effectOf fit now line).Verdict ↔ (effectOf id now line).Verdict := by
  obtain ⟨field, value⟩ := line
  unfold Effect.Verdict
  cases field with
  | expires => exact Iff.rfl
  | accelExpires =>
    simp only [effectOf, handleLine, processAccelExpires, accelExpires_shape fit now value]
    refine or_congr_right (not_congr ?_)
    simp only [lineTime]
    by_cases hv : value.head? ≠ some (chr '@')
    · rw [if_pos hv, if_pos hv]
      rcases atoi value with _ | n
      · rfl
      · by_cases hn : n = 0 <;> simp [hn]
    · rw [if_neg hv, if_neg hv]
  | cacheControl =>
    have hshape := maxAge_shape fit value
    simp only [effectOf, handleLine, cacheControl, lineTime]
    by_cases hf : forbidsCaching value
    · simp [hf]
    simp only [hf, Bool.false_eq_true, if_false]
    have hstale (s : CacheTimes) :=
      staleWhileRevalidate_shape fit value (rfl : s.cacheable = s.cacheable)
    rcases hc : maxAge fit value with _ | _ | n <;> rcases hi : maxAge id value with _ | _ | m <;>
      simp only [hc, hi, Option.map_none, Option.map_some, Option.isSome_none,
        Option.isSome_some, reduceCtorEq,
        Option.some.injEq, Bool.false_eq_true] at hshape
    · simp [hstale]
    · simp
    · by_cases hn : n = 0 <;> by_cases hm : m = 0 <;> simp [hn, hm]

end reading

/-! ## The documented priority -/

/-- `X-Accel-Expires` over `Cache-Control` over `Expires`. -/
def CacheField.priority : CacheField → Nat
  | .accelExpires => 2
  | .cacheControl => 1
  | .expires => 0

/-- The line says something, and no line of a higher priority does. -/
structure Decides (now : Int) (lines : List CacheLine) (line : CacheLine) : Prop where
  mem : line ∈ lines
  verdict : (effectOf id now line).Verdict
  highest : ∀ x ∈ lines, (effectOf id now x).Verdict → x.field.priority ≤ line.field.priority

/-- What the lines say, with exact numbers: the response is not cached if a line that
decides denies it, and else until the time that each of them sets. -/
structure Documented (now : Int) (lines : List CacheLine) (s : CacheTimes) : Prop where
  denied : (∃ line, Decides now lines line ∧ (effectOf id now line).deny) → s.cacheable = false
  allowed : (∀ line, Decides now lines line → (effectOf id now line).deny = false) →
    s.cacheable = true ∧ ∀ line, Decides now lines line →
      (effectOf id now line).set = some s.validSec
  silent : (∀ line ∈ lines, ¬(effectOf id now line).Verdict) → s.validSec = 0

/-- Each order of the lines leaves the same, and what is documented. -/
def OrderFree (now : Int) (lines : List CacheLine) : Prop :=
  ∀ lines' : List CacheLine, lines'.Perm lines →
    (processLines now lines').cacheable = (processLines now lines).cacheable ∧
      (processLines now lines').validSec = (processLines now lines).validSec ∧
      Documented now lines (processLines now lines')

theorem orders_agree_lines_iff (now : Int) (lines : List CacheLine) :
    (∀ lines' : List CacheLine, lines'.Perm lines →
      (processLines now lines').cacheable = (processLines now lines).cacheable ∧
        (processLines now lines').validSec = (processLines now lines).validSec) ↔
    Effect.OneOrder (effects now lines) := by
  rw [← Effect.orders_agree_iff (expires_set_ne_zero now lines)]
  simp only [cacheable_processLines, validSec_processLines]
  constructor
  · intro h l' hp
    obtain ⟨lines', hperm, rfl⟩ := exists_perm_effects hp
    exact h lines' hperm
  · intro h lines' hp
    exact h _ (hp.map _)

theorem Decides.counts {now : Int} {lines : List CacheLine} {line : CacheLine}
    (h : Decides now lines line) :
    Effect.Counts (effects now lines) (effectOf toInt64 now line) := by
  have hprio : ∀ field, Effect.Sets field (effects now lines) →
    field.priority ≤ line.field.priority := by
    rintro field ⟨e, he, hf, hset⟩
    obtain ⟨x, hx, rfl⟩ := mem_map.mp he
    rw [← hf]
    exact h.highest x hx ((verdict_iff toInt64).mp (.inr hset))
  refine ⟨fun hs => ?_, fun hno hs => ?_⟩
  · have := hprio _ hs
    change line.field = _
    cases hf : line.field with
    | accelExpires => rfl
    | cacheControl => simp [hf, CacheField.priority] at this
    | expires => simp [hf, CacheField.priority] at this
  · have := hprio _ hs
    change line.field = _
    cases hf : line.field with
    | accelExpires => exact absurd ⟨_, mem_map_of_mem h.mem, hf⟩ hno
    | cacheControl => rfl
    | expires => simp [hf, CacheField.priority] at this

/-- The order makes no difference, and the documented priority is kept, exactly for lines
like these: those that count agree, and either a line that decides denies, or none at all
does and the numbers of those that decide fit. -/
theorem orderFree_iff (now : Int) (lines : List CacheLine) :
    OrderFree now lines ↔
      Effect.OneOrder (effects now lines) ∧
        ((∃ line, Decides now lines line ∧ (effectOf id now line).deny) ∨
          (∀ line ∈ lines, (effectOf toInt64 now line).deny = false) ∧
            ∀ line, Decides now lines line → effectOf toInt64 now line = effectOf id now line) := by
  constructor
  · intro h
    have hone := (orders_agree_lines_iff now lines).mp fun lines' hp =>
      ⟨(h lines' hp).1, (h lines' hp).2.1⟩
    refine ⟨hone, ?_⟩
    by_cases hd : ∃ line, Decides now lines line ∧ (effectOf id now line).deny
    · exact .inl hd
    right
    have hdoc := (h lines (List.Perm.refl _)).2.2
    simp only [not_exists, not_and, Bool.not_eq_true] at hd
    obtain ⟨hca, htime⟩ := hdoc.allowed hd
    obtain ⟨hall, hleaves⟩ := Effect.run_of_oneOrder hone (List.Perm.refl _)
    rw [← cacheable_processLines, hca] at hall
    have hnone : ∀ line ∈ lines, (effectOf toInt64 now line).deny = false := by
      intro line hline
      simpa using all_eq_true.mp hall.symm _ (mem_map_of_mem hline)
    refine ⟨hnone, fun line hdec => ?_⟩
    have hdeny := hnone line hdec.mem
    have hset : (effectOf toInt64 now line).set ≠ none := by
      rcases (verdict_iff toInt64).mpr hdec.verdict with h | h
      · rw [hdeny] at h
        exact absurd h Bool.false_ne_true
      · exact h
    have htime' := hleaves.1 _ (mem_map_of_mem hdec.mem) hdec.counts hset
    rw [← validSec_processLines, ← htime line hdec] at htime'
    have hfields : ∀ e e' : Effect, e.field = e'.field → e.deny = e'.deny →
      e.set = e'.set → e = e' := by
      rintro ⟨⟩ ⟨⟩ rfl rfl rfl
      rfl
    exact hfields _ _ rfl (hdeny.trans (hd line hdec).symm) htime'
  · rintro ⟨hone, hcase⟩ lines' hp
    obtain ⟨hca, hval⟩ := (orders_agree_lines_iff now lines).mpr hone lines' hp
    obtain ⟨hall, hleaves⟩ := Effect.run_of_oneOrder hone (List.Perm.refl _)
    rw [← cacheable_processLines, ← hca] at hall
    rw [← validSec_processLines, ← hval] at hleaves
    refine ⟨hca, hval, ?_⟩
    rcases hcase with ⟨line, hdec, hdeny⟩ | ⟨hnone, hexact⟩
    · have hfalse : (processLines now lines').cacheable = false := by
        rw [hall, Bool.eq_false_iff, ne_eq, all_eq_true]
        intro h
        have := h _ (mem_map_of_mem hdec.mem)
        rw [deny_of_exact toInt64 (by decide) hdeny] at this
        exact absurd this (by decide)
      refine ⟨fun _ => hfalse, fun h => ?_, fun h => absurd hdec.verdict (h line hdec.mem)⟩
      rw [h line hdec] at hdeny
      exact absurd hdeny Bool.false_ne_true
    · have hexdeny : ∀ line, Decides now lines line → (effectOf id now line).deny = false := by
        intro line hdec
        rw [← hexact line hdec]
        exact hnone line hdec.mem
      refine ⟨?_, fun _ => ⟨?_, fun line hdec => ?_⟩, fun hsilent => ?_⟩
      · rintro ⟨line, hdec, hdeny⟩
        rw [hexdeny line hdec] at hdeny
        exact absurd hdeny Bool.false_ne_true
      · rw [hall, all_eq_true]
        intro e he
        obtain ⟨line, hline, rfl⟩ := mem_map.mp he
        rw [hnone line hline]
        rfl
      · have hset : (effectOf id now line).set ≠ none := by
          rcases hdec.verdict with h | h
          · rw [hexdeny line hdec] at h
            exact absurd h Bool.false_ne_true
          · exact h
        rw [← hexact line hdec] at hset ⊢
        exact hleaves.1 _ (mem_map_of_mem hdec.mem) hdec.counts hset
      · refine hleaves.2 fun e he => ?_
        obtain ⟨line, hline, rfl⟩ := mem_map.mp he
        by_contra hset
        exact hsilent line hline ((verdict_iff toInt64).mp (.inr hset))

/-- An `Expires` in the past denies caching in front of a `max-age`, and is skipped behind it. -/
theorem not_orderFree :
    ¬OrderFree 1555000000
      [⟨.cacheControl, ascii "max-age=10"⟩, ⟨.expires, ascii "Thu, 01 Jan 1970 00:00:01 GMT"⟩] := by
  intro h
  have := (h [⟨.expires, ascii "Thu, 01 Jan 1970 00:00:01 GMT"⟩,
    ⟨.cacheControl, ascii "max-age=10"⟩]
    (List.Perm.swap _ _ _)).1
  exact absurd this (by decide)

end Nginx.Http.Upstream
