/-
  Core/PoolApart.lean --- a pool and its arrays, over any sequence of calls, and what they
  guarantee their callers.
-/
import Mathlib.Data.List.Flatten
import Nginx.Core.ArrayGrow

set_option autoImplicit false

namespace Nginx.Core

open List Foundation Foundation.Region Arena

/-- What an array has of the pool: its first `nalloc` elements, and its header where
`ngx_array_create` made it. -/
def Entry.regions (e : Entry) : List Region :=
  (if e.created then [⟨e.header, arraySize⟩] else []) ++ [e.array.region]

namespace World

/-- What the callers have of the pool. -/
def pieces (w : World) :
    List Region := w.live.map Allocation.region ++ w.arrays.flatMap Entry.regions

structure EntryOk (e : Entry) : Prop where
  array : e.array.Ok
  header : e.created = true → e.header % alignment = 0

structure Sound (psize : Nat) (w : World) : Prop where
  inv : ∃ larges, Inv psize w.heap larges w.pieces
  live : ∀ x ∈ w.live, x.region.base % x.aligned = 0
  arrays : ∀ e ∈ w.arrays, EntryOk e
  cleanup : w.heap.pool.cleanup = w.added.reverse

/-- The pieces beside those of the array number `i`. -/
def others (w : World) (i : Nat) (e : Entry) : List Region :=
  (if e.created then [⟨e.header, arraySize⟩] else []) ++
    (w.live.map Allocation.region ++ (w.arrays.eraseIdx i).flatMap Entry.regions)

section Pieces

variable {w : World} {i : Nat} {e : Entry}

theorem lt_of_getElem? {α : Type} {l : List α} {i : Nat} {x : α} (h : l[i]? = some x) :
    i < l.length :=
  (List.getElem?_eq_some_iff.mp h).1

theorem perm_regions (header : List Region) (elements : Region) (live rest : List Region) :
    (live ++ ((header ++ [elements]) ++ rest)).Perm (elements :: (header ++ (live ++ rest))) := by
  have hfront : (live ++ ((header ++ [elements]) ++ rest)).Perm
    ((header ++ [elements]) ++ (live ++ rest)) :=
    perm_append_comm_assoc _ _ _
  refine hfront.trans ?_
  rw [append_assoc, singleton_append]
  exact perm_middle

theorem pieces_at (h : w.arrays[i]? = some e) : w.pieces.Perm (e.array.region :: w.others i e) := by
  obtain ⟨hlt, hget⟩ := List.getElem?_eq_some_iff.mp h
  have hperm := (getElem_cons_eraseIdx_perm hlt).symm
  rw [hget] at hperm
  refine ((hperm.flatMap_right Entry.regions).append_left _).trans ?_
  rw [flatMap_cons, Entry.regions]
  exact perm_regions _ _ _ _

theorem pieces_set (h : w.arrays[i]? = some e) (a : Arr) (memory : Memory) :
    (pieces { w with memory := memory, arrays := w.arrays.set i { e with array := a } }).Perm
      (a.region :: w.others i e) := by
  have hperm := set_perm_cons_eraseIdx (lt_of_getElem? h) { e with array := a }
  refine ((hperm.flatMap_right Entry.regions).append_left _).trans ?_
  rw [flatMap_cons, Entry.regions]
  exact perm_regions _ _ _ _

theorem pieces_cons (entry : Entry) (memory : Memory) :
    (pieces { w with memory := memory, arrays := entry :: w.arrays }).Perm
      (entry.regions ++ w.pieces) := by
  rw [pieces, pieces, flatMap_cons, ← append_assoc, ← append_assoc]
  exact perm_append_comm.append_right _

end Pieces

section Step

variable {psize : Nat} {w : World}

theorem Sound.same (h : Sound psize w) {memory : Memory} {larges : List Region}
    (hinv : Inv psize memory.heap larges w.pieces)
    (hcleanup : memory.heap.pool.cleanup = w.heap.pool.cleanup) :
    Sound psize { w with memory := memory } :=
  ⟨⟨larges, hinv⟩, h.live, h.arrays, hcleanup.trans h.cleanup⟩

theorem Sound.afterAlloc (h : Sound psize w) {larges : List Region}
    {size aligned : Nat} {result : Option Nat × Arena}
    (houtcome : Outcome psize w.heap larges w.pieces size (fun m => m % aligned = 0) result) :
    Sound psize (w.afterAlloc size aligned result) := by
  cases houtcome with
  | failed hinv hcleanup => exact h.same hinv hcleanup
  | piece larges' hinv haligned hcleanup =>
    refine ⟨⟨larges', hinv⟩, fun x hx => ?_, h.arrays, hcleanup.trans h.cleanup⟩
    rcases mem_cons.mp hx with rfl | hx
    · exact haligned
    · exact h.live x hx

/-- `ngx_pfree` of anything but a cleanup record. -/
theorem Sound.pfree (h : Sound psize w) {p : Nat} (hpermitted : Permitted w (.pfree p)) :
    Sound psize (w.step (.pfree p)) := by
  obtain ⟨larges, hinv⟩ := h.inv
  have hcleanup : ∀ c ∈ w.heap.pool.cleanup, c.record ≠ p := by
    intro c hc
    rw [h.cleanup, mem_reverse] at hc
    exact hpermitted c hc
  have hlive : ((w.step (.pfree p)).live).Sublist w.live := by
    show (if (w.heap.pfree p).1 then _ else _ : List Allocation).Sublist _
    split
    · exact filter_sublist
    · exact List.Sublist.refl _
  have harrays : ((w.step (.pfree p)).arrays).Sublist w.arrays := by
    show (if (w.heap.pfree p).1 then _ else _ : List Entry).Sublist _
    split
    · exact filter_sublist
    · exact List.Sublist.refl _
  have hsub : (w.step (.pfree p)).pieces.Sublist w.pieces :=
    (hlive.map Allocation.region).append (harrays.flatMap Entry.regions)
  have hleft : (w.heap.pfree p).1 = true → ∀ x ∈ (w.step (.pfree p)).pieces, x.base ≠ p := by
    intro hok x hx
    rcases mem_append.mp hx with hx | hx
    · obtain ⟨y, hy, rfl⟩ := mem_map.mp hx
      have hkept : y ∈ w.live.filter fun x => x.region.base ≠ p := by
        have hmem : y ∈ (if (w.heap.pfree p).1 then w.live.filter fun x =>
          x.region.base ≠ p else w.live) := hy
        rwa [if_pos hok] at hmem
      simpa using (mem_filter.mp hkept).2
    obtain ⟨e, he, hx⟩ := mem_flatMap.mp hx
    have hkept : e ∈ w.arrays.filter fun e =>
      e.array.elts ≠ p ∧ (e.created = true → e.header ≠ p) := by
      have hmem : e ∈ (if (w.heap.pfree p).1 then
          w.arrays.filter fun e =>
            e.array.elts ≠ p ∧ (e.created = true → e.header ≠ p) else w.arrays) := he
      rwa [if_pos hok] at hmem
    have hboth : e.array.elts ≠ p ∧ (e.created = true → e.header ≠ p) :=
      of_decide_eq_true (mem_filter.mp hkept).2
    cases hcreated : e.created with
    | false =>
      rw [Entry.regions, hcreated] at hx
      rw [mem_singleton.mp hx]
      exact hboth.1
    | true =>
      rw [Entry.regions, hcreated] at hx
      rcases mem_cons.mp hx with rfl | hx
      · exact hboth.2 hcreated
      · rw [mem_singleton.mp hx]
        exact hboth.1
  obtain ⟨larges', hinv', hsame⟩ := hinv.pfree p hcleanup _ hsub hleft
  exact ⟨⟨larges', hinv'⟩, fun x hx => h.live x (hlive.subset hx), fun e he =>
    h.arrays e (harrays.subset he),
    hsame.trans h.cleanup⟩

theorem Sound.cleanupAdd (h : Sound psize w) (size : Nat) (handler : Option Nat) :
    Sound psize (w.step (.cleanupAdd size handler)) := by
  obtain ⟨larges, hinv⟩ := h.inv
  have houtcome := hinv.cleanupAdd size handler
  rw [step]
  generalize w.heap.cleanupAdd size handler = result at houtcome ⊢
  obtain ⟨added, heap⟩ := result
  rcases houtcome
    with ⟨larges', hinv', hnone, hcleanup⟩ | ⟨larges', c, hinv', hsome, -, -, haligned, hcleanup⟩
  · simp only at hnone
    subst hnone
    exact h.same hinv' hcleanup
  simp only at hsome
  subst hsome
  have hadded : heap.pool.cleanup = (w.added ++ [c]).reverse := by
    rw [reverse_append, reverse_singleton, singleton_append, ← h.cleanup]
    exact hcleanup
  by_cases hsize : size = 0
  · rw [if_pos hsize] at hinv'
    refine ⟨⟨larges', ?_⟩, fun x hx => h.live x ?_, h.arrays, hadded⟩
    · simp only [pieces, if_pos hsize]
      exact hinv'
    · simpa only [if_pos hsize] using hx
  rw [if_neg hsize] at hinv'
  refine ⟨⟨larges', ?_⟩, fun x hx => ?_, h.arrays, hadded⟩
  · simp only [pieces, if_neg hsize]
    exact hinv'
  · simp only [if_neg hsize] at hx
    rcases mem_cons.mp hx with rfl | hx
    · exact haligned hsize
    · exact h.live x hx

theorem Sound.add (h : Sound psize w) {larges : List Region} {e : Entry}
    {heap : Arena} (hok : EntryOk e)
    (hinv : Inv psize heap larges (e.regions ++ w.pieces))
    (hcleanup : heap.pool.cleanup = w.heap.pool.cleanup) :
    Sound psize { w with memory := { w.memory with heap := heap }, arrays := e :: w.arrays } := by
  refine ⟨⟨larges, hinv.perm (pieces_cons e { w.memory with heap := heap }).symm⟩,
    h.live, fun e' he' => ?_,
    hcleanup.trans h.cleanup⟩
  rcases mem_cons.mp he' with rfl | he'
  · exact hok
  · exact h.arrays e' he'

theorem Sound.arrayInit (h : Sound psize w) (header : Nat) {n size : Nat}
    (hn : 1 ≤ n) (hrange : n * size < wordRange) :
    Sound psize (w.step (.arrayInit header n size)) := by
  obtain ⟨larges, hinv⟩ := h.inv
  have hmade := hinv.arrayInit hn hrange header
  rw [step]
  generalize w.heap.arrayInit n size = result at hmade ⊢
  obtain ⟨made, heap⟩ := result
  cases made with
  | none =>
    cases hmade with
    | failed larges' hinv' hcleanup => exact h.same hinv' hcleanup
  | some a =>
    cases hmade with
    | made larges' hinv' hok _ _ haligned hcleanup =>
      have hentry : EntryOk ⟨header, false, a⟩ := ⟨hok, haligned⟩
      exact h.add hentry hinv' hcleanup

theorem Sound.arrayCreate (h : Sound psize w) {n size : Nat} (hn : 1 ≤ n)
    (hrange : n * size < wordRange) :
    Sound psize (w.step (.arrayCreate n size)) := by
  obtain ⟨larges, hinv⟩ := h.inv
  have hmade := hinv.arrayCreate hn hrange
  rw [step]
  generalize w.heap.arrayCreate n size = result at hmade ⊢
  obtain ⟨made, heap⟩ := result
  cases made with
  | none =>
    cases hmade with
    | failed larges' hinv' hcleanup => exact h.same hinv' hcleanup
  | some made =>
    obtain ⟨header, a⟩ := made
    cases hmade with
    | made larges' hinv' hok _ _ haligned hcleanup =>
      have hentry : EntryOk ⟨header, true, a⟩ := ⟨hok, haligned⟩
      exact h.add hentry hinv' hcleanup

theorem Sound.afterArray (h : Sound psize w) {i need taken : Nat} {e : Entry}
    (he : w.arrays[i]? = some e)
    {result : Option Arr × Memory}
    (hgrown : Memory.Grown psize w.memory (w.others i e) e.array need taken result) :
    Sound psize (w.afterArray i e result) := by
  cases hgrown with
  | failed larges' hinv hbytes hcleanup => exact h.same (hinv.perm (pieces_at he).symm) hcleanup
  | @grown a' m' larges' hinv hok _ _ _ _ _ hcleanup =>
    refine ⟨⟨larges', hinv.perm (pieces_set he a' m').symm⟩, h.live, fun e' he' =>
      ?_, hcleanup.trans h.cleanup⟩
    rcases mem_or_eq_of_mem_set he' with he' | rfl
    · exact h.arrays e' he'
    · exact ⟨hok, (h.arrays e (mem_of_getElem? he)).header⟩

theorem Sound.arrayPush_grown (h : Sound psize w) {i : Nat} {e : Entry} (he : w.arrays[i]? = some e)
    (hnowrap : NoWrap w (.arrayPush i)) :
    Memory.Grown psize w.memory (w.others i e) e.array 1 1 (w.memory.arrayPush e.array) := by
  obtain ⟨larges, hinv⟩ := h.inv
  obtain ⟨hnelts, hgrow⟩ := hnowrap e he
  exact Memory.arrayPush_grown (hinv.perm (pieces_at he)) (h.arrays e (mem_of_getElem? he)).array
    hnelts hgrow

theorem Sound.arrayPushN_grown (h : Sound psize w) {i n : Nat} {e : Entry}
    (he : w.arrays[i]? = some e)
    (hnowrap : NoWrap w (.arrayPushN i n)) :
    Memory.Grown psize w.memory (w.others i e) e.array n n (w.memory.arrayPushN e.array n) := by
  obtain ⟨larges, hinv⟩ := h.inv
  obtain ⟨hnelts, hsize, hgrow⟩ := hnowrap e he
  exact Memory.arrayPushN_grown (hinv.perm (pieces_at he)) (h.arrays e (mem_of_getElem? he)).array
    hnelts hsize hgrow

theorem Sound.arrayDestroy (h : Sound psize w) {i : Nat}
    (hpermitted : Permitted w (.arrayDestroy i)) :
    Sound psize (w.step (.arrayDestroy i)) := by
  rw [step]
  cases he : w.arrays[i]? with
  | none => exact h
  | some e =>
    obtain ⟨larges, hinv⟩ := h.inv
    have hat := hinv.perm (pieces_at he)
    have hentry := h.arrays e (mem_of_getElem? he)
    have hfront : (e.array.region :: w.others i e).Perm
        ((if e.created then [⟨e.header, arraySize⟩] else []) ++
          e.array.region ::
            (w.live.map Allocation.region ++ (w.arrays.eraseIdx i).flatMap Entry.regions)) :=
      perm_middle.symm
    obtain ⟨hinv', hcleanup⟩ :=
      @Inv.arrayDestroy _ _ _ _ e.header e.created _ hentry.array (hat.perm hfront)
        (hpermitted e he)
    exact ⟨⟨larges, hinv'⟩, h.live, fun e' he' =>
      h.arrays e' (mem_of_mem_eraseIdx he'), hcleanup.trans h.cleanup⟩

/-- Every permitted call keeps a pool sound. -/
theorem Sound.step (h : Sound psize w) (call : PoolCall) (hpermitted : Permitted w call)
    (hnowrap : NoWrap w call) :
    Sound psize (w.step call) := by
  obtain ⟨larges, hinv⟩ := h.inv
  cases call with
  | palloc size => exact h.afterAlloc (hinv.palloc size)
  | pnalloc size =>
    refine @Sound.afterAlloc _ _ h larges _ _ _ ?_
    have houtcome := hinv.pnalloc size
    generalize w.heap.pnalloc size = result at houtcome ⊢
    cases houtcome with
    | failed h hcleanup => exact .failed h hcleanup
    | piece larges' h _ hcleanup => exact .piece larges' h (Nat.mod_one _) hcleanup
  | pmemalign size aligned => exact h.afterAlloc (hinv.pmemalign size aligned)
  | pfree p => exact h.pfree hpermitted
  | cleanupAdd size handler => exact h.cleanupAdd size handler
  | arrayInit header n size => exact h.arrayInit header hpermitted hnowrap
  | arrayCreate n size => exact h.arrayCreate hpermitted hnowrap
  | arrayPush i =>
    rw [World.step]
    cases he : w.arrays[i]? with
    | none => exact h
    | some e => exact h.afterArray he (h.arrayPush_grown he hnowrap)
  | arrayPushN i n =>
    rw [World.step]
    cases he : w.arrays[i]? with
    | none => exact h
    | some e => exact h.afterArray he (h.arrayPushN_grown he hnowrap)
  | arrayDestroy i => exact h.arrayDestroy hpermitted
  | write p byte => exact h.same hinv rfl

end Step

end World

theorem createPool_cleanup {pagesize size : Nat} {sys : Sys} {s : Arena}
    (h : createPool pagesize sys size = some s) :
    s.pool.cleanup = [] := by
  rw [createPool] at h
  split at h
  · cases h
  · rw [← Option.some.inj h]

/-- The invariant of every run. -/
theorem PoolRun.sound {size : Nat} {w : World} (h : PoolRun size w) : World.Sound size w := by
  induction h with
  | start bytes haligned hsize hcreate =>
    have hinv := inv_createPool haligned hsize hcreate
    refine ⟨⟨[], hinv⟩, fun x hx => absurd hx not_mem_nil, fun e he => absurd he not_mem_nil, ?_⟩
    exact createPool_cleanup hcreate
  | step h call hpermitted hnowrap ih => exact ih.step call hpermitted hnowrap

/-- The array that a call grows, and by how many elements. -/
def PoolCall.grows : PoolCall → Option (Nat × Nat)
  | .arrayPush i => some (i, 1)
  | .arrayPushN i n => some (i, n)
  | _ => none

/-- Whether a call is a caller's write. -/
def PoolCall.writes : PoolCall → Bool
  | .write _ _ => true
  | _ => false

namespace World

/-- A call changes nothing that a caller has, and an array that grows keeps its elements. -/
structure Keeps (w : World) (call : PoolCall) : Prop where
  bytes : call.writes = false →
    ∀ x ∈ w.pieces, ∀ y ∈ x, (w.step call).memory.bytes y = w.memory.bytes y
  elements : ∀ i n, call.grows = some (i, n) → ∀ e ∈ w.arrays[i]?, ∃ e' ∈ (w.step call).arrays[i]?,
    e'.array.size = e.array.size ∧ (e' = e ∨ e'.array.nelts = e.array.nelts + n) ∧
      ∀ k < e.array.nelts * e.array.size,
        (w.step call).memory.bytes (e'.array.elts + k) = w.memory.bytes (e.array.elts + k)

/-- `ngx_destroy_pool` runs the cleanups, the last one first, and frees what the system has
handed out, each region once. -/
structure Ends (w : World) : Prop where
  ran : w.heap.destroyPool.ran = w.added.reverse.filterMap fun c =>
    c.handler.map fun handler => (handler, c.data)
  once : w.heap.destroyPool.freed.Nodup
  all : w.heap.destroyPool.freed.Perm (w.heap.sys.regions.map Region.base)
  nothing : w.heap.destroyPool.sys.regions = []

variable {psize : Nat} {w : World}

theorem Sound.ends (h : Sound psize w) : Ends w := by
  obtain ⟨larges, hinv⟩ := h.inv
  obtain ⟨hnodup, hperm, hnone⟩ := hinv.destroy
  refine ⟨?_, hnodup, hperm, hnone⟩
  rw [← h.cleanup]
  rfl

theorem afterArray_bytes {i need taken : Nat} {e : Entry} (he : w.arrays[i]? = some e)
    {result : Option Arr × Memory}
    (hgrown : Memory.Grown psize w.memory (w.others i e) e.array need taken result) :
    ∀ x ∈ w.pieces, ∀ y ∈ x, (w.afterArray i e result).memory.bytes y = w.memory.bytes y := by
  intro x hx y hy
  cases hgrown with
  | failed larges' hinv hbytes hcleanup => exact congrFun hbytes y
  | grown larges' hinv hok hsize hnelts hroom hkeep hothers hcleanup =>
    exact hothers x ((pieces_at he).mem_iff.mp hx) y hy

theorem afterArray_elements {i need : Nat} {e : Entry} (he : w.arrays[i]? = some e)
    {result : Option Arr × Memory}
    (hgrown : Memory.Grown psize w.memory (w.others i e) e.array need need result) :
    ∃ e' ∈ (w.afterArray i e result).arrays[i]?, e'.array.size = e.array.size ∧
      (e' = e ∨ e'.array.nelts = e.array.nelts + need) ∧
        ∀ k < e.array.nelts * e.array.size,
          (w.afterArray i e result).memory.bytes (e'.array.elts + k) =
            w.memory.bytes (e.array.elts + k) := by
  cases hgrown with
  | failed larges' hinv hbytes hcleanup =>
    exact ⟨e, he, rfl, .inl rfl, fun k _ => congrFun hbytes _⟩
  | @grown a' m' larges' hinv hok hsize hnelts hroom hkeep hothers hcleanup =>
    exact ⟨{ e with array := a' }, getElem?_set_self (lt_of_getElem? he), hsize, .inr hnelts, hkeep⟩

/-- A call changes no byte of what is live, and an array that grows keeps its elements. -/
theorem Sound.keeps (h : Sound psize w) {call : PoolCall} (hnowrap : NoWrap w call) :
    Keeps w call := by
  refine ⟨fun hwrites x hx y hy => ?_, fun i n hgrows e he => ?_⟩
  · cases call with
    | write p byte => cases hwrites
    | arrayPush i =>
      rw [World.step]
      cases he : w.arrays[i]? with
      | none => rfl
      | some e => exact afterArray_bytes he (h.arrayPush_grown he hnowrap) x hx y hy
    | arrayPushN i n =>
      rw [World.step]
      cases he : w.arrays[i]? with
      | none => rfl
      | some e => exact afterArray_bytes he (h.arrayPushN_grown he hnowrap) x hx y hy
    | palloc size => rfl
    | pnalloc size => rfl
    | pmemalign size aligned => rfl
    | pfree p => rfl
    | cleanupAdd size handler =>
      rw [World.step]
      cases hadd : w.heap.cleanupAdd size handler with
      | mk added heap => cases added <;> rfl
    | arrayInit header n size =>
      rw [World.step]
      cases hinit : w.heap.arrayInit n size with
      | mk made heap => cases made <;> rfl
    | arrayCreate n size =>
      rw [World.step]
      cases hcreate : w.heap.arrayCreate n size with
      | mk made heap => cases made <;> rfl
    | arrayDestroy i =>
      rw [World.step]
      cases he : w.arrays[i]? <;> rfl
  · have he' : w.arrays[i]? = some e := he
    cases call with
    | arrayPush i' =>
      cases hgrows
      have hkept := afterArray_elements he' (h.arrayPush_grown he' hnowrap)
      rw [World.step, he']
      exact hkept
    | arrayPushN i' n' =>
      cases hgrows
      have hkept := afterArray_elements he' (h.arrayPushN_grown he' hnowrap)
      rw [World.step, he']
      exact hkept
    | palloc size => cases hgrows
    | pnalloc size => cases hgrows
    | pmemalign size aligned => cases hgrows
    | pfree p => cases hgrows
    | cleanupAdd size handler => cases hgrows
    | arrayInit header n size => cases hgrows
    | arrayCreate n size => cases hgrows
    | arrayDestroy i => cases hgrows
    | write p byte => cases hgrows

end World

end Nginx.Core
