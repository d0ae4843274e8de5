/-
  Foundation/Queue.lean --- first-in first-out tables bounded by a total cost, and
  circular doubly linked queues whose links lie inside the elements
  (`src/core/ngx_queue.h`).

  A table is a list, oldest element first.  Shrinking evicts from the old end until the
  total cost fits; inserting makes room for the new element first and empties the table
  when the element alone exceeds the limit.  The cells of a queue are of any type.  A
  queue is a head cell and the list of the cells that are met on the way around from it;
  the operations are the assignments of the source, one after the other.
-/
import Mathlib.Data.List.Basic
import Mathlib.Logic.Function.Basic
import Mathlib.Tactic.Ring

set_option autoImplicit false

namespace Nginx.Foundation.Fifo

variable {α : Type} (cost : α → Nat)

/-- The total cost of a table. -/
def total (q : List α) : Nat := (q.map cost).sum

@[simp] theorem total_nil : total cost [] = 0 := rfl

@[simp] theorem total_cons (e : α) (q : List α) :
    total cost (e :: q) = cost e + total cost q := by
  simp [total]

@[simp] theorem total_append (q₁ q₂ : List α) :
    total cost (q₁ ++ q₂) = total cost q₁ + total cost q₂ := by
  simp [total]

/-- Drop the oldest elements until the total cost is within the limit. -/
def evict (limit : Nat) : List α → List α
  | [] => []
  | e :: q => if total cost (e :: q) ≤ limit then e :: q else evict limit q

/-- Insert an element as the newest one. -/
def insert (limit : Nat) (q : List α) (e : α) : List α :=
  if cost e ≤ limit then evict cost (limit - cost e) q ++ [e] else []

variable {cost}

@[simp] theorem evict_nil (limit : Nat) : evict cost limit [] = [] := rfl

variable {limit : Nat} {q : List α}

theorem evict_of_le (h : total cost q ≤ limit) :
    evict cost limit q = q := by
  cases q with
  | nil => rfl
  | cons e q => simp only [evict, h, if_true]

theorem evict_cons_of_gt {e : α}
    (h : limit < total cost (e :: q)) : evict cost limit (e :: q) = evict cost limit q := by
  simp only [evict, Nat.not_le_of_lt h, if_false]

theorem insert_of_le {e : α} (h : cost e ≤ limit) :
    insert cost limit q e = evict cost (limit - cost e) q ++ [e] := by
  simp only [insert, h, if_true]

theorem insert_of_gt {e : α} (h : limit < cost e) :
    insert cost limit q e = [] := by
  simp only [insert, Nat.not_le_of_lt h, if_false]

end Nginx.Foundation.Fifo

namespace Nginx.Foundation

open List Function

variable {κ : Type}

/-- The links of all the cells: `ngx_queue_t` -/
structure Links (κ : Type) where
  next : κ → κ
  prev : κ → κ

namespace Links

/-! ## Operations -/

section operations

variable [DecidableEq κ]

/-- An assignment to the `next` of a cell. -/
def setNext (L : Links κ) (a b : κ) : Links κ := { L with next := update L.next a b }

/-- An assignment to the `prev` of a cell. -/
def setPrev (L : Links κ) (a b : κ) : Links κ := { L with prev := update L.prev a b }

/-- `ngx_queue_init` -/
def init (L : Links κ) (q : κ) : Links κ := (L.setPrev q q).setNext q q

/-- `ngx_queue_insert_head`, `ngx_queue_insert_after` -/
def insertAfter (L : Links κ) (h x : κ) : Links κ :=
  let L := L.setNext x (L.next h)
  let L := L.setPrev (L.next x) x
  let L := L.setPrev x h
  L.setNext h x

/-- `ngx_queue_insert_tail` -/
def insertTail (L : Links κ) (h x : κ) : Links κ :=
  let L := L.setPrev x (L.prev h)
  let L := L.setNext (L.prev x) x
  let L := L.setNext x h
  L.setPrev h x

/-- `ngx_queue_remove` -/
def remove (L : Links κ) (x : κ) : Links κ :=
  let L := L.setPrev (L.next x) (L.prev x)
  L.setNext (L.prev x) (L.next x)

/-- `ngx_queue_add` -/
def add (L : Links κ) (h n : κ) : Links κ :=
  let L := L.setNext (L.prev h) (L.next n)
  let L := L.setPrev (L.next n) (L.prev h)
  let L := L.setPrev h (L.prev n)
  L.setNext (L.prev h) h

/-- The cells from `q` on up to the sentinel: what `for (q = ngx_queue_head(h);
q != ngx_queue_sentinel(h); q = ngx_queue_next(q))` visits. -/
def elements (L : Links κ) (h : κ) : Nat → κ → List κ
  | 0, _ => []
  | fuel + 1, q => if q = h then [] else q :: elements L h fuel (L.next q)

end operations

/-! ## Segments and rings -/

/-- From `a` the links lead through `l` to `b` and back. -/
def Seg (L : Links κ) : κ → List κ → κ → Prop
  | a, [], b => L.next a = b ∧ L.prev b = a
  | a, x :: l, b => (L.next a = x ∧ L.prev x = a) ∧ Seg L x l b

/-- The queue with head `h` holds the cells `l`. -/
structure Ring (L : Links κ) (h : κ) (l : List κ) : Prop where
  nodup : (h :: l).Nodup
  seg : L.Seg h l h

variable {L L' : Links κ} {a b h h' n x y : κ} {l l' l₁ l₂ m : List κ}

theorem seg_append : L.Seg a (l₁ ++ x :: l₂) b ↔ L.Seg a l₁ x ∧ L.Seg x l₂ b := by
  induction l₁ generalizing a with
  | nil => rfl
  | cons y l₁ ih =>
    rw [cons_append, Seg, Seg, ih]
    simp only [and_assoc]

theorem Seg.congr (hs : L.Seg a l b) (hnext : ∀ c ∈ a :: l, L'.next c = L.next c)
    (hprev : ∀ c ∈ l ++ [b], L'.prev c = L.prev c) : L'.Seg a l b := by
  induction l generalizing a with
  | nil =>
    obtain ⟨hab, hba⟩ := hs
    exact ⟨(hnext a (by simp)).trans hab, (hprev b (by simp)).trans hba⟩
  | cons y l ih =>
    obtain ⟨⟨hay, hya⟩, hs⟩ := hs
    refine ⟨⟨(hnext a (by simp)).trans hay, (hprev y (by simp)).trans hya⟩, ih hs ?_ ?_⟩
    · exact fun c hc => hnext c (mem_cons_of_mem a hc)
    · exact fun c hc => hprev c (mem_cons_of_mem y hc)

theorem Seg.prev_mem (hs : L.Seg a l b) : L.prev b ∈ a :: l := by
  induction l generalizing a with
  | nil =>
    rw [hs.2]
    exact mem_cons_self
  | cons y l ih => exact mem_cons_of_mem a (ih hs.2)

theorem Seg.next_prev (hs : L.Seg a l b) : L.next (L.prev b) = b := by
  induction l generalizing a with
  | nil => rw [hs.2, hs.1]
  | cons y l ih => exact ih hs.2

theorem Seg.next_mem (hs : L.Seg a l b) : L.next a ∈ l ++ [b] := by
  cases l with
  | nil =>
    rw [hs.1]
    exact mem_cons_self
  | cons y l =>
    rw [hs.1.1]
    exact mem_cons_self

theorem Seg.redirect (hs : L.Seg a l x) (hnodup : (a :: l).Nodup)
    (hlast : L'.next (L.prev x) = y) (hback : L'.prev y = L.prev x)
    (hnext : ∀ c ∈ a :: l, c ≠ L.prev x → L'.next c = L.next c)
    (hprev : ∀ c ∈ l, L'.prev c = L.prev c) : L'.Seg a l y := by
  induction l generalizing a with
  | nil =>
    obtain ⟨-, hxa⟩ := hs
    rw [hxa] at hlast hback
    exact ⟨hlast, hback⟩
  | cons z l ih =>
    obtain ⟨⟨haz, hza⟩, hs⟩ := hs
    obtain ⟨hna, hnodup⟩ := nodup_cons.mp hnodup
    have hne : a ≠ L.prev x := fun heq => hna (heq ▸ hs.prev_mem)
    refine ⟨⟨(hnext a (by simp) hne).trans haz, (hprev z (by simp)).trans hza⟩,
      ih hs hnodup ?_ ?_⟩
    · exact fun c hc => hnext c (mem_cons_of_mem a hc)
    · exact fun c hc => hprev c (mem_cons_of_mem z hc)

theorem Seg.rehead (hs : L.Seg a l b) (hnodup : (l ++ [b]).Nodup)
    (hfirst : L'.next x = L.next a) (hback : L'.prev (L.next a) = x)
    (hnext : ∀ c ∈ l, L'.next c = L.next c)
    (hprev : ∀ c ∈ l ++ [b], c ≠ L.next a → L'.prev c = L.prev c) : L'.Seg x l b := by
  cases l with
  | nil =>
    rw [hs.1] at hfirst hback
    exact ⟨hfirst, hback⟩
  | cons y l =>
    obtain ⟨⟨hay, -⟩, hs⟩ := hs
    rw [hay] at hfirst hback
    obtain ⟨hy, -⟩ := nodup_cons.mp hnodup
    refine ⟨⟨hfirst, hback⟩, hs.congr hnext fun c hc => hprev c (mem_cons_of_mem y hc) ?_⟩
    rw [hay]
    exact ne_of_mem_of_not_mem hc hy

theorem Ring.congr (hr : L.Ring h l) (hnext : ∀ c ∈ h :: l, L'.next c = L.next c)
    (hprev : ∀ c ∈ h :: l, L'.prev c = L.prev c) : L'.Ring h l :=
  ⟨hr.nodup, hr.seg.congr hnext fun c hc => hprev c (by simpa [or_comm] using hc)⟩

theorem Ring.next_mem (hr : L.Ring h l) (hx : x ∈ h :: l) : L.next x ∈ h :: l := by
  have hring : ∀ c, c ∈ l ++ [h] → c ∈ h :: l := fun c hc => by simpa [or_comm] using hc
  obtain rfl | hx := mem_cons.mp hx
  · exact hring _ hr.seg.next_mem
  · obtain ⟨l₁, l₂, rfl⟩ := append_of_mem hx
    have hmem := (seg_append.mp hr.seg).2.next_mem
    exact hring _ (mem_append.mpr ((mem_append.mp hmem).imp_left fun hc => by simp [hc]))

theorem Ring.prev_mem (hr : L.Ring h l) (hx : x ∈ h :: l) : L.prev x ∈ h :: l := by
  obtain rfl | hx := mem_cons.mp hx
  · exact hr.seg.prev_mem
  · obtain ⟨l₁, l₂, rfl⟩ := append_of_mem hx
    have hmem := (seg_append.mp hr.seg).1.prev_mem
    exact mem_cons.mpr ((mem_cons.mp hmem).imp_right fun hc => by simp [hc])

theorem Ring.middle (hr : L.Ring h (l₁ ++ x :: l₂)) :
    L.Seg h l₁ x ∧ L.Seg x l₂ h ∧ (h :: (l₁ ++ l₂)).Nodup ∧ x ∉ h :: (l₁ ++ l₂) := by
  have hperm : (h :: (l₁ ++ x :: l₂)).Perm (x :: h :: (l₁ ++ l₂)) :=
    (perm_middle.cons h).trans (List.Perm.swap x h _)
  obtain ⟨hx, hnodup⟩ := nodup_cons.mp (hperm.nodup_iff.mp hr.nodup)
  obtain ⟨hs₁, hs₂⟩ := seg_append.mp hr.seg
  exact ⟨hs₁, hs₂, hnodup, hx⟩

theorem Ring.next_ne (hr : L.Ring h (l₁ ++ x :: l₂)) : L.next x ≠ x := by
  obtain ⟨-, hs₂, -, hx⟩ := hr.middle
  intro heq
  have hmem := hs₂.next_mem
  rw [heq] at hmem
  refine hx ?_
  obtain hmem | hmem := mem_append.mp hmem
  · exact mem_cons_of_mem h (mem_append_right l₁ hmem)
  · rw [mem_singleton.mp hmem]
    exact mem_cons_self

/-! ## The operations on rings -/

section rings

variable [DecidableEq κ]

@[simp] theorem setNext_next (L : Links κ) (a b : κ) :
    (L.setNext a b).next = update L.next a b := rfl

@[simp] theorem setNext_prev (L : Links κ) (a b : κ) : (L.setNext a b).prev = L.prev := rfl

@[simp] theorem setPrev_prev (L : Links κ) (a b : κ) :
    (L.setPrev a b).prev = update L.prev a b := rfl

@[simp] theorem setPrev_next (L : Links κ) (a b : κ) : (L.setPrev a b).next = L.next := rfl

theorem ring_init (L : Links κ) (q : κ) : (L.init q).Ring q [] :=
  ⟨by simp, by simp [init, Seg]⟩

theorem init_other (hne : x ≠ a) : (L.init a).next x = L.next x ∧ (L.init a).prev x = L.prev x := by
  simp [init, hne]

theorem remove_links (hx : L.next x ≠ x) :
    (L.remove x).next = update L.next (L.prev x) (L.next x) ∧
      (L.remove x).prev = update L.prev (L.next x) (L.prev x) := by
  simp [remove, update_of_ne hx.symm]

theorem Ring.remove (hr : L.Ring h (l₁ ++ x :: l₂)) : (L.remove x).Ring h (l₁ ++ l₂) := by
  obtain ⟨hnext, hprev⟩ := remove_links hr.next_ne
  obtain ⟨hs₁, hs₂, hnodup, hx⟩ := hr.middle
  obtain ⟨hnodup₁, -, hdisjoint⟩ := nodup_append.mp (cons_append ▸ hnodup)
  -- up to `x` the segment now leads to what stood behind `x`
  have hfirst : ∀ y, L.next x = y → y ∉ l₁ → (L.remove x).Seg h l₁ y := fun y hy hmem => by
    refine hs₁.redirect hnodup₁ ?_ ?_ ?_ ?_
    · rw [hnext, update_self, hy]
    · rw [hprev, hy, update_self]
    · exact fun c _ hc => by rw [hnext, update_of_ne hc]
    · intro c hc
      have hne : c ≠ y := fun heq => hmem (heq ▸ hc)
      rw [hprev, hy, update_of_ne hne]
  refine ⟨hnodup, ?_⟩
  cases l₂ with
  | nil =>
    rw [append_nil]
    exact hfirst h hs₂.1 (nodup_cons.mp hnodup₁).1
  | cons b l₂ =>
    obtain ⟨⟨hb, -⟩, hs₂⟩ := hs₂
    refine seg_append.mpr ⟨hfirst b hb fun hmem => ?_, hs₂.congr ?_ ?_⟩
    · exact hdisjoint b (mem_cons_of_mem h hmem) b mem_cons_self rfl
    · intro c hc
      rw [hnext, update_of_ne]
      exact fun heq => hdisjoint _ hs₁.prev_mem c hc heq.symm
    intro c hc
    rw [hprev, hb, update_of_ne]
    rintro rfl
    have hb := perm_middle.nodup_iff.mp (nodup_cons.mp hnodup).2
    obtain hc | hc := mem_append.mp hc
    · exact (nodup_cons.mp hb).1 (mem_append_right l₁ hc)
    · rw [mem_singleton.mp hc] at hnodup
      exact (nodup_cons.mp hnodup).1 (by simp)

variable {c : κ}

theorem Ring.remove_other (hr : L.Ring h (l₁ ++ x :: l₂)) (hc : c ∉ h :: (l₁ ++ x :: l₂)) :
    (L.remove x).next c = L.next c ∧ (L.remove x).prev c = L.prev c := by
  obtain ⟨hnext, hprev⟩ := remove_links hr.next_ne
  have hx : x ∈ h :: (l₁ ++ x :: l₂) := by simp
  rw [hnext, hprev, update_of_ne (ne_of_mem_of_not_mem (hr.prev_mem hx) hc).symm,
    update_of_ne (ne_of_mem_of_not_mem (hr.next_mem hx) hc).symm]
  exact ⟨rfl, rfl⟩

theorem insertTail_links (L : Links κ) (h x : κ) :
    (L.insertTail h x).next = update (update L.next (L.prev h) x) x h ∧
      (L.insertTail h x).prev = update (update L.prev x (L.prev h)) h x := by
  simp [insertTail]

theorem Ring.insertTail (hr : L.Ring h l) (hx : x ∉ h :: l) :
    (L.insertTail h x).Ring h (l ++ [x]) := by
  obtain ⟨hnext, hprev⟩ := insertTail_links L h x
  have hlast := hr.prev_mem mem_cons_self
  have hne : ∀ c ∈ h :: l, c ≠ x := fun c hc => ne_of_mem_of_not_mem hc hx
  have hxh : x ≠ h := (hne h mem_cons_self).symm
  refine ⟨?_, seg_append.mpr ⟨hr.seg.redirect hr.nodup ?_ ?_ ?_ ?_, ?_, ?_⟩⟩
  · rw [← cons_append, nodup_append]
    exact ⟨hr.nodup, by simp, by simpa using hne⟩
  · rw [hnext, update_of_ne (hne _ hlast), update_self]
  · rw [hprev, update_of_ne hxh, update_self]
  · intro c hc hcl
    rw [hnext, update_of_ne (hne c hc), update_of_ne hcl]
  · intro c hc
    have hch : c ≠ h := ne_of_mem_of_not_mem hc (nodup_cons.mp hr.nodup).1
    rw [hprev, update_of_ne hch, update_of_ne (hne c (mem_cons_of_mem h hc))]
  · rw [hnext, update_self]
  · rw [hprev, update_self]

theorem Ring.insertTail_other (hr : L.Ring h l) (hc : c ∉ h :: l) (hcx : c ≠ x) :
    (L.insertTail h x).next c = L.next c ∧ (L.insertTail h x).prev c = L.prev c := by
  obtain ⟨hnext, hprev⟩ := insertTail_links L h x
  have hlast := hr.prev_mem mem_cons_self
  rw [hnext, hprev, update_of_ne hcx,
    update_of_ne (ne_of_mem_of_not_mem hlast hc).symm,
    update_of_ne (ne_of_mem_of_not_mem mem_cons_self hc).symm,
    update_of_ne hcx]
  exact ⟨rfl, rfl⟩

theorem insertAfter_links (L : Links κ) (h x : κ) :
    (L.insertAfter h x).next = update (update L.next x (L.next h)) h x ∧
      (L.insertAfter h x).prev = update (update L.prev (L.next h) x) x h := by
  simp [insertAfter]

theorem Ring.insertAfter {y : κ} (hr : L.Ring h (l₁ ++ y :: l₂)) (hx : x ∉ h :: (l₁ ++ y :: l₂)) :
    (L.insertAfter y x).Ring h (l₁ ++ y :: x :: l₂) := by
  obtain ⟨hnext, hprev⟩ := insertAfter_links L y x
  obtain ⟨hs₁, hs₂, hnodup, hy⟩ := hr.middle
  have hne : ∀ c ∈ h :: (l₁ ++ y :: l₂), c ≠ x := fun c hc => ne_of_mem_of_not_mem hc hx
  have hback := hs₂.next_mem
  have hnodup₂ : (l₂ ++ [h]).Nodup := by
    have hsub : (h :: l₂).Nodup := hnodup.sublist ((sublist_append_right l₁ l₂).cons_cons h)
    exact (@perm_append_comm _ l₂ [h]).nodup_iff.mpr hsub
  have hfront : ∀ c ∈ l₁ ++ [y], c ∉ l₂ ++ [h] := by grind
  have hmid : y ∈ h :: (l₁ ++ y :: l₂) := by simp
  have hbehind : L.next y ≠ x := hne _ (hr.next_mem hmid)
  refine ⟨?_, seg_append.mpr ⟨hs₁.congr ?_ ?_, ⟨?_, ?_⟩, hs₂.rehead hnodup₂ ?_ ?_ ?_ ?_⟩⟩
  · grind
  · intro c hc
    rw [hnext, update_of_ne (by grind), update_of_ne (hne c (by grind))]
  · intro c hc
    rw [hprev, update_of_ne (hne c (by grind)),
      update_of_ne (ne_of_mem_of_not_mem hback (hfront c hc)).symm]
  · rw [hnext, update_self]
  · rw [hprev, update_self]
  · rw [hnext, update_of_ne (hne y hmid).symm, update_self]
  · rw [hprev, update_of_ne hbehind, update_self]
  · intro c hc
    rw [hnext, update_of_ne (by grind), update_of_ne (hne c (by grind))]
  · intro c hc hcy
    rw [hprev, update_of_ne (hne c (by grind)), update_of_ne hcy]

theorem Ring.insertAfter_other {y : κ} (hr : L.Ring h l) (hy : y ∈ l) (hc : c ∉ h :: l)
    (hcx : c ≠ x) :
    (L.insertAfter y x).next c = L.next c ∧ (L.insertAfter y x).prev c = L.prev c := by
  obtain ⟨hnext, hprev⟩ := insertAfter_links L y x
  have hmem : y ∈ h :: l := mem_cons_of_mem h hy
  rw [hnext, hprev, update_of_ne (ne_of_mem_of_not_mem hmem hc).symm,
    update_of_ne hcx, update_of_ne hcx,
    update_of_ne (ne_of_mem_of_not_mem (hr.next_mem hmem) hc).symm]
  exact ⟨rfl, rfl⟩

theorem add_links (hn' : n ≠ L.prev h) (p : κ)
    (hp : p = if n = L.next n then L.prev h else L.prev n) :
    (L.add h n).next = update (update L.next (L.prev h) (L.next n)) p h ∧
      (L.add h n).prev = update (update L.prev (L.next n) (L.prev h)) h p := by
  subst hp
  have hprev : update L.prev (L.next n) (L.prev h) n =
      if n = L.next n then L.prev h else L.prev n := by
    split
    next heq => rw [← heq, update_self]
    next hne => rw [update_of_ne hne]
  simp [Links.add, update_of_ne hn', hprev]

theorem Ring.add (hr : L.Ring h l) (hr' : L.Ring n m) (hdisjoint : ∀ c ∈ h :: l, c ∉ n :: m) :
    (L.add h n).Ring h (l ++ m) := by
  have hlast := hr.prev_mem mem_cons_self
  have hne : ∀ c ∈ h :: l, ∀ d ∈ n :: m, c ≠ d := fun c hc d hd heq => hdisjoint c hc (heq ▸ hd)
  have hnlast : n ≠ L.prev h := (hne _ hlast n mem_cons_self).symm
  obtain ⟨hnext, hprev⟩ := add_links hnlast _ rfl
  cases m with
  | nil =>
    obtain ⟨hnn, -⟩ := hr'.seg
    rw [if_pos hnn.symm, hnn] at hnext hprev
    rw [append_nil]
    refine hr.congr (fun c hc => ?_) fun c hc => ?_
    · rw [hnext, update_idem]
      exact congrFun (update_eq_self_iff.mpr hr.seg.next_prev.symm) c
    · rw [hprev, update_apply, update_of_ne (hne c hc n mem_cons_self)]
      split
      next heq => rw [heq]
      next => rfl
  | cons b m =>
    obtain ⟨⟨hnb, hbn⟩, hs⟩ := hr'.seg
    obtain ⟨hnm, hnodup⟩ := nodup_cons.mp hr'.nodup
    have hnbne : n ≠ b := fun heq => hnm (heq ▸ mem_cons_self)
    have hfirst : b ∈ n :: b :: m := mem_cons_of_mem n mem_cons_self
    have hback : L.prev n ∈ n :: b :: m := mem_cons_of_mem n hs.prev_mem
    rw [hnb, if_neg hnbne] at hnext hprev
    refine ⟨?_, seg_append.mpr ⟨hr.seg.redirect hr.nodup ?_ ?_ ?_ ?_,
      hs.redirect hnodup ?_ ?_ ?_ ?_⟩⟩
    · rw [← cons_append, nodup_append]
      exact ⟨hr.nodup, hnodup, fun c hc d hd => hne c hc d (mem_cons_of_mem n hd)⟩
    · rw [hnext, update_of_ne (hne _ hlast _ hback), update_self]
    · rw [hprev, update_of_ne (hne h mem_cons_self b hfirst).symm,
        update_self]
    · intro c hc hcl
      rw [hnext, update_of_ne (hne c hc _ hback), update_of_ne hcl]
    · intro c hc
      rw [hprev, update_of_ne (ne_of_mem_of_not_mem hc (nodup_cons.mp hr.nodup).1),
        update_of_ne (hne c (mem_cons_of_mem h hc) b hfirst)]
    · rw [hnext, update_self]
    · rw [hprev, update_self]
    · intro c hc hcl
      rw [hnext, update_of_ne hcl,
        update_of_ne (hne _ hlast c (mem_cons_of_mem n hc)).symm]
    · intro c hc
      have hcm : c ∈ n :: b :: m := mem_cons_of_mem n (mem_cons_of_mem b hc)
      rw [hprev, update_of_ne (hne h mem_cons_self c hcm).symm,
        update_of_ne (ne_of_mem_of_not_mem hc (nodup_cons.mp hnodup).1)]

theorem Ring.add_other (hr : L.Ring h l) (hr' : L.Ring n m)
    (hdisjoint : ∀ c ∈ h :: l, c ∉ n :: m) (hc : c ∉ h :: l) (hc' : c ∉ n :: m) :
    (L.add h n).next c = L.next c ∧ (L.add h n).prev c = L.prev c := by
  have hlast := hr.prev_mem mem_cons_self
  have hne : ∀ d ∈ h :: l, c ≠ d := fun d hd => (ne_of_mem_of_not_mem hd hc).symm
  have hne' : ∀ d ∈ n :: m, c ≠ d := fun d hd => (ne_of_mem_of_not_mem hd hc').symm
  have hnlast : n ≠ L.prev h :=
    (ne_of_mem_of_not_mem hlast fun hn => hdisjoint n hn mem_cons_self).symm
  obtain ⟨hnext, hprev⟩ := add_links hnlast _ rfl
  have hend : c ≠ if n = L.next n then L.prev h else L.prev n := by
    split
    next => exact hne _ hlast
    next => exact hne' _ (hr'.prev_mem mem_cons_self)
  rw [hnext, hprev, update_of_ne hend, update_of_ne (hne _ hlast),
    update_of_ne (hne h mem_cons_self),
    update_of_ne (hne' _ (hr'.next_mem mem_cons_self))]
  exact ⟨rfl, rfl⟩

/-! ## Going around -/

theorem elements_seg (hs : L.Seg a l h) (hh : h ∉ l) {fuel : Nat} (hfuel : l.length < fuel) :
    L.elements h fuel (L.next a) = l := by
  induction l generalizing a fuel with
  | nil =>
    obtain ⟨fuel, rfl⟩ := Nat.exists_eq_succ_of_ne_zero (Nat.ne_zero_of_lt hfuel)
    rw [elements, if_pos hs.1]
  | cons y l ih =>
    obtain ⟨fuel, rfl⟩ := Nat.exists_eq_succ_of_ne_zero (Nat.ne_zero_of_lt hfuel)
    obtain ⟨⟨hay, -⟩, hs⟩ := hs
    obtain ⟨hy, hh⟩ := ne_and_not_mem_of_not_mem_cons hh
    rw [elements, hay, if_neg hy.symm, ih hs hh (Nat.lt_of_succ_lt_succ hfuel)]

theorem Ring.elements (hr : L.Ring h l) {fuel : Nat} (hfuel : l.length < fuel) :
    L.elements h fuel (L.next h) = l :=
  elements_seg hr.seg (nodup_cons.mp hr.nodup).1 hfuel

end rings

end Links

end Nginx.Foundation
