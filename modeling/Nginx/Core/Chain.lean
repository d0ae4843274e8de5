/-
  Core/Chain.lean --- chains of buffers that are sent and used again
  (`src/core/ngx_buf.c`).

  A buffer is known by its number; a chain is a list of such numbers, and the links
  of chains are not modelled.  The allocation of a buffer does not fail.
-/
import Mathlib.Logic.Function.Basic
import Nginx.Core.Base

set_option autoImplicit false

namespace Nginx.Core

open List Foundation Function

/-- What `b->pos` and `b->last` point into. -/
inductive BufArea where
  /-- the memory at `b->start` -/
  | start
  /-- other memory -/
  | text (bytes : Bytes)
  deriving DecidableEq

/-- `ngx_buf_t`; `file` is what is in its file. -/
structure NgxBuf where
  tag : Nat
  start : Option Bytes
  area : BufArea
  pos : Nat
  last : Nat
  file : Bytes
  filePos : Nat
  fileLast : Nat
  temporary : Bool
  memory : Bool
  inFile : Bool
  flush : Bool
  sync : Bool
  lastBuf : Bool
  deriving DecidableEq

namespace NgxBuf

/-- `ngx_calloc_buf` -/
def zeroed : NgxBuf := ⟨0, none, .start, 0, 0, [], 0, 0, false, false, false, false, false, false⟩

/-- `ngx_buf_in_memory` -/
def inMemory (b : NgxBuf) : Bool := b.temporary || b.memory

/-- `ngx_buf_special` -/
def special (b : NgxBuf) : Bool := (b.flush || b.lastBuf || b.sync) && !b.inMemory && !b.inFile

/-- `ngx_buf_size` -/
def size (b : NgxBuf) : Nat := if b.inMemory then b.last - b.pos else b.fileLast - b.filePos

/-- The memory that the buffer is in. -/
def areaBytes (b : NgxBuf) : Bytes :=
  match b.area with
  | .start => b.start.getD []
  | .text bytes => bytes

/-- What is read from the buffer. -/
def bytes (b : NgxBuf) : Bytes :=
  if b.inMemory then (b.areaBytes.take b.last).drop b.pos
    else (b.file.take b.fileLast).drop b.filePos

/-- `pos` and `file_pos` after so many bytes are sent. -/
def advance (b : NgxBuf) (sent : Nat) : NgxBuf :=
  { b with
    pos := if b.inMemory then b.pos + sent else b.pos
    filePos := if b.inFile then b.filePos + sent else b.filePos }

/-- `pos` and `file_pos` when all is sent. -/
def finish (b : NgxBuf) : NgxBuf :=
  { b with
    pos := if b.inMemory then b.last else b.pos
    filePos := if b.inFile then b.fileLast else b.filePos }

/-- `b->pos = b->start; b->last = b->start` -/
def reset (b : NgxBuf) : NgxBuf := { b with area := .start, pos := 0, last := 0 }

end NgxBuf

/-- The buffers that there are. -/
structure Heap where
  buf : Nat → NgxBuf
  count : Nat

namespace Heap

def set (heap : Heap) (id : Nat) (b : NgxBuf) : Heap := { heap with buf := update heap.buf id b }

/-- A buffer that is new. -/
def add (heap : Heap) (b : NgxBuf) : Heap := ⟨update heap.buf heap.count b, heap.count + 1⟩

/-- The buffers of a chain that another module has made. -/
def addAll (heap : Heap) : List NgxBuf → Heap × List Nat
  | [] => (heap, [])
  | b :: bufs =>
    let (heap', ids) := (heap.add b).addAll bufs
    (heap', heap.count :: ids)

/-- What is read from a chain. -/
def bytes (heap : Heap) (chain : List Nat) : Bytes := chain.flatMap fun id => (heap.buf id).bytes

end Heap

/-- `ngx_chain_get_free_buf` -/
def getFreeBuf (heap : Heap) : List Nat → Nat × Heap × List Nat
  | id :: free => (id, heap, free)
  | [] => (heap.count, heap.add .zeroed, [])

/-- A free buffer is taken and filled in. -/
def Heap.fill (heap : Heap) (free : List Nat) (f : NgxBuf → NgxBuf) : Nat × Heap × List Nat :=
  let (id, heap, free) := getFreeBuf heap free
  (id, heap.set id (f (heap.buf id)), free)

/-- `while (*busy)` of `ngx_chain_update_chains`: the buffers, `free` and `busy`. -/
def updateBusy (tag : Nat) : Heap → List Nat → List Nat → Heap × List Nat × List Nat
  | heap, free, [] => (heap, free, [])
  | heap, free, id :: busy =>
    if (heap.buf id).size ≠ 0 then (heap, free, id :: busy)
    else if (heap.buf id).tag ≠ tag then updateBusy tag heap free busy
    else updateBusy tag (heap.set id (heap.buf id).reset) (id :: free) busy

/-- `ngx_chain_update_chains` -/
def updateChains (tag : Nat) (heap : Heap) (free busy out : List Nat) :
    Heap × List Nat × List Nat :=
  updateBusy tag heap free (busy ++ out)

/-- `ngx_chain_update_sent` -/
def updateSent : Heap → List Nat → Nat → Heap × List Nat
  | heap, [], _ => (heap, [])
  | heap, id :: chain, sent =>
    let b := heap.buf id
    if b.special then updateSent heap chain sent
    else if sent = 0 then (heap, id :: chain)
    else if sent ≥ b.size then updateSent (heap.set id b.finish) chain (sent - b.size)
    else (heap.set id (b.advance sent), id :: chain)

attribute [local simp] updateSent

/-! ## Buffers -/

namespace NgxBuf

/-- The buffer has the bytes that its size says. -/
structure Whole (b : NgxBuf) : Prop where
  length : b.bytes.length = b.size
  empty : b.inMemory = false → b.inFile = false → b.size = 0

variable {b : NgxBuf}

theorem Whole.bytes_eq_nil (h : b.Whole) (hsize : b.size = 0) : b.bytes = [] :=
  eq_nil_of_length_eq_zero (h.length.trans hsize)

theorem Whole.bytes_of_special (h : b.Whole) (hspecial : b.special = true) : b.bytes = [] := by
  unfold special at hspecial
  simp only [Bool.and_eq_true, Bool.not_eq_true'] at hspecial
  exact h.bytes_eq_nil (h.empty hspecial.1.2 hspecial.2)

@[simp] theorem tag_advance (sent : Nat) : (b.advance sent).tag = b.tag := rfl

theorem size_advance (h : b.Whole) {sent : Nat} (hsent : sent ≤ b.size) :
    (b.advance sent).size = b.size - sent := by
  have hempty := h.empty
  unfold size at hsent hempty ⊢
  have hmemory : (b.advance sent).inMemory = b.inMemory := rfl
  rw [hmemory]
  unfold advance
  cases hb : b.inMemory with
  | true =>
    simp only [if_true]
    omega
  | false =>
    rw [hb] at hsent
    simp only [Bool.false_eq_true, if_false] at hsent ⊢
    cases hfile : b.inFile with
    | true =>
      simp only [if_true]
      omega
    | false =>
      have hzero := hempty hb hfile
      rw [hb] at hzero
      simp only [Bool.false_eq_true, if_false] at hzero ⊢
      omega

theorem Whole.size_finish (h : b.Whole) : b.finish.size = 0 := by
  have hempty := h.empty
  have hmemory : b.finish.inMemory = b.inMemory := rfl
  unfold size at hempty ⊢
  rw [hmemory]
  unfold finish
  cases hb : b.inMemory with
  | true => simp
  | false =>
    rw [hb] at hempty
    cases hfile : b.inFile with
    | true => simp
    | false => simpa using hempty rfl hfile

theorem bytes_advance (h : b.Whole) (sent : Nat) : (b.advance sent).bytes = b.bytes.drop sent := by
  have hnil := fun hmemory hfile => h.bytes_eq_nil (h.empty hmemory hfile)
  unfold bytes at hnil ⊢
  have hmemory : (b.advance sent).inMemory = b.inMemory := rfl
  have harea : (b.advance sent).areaBytes = b.areaBytes := rfl
  rw [hmemory, harea]
  unfold advance
  cases hb : b.inMemory with
  | true => simp only [if_true, drop_drop]
  | false =>
    simp only [Bool.false_eq_true, if_false]
    cases hfile : b.inFile with
    | true => simp only [if_true, drop_drop]
    | false =>
      have heq := hnil hb hfile
      rw [hb] at heq
      simp only [Bool.false_eq_true, if_false] at heq ⊢
      rw [heq, drop_nil]

theorem Whole.advance (h : b.Whole) {sent : Nat} (hsent : sent ≤ b.size) :
    (b.advance sent).Whole where
  length := by rw [bytes_advance h, length_drop, h.length, size_advance h hsent]
  empty := fun hmemory hfile => by
    have hzero := h.empty hmemory hfile
    rw [size_advance h hsent]
    omega

end NgxBuf

/-! ## Reading a chain -/

namespace Heap

variable {heap : Heap} {chain : List Nat} {id : Nat} {b : NgxBuf}

@[simp] theorem bytes_nil (heap : Heap) : heap.bytes [] = [] := rfl

theorem bytes_cons (heap : Heap) (id : Nat) (chain : List Nat) :
    heap.bytes (id :: chain) = (heap.buf id).bytes ++ heap.bytes chain := flatMap_cons

theorem bytes_append (heap : Heap) (chain chain' : List Nat) :
    heap.bytes (chain ++ chain') = heap.bytes chain ++ heap.bytes chain' := flatMap_append

theorem bytes_congr {heap' : Heap} (h : ∀ id ∈ chain, heap'.buf id = heap.buf id) :
    heap'.bytes chain = heap.bytes chain := by
  unfold bytes
  exact flatMap_congr fun id hid => by rw [h id hid]

@[simp] theorem buf_set_self (heap : Heap) (id : Nat) (b : NgxBuf) :
    (heap.set id b).buf id = b := update_self ..

theorem buf_set_of_ne (heap : Heap) {id id' : Nat} (h : id' ≠ id) (b : NgxBuf) :
    (heap.set id b).buf id' = heap.buf id' :=
  update_of_ne h ..

theorem buf_add_self (heap : Heap) (b : NgxBuf) : (heap.add b).buf heap.count = b := update_self ..

theorem buf_add_of_ne (heap : Heap) {id : Nat} (h : id ≠ heap.count) (b : NgxBuf) :
    (heap.add b).buf id = heap.buf id :=
  update_of_ne h ..

end Heap

/-! ## Sending -/

/-- What `ngx_chain_update_sent` leaves of a chain of different buffers. -/
structure SentFrom (heap : Heap) (chain : List Nat) (sent : Nat) (r : Heap × List Nat) : Prop where
  bytes : r.1.bytes r.2 = (heap.bytes chain).drop sent
  suffix : r.2 <:+ chain
  others : ∀ id, id ∉ chain → r.1.buf id = heap.buf id
  count : r.1.count = heap.count
  tag : ∀ id, (r.1.buf id).tag = (heap.buf id).tag
  whole : ∀ id ∈ r.2, (r.1.buf id).Whole
  /-- a buffer is kept when it is not empty -/
  size : ∀ id ∈ r.2, (heap.buf id).size ≠ 0 → (r.1.buf id).size ≠ 0

/-- `ngx_chain_update_sent` takes `sent` bytes from the chain, wherever they end. -/
theorem updateSent_spec {heap : Heap} {chain : List Nat} (hnodup : chain.Nodup)
    (hwhole : ∀ id ∈ chain, (heap.buf id).Whole)
    (sent : Nat) : SentFrom heap chain sent (updateSent heap chain sent) := by
  induction chain generalizing heap sent with
  | nil =>
    exact ⟨by simp [updateSent], suffix_refl _, fun _ _ => rfl, rfl, fun _ =>
      rfl, by simp [updateSent], by simp [updateSent]⟩
  | cons id chain ih =>
    obtain ⟨hid, hnodup⟩ := nodup_cons.mp hnodup
    obtain ⟨hb, hwhole⟩ := forall_mem_cons.mp hwhole
    unfold updateSent
    simp only
    split
    next hspecial =>
      have h := ih hnodup hwhole sent
      refine ⟨?_, h.suffix.trans (suffix_cons id chain), ?_, h.count, h.tag, h.whole, h.size⟩
      · rw [h.bytes, Heap.bytes_cons, hb.bytes_of_special hspecial, nil_append]
      · exact fun id' hid' => h.others id' fun hmem => hid' (mem_cons_of_mem _ hmem)
    split
    next hzero =>
      subst hzero
      exact ⟨rfl, suffix_refl _, fun _ _ => rfl, rfl, fun _ =>
        rfl, forall_mem_cons.mpr ⟨hb, hwhole⟩,
        fun _ _ h => h⟩
    have hsame : ∀ b, ∀ id' ∈ chain, (heap.set id b).buf id' = heap.buf id' := fun b id' hid' =>
      heap.buf_set_of_ne (fun heq : id' = id => hid (heq ▸ hid')) b
    split
    next hall =>
      have h := @ih (heap.set id (heap.buf id).finish) hnodup
        (fun id' hid' => by rw [hsame _ id' hid']; exact hwhole id' hid')
          (sent - (heap.buf id).size)
      refine ⟨?_, h.suffix.trans (suffix_cons id chain), ?_, h.count, ?_, h.whole, ?_⟩
      · rw [h.bytes, Heap.bytes_congr (hsame _), Heap.bytes_cons, drop_append, hb.length]
        have hnil : (heap.buf id).bytes.drop sent = [] :=
          drop_of_length_le (by rw [hb.length]; exact hall)
        rw [hnil, nil_append]
      · intro id' hid'
        rw [mem_cons, not_or] at hid'
        rw [h.others id' hid'.2, heap.buf_set_of_ne hid'.1]
      · intro id'
        rw [h.tag id']
        by_cases heq : id' = id
        · rw [heq, Heap.buf_set_self]
          rfl
        · rw [heap.buf_set_of_ne heq]
      · intro id' hid' hsize
        refine h.size id' hid' ?_
        rw [hsame _ id' (h.suffix.subset hid')]
        exact hsize
    next hpart =>
      have hle : sent ≤ (heap.buf id).size := by omega
      refine ⟨?_, suffix_refl _, ?_, rfl, ?_, ?_, ?_⟩
      · rw [Heap.bytes_cons, Heap.bytes_cons, Heap.buf_set_self,
          Heap.bytes_congr (hsame _), NgxBuf.bytes_advance hb,
          drop_append_of_le_length (by rw [hb.length]; exact hle)]
      · intro id' hid'
        rw [mem_cons, not_or] at hid'
        exact heap.buf_set_of_ne hid'.1 _
      · intro id'
        by_cases heq : id' = id
        · rw [heq, Heap.buf_set_self, NgxBuf.tag_advance]
        · rw [heap.buf_set_of_ne heq]
      · refine forall_mem_cons.mpr ⟨?_, fun id' hid' => ?_⟩
        · rw [Heap.buf_set_self]
          exact hb.advance hle
        · rw [hsame _ id' hid']
          exact hwhole id' hid'
      · refine forall_mem_cons.mpr ⟨fun _ => ?_, fun id' hid' hsize => ?_⟩
        · rw [Heap.buf_set_self, NgxBuf.size_advance hb hle]
          omega
        · rw [hsame _ id' hid']
          exact hsize

theorem updateSent_same (heap : Heap) (chain : List Nat) (sent : Nat) (id : Nat) :
    (updateSent heap chain sent).1.buf id =
      { heap.buf id with
        pos := ((updateSent heap chain sent).1.buf id).pos
        filePos := ((updateSent heap chain sent).1.buf id).filePos } := by
  induction chain generalizing heap sent with
  | nil => rfl
  | cons x chain ih =>
    have hset : ∀ b : NgxBuf, b = { heap.buf x with pos := b.pos, filePos := b.filePos } →
        (heap.set x b).buf id = { heap.buf id with
          pos := ((heap.set x b).buf id).pos, filePos := ((heap.set x b).buf id).filePos } := by
      intro b hb
      by_cases hid : id = x
      · rw [hid, Heap.buf_set_self]
        exact hb
      · rw [heap.buf_set_of_ne hid]
    unfold updateSent
    simp only
    split
    · exact ih heap sent
    split
    · rfl
    split
    · rw [ih, hset _ rfl]
    · exact hset _ rfl

theorem updateSent_skip {heap : Heap} {front back : List Nat} {sent : Nat}
    (hnodup : (front ++ back).Nodup)
    (hwhole : ∀ id ∈ front, (heap.buf id).Whole)
    (hne : ∀ id ∈ front, (heap.buf id).special = true ∨ (heap.buf id).special = false ∧
      (heap.buf id).size ≠ 0)
    (hsent : (heap.bytes front).length ≤ sent) :
    ∃ heap' : Heap,
      updateSent heap (front ++ back) sent =
      updateSent heap' back (sent - (heap.bytes front).length) ∧
      ∀ id ∈ back, heap'.buf id = heap.buf id := by
  induction front generalizing heap sent with
  | nil => exact ⟨heap, rfl, fun _ _ => rfl⟩
  | cons x front ih =>
    obtain ⟨hx, hnodup⟩ := nodup_cons.mp hnodup
    obtain ⟨hb, hwhole⟩ := forall_mem_cons.mp hwhole
    obtain ⟨hxne, hne⟩ := forall_mem_cons.mp hne
    rw [Heap.bytes_cons, length_append, hb.length] at hsent ⊢
    rw [cons_append, updateSent]
    rcases hxne with hspecial | ⟨hspecial, hsize⟩
    · have hzero : (heap.buf x).size = 0 := by rw [← hb.length, hb.bytes_of_special hspecial]; rfl
      rw [if_pos hspecial, hzero, zero_add]
      exact ih hnodup hwhole hne (by omega)
    rw [if_neg (ne_true_of_eq_false hspecial), if_neg (by omega), if_pos (by omega)]
    have hsame : ∀ id ∈ front ++ back, (heap.set x (heap.buf x).finish).buf id = heap.buf id :=
      fun id hid =>
      heap.buf_set_of_ne (fun heq : id = x => hx (heq ▸ hid)) _
    have hsameFront := fun id (hid : id ∈ front) => hsame id (mem_append_left _ hid)
    obtain ⟨heap', heq, hrest⟩ :=
      @ih (heap.set x (heap.buf x).finish) (sent - (heap.buf x).size) hnodup
      (fun id hid => by rw [hsameFront id hid]; exact hwhole id hid)
      (fun id hid => by rw [hsameFront id hid]; exact hne id hid)
      (by rw [Heap.bytes_congr hsameFront]; omega)
    refine ⟨heap', ?_, fun id hid => by rw [hrest id hid, hsame id (mem_append_right _ hid)]⟩
    rw [heq, Heap.bytes_congr hsameFront, Nat.sub_sub]

theorem updateSent_inside {heap : Heap} {f : Nat} {back : List Nat}
    {sent : Nat} (hspecial : (heap.buf f).special = false)
    (hsent : sent < (heap.buf f).size) : (updateSent heap (f :: back) sent).2 = f :: back := by
  rw [updateSent]
  rw [if_neg (ne_true_of_eq_false hspecial)]
  split
  · rfl
  · rw [if_neg (by omega)]

theorem updateSent_filePos {heap : Heap} {f : Nat} {back : List Nat}
    {sent : Nat} (hnodup : (f :: back).Nodup)
    (hwhole : ∀ id ∈ back, (heap.buf id).Whole) (hfile : (heap.buf f).inFile = true)
    (hmemory : (heap.buf f).inMemory = false)
    (hpos : 0 < sent) (hsent : sent ≤ (heap.buf f).size) :
    ((updateSent heap (f :: back) sent).1.buf f).filePos = (heap.buf f).filePos + sent := by
  obtain ⟨hf, hnodup⟩ := nodup_cons.mp hnodup
  have hspecial : (heap.buf f).special = false := by simp [NgxBuf.special, hfile]
  have hsize : (heap.buf f).size = (heap.buf f).fileLast - (heap.buf f).filePos := by
    simp [NgxBuf.size, hmemory]
  rw [updateSent]
  rw [if_neg (ne_true_of_eq_false hspecial), if_neg (by omega)]
  split
  · have hsame : ∀ id ∈ back, (heap.set f (heap.buf f).finish).buf id = heap.buf id := fun id hid =>
      heap.buf_set_of_ne (fun heq : id = f => hf (heq ▸ hid)) _
    rw [(updateSent_spec hnodup (fun id hid => by rw [hsame id hid]; exact hwhole id hid) _).others
      f hf, Heap.buf_set_self]
    simp only [NgxBuf.finish, hfile, if_true]
    omega
  · rw [Heap.buf_set_self]
    simp [NgxBuf.advance, hfile]

/-- The chain that is left begins with the first buffer that still has something to send. -/
theorem updateSent_rest {heap : Heap} {chain : List Nat} (hnodup : chain.Nodup)
    (hwhole : ∀ id ∈ chain, (heap.buf id).Whole)
    (hne : ∀ id ∈ chain, (heap.buf id).special = true ∨ (heap.buf id).special = false ∧
      (heap.buf id).size ≠ 0) (sent : Nat) :
    ∃ front, chain = front ++ (updateSent heap chain sent).2 ∧
      (∀ id ∈ front, ((updateSent heap chain sent).1.buf id).size = 0) ∧
      ∀ id ∈ (updateSent heap chain sent).2.head?,
        ((updateSent heap chain sent).1.buf id).special = false ∧
          ((updateSent heap chain sent).1.buf id).size ≠ 0 := by
  induction chain generalizing heap sent with
  | nil => exact ⟨[], rfl, by simp, by simp [updateSent]⟩
  | cons x chain ih =>
    obtain ⟨hx, hnodup⟩ := nodup_cons.mp hnodup
    obtain ⟨hb, hwhole⟩ := forall_mem_cons.mp hwhole
    obtain ⟨hxne, hne⟩ := forall_mem_cons.mp hne
    unfold updateSent
    simp only
    split
    · rename_i hspecial
      obtain ⟨front, hfront, hzero, hhead⟩ := ih hnodup hwhole hne sent
      refine ⟨x :: front, by rw [cons_append, ← hfront], forall_mem_cons.mpr ⟨?_, hzero⟩, hhead⟩
      rw [(updateSent_spec hnodup hwhole sent).others x hx, ← hb.length,
        hb.bytes_of_special hspecial]
      rfl
    rename_i hspecial
    obtain ⟨hfalse, hsize⟩ := hxne.resolve_left hspecial
    split
    · refine ⟨[], rfl, by simp, ?_⟩
      rintro id ⟨⟩
      exact ⟨hfalse, hsize⟩
    rename_i hpos
    split
    · have hsame : ∀ id ∈ chain, (heap.set x (heap.buf x).finish).buf id = heap.buf id :=
        fun id hid =>
        heap.buf_set_of_ne (fun heq : id = x => hx (heq ▸ hid)) _
      have hwhole' : ∀ id ∈ chain, ((heap.set x (heap.buf x).finish).buf id).Whole :=
        fun id hid => by
        rw [hsame id hid]
        exact hwhole id hid
      obtain ⟨front, hfront, hzero, hhead⟩ := ih hnodup hwhole'
        (fun id hid => by rw [hsame id hid]; exact hne id hid) (sent - (heap.buf x).size)
      refine ⟨x :: front, by rw [cons_append, ← hfront], forall_mem_cons.mpr ⟨?_, hzero⟩, hhead⟩
      rw [(updateSent_spec hnodup hwhole' _).others x hx, Heap.buf_set_self]
      exact hb.size_finish
    · refine ⟨[], rfl, by simp, ?_⟩
      rintro id ⟨⟩
      rw [Heap.buf_set_self]
      refine ⟨hfalse, ?_⟩
      rw [NgxBuf.size_advance hb (by omega)]
      omega

end Nginx.Core
