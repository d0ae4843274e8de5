/-
  Os/OutputBytes.lean --- the vector and the run of a file are the first bytes of the chain,
  and what is sent of them is taken off the same buffers.
-/
import Nginx.Os.OutputChain

set_option autoImplicit false

namespace Nginx.Os

open List Foundation
open Nginx.Core

/-! ## Buffers -/

/-- The buffer is in memory, or in a file, and not empty; or it is special. -/
structure Sendable (b : NgxBuf) : Prop where
  whole : b.Whole
  kind : b.special = true ∨ (b.special = false ∧ b.size ≠ 0 ∧ b.inMemory = !b.inFile)

/-- The memory and the file of the buffer are where they are said to be. -/
structure Laid (L : Layout) (id : Nat) (b : NgxBuf) : Prop where
  mem : ∀ j (h : j < b.areaBytes.length), L.mem (L.place id + j) = b.areaBytes[j]
  file : b.file = L.content (L.fd id)

variable {L : Layout} {id : Nat} {b : NgxBuf}

theorem Sendable.bytes_length (h : Sendable b) : b.bytes.length = b.size := h.whole.length

theorem Sendable.bytes_special (h : Sendable b) (hs : b.special = true) :
    b.bytes = [] := h.whole.bytes_of_special hs

theorem load_buffer (hb : Sendable b) (hl : Laid L id b) (hm : b.inMemory = true)
    {n : Nat} (hn : n ≤ b.size) :
    load L.mem (L.place id + b.pos) n = b.bytes.take n := by
  have hlen := hb.bytes_length
  have hsize : b.size = b.last - b.pos := by simp [NgxBuf.size, hm]
  have hbytes : b.bytes = (b.areaBytes.take b.last).drop b.pos := by simp [NgxBuf.bytes, hm]
  rw [hbytes, length_drop, length_take, hsize] at hlen
  rw [hsize] at hn
  rw [hbytes]
  have hlt : n = (((b.areaBytes.take b.last).drop b.pos).take n).length := by
    rw [length_take, length_drop, length_take]
    omega
  conv_lhs => rw [hlt]
  refine load_eq_of_forall fun j hj => ?_
  rw [length_take, length_drop, length_take] at hj
  rw [getElem_take, getElem_drop, getElem_take, add_assoc]
  exact hl.mem _ (by omega)

theorem content_buffer (hl : Laid L id b) (hm : b.inMemory = false) {n : Nat} (hn : n ≤ b.size) :
    ((L.content (L.fd id)).drop b.filePos).take n = b.bytes.take n := by
  have hsize : b.size = b.fileLast - b.filePos := by simp [NgxBuf.size, hm]
  have hbytes : b.bytes = (b.file.take b.fileLast).drop b.filePos := by simp [NgxBuf.bytes, hm]
  rw [hbytes, ← hl.file, drop_take, take_take, min_eq_left (by omega)]

/-! ## The vector -/

@[simp] theorem vecBytes_nil (L : Layout) : L.vecBytes [] = [] := rfl

theorem vecBytes_append (iovs iovs' : List Iovec) :
    L.vecBytes (iovs ++ iovs') = L.vecBytes iovs ++ L.vecBytes iovs' :=
  flatMap_append

theorem vecBytes_singleton (iov : Iovec) : L.vecBytes [iov] = load L.mem iov.base iov.len := by
  simp [Layout.vecBytes]

/-- The vector as it is filled: its bytes, and where the last one of them ends. -/
structure Filled (L : Layout) (iovs : List Iovec) (prev : Option Nat) (total : Nat) : Prop where
  length : (L.vecBytes iovs.reverse).length = total
  count : iovs.length ≤ iovsPreallocate
  short : iovs.length ≤ total
  prev : ∀ p, prev = some p → ∃ iov rest, iovs = iov :: rest ∧ iov.base + iov.len = p

/-- Why the vector ends. -/
inductive VecEnd (heap : Heap) (limit : Nat) (iovs : List Iovec) (total : Nat) (cl : List Nat) :
    Prop where
  | all (h : cl = [])
  | limit (h : limit ≤ total)
  | file (id : Nat) (rest : List Nat) (h : cl = id :: rest) (hfile : (heap.buf id).inFile = true)
      (hspecial : (heap.buf id).special = false)
  | full (h : iovs.length = iovsPreallocate)

structure Vec (L : Layout) (heap : Heap) (limit : Nat) (chain : List Nat)
    (before : Bytes) (total : Nat)
    (iovs : List Iovec) (total' : Nat) (cl : List Nat) : Prop where
  n : ∃ n, total' = total + n ∧ n ≤ (heap.bytes chain).length ∧
    L.vecBytes iovs = before ++ (heap.bytes chain).take n
  le : total' ≤ max total limit
  short : iovs.length ≤ total'
  split : ∃ front, chain = front ++ cl ∧
    (total' < limit → (heap.bytes front).length = total' - total)
  stop : VecEnd heap limit iovs total' cl

variable {heap : Heap} {chain : List Nat}

/-- The vector has the bytes of the chain up to the limit. -/
theorem toIovec_spec (limit : Nat) (hgood : ∀ id ∈ chain, Sendable (heap.buf id))
    (hlaid : ∀ id ∈ chain, Laid L id (heap.buf id)) {iovs : List Iovec}
    {prev : Option Nat} {total : Nat}
    (h : Filled L iovs prev total) :
    ∃ iovs' total' cl, toIovec L heap limit chain iovs prev total = some (iovs', total', cl) ∧
      Vec L heap limit chain (L.vecBytes iovs.reverse) total iovs' total' cl := by
  induction chain generalizing iovs prev total with
  | nil =>
    refine ⟨iovs.reverse, total, [], rfl, ⟨0, rfl, Nat.zero_le _, by simp⟩, le_max_left _ _, by
      rw [length_reverse]
      exact h.short, ⟨[], rfl, by simp⟩, .all rfl⟩
  | cons id chain ih =>
    obtain ⟨hb, hgood⟩ := forall_mem_cons.mp hgood
    obtain ⟨hlb, hlaid⟩ := forall_mem_cons.mp hlaid
    have hstop : ∀ hend : VecEnd heap limit iovs.reverse total (id :: chain),
        Vec L heap limit (id :: chain) (L.vecBytes iovs.reverse) total iovs.reverse total
          (id :: chain) := fun hend =>
      ⟨⟨0, rfl, Nat.zero_le _, by simp⟩, le_max_left _ _, by
        rw [length_reverse]; exact h.short, ⟨[], rfl, by simp⟩, hend⟩
    unfold toIovec
    by_cases hlim : total ≥ limit
    · simp only [if_pos hlim]
      exact ⟨_, _, _, rfl, hstop (.limit hlim)⟩
    simp only [if_neg hlim]
    by_cases hspecial : (heap.buf id).special
    · simp only [hspecial, if_true]
      obtain ⟨iovs', total', cl, heq, ⟨n, hn, hle, hv⟩, hmax, hshort,
        ⟨front, hfront, hlen⟩, hend⟩ := ih hgood hlaid h
      have hnil := hb.bytes_special hspecial
      refine ⟨iovs', total', cl, heq, ⟨n, hn, ?_, ?_⟩, hmax, hshort,
        ⟨id :: front, by rw [hfront]; rfl, fun hlt => ?_⟩, hend⟩
      · rw [Heap.bytes_cons, hnil]
        exact hle
      · rw [Heap.bytes_cons, hnil]
        exact hv
      · rw [Heap.bytes_cons, hnil]
        exact hlen hlt
    rw [Bool.not_eq_true] at hspecial
    obtain ⟨-, hsize, hkind⟩ := hb.kind.resolve_left (ne_true_of_eq_false hspecial)
    simp only [hspecial, Bool.false_eq_true, if_false]
    by_cases hfile : (heap.buf id).inFile
    · simp only [hfile, if_true]
      exact ⟨_, _, _, rfl, hstop (.file id chain rfl hfile hspecial)⟩
    rw [Bool.not_eq_true] at hfile
    have hmem : (heap.buf id).inMemory = true := by rw [hkind, hfile]; rfl
    have hsz : (heap.buf id).last - (heap.buf id).pos = (heap.buf id).size := by
      simp [NgxBuf.size, hmem]
    simp only [hfile, hmem, hsz, Bool.false_eq_true, if_false, not_true_eq_false]
    -- one more piece of memory, of its own or behind the last one
    have hload := load_buffer hb hlb hmem (min_le_left (heap.buf id).size (limit - total))
    have hnext : ∀ iovs₁, L.vecBytes iovs₁.reverse = L.vecBytes iovs.reverse ++
          (heap.buf id).bytes.take (min (heap.buf id).size (limit - total)) →
        iovs₁.length ≤ iovsPreallocate → iovs₁.length ≤ iovs.length + 1 →
        (∃ iov rest, iovs₁ = iov :: rest ∧
          iov.base + iov.len = L.place id + (heap.buf id).pos + min
            (heap.buf id).size (limit - total)) →
        ∃ iovs' total' cl, toIovec L heap limit chain iovs₁
            (some (L.place id + (heap.buf id).pos + min (heap.buf id).size (limit - total)))
            (total + min (heap.buf id).size (limit - total)) = some (iovs', total', cl) ∧
          Vec L heap limit (id :: chain) (L.vecBytes iovs.reverse) total iovs' total' cl := by
      intro iovs₁ hv₁ hcount hone hlast
      have hfilled : Filled L iovs₁
        (some (L.place id + (heap.buf id).pos + min (heap.buf id).size (limit - total)))
          (total + min (heap.buf id).size (limit - total)) := by
        refine ⟨?_, hcount, ?_, ?_⟩
        · rw [hv₁, length_append, h.length, length_take, hb.bytes_length]
          omega
        · have := h.short
          omega
        · rintro p ⟨⟩
          exact hlast
      obtain ⟨iovs', total', cl, heq, ⟨n, hn, hle, hv⟩, hmax, hshort,
        ⟨front, hfront, hlen⟩, hend⟩ := ih hgood hlaid hfilled
      refine ⟨iovs', total', cl, heq,
        ⟨min (heap.buf id).size (limit - total) + n, by omega, ?_, ?_⟩, by omega, hshort,
        ⟨id :: front, by rw [hfront]; rfl, fun hlt => ?_⟩, hend⟩
      · rw [Heap.bytes_cons, length_append, hb.bytes_length]
        omega
      · rw [hv, hv₁, Heap.bytes_cons, append_assoc]
        congr 1
        rw [take_append, hb.bytes_length]
        by_cases hcut : (heap.buf id).size ≤ limit - total
        · have hall : ∀ m, (heap.buf id).size ≤ m →
            (heap.buf id).bytes.take m = (heap.buf id).bytes := fun m hm =>
            take_of_length_le (by rw [hb.bytes_length]; exact hm)
          rw [min_eq_left hcut, hall _ le_rfl, hall _ (by omega), Nat.add_sub_cancel_left]
        · -- nothing is taken behind the limit
          have hn0 : n = 0 := by omega
          rw [hn0, add_zero, take_zero, min_eq_right (by omega),
            Nat.sub_eq_zero_of_le (by omega : limit - total ≤ (heap.buf id).size), take_zero]
      · have := hlen hlt
        rw [Heap.bytes_cons, length_append, hb.bytes_length, this]
        omega
    by_cases hprev : prev = some (L.place id + (heap.buf id).pos)
    · rw [if_pos hprev]
      obtain ⟨iov, rest, rfl, hend⟩ := h.prev _ hprev
      refine hnext _ ?_ (by simpa using h.count) (by simp) ⟨_, rest, rfl, ?_⟩
      · rw [reverse_cons, reverse_cons, vecBytes_append, vecBytes_append,
          vecBytes_singleton, vecBytes_singleton,
          load_append, hend, hload, append_assoc]
      · simp only
        omega
    · rw [if_neg hprev]
      by_cases hfull : iovs.length = iovsPreallocate
      · rw [if_pos hfull]
        exact ⟨_, _, _, rfl, hstop (.full (by rw [length_reverse, hfull]))⟩
      rw [if_neg hfull]
      refine hnext _ ?_ ?_ (by simp) ⟨_, iovs, rfl, rfl⟩
      · rw [reverse_cons, vecBytes_append, vecBytes_singleton, hload]
      · have := h.count
        rw [length_cons]
        omega

/-! ## The run of a file -/

theorem le_alignUp {pageSize : Nat} (hpage : 0 < pageSize) (x : Nat) : x ≤ alignUp pageSize x := by
  unfold alignUp
  have := Nat.div_add_mod (x + pageSize - 1) pageSize
  have := Nat.mod_lt (x + pageSize - 1) hpage
  have hcomm := mul_comm pageSize ((x + pageSize - 1) / pageSize)
  omega

theorem alignUp_lt {pageSize : Nat} (hpage : 0 < pageSize) (x : Nat) :
    alignUp pageSize x < x + pageSize := by
  unfold alignUp
  have := Nat.div_add_mod (x + pageSize - 1) pageSize
  have hcomm := mul_comm pageSize ((x + pageSize - 1) / pageSize)
  omega

/-- The run goes past `limit` only inside a buffer of a file, and then to the end of a page at most.
-/
structure CutAt (L : Layout) (heap : Heap) (chain : List Nat) (limit n : Nat)
    (front : List Nat) (f : Nat) : Prop where
  split : ∃ back, chain = front ++ f :: back
  file : (heap.buf f).inFile = true
  memory : (heap.buf f).inMemory = false
  before : (heap.bytes front).length < limit
  inside : n ≤ (heap.bytes front).length + (heap.buf f).size
  cut : limit < (heap.bytes front).length + (heap.buf f).size
  aligned : (heap.buf f).filePos + (n - (heap.bytes front).length) ≤
    alignUp L.pageSize ((heap.buf f).filePos + (limit - (heap.bytes front).length))

theorem Sendable.of_file (h : Sendable b) (hf : b.inFile = true) :
    b.inMemory = false ∧ b.size ≠ 0 ∧ b.size = b.fileLast - b.filePos := by
  have hspecial : b.special = false := by simp [NgxBuf.special, hf]
  obtain ⟨-, hsize, hkind⟩ := h.kind.resolve_left (ne_true_of_eq_false hspecial)
  have hm : b.inMemory = false := by rw [hkind, hf]; rfl
  exact ⟨hm, hsize, by simp [NgxBuf.size, hm]⟩

/-- The part of a run that `ngx_chain_coalesce_file` gives `sendfile`. -/
structure FileRun (L : Layout) (heap : Heap) (chain : List Nat) (limit n : Nat) (bytes : Bytes) :
    Prop where
  pos : 0 < n
  le : n ≤ (heap.bytes chain).length
  bytes : bytes.take n = (heap.bytes chain).take n
  limit : n ≤ limit ∨ ∃ front f, CutAt L heap chain limit n front f

theorem fileRun_cut {limit : Nat} (hpage : 0 < L.pageSize) {id : Nat}
    (hb : Sendable (heap.buf id)) (hl : Laid L id (heap.buf id))
    (hfile : (heap.buf id).inFile = true) (hpos : 0 < limit)
    (hlt : limit < (heap.buf id).size) :
    FileRun L heap (id :: chain) limit
      (if alignUp L.pageSize ((heap.buf id).filePos + limit) ≤ (heap.buf id).fileLast then
        alignUp L.pageSize ((heap.buf id).filePos + limit) - (heap.buf id).filePos else limit)
      ((L.content (L.fd id)).drop (heap.buf id).filePos) := by
  obtain ⟨hm, hsize, hsz⟩ := hb.of_file hfile
  have hle := le_alignUp hpage ((heap.buf id).filePos + limit)
  have htake : ∀ n, n ≤ (heap.buf id).size →
      n ≤ (heap.bytes (id :: chain)).length ∧
        ((L.content (L.fd id)).drop (heap.buf id).filePos).take n =
          (heap.bytes (id :: chain)).take n := by
    intro n hn
    rw [Heap.bytes_cons, length_append, hb.bytes_length]
    refine ⟨by omega, ?_⟩
    rw [take_append_of_le_length (by rw [hb.bytes_length]; exact hn)]
    exact content_buffer hl hm hn
  split
  · rename_i hfit
    obtain ⟨h₁, h₂⟩ :=
      htake _ (by omega : alignUp L.pageSize ((heap.buf id).filePos + limit) -
        (heap.buf id).filePos ≤
      (heap.buf id).size)
    refine ⟨by omega, h₁, h₂,
      .inr ⟨[], id, ⟨chain, rfl⟩, hfile, hm, by simpa using hpos, ?_, by simpa using hlt, ?_⟩⟩
    · rw [Heap.bytes_nil, length_nil]
      omega
    · rw [Heap.bytes_nil, length_nil, Nat.sub_zero, Nat.sub_zero]
      omega
  · obtain ⟨h₁, h₂⟩ := htake limit (by omega)
    exact ⟨hpos, h₁, h₂, .inl le_rfl⟩

/-- Buffers of one file one behind the other are sent as one. -/
theorem coalesceFile_spec {limit : Nat} (hpage : 0 < L.pageSize) {id : Nat}
    (hgood : ∀ x ∈ id :: chain, Sendable (heap.buf x))
    (hlaid : ∀ x ∈ id :: chain, Laid L x (heap.buf x))
    (hfile : (heap.buf id).inFile = true) {total : Nat} (hlt : total < limit) :
    ∃ n, (coalesceFile L heap limit id chain total).1 = total + n ∧
      FileRun L heap (id :: chain) (limit - total) n
        ((L.content (L.fd id)).drop (heap.buf id).filePos) := by
  induction chain generalizing id total with
  | nil =>
    obtain ⟨hb, -⟩ := forall_mem_cons.mp hgood
    obtain ⟨hlb, -⟩ := forall_mem_cons.mp hlaid
    unfold coalesceFile
    obtain ⟨hm, hsize, hsz⟩ := hb.of_file hfile
    simp only [← hsz]
    split
    · exact ⟨_, rfl, fileRun_cut hpage hb hlb hfile (by omega) (by omega)⟩
    refine ⟨_, rfl, ⟨by omega, ?_, ?_, .inl (by omega)⟩⟩
    · rw [Heap.bytes_cons, length_append, hb.bytes_length]
      omega
    · rw [Heap.bytes_cons, Heap.bytes_nil, append_nil]
      exact content_buffer hlb hm le_rfl
  | cons next rest ih =>
    obtain ⟨hb, hgood'⟩ := forall_mem_cons.mp hgood
    obtain ⟨hlb, hlaid'⟩ := forall_mem_cons.mp hlaid
    unfold coalesceFile
    obtain ⟨hm, hsize, hsz⟩ := hb.of_file hfile
    simp only [← hsz]
    split
    · exact ⟨_, rfl, fileRun_cut hpage hb hlb hfile (by omega) (by omega)⟩
    rename_i hfits
    have hone := content_buffer hlb hm (le_refl (heap.buf id).size)
    have hfull : (heap.buf id).bytes.take (heap.buf id).size = (heap.buf id).bytes :=
      take_of_length_le (by rw [hb.bytes_length])
    split
    · rename_i hnext
      obtain ⟨hfn, hlt', hfd, hpos⟩ := hnext
      obtain ⟨n, hn, hrun⟩ := ih hgood' hlaid' hfn hlt'
      refine ⟨(heap.buf id).size + n, by rw [hn]; omega, ⟨by omega, ?_, ?_, ?_⟩⟩
      · rw [Heap.bytes_cons, length_append, hb.bytes_length]
        have := hrun.le
        omega
      · -- the next buffer goes on where this one ends
        rw [Heap.bytes_cons, take_add, hone, hfull, drop_drop, hpos, hfd, hrun.bytes,
          take_append, hb.bytes_length, Nat.add_sub_cancel_left,
          take_of_length_le (l := (heap.buf id).bytes) (by rw [hb.bytes_length]; omega)]
      rcases hrun.limit with hle | ⟨front, f, hcut⟩
      · exact .inl (by omega)
      right
      obtain ⟨back, hback⟩ := hcut.split
      have hbefore := hcut.before
      have hinside := hcut.inside
      have hc := hcut.cut
      have haligned := hcut.aligned
      have hlen : (heap.bytes (id :: front)).length = (heap.buf id).size +
        (heap.bytes front).length := by
        rw [Heap.bytes_cons, length_append, hb.bytes_length]
      refine ⟨id :: front, f, ⟨back, by rw [hback]; rfl⟩, hcut.file, hcut.memory, by
        omega, by omega, by omega, ?_⟩
      rw [hlen, show (heap.buf id).size + n - ((heap.buf id).size + (heap.bytes front).length) =
          n - (heap.bytes front).length by omega,
        show limit - total - ((heap.buf id).size + (heap.bytes front).length) =
          limit - (total + (heap.buf id).size) - (heap.bytes front).length by omega]
      exact haligned
    · refine ⟨_, rfl, ⟨by omega, ?_, ?_, .inl (by omega)⟩⟩
      · rw [Heap.bytes_cons, length_append, hb.bytes_length]
        omega
      · rw [Heap.bytes_cons, hone, take_append_of_le_length (by rw [hb.bytes_length])]

end Nginx.Os
