/-
  Http/RangeBody.lean --- the part of a body that a single range asks for
  (`ngx_http_range_singlepart_body` in
  `src/http/modules/ngx_http_range_filter_module.c`).

  A response comes in calls, each with a chain of buffers in memory or in files and of
  buffers that are flags only.  A chain is a list: `out` are the links that have been
  linked, and `behind` those that still hang on the last of them.
-/
import Nginx.Core.Chain

set_option autoImplicit false

namespace Nginx.Http.RangeBody

open List Foundation Nginx.Core

/-! ## The filter -/

/-- `ngx_buf_t`, with `last_in_chain`. -/
structure BodyBuf extends NgxBuf where
  lastInChain : Bool := false
  deriving DecidableEq

/-- `ngx_http_range_t`; `stop` is `end`. -/
structure ByteRange where
  start : Nat
  stop : Nat
  nonempty : start < stop

namespace BodyBuf

/-- `buf->file_pos = buf->file_last`, `buf->pos = buf->last` and `buf->sync = 1` -/
def skip (b : BodyBuf) : BodyBuf :=
  { b with filePos := if b.inFile then b.fileLast else b.filePos, pos := b.last, sync := true }

/-- `range->start - start` bytes less at the front. -/
def cutFront (b : BodyBuf) (d : Nat) : BodyBuf :=
  { b with
    filePos := if b.inFile then b.filePos + d else b.filePos
    pos := if b.inMemory then b.pos + d else b.pos }

/-- `last - range->end` bytes less at the back. -/
def cutBack (b : BodyBuf) (d : Nat) : BodyBuf :=
  { b with
    fileLast := if b.inFile then b.fileLast - d else b.fileLast
    last := if b.inMemory then b.last - d else b.last }

end BodyBuf

/-- The loop of `ngx_http_range_singlepart_body`, where `ctx->offset` is `start`: what is passed to
the next filter, none where `out` is a null pointer, and `ctx->offset` behind it. -/
def singlepartLoop (main : Bool) (range : ByteRange) :
    Nat → List BodyBuf → List BodyBuf → List BodyBuf → List BodyBuf × Nat
  | start, out, behind, [] => (if out.isEmpty then [] else out ++ behind, start)
  | start, out, behind, b :: rest =>
    let last := start + b.size
    if b.special then singlepartLoop main range last (out ++ [b]) [] rest
    else if range.stop ≤ start ∨ last ≤ range.start then
      singlepartLoop main range last out (behind ++ [b.skip]) rest
    else
      let b := if start < range.start then b.cutFront (range.start - start) else b
      if range.stop ≤ last then
        (out ++ [{ b.cutBack (last - range.stop) with lastBuf := main, lastInChain := true }], last)
      else singlepartLoop main range last (out ++ [b]) [] rest

/-- `ngx_http_range_body_filter` with one range -/
def bodyFilter (main : Bool) (range : ByteRange) (offset : Nat) (chain : List BodyBuf) :
    List BodyBuf × Nat :=
  singlepartLoop main range offset [] [] chain

/-- All that is passed in these calls. -/
def deliver (main : Bool) (range : ByteRange) : Nat → List (List BodyBuf) → List BodyBuf
  | _, [] => []
  | offset, chain :: calls =>
    let passed := bodyFilter main range offset chain
    passed.1 ++ deliver main range passed.2 calls

/-- `ctx->offset` behind these calls. -/
def offsetAfter (main : Bool) (range : ByteRange) : Nat → List (List BodyBuf) → Nat
  | offset, [] => offset
  | offset, chain :: calls => offsetAfter main range (bodyFilter main range offset chain).2 calls

attribute [local simp] singlepartLoop deliver offsetAfter

/-! ## Responses -/

/-- What is in the buffers of a chain. -/
def dataOf (chain : List BodyBuf) : Bytes := chain.flatMap fun b => b.bytes

/-- A buffer as another module makes it: what it has in memory, in a file or in both. -/
structure Sound (b : BodyBuf) : Prop where
  memory : b.inMemory = true → b.pos ≤ b.last ∧ b.last ≤ b.areaBytes.length
  file : b.inFile = true → b.filePos ≤ b.fileLast ∧ b.fileLast ≤ b.file.length
  both : b.inMemory = true → b.inFile = true → (b.file.take b.fileLast).drop b.filePos = b.bytes
  flagsOnly : b.inMemory = false → b.inFile = false → b.fileLast = b.filePos

/-- A response in calls: the last buffer of all is the one with `last_buf`. -/
structure Delivery where
  before : List (List BodyBuf)
  front : List BodyBuf
  final : BodyBuf
  sound : ∀ b ∈ before.flatten ++ front ++ [final], Sound b
  more : ∀ b ∈ before.flatten ++ front, b.lastBuf = false
  ends : final.lastBuf = true

namespace Delivery

/-- The chain of the last call. -/
def lastCall (d : Delivery) : List BodyBuf := d.front ++ [d.final]

def calls (d : Delivery) : List (List BodyBuf) := d.before ++ [d.lastCall]

/-- The bytes that came before the last call. -/
def early (d : Delivery) : Bytes := dataOf d.before.flatten

def body (d : Delivery) : Bytes := dataOf d.calls.flatten

end Delivery

/-- The bytes of a range in bytes that begin at `offset`. -/
def window (range : ByteRange) (offset : Nat) (bytes : Bytes) : Bytes :=
  (bytes.take (range.stop - offset)).drop (range.start - offset)

/-- One buffer is marked as the last one, and no data comes behind it. -/
def EndsOnce (passed : List BodyBuf) : Prop :=
  ∃ xs b ys, passed = xs ++ b :: ys ∧ b.lastBuf = true ∧
    (∀ c ∈ xs ++ ys, c.lastBuf = false) ∧ dataOf ys = []

variable {main : Bool} {range : ByteRange} {b : BodyBuf}
    {bufs out behind : List BodyBuf} {offset d : Nat}

@[simp] theorem dataOf_nil : dataOf [] = [] := rfl

theorem dataOf_cons (b : BodyBuf) (bufs : List BodyBuf) :
    dataOf (b :: bufs) = b.bytes ++ dataOf bufs := flatMap_cons

theorem dataOf_append (a c : List BodyBuf) :
    dataOf (a ++ c) = dataOf a ++ dataOf c := flatMap_append

theorem dataOf_singleton (b : BodyBuf) :
    dataOf [b] = b.bytes := by rw [dataOf_cons, dataOf_nil, append_nil]

/-! ## Parts of what is in a buffer -/

theorem drop_take_nil (xs : Bytes) (k : Nat) : (xs.take k).drop k = [] :=
  drop_eq_nil_of_le (length_take_le ..)

theorem Sound.length_bytes (h : Sound b) : b.bytes.length = b.size := by
  rw [NgxBuf.bytes, NgxBuf.size]
  split
  next hmemory =>
    obtain ⟨-, hlast⟩ := h.memory hmemory
    rw [length_drop, length_take, Nat.min_eq_left hlast]
  next hmemory =>
    have hmemory := eq_false_of_ne_true hmemory
    rw [length_drop, length_take]
    rcases hfile : b.inFile with _ | _
    · have heq := h.flagsOnly hmemory hfile
      omega
    · obtain ⟨-, hlast⟩ := h.file hfile
      rw [Nat.min_eq_left hlast]

theorem Sound.bytes_special (h : Sound b) (hspecial : b.special = true) : b.bytes = [] := by
  rw [NgxBuf.special, Bool.and_eq_true, Bool.and_eq_true, Bool.not_eq_true', Bool.not_eq_true']
    at hspecial
  obtain ⟨⟨-, hmemory⟩, hfile⟩ := hspecial
  rw [NgxBuf.bytes, hmemory, if_neg Bool.false_ne_true, h.flagsOnly hmemory hfile, drop_take_nil]

theorem Sound.bytes_skip (h : Sound b) : b.skip.bytes = [] := by
  rcases hmemory : b.inMemory with _ | _
  · have hmemory' : b.skip.inMemory = false := hmemory
    rw [NgxBuf.bytes, hmemory', if_neg Bool.false_ne_true]
    rcases hfile : b.inFile with _ | _
    · have heq : b.skip.filePos = b.filePos := if_neg (ne_true_of_eq_false hfile)
      rw [heq, ← h.flagsOnly hmemory hfile]
      exact drop_take_nil ..
    · have heq : b.skip.filePos = b.fileLast := if_pos hfile
      rw [heq]
      exact drop_take_nil ..
  · have hmemory' : b.skip.inMemory = true := hmemory
    rw [NgxBuf.bytes, if_pos hmemory']
    exact drop_take_nil ..

theorem Sound.bytes_cutFront (h : Sound b) (d : Nat) : (b.cutFront d).bytes = b.bytes.drop d := by
  have hkeeps : (b.cutFront d).inMemory = b.inMemory := rfl
  rcases hmemory : b.inMemory with _ | _
  · rw [NgxBuf.bytes, NgxBuf.bytes, hkeeps, hmemory, if_neg Bool.false_ne_true,
      if_neg Bool.false_ne_true]
    rcases hfile : b.inFile with _ | _
    · have heq : (b.cutFront d).filePos = b.filePos := if_neg (ne_true_of_eq_false hfile)
      have hnone : (b.file.take b.fileLast).drop b.filePos = [] := by
        rw [h.flagsOnly hmemory hfile, drop_take_nil]
      rw [heq, hnone, drop_nil]
      exact hnone
    · have heq : (b.cutFront d).filePos = b.filePos + d := if_pos hfile
      rw [heq, drop_drop]
      rfl
  · have heq : (b.cutFront d).pos = b.pos + d := if_pos hmemory
    rw [NgxBuf.bytes, NgxBuf.bytes, hkeeps, hmemory, if_pos rfl, if_pos rfl, heq, drop_drop]
    rfl

theorem take_drop_sub (xs : Bytes) {pos last d : Nat} (hle : pos ≤ last) (hd : d ≤ last - pos) :
    (xs.take (last - d)).drop pos = ((xs.take last).drop pos).take (last - pos - d) := by
  have hend : pos + (last - pos - d) = last - d := by omega
  rw [take_drop, take_take, hend, Nat.min_eq_left (Nat.sub_le ..)]

theorem Sound.bytes_cutBack (h : Sound b) (hd : d ≤ b.size) :
    (b.cutBack d).bytes = b.bytes.take (b.size - d) := by
  have hkeeps : (b.cutBack d).inMemory = b.inMemory := rfl
  rcases hmemory : b.inMemory with _ | _
  · have hsize : b.size = b.fileLast - b.filePos := by
      rw [NgxBuf.size, hmemory, if_neg Bool.false_ne_true]
    rw [NgxBuf.bytes, NgxBuf.bytes, hkeeps, hmemory, if_neg Bool.false_ne_true,
      if_neg Bool.false_ne_true]
    rcases hfile : b.inFile with _ | _
    · have heq : (b.cutBack d).fileLast = b.fileLast := if_neg (ne_true_of_eq_false hfile)
      have hnone : (b.file.take b.fileLast).drop b.filePos = [] := by
        rw [h.flagsOnly hmemory hfile, drop_take_nil]
      rw [heq, hnone, take_nil]
      exact hnone
    · obtain ⟨hle, -⟩ := h.file hfile
      have heq : (b.cutBack d).fileLast = b.fileLast - d := if_pos hfile
      rw [heq, hsize]
      exact take_drop_sub b.file hle (hsize ▸ hd)
  · have hsize : b.size = b.last - b.pos := by rw [NgxBuf.size, hmemory, if_pos rfl]
    obtain ⟨hle, -⟩ := h.memory hmemory
    have heq : (b.cutBack d).last = b.last - d := if_pos hmemory
    rw [NgxBuf.bytes, NgxBuf.bytes, hkeeps, hmemory, if_pos rfl, if_pos rfl, heq, hsize]
    exact take_drop_sub b.areaBytes hle (hsize ▸ hd)

theorem Sound.skip (h : Sound b) : Sound b.skip where
  memory hmemory := ⟨le_rfl, (h.memory hmemory).2⟩
  file hfile := by
    have heq : b.skip.filePos = b.fileLast := if_pos hfile
    exact ⟨le_of_eq heq, (h.file hfile).2⟩
  both hmemory hfile := by
    have heq : b.skip.filePos = b.fileLast := if_pos hfile
    rw [h.bytes_skip, heq]
    exact drop_take_nil ..
  flagsOnly hmemory hfile := by
    have heq : b.skip.filePos = b.filePos := if_neg (ne_true_of_eq_false hfile)
    exact (h.flagsOnly hmemory hfile).trans heq.symm

/-- The part of the file is as long as what is in memory. -/
theorem Sound.length_file (h : Sound b) (hfile : b.inFile = true) :
    b.fileLast - b.filePos = b.size := by
  rcases hmemory : b.inMemory with _ | _
  · rw [NgxBuf.size, hmemory, if_neg Bool.false_ne_true]
  · have hboth := congrArg List.length (h.both hmemory hfile)
    rwa [length_drop, length_take, Nat.min_eq_left (h.file hfile).2, h.length_bytes] at hboth

theorem Sound.cutFront (h : Sound b) (hd : d ≤ b.size) : Sound (b.cutFront d) where
  memory hmemory := by
    have hmemory : b.inMemory = true := hmemory
    have heq : (b.cutFront d).pos = b.pos + d := if_pos hmemory
    obtain ⟨hle, harea⟩ := h.memory hmemory
    rw [NgxBuf.size, if_pos hmemory] at hd
    rw [heq]
    exact ⟨show b.pos + d ≤ b.last by omega, harea⟩
  file hfile := by
    have hfile : b.inFile = true := hfile
    have heq : (b.cutFront d).filePos = b.filePos + d := if_pos hfile
    obtain ⟨hle, hlength⟩ := h.file hfile
    rw [← h.length_file hfile] at hd
    rw [heq]
    exact ⟨show b.filePos + d ≤ b.fileLast by omega, hlength⟩
  both hmemory hfile := by
    have hfile : b.inFile = true := hfile
    have heq : (b.cutFront d).filePos = b.filePos + d := if_pos hfile
    rw [h.bytes_cutFront, ← h.both hmemory hfile, drop_drop, heq]
    rfl
  flagsOnly hmemory hfile := by
    have heq : (b.cutFront d).filePos = b.filePos := if_neg (ne_true_of_eq_false hfile)
    exact (h.flagsOnly hmemory hfile).trans heq.symm

theorem Sound.cutBack (h : Sound b) (hd : d ≤ b.size) : Sound (b.cutBack d) where
  memory hmemory := by
    have hmemory : b.inMemory = true := hmemory
    have heq : (b.cutBack d).last = b.last - d := if_pos hmemory
    obtain ⟨hle, harea⟩ := h.memory hmemory
    rw [NgxBuf.size, if_pos hmemory] at hd
    rw [heq]
    exact ⟨show b.pos ≤ b.last - d by omega, (Nat.sub_le ..).trans harea⟩
  file hfile := by
    have hfile : b.inFile = true := hfile
    have heq : (b.cutBack d).fileLast = b.fileLast - d := if_pos hfile
    obtain ⟨hle, hlength⟩ := h.file hfile
    rw [← h.length_file hfile] at hd
    rw [heq]
    exact ⟨show b.filePos ≤ b.fileLast - d by omega, (Nat.sub_le ..).trans hlength⟩
  both hmemory hfile := by
    have hmemory : b.inMemory = true := hmemory
    have hfile : b.inFile = true := hfile
    have heq : (b.cutBack d).fileLast = b.fileLast - d := if_pos hfile
    have hsize := h.length_file hfile
    rw [h.bytes_cutBack hd, ← h.both hmemory hfile, ← hsize, heq]
    exact take_drop_sub b.file (h.file hfile).1 (hsize ▸ hd)
  flagsOnly hmemory hfile := by
    have heq : (b.cutBack d).fileLast = b.fileLast := if_neg (ne_true_of_eq_false hfile)
    exact heq.trans (h.flagsOnly hmemory hfile)

/-! ## Windows -/

theorem window_nil (range : ByteRange) (o : Nat) : window range o [] = [] := by
  rw [window, take_nil, drop_nil]

theorem window_append (range : ByteRange) (o : Nat) (xs ys : Bytes) :
    window range o (xs ++ ys) = window range o xs ++ window range (o + xs.length) ys := by
  rw [window, window, window, take_append, drop_append, length_take]
  congr 1
  rcases Nat.le_total xs.length (range.stop - o) with hle | hle
  · rw [Nat.min_eq_right hle, Nat.sub_sub, Nat.sub_sub]
  · have hnone : range.stop - o - xs.length = 0 := by omega
    have hnone' : range.stop - (o + xs.length) = 0 := by omega
    rw [hnone, hnone', take_zero, drop_nil, drop_nil]

theorem window_of_le {o : Nat} (h : range.stop ≤ o) (xs : Bytes) : window range o xs = [] := by
  rw [window, Nat.sub_eq_zero_of_le h, take_zero, drop_nil]

theorem window_before {o : Nat} {xs : Bytes} (h : o + xs.length ≤ range.start) :
    window range o xs = [] := by
  refine drop_eq_nil_of_le ?_
  rw [length_take]
  omega

theorem window_congr {o o' : Nat} (h : o' = o ∨ range.stop ≤ o' ∧ o' ≤ o) (xs : Bytes) :
    window range o' xs = window range o xs := by
  rcases h with rfl | ⟨hstop, hle⟩
  · rfl
  · rw [window_of_le hstop, window_of_le (hstop.trans hle)]

/-! ## What one buffer becomes -/

/-- A buffer without what is before the range. -/
def fromStart (range : ByteRange) (start : Nat) (b : BodyBuf) : BodyBuf :=
  if start < range.start then b.cutFront (range.start - start) else b

/-- A buffer in which the range ends. -/
def toStop (main : Bool) (d : Nat) (b : BodyBuf) :
    BodyBuf := { b.cutBack d with lastBuf := main, lastInChain := true }

theorem singlepartLoop_cons (start : Nat) (out behind : List BodyBuf)
    (b : BodyBuf) (rest : List BodyBuf) :
    singlepartLoop main range start out behind (b :: rest) =
      if b.special then singlepartLoop main range (start + b.size) (out ++ [b]) [] rest
      else if range.stop ≤ start ∨ start + b.size ≤ range.start then
        singlepartLoop main range (start + b.size) out (behind ++ [b.skip]) rest
      else if range.stop ≤ start + b.size then
        (out ++ [toStop main (start + b.size - range.stop) (fromStart range start b)],
          start + b.size)
      else singlepartLoop main range (start + b.size) (out ++ [fromStart range start b]) [] rest :=
        rfl

theorem Sound.bytes_fromStart (h : Sound b) (start : Nat) :
    (fromStart range start b).bytes = b.bytes.drop (range.start - start) := by
  rw [fromStart]
  split
  next => exact h.bytes_cutFront _
  next hge => rw [Nat.sub_eq_zero_of_le (not_lt.mp hge), drop_zero]

theorem Sound.fromStart {start : Nat} (h : Sound b) (hlast : range.start < start + b.size) :
    Sound (fromStart range start b) := by
  rw [RangeBody.fromStart]
  split
  next => exact h.cutFront (by omega)
  next => exact h

theorem Sound.bytes_kept {start : Nat} (h : Sound b) (hmore : start + b.size < range.stop) :
    (RangeBody.fromStart range start b).bytes = window range start b.bytes := by
  have hall : b.bytes.take (range.stop - start) = b.bytes := by
    refine take_of_length_le ?_
    rw [h.length_bytes]
    omega
  rw [h.bytes_fromStart, window, hall]

theorem Sound.bytes_toStop {start : Nat} (h : Sound b) (hstart : start < range.stop)
    (hlast : range.start < start + b.size)
    (hstop : range.stop ≤ start + b.size) :
    (toStop main (start + b.size - range.stop) (RangeBody.fromStart range start b)).bytes =
      window range start b.bytes := by
  have hfront := h.fromStart hlast
  have hbytes := @Sound.bytes_fromStart range b h start
  have hsize : (RangeBody.fromStart range start b).size = b.size - (range.start - start) := by
    rw [← hfront.length_bytes, hbytes, length_drop, h.length_bytes]
  have hrange := range.nonempty
  have hcut : (RangeBody.fromStart range start b).size - (start + b.size - range.stop) =
    range.stop - start - (range.start - start) := by
    omega
  have hback := hfront.bytes_cutBack (d := start + b.size - range.stop) (by omega)
  rw [hcut, hbytes, take_drop] at hback
  have hend : range.start - start + (range.stop - start - (range.start - start)) =
    range.stop - start := by omega
  rw [hend] at hback
  exact hback

/-! ## One call -/

section Call

variable {start : Nat}

theorem length_dataOf_cons (h : ∀ c ∈ b :: bufs, Sound c) :
    (dataOf (b :: bufs)).length = b.size + (dataOf bufs).length := by
  rw [dataOf_cons, length_append, (h b mem_cons_self).length_bytes]

/-- The loop passes on the window of the range that its buffers have. -/
theorem dataOf_singlepartLoop (h : ∀ c ∈ bufs, Sound c) (hbehind : dataOf behind = []) :
    dataOf (singlepartLoop main range start out behind bufs).1 = dataOf out ++
      window range start (dataOf bufs) := by
  induction bufs generalizing start out behind with
  | nil =>
    rw [singlepartLoop, dataOf_nil, window_nil, append_nil]
    rcases out with _ | ⟨c, out⟩
    · rfl
    · exact (dataOf_append (c :: out) behind).trans (by rw [hbehind, append_nil])
  | cons b rest ih =>
    have hb := h b mem_cons_self
    have hrest : ∀ c ∈ rest, Sound c := fun c hc => h c (mem_cons_of_mem b hc)
    rw [singlepartLoop_cons, dataOf_cons, window_append, hb.length_bytes]
    split
    next hspecial =>
      have hnone := hb.bytes_special hspecial
      rw [ih hrest dataOf_nil, dataOf_append, dataOf_singleton, hnone,
        window_nil, append_nil, nil_append]
    split
    next hskip =>
      have hnone : window range start b.bytes = [] := by
        rcases hskip with hstop | hlast
        · exact window_of_le hstop _
        · exact window_before (by rwa [hb.length_bytes])
      have hbehind' : dataOf (behind ++ [b.skip]) = [] := by
        rw [dataOf_append, hbehind, dataOf_singleton, hb.bytes_skip]
        rfl
      rw [ih hrest hbehind', hnone, nil_append]
    next hin =>
      obtain ⟨hstart, hlast⟩ := not_or.mp hin
      split
      next hstop =>
        rw [dataOf_append, dataOf_singleton,
          hb.bytes_toStop (not_le.mp hstart) (not_le.mp hlast) hstop,
            window_of_le hstop, append_nil]
      next hmore =>
        rw [ih hrest dataOf_nil, dataOf_append, dataOf_singleton,
          hb.bytes_kept (not_le.mp hmore), append_assoc]

theorem sound_singlepartLoop (h : ∀ c ∈ bufs, Sound c) (hout : ∀ c ∈ out ++ behind, Sound c) :
    ∀ c ∈ (singlepartLoop main range start out behind bufs).1, Sound c := by
  induction bufs generalizing start out behind with
  | nil =>
    rw [singlepartLoop]
    split
    next => exact fun c hc => absurd hc not_mem_nil
    next => exact hout
  | cons b rest ih =>
    have hb := h b mem_cons_self
    have hrest : ∀ c ∈ rest, Sound c := fun c hc => h c (mem_cons_of_mem b hc)
    have hadd : ∀ b' : BodyBuf, Sound b' → ∀ c ∈ out ++ [b'], Sound c := by
      intro b' hb' c hc
      rcases mem_append.mp hc with hc | hc
      · exact hout c (mem_append_left _ hc)
      · exact mem_singleton.mp hc ▸ hb'
    rw [singlepartLoop_cons]
    split
    next => exact ih hrest (by rw [append_nil]; exact hadd b hb)
    split
    next =>
      refine ih hrest fun c hc => ?_
      rw [← append_assoc] at hc
      rcases mem_append.mp hc with hc | hc
      · exact hout c hc
      · exact mem_singleton.mp hc ▸ hb.skip
    next hin =>
      obtain ⟨-, hlast⟩ := not_or.mp hin
      have hfront := hb.fromStart (not_le.mp hlast)
      split
      next hstop =>
        refine hadd _ ?_
        have hrange := range.nonempty
        have hsize : start + b.size - range.stop ≤ (fromStart range start b).size := by
          rw [← hfront.length_bytes, hb.bytes_fromStart, length_drop, hb.length_bytes]
          omega
        have hback := hfront.cutBack hsize
        exact ⟨hback.memory, hback.file, hback.both, hback.flagsOnly⟩
      next => exact ih hrest (by rw [append_nil]; exact hadd _ hfront)

theorem offset_singlepartLoop (h : ∀ c ∈ bufs, Sound c) :
    (singlepartLoop main range start out behind bufs).2 = start + (dataOf bufs).length ∨
      range.stop ≤ (singlepartLoop main range start out behind bufs).2 ∧
        (singlepartLoop main range start out behind bufs).2 ≤ start + (dataOf bufs).length := by
  induction bufs generalizing start out behind with
  | nil => exact .inl rfl
  | cons b rest ih =>
    have hrest : ∀ c ∈ rest, Sound c := fun c hc => h c (mem_cons_of_mem b hc)
    rw [singlepartLoop_cons, length_dataOf_cons h, ← add_assoc]
    split
    next => exact ih hrest
    split
    next => exact ih hrest
    next =>
      split
      next hstop => exact .inr ⟨hstop, Nat.le_add_right ..⟩
      next => exact ih hrest

theorem unmarked_singlepartLoop (h : ∀ c ∈ bufs, Sound c)
    (hno : range.stop ≤ start ∨ start + (dataOf bufs).length < range.stop)
    (hbufs : ∀ c ∈ bufs, c.lastBuf = false) (hout : ∀ c ∈ out ++ behind, c.lastBuf = false) :
    ∀ c ∈ (singlepartLoop main range start out behind bufs).1, c.lastBuf = false := by
  induction bufs generalizing start out behind with
  | nil =>
    rw [singlepartLoop]
    split
    next => exact fun c hc => absurd hc not_mem_nil
    next => exact hout
  | cons b rest ih =>
    have hrest : ∀ c ∈ rest, Sound c := fun c hc => h c (mem_cons_of_mem b hc)
    have hflags : ∀ c ∈ rest, c.lastBuf = false := fun c hc => hbufs c (mem_cons_of_mem b hc)
    have hb : b.lastBuf = false := hbufs b mem_cons_self
    have hno' : range.stop ≤ start + b.size ∨
      start + b.size + (dataOf rest).length < range.stop := by
      rw [length_dataOf_cons h] at hno
      omega
    have hadd : ∀ b' : BodyBuf, b'.lastBuf = false →
      ∀ c ∈ out ++ [b'] ++ [], c.lastBuf = false := by
      intro b' hb' c hc
      rw [append_nil] at hc
      rcases mem_append.mp hc with hc | hc
      · exact hout c (mem_append_left _ hc)
      · exact mem_singleton.mp hc ▸ hb'
    rw [singlepartLoop_cons]
    split
    next => exact ih hrest hno' hflags (hadd b hb)
    split
    next =>
      refine ih hrest hno' hflags fun c hc => ?_
      rw [← append_assoc] at hc
      rcases mem_append.mp hc with hc | hc
      · exact hout c hc
      · exact mem_singleton.mp hc ▸ hb
    next hin =>
      obtain ⟨hstart, -⟩ := not_or.mp hin
      split
      next hstop =>
        rw [length_dataOf_cons h] at hno
        omega
      next =>
        refine ih hrest hno' hflags (hadd _ ?_)
        rw [fromStart]
        split <;> exact hb

/-- The buffer with the end of the range is marked, and no other. -/
theorem marked_singlepartLoop (h : ∀ c ∈ bufs, Sound c) (hstart : start < range.stop)
    (hstop : range.stop ≤ start + (dataOf bufs).length)
    (hbufs : ∀ c ∈ bufs.dropLast, c.lastBuf = false)
    (hout : ∀ c ∈ out, c.lastBuf = false) :
    ∃ xs b, (singlepartLoop main range start out behind bufs).1 = xs ++ [b] ∧ b.lastBuf = main ∧
      ∀ c ∈ xs, c.lastBuf = false := by
  induction bufs generalizing start out behind with
  | nil => exact absurd hstop (Nat.not_le_of_lt hstart)
  | cons b rest ih =>
    have hrest : ∀ c ∈ rest, Sound c := fun c hc => h c (mem_cons_of_mem b hc)
    have hbytes := (h b mem_cons_self).length_bytes
    rw [length_dataOf_cons h] at hstop
    rw [singlepartLoop_cons]
    by_cases hends : range.stop ≤ start + b.size
    · have hsize : b.size ≠ 0 := by omega
      have hplain : ¬b.special = true := by
        intro hspecial
        rw [(h b mem_cons_self).bytes_special hspecial] at hbytes
        exact hsize hbytes.symm
      have hrange := range.nonempty
      have hin : ¬(range.stop ≤ start ∨ start + b.size ≤ range.start) := by omega
      rw [if_neg hplain, if_neg hin, if_pos hends]
      exact ⟨out, _, rfl, rfl, hout⟩
    · have hne : rest ≠ [] := by
        rintro rfl
        rw [dataOf_nil, length_nil] at hstop
        omega
      rw [dropLast_cons_of_ne_nil hne] at hbufs
      have hb : b.lastBuf = false := hbufs b mem_cons_self
      have hflags : ∀ c ∈ rest.dropLast, c.lastBuf = false := fun c hc =>
        hbufs c (mem_cons_of_mem b hc)
      have hadd : ∀ b' : BodyBuf, b'.lastBuf = false → ∀ c ∈ out ++ [b'], c.lastBuf = false := by
        intro b' hb' c hc
        rcases mem_append.mp hc with hc | hc
        · exact hout c hc
        · exact mem_singleton.mp hc ▸ hb'
      have hnext : start + b.size < range.stop := not_le.mp hends
      have hstop' : range.stop ≤ start + b.size + (dataOf rest).length := by omega
      split
      next => exact ih hrest hnext hstop' hflags (hadd b hb)
      split
      next => exact ih hrest hnext hstop' hflags hout
      next =>
        refine ih hrest hnext hstop' hflags (hadd _ ?_)
        rw [fromStart]
        split <;> exact hb

theorem marked_behind {front : List BodyBuf} {final : BodyBuf}
    (hstop : range.stop ≤ start) (hfinal : final.lastBuf = true)
    (hany : out ≠ [] ∨ ∃ c ∈ front ++ [final], c.special = true) :
    ∃ c ∈ (singlepartLoop main range start out behind (front ++ [final])).1, c.lastBuf = true := by
  induction front generalizing start out behind with
  | nil =>
    have hskip : range.stop ≤ start ∨ start + final.size ≤ range.start := .inl hstop
    rw [nil_append, singlepartLoop_cons, if_pos hskip]
    have hnonempty : ∀ c : BodyBuf, (out ++ [c]).isEmpty = false := fun c => by
      rw [isEmpty_eq_false_iff]
      exact append_ne_nil_of_right_ne_nil out (cons_ne_nil c [])
    split
    next =>
      refine ⟨final, ?_, hfinal⟩
      rw [singlepartLoop, hnonempty, if_neg Bool.false_ne_true]
      exact mem_append_left _ (mem_append_right _ mem_cons_self)
    next hplain =>
      have hne : out ≠ [] := by
        refine hany.resolve_right fun ⟨c, hc, hspecial⟩ => hplain ?_
        exact mem_singleton.mp hc ▸ hspecial
      refine ⟨final.skip, ?_, hfinal⟩
      rw [singlepartLoop, isEmpty_eq_false_iff.mpr hne, if_neg Bool.false_ne_true]
      exact mem_append_right _ (mem_append_right _ mem_cons_self)
  | cons b front ih =>
    have hskip : range.stop ≤ start ∨ start + b.size ≤ range.start := .inl hstop
    rw [cons_append, singlepartLoop_cons, if_pos hskip]
    split
    next => exact ih (hstop.trans (Nat.le_add_right ..)) (.inl
      (append_ne_nil_of_right_ne_nil out (cons_ne_nil b [])))
    next hplain =>
      refine ih (hstop.trans (Nat.le_add_right ..)) (hany.imp_right fun ⟨c, hc, hspecial⟩ => ?_)
      rcases mem_cons.mp hc with rfl | hc
      · exact absurd hspecial hplain
      · exact ⟨c, hc, hspecial⟩

theorem nothing_behind (hstop : range.stop ≤ start) (hplain : ∀ c ∈ bufs, c.special = false) :
    (singlepartLoop main range start [] behind bufs).1 = [] := by
  induction bufs generalizing start behind with
  | nil => rfl
  | cons b rest ih =>
    have hb : ¬b.special = true := by
      rw [hplain b mem_cons_self]
      exact Bool.false_ne_true
    have hskip : range.stop ≤ start ∨ start + b.size ≤ range.start := .inl hstop
    rw [singlepartLoop_cons, if_neg hb, if_pos hskip]
    exact ih (hstop.trans (Nat.le_add_right ..)) fun c hc => hplain c (mem_cons_of_mem b hc)

end Call

/-! ## All calls -/

theorem deliver_append (calls more : List (List BodyBuf)) :
    deliver main range offset (calls ++ more) = deliver main range offset calls ++
      deliver main range (offsetAfter main range offset calls) more := by
  induction calls generalizing offset with
  | nil => rfl
  | cons chain calls ih => rw [cons_append, deliver, deliver, ih, offsetAfter, append_assoc]

theorem dataOf_flatten_cons (chain : List BodyBuf) (calls : List (List BodyBuf)) :
    dataOf (chain :: calls).flatten = dataOf chain ++ dataOf calls.flatten := by
  rw [flatten_cons, dataOf_append]

section Calls

variable {calls : List (List BodyBuf)}

theorem sound_head {chain : List BodyBuf} (h : ∀ c ∈ (chain :: calls).flatten, Sound c) :
    (∀ c ∈ chain, Sound c) ∧ ∀ c ∈ calls.flatten, Sound c := by
  rw [flatten_cons] at h
  exact forall_mem_append.mp h

theorem dataOf_bodyFilter {chain : List BodyBuf} (h : ∀ c ∈ chain, Sound c) :
    dataOf (bodyFilter main range offset chain).1 = window range offset (dataOf chain) :=
  dataOf_singlepartLoop h dataOf_nil

theorem offset_bodyFilter {chain : List BodyBuf} (h : ∀ c ∈ chain, Sound c) :
    (bodyFilter main range offset chain).2 = offset + (dataOf chain).length ∨
      range.stop ≤ (bodyFilter main range offset chain).2 ∧
        (bodyFilter main range offset chain).2 ≤ offset + (dataOf chain).length :=
  offset_singlepartLoop h

theorem dataOf_deliver (h : ∀ c ∈ calls.flatten, Sound c) :
    dataOf (deliver main range offset calls) = window range offset (dataOf calls.flatten) := by
  induction calls generalizing offset with
  | nil => exact (window_nil range offset).symm
  | cons chain calls ih =>
    obtain ⟨hchain, hcalls⟩ := sound_head h
    rw [deliver, dataOf_append, dataOf_bodyFilter hchain, ih hcalls,
      window_congr (offset_bodyFilter hchain), dataOf_flatten_cons,
      window_append]

theorem sound_deliver (h : ∀ c ∈ calls.flatten, Sound c) :
    ∀ c ∈ deliver main range offset calls, Sound c := by
  induction calls generalizing offset with
  | nil => exact fun c hc => absurd hc not_mem_nil
  | cons chain calls ih =>
    obtain ⟨hchain, hcalls⟩ := sound_head h
    intro c hc
    rcases mem_append.mp hc with hc | hc
    · exact sound_singlepartLoop hchain (fun c hc => absurd hc not_mem_nil) c hc
    · exact ih hcalls c hc

theorem offset_deliver (h : ∀ c ∈ calls.flatten, Sound c) :
    offsetAfter main range offset calls = offset + (dataOf calls.flatten).length ∨
      range.stop ≤ offsetAfter main range offset calls ∧
        range.stop ≤ offset + (dataOf calls.flatten).length := by
  induction calls generalizing offset with
  | nil => exact .inl rfl
  | cons chain calls ih =>
    obtain ⟨hchain, hcalls⟩ := sound_head h
    have hhere := @offset_bodyFilter main range offset chain hchain
    have hrest := @ih (bodyFilter main range offset chain).2 hcalls
    rw [offsetAfter, dataOf_flatten_cons, length_append]
    omega

theorem unmarked_deliver (h : ∀ c ∈ calls.flatten, Sound c)
    (hflags : ∀ c ∈ calls.flatten, c.lastBuf = false)
    (hno : range.stop ≤ offset ∨ offset + (dataOf calls.flatten).length < range.stop) :
    ∀ c ∈ deliver main range offset calls, c.lastBuf = false := by
  induction calls generalizing offset with
  | nil => exact fun c hc => absurd hc not_mem_nil
  | cons chain calls ih =>
    obtain ⟨hchain, hcalls⟩ := sound_head h
    rw [flatten_cons] at hflags
    obtain ⟨hchainFlags, hcallsFlags⟩ := forall_mem_append.mp hflags
    rw [dataOf_flatten_cons, length_append] at hno
    have hhere := @offset_bodyFilter main range offset chain hchain
    intro c hc
    rcases mem_append.mp hc with hc | hc
    · exact unmarked_singlepartLoop hchain (by omega) hchainFlags (fun c hc =>
        absurd hc not_mem_nil) c hc
    · exact ih hcalls hcallsFlags (by omega) c hc

theorem marked_deliver (h : ∀ c ∈ calls.flatten, Sound c)
    (hflags : ∀ c ∈ calls.flatten, c.lastBuf = false)
    (hstart : offset < range.stop) (hstop : range.stop ≤ offset + (dataOf calls.flatten).length) :
    ∃ xs b ys, deliver main range offset calls = xs ++ b :: ys ∧
      b.lastBuf = main ∧ (∀ c ∈ xs ++ ys, c.lastBuf = false) ∧
      dataOf ys = [] := by
  induction calls generalizing offset with
  | nil => exact absurd hstop (Nat.not_le_of_lt hstart)
  | cons chain calls ih =>
    obtain ⟨hchain, hcalls⟩ := sound_head h
    rw [flatten_cons] at hflags
    obtain ⟨hchainFlags, hcallsFlags⟩ := forall_mem_append.mp hflags
    rw [dataOf_flatten_cons, length_append] at hstop
    have hhere := @offset_bodyFilter main range offset chain hchain
    rw [deliver]
    by_cases hends : range.stop ≤ offset + (dataOf chain).length
    · have hinit : ∀ c ∈ chain.dropLast, c.lastBuf = false := fun c hc =>
        hchainFlags c (dropLast_subset chain hc)
      obtain ⟨xs, b, heq, hb, hxs⟩ :=
        @marked_singlepartLoop main range chain [] [] offset hchain hstart hends hinit (fun c hc =>
          absurd hc not_mem_nil)
      have hbehind : range.stop ≤ (bodyFilter main range offset chain).2 := by omega
      refine ⟨xs, b, deliver main range (bodyFilter main range offset chain).2 calls,
        ?_, hb, fun c hc => ?_, ?_⟩
      · rw [bodyFilter, heq, append_assoc]
        rfl
      · rcases mem_append.mp hc with hc | hc
        · exact hxs c hc
        · exact unmarked_deliver hcalls hcallsFlags (.inl hbehind) c hc
      · rw [dataOf_deliver hcalls, window_of_le hbehind]
    · have hnext : (bodyFilter main range offset chain).2 = offset + (dataOf chain).length := by
        omega
      obtain ⟨xs, b, ys, heq, hb, hxs, hys⟩ :=
        @ih (bodyFilter main range offset chain).2 hcalls hcallsFlags (by omega) (by omega)
      have hquiet : ∀ c ∈ (bodyFilter main range offset chain).1, c.lastBuf = false :=
        unmarked_singlepartLoop hchain (.inr (not_le.mp hends)) hchainFlags fun c hc =>
          absurd hc not_mem_nil
      refine ⟨(bodyFilter main range offset chain).1 ++ xs, b, ys, ?_, hb, fun c hc => ?_, hys⟩
      · rw [heq, append_assoc]
      · rw [append_assoc] at hc
        rcases mem_append.mp hc with hc | hc
        · exact hquiet c hc
        · exact hxs c hc

end Calls

/-! ## Whole responses -/

theorem EndsOnce.countP {passed : List BodyBuf} (h : EndsOnce passed) :
    passed.countP (·.lastBuf) = 1 := by
  obtain ⟨xs, b, ys, rfl, hb, hothers, -⟩ := h
  obtain ⟨hxs, hys⟩ := forall_mem_append.mp hothers
  have hnone : ∀ l : List BodyBuf, (∀ c ∈ l, c.lastBuf = false) → l.countP (·.lastBuf) = 0 :=
    fun l hl =>
    countP_eq_zero.mpr fun c hc => by rw [hl c hc]; exact Bool.false_ne_true
  have hone : (b :: ys).countP (·.lastBuf) = ys.countP (·.lastBuf) + 1 := countP_cons_of_pos hb
  rw [countP_append, hone, hnone xs hxs, hnone ys hys]

namespace Delivery

variable (d : Delivery)

theorem sound_before : ∀ c ∈ d.before.flatten, Sound c := fun c hc =>
  d.sound c (mem_append_left _ (mem_append_left _ hc))

theorem sound_lastCall : ∀ c ∈ d.lastCall, Sound c := by
  intro c hc
  refine d.sound c ?_
  rw [append_assoc]
  exact mem_append_right _ hc

theorem flatten_calls : d.calls.flatten = d.before.flatten ++ d.lastCall := by
  rw [calls, flatten_append, flatten_singleton]

theorem sound_calls : ∀ c ∈ d.calls.flatten, Sound c := by
  rw [flatten_calls]
  exact forall_mem_append.mpr ⟨d.sound_before, d.sound_lastCall⟩

theorem body_eq : d.body = d.early ++ dataOf d.lastCall := by
  rw [body, flatten_calls, dataOf_append]
  rfl

theorem unmarked_before : ∀ c ∈ d.before.flatten, c.lastBuf = false :=
    fun c hc => d.more c (mem_append_left _ hc)

theorem deliver_calls (main : Bool) (range : ByteRange) (offset : Nat) :
    deliver main range offset d.calls =
      deliver main range offset d.before ++
        (bodyFilter main range (offsetAfter main range offset d.before) d.lastCall).1 := by
  rw [calls, deliver_append, deliver, deliver, append_nil]

theorem endsOnce_late {range : ByteRange} {offset : Nat}
    (hstop : range.stop ≤ offset + d.body.length)
    (hlate : offset + d.early.length < range.stop) :
    EndsOnce (deliver true range offset d.calls) := by
  have hoffset : offsetAfter true range offset d.before = offset + d.early.length := by
    have hafter := @offset_deliver true range offset d.before d.sound_before
    rw [early] at hlate ⊢
    omega
  rw [body_eq, length_append] at hstop
  have hinit : ∀ c ∈ d.lastCall.dropLast, c.lastBuf = false := by
    rw [lastCall, dropLast_concat]
    exact fun c hc => d.more c (mem_append_right _ hc)
  obtain ⟨xs, b, heq, hb, hxs⟩ :=
    @marked_singlepartLoop true range d.lastCall [] [] (offset + d.early.length)
    d.sound_lastCall hlate (by omega) hinit fun c hc => absurd hc not_mem_nil
  refine ⟨deliver true range offset d.before ++ xs, b, [], ?_, hb, fun c hc => ?_, rfl⟩
  · rw [deliver_calls, hoffset, bodyFilter, heq, append_assoc]
  · rw [append_nil] at hc
    rcases mem_append.mp hc with hc | hc
    · exact unmarked_deliver d.sound_before d.unmarked_before (.inr hlate) c hc
    · exact hxs c hc

theorem endsOnce_plain {range : ByteRange} {offset : Nat} (hstart : offset < range.stop)
    (hearly : range.stop ≤ offset + d.early.length) (hplain : ∀ c ∈ d.lastCall, c.special = false) :
    EndsOnce (deliver true range offset d.calls) := by
  have hafter := @offset_deliver true range offset d.before d.sound_before
  obtain ⟨xs, b, ys, heq, hb, hothers, hys⟩ :=
    @marked_deliver true range offset d.before d.sound_before d.unmarked_before hstart hearly
  refine ⟨xs, b, ys, ?_, hb, hothers, hys⟩
  rw [early] at hearly
  rw [deliver_calls, bodyFilter, nothing_behind (by omega) hplain, append_nil, heq]

theorem two_marked {range : ByteRange} {offset : Nat} (hstart : offset < range.stop)
    (hearly : range.stop ≤ offset + d.early.length)
    (hspecial : ∃ c ∈ d.lastCall, c.special = true) :
    2 ≤ (deliver true range offset d.calls).countP (·.lastBuf) := by
  have hafter := @offset_deliver true range offset d.before d.sound_before
  obtain ⟨xs, b, ys, heq, hb, -, -⟩ :=
    @marked_deliver true range offset d.before d.sound_before d.unmarked_before hstart hearly
  rw [early] at hearly
  obtain ⟨c, hc, hmark⟩ :=
    @marked_behind true range [] [] (offsetAfter true range offset d.before) d.front d.final
      (by omega)
    d.ends (.inr hspecial)
  have hfirst : 0 < (deliver true range offset d.before).countP (·.lastBuf) :=
    countP_pos_iff.mpr ⟨b, by rw [heq]; exact mem_append_right _ mem_cons_self, hb⟩
  have hsecond : 0 <
    (bodyFilter true range (offsetAfter true range offset d.before) d.lastCall).1.countP
    (·.lastBuf) :=
    countP_pos_iff.mpr ⟨c, hc, hmark⟩
  rw [deliver_calls, countP_append]
  omega

end Delivery

/-- The filter passes on the bytes of the range, and to the client's request with one buffer
that is marked as the last one. -/
def Exact (main : Bool) (range : ByteRange) (offset : Nat) (d : Delivery) : Prop :=
  dataOf (deliver main range offset d.calls) = window range offset d.body ∧
    (∀ c ∈ deliver main range offset d.calls, Sound c) ∧
    (main = true → EndsOnce (deliver main range offset d.calls))

/-- The bytes are always right; another buffer is marked exactly where the range has ended before
the last call and a buffer that is flags only comes with it. -/
theorem singlepartBody_exact_iff (main : Bool) (range : ByteRange)
    (offset : Nat) (d : Delivery) (hstart : offset ≤ range.start)
    (hstop : range.stop ≤ offset + d.body.length) :
    Exact main range offset d ↔
      (main = true → offset + d.early.length < range.stop ∨
        ∀ c ∈ d.lastCall, c.special = false) := by
  have hlt : offset < range.stop := lt_of_le_of_lt hstart range.nonempty
  constructor
  · rintro ⟨-, -, hends⟩ rfl
    by_contra hnot
    obtain ⟨hearly, hspecial⟩ := not_or.mp hnot
    rw [not_forall] at hspecial
    obtain ⟨c, hspecial⟩ := hspecial
    obtain ⟨hc, hspecial⟩ := Classical.not_imp.mp hspecial
    have htwo := d.two_marked hlt (not_lt.mp hearly) ⟨c, hc, Bool.eq_true_of_not_eq_false hspecial⟩
    have hone := (hends rfl).countP
    omega
  · intro hcond
    refine ⟨dataOf_deliver d.sound_calls, sound_deliver d.sound_calls, ?_⟩
    rintro rfl
    by_cases hlate : offset + d.early.length < range.stop
    · exact d.endsOnce_late hstop hlate
    · exact d.endsOnce_plain hlt (not_lt.mp hlate) ((hcond rfl).resolve_left hlate)

/-- A buffer in memory. -/
def memoryBuf (bytes : Bytes) : BodyBuf :=
  { NgxBuf.zeroed with area := .text bytes, last := bytes.length, memory := true }

/-- What `ngx_http_send_special` sends at the end. -/
def lastSpecial : BodyBuf := { NgxBuf.zeroed with lastBuf := true }

theorem sound_memoryBuf (bytes : Bytes) : Sound (memoryBuf bytes) where
  memory _ := ⟨Nat.zero_le _, le_rfl⟩
  file h := nomatch h
  both _ h := nomatch h
  flagsOnly h := nomatch h

theorem sound_lastSpecial : Sound lastSpecial where
  memory h := nomatch h
  file h := nomatch h
  both h := nomatch h
  flagsOnly _ _ := rfl

/-- Ten bytes, and the end of the response in a call of its own. -/
def endLater : Delivery where
  before := [[memoryBuf (ascii "0123456789")]]
  front := []
  final := lastSpecial
  sound := by
    intro c hc
    rcases mem_pair.mp hc with rfl | rfl
    · exact sound_memoryBuf _
    · exact sound_lastSpecial
  more := by
    intro c hc
    obtain rfl := mem_singleton.mp hc
    rfl
  ends := rfl

theorem singlepartBody_twice : ¬Exact true ⟨2, 10, by decide⟩ 0 endLater := by
  rintro ⟨-, -, hends⟩
  exact absurd (hends rfl).countP (by decide)

/-- Ten bytes in two calls, the end of the response in the second one with its data. -/
def endMarked : Delivery where
  before := [[memoryBuf (ascii "01234")]]
  front := []
  final := { memoryBuf (ascii "56789") with lastBuf := true }
  sound := by
    intro c hc
    rcases mem_pair.mp hc with rfl | rfl
    · exact sound_memoryBuf _
    · exact ⟨(sound_memoryBuf (ascii "56789")).memory, nofun, nofun, nofun⟩
  more := by
    intro c hc
    obtain rfl := mem_singleton.mp hc
    rfl
  ends := rfl

/-- A subrequest, and a main request whose range ends in the last call. -/
theorem singlepartBody_exact_sub : Exact false ⟨2, 10, by decide⟩ 0 endLater ∧
    Exact true ⟨2, 8, by decide⟩ 0 endMarked ∧
    dataOf (deliver true ⟨2, 8, by decide⟩ 0 endMarked.calls) = ascii "234567" :=
  ⟨(singlepartBody_exact_iff false ⟨2, 10, by decide⟩ 0 endLater (by decide) (by decide)).mpr
      (absurd · Bool.false_ne_true),
    (singlepartBody_exact_iff true ⟨2, 8, by decide⟩ 0 endMarked (by decide) (by decide)).mpr
      fun _ => .inl (by decide), by decide⟩

end Nginx.Http.RangeBody
