/-
  Http/ChunkedFilter/Filter.lean --- the filter that makes chunks of a response
  (`src/http/modules/ngx_http_chunked_filter_module.c`), and the filter behind it,
  which sends some bytes of what it has been given, as many as one likes.

  What is passed on is the same, whatever the next filter sends of it and whichever of
  the filter's buffers are used again.
-/
import Nginx.Core.ChainReuse
import Nginx.Http.Parse.Char

set_option autoImplicit false

namespace Nginx.Http.ChunkedFilter

open List Foundation Option
open Nginx.Core
open Http.Parse (cr lf)

/-- `CRLF` -/
def crlf : Bytes := [cr, lf]

/-- `(ngx_buf_tag_t) &ngx_http_chunked_filter_module` -/
def chunkedTag : Nat := 1

/-- A buffer of the chain `in`: one of another module, in memory or in a file if it has any bytes.
-/
structure InBuf where
  buf : NgxBuf
  whole : buf.Whole
  foreign : buf.tag ≠ chunkedTag

/-- A buffer in memory. -/
def InBuf.memory (data : Bytes) (lastBuf : Bool) : InBuf where
  buf := { NgxBuf.zeroed with
    area := .text data, last := data.length, memory := true, lastBuf := lastBuf }
  whole := by
    refine ⟨?_, fun hmemory => absurd hmemory (by simp [NgxBuf.inMemory])⟩
    unfold NgxBuf.bytes NgxBuf.size NgxBuf.areaBytes
    simp [NgxBuf.inMemory, NgxBuf.zeroed]
  foreign := zero_ne_one

/-- An element of `r->headers_out.trailers`. -/
structure Trailer where
  hash : Nat
  key : Bytes
  value : Bytes
  deriving DecidableEq

/-! ## Texts -/

/-- `hex[]` -/
def hexDigits : Bytes := ascii "0123456789abcdef"

/-- The loop of `ngx_sprintf_num` for a number of 64 bits, which has so many digits at the most. -/
def hexLoop : Nat → Nat → Bytes → Bytes
  | 0, _, text => text
  | digits + 1, n, text =>
    let text := hexDigits.getD (n % 16) 0 :: text
    if n / 16 = 0 then text else hexLoop digits (n / 16) text

/-- `ngx_sprintf(chunk, "%xO" CRLF, size)` -/
def chunkHead (size : Nat) : Bytes := hexLoop 16 size [] ++ crlf

/-- The line of a trailer, if it is not removed. -/
def Trailer.text (t : Trailer) : Bytes :=
  if t.hash = 0 then [] else t.key ++ ascii ": " ++ t.value ++ crlf

def trailersText (trailers : List Trailer) : Bytes := trailers.flatMap Trailer.text

/-- What `ngx_http_chunked_create_trailers` writes. -/
def lastText (trailers : List Trailer) : Bytes :=
  if (trailersText trailers).length = 0 then crlf ++ ascii "0" ++ crlf ++ crlf
  else crlf ++ ascii "0" ++ crlf ++ trailersText trailers ++ crlf

/-! ## Buffers of the filter -/

/-- `chunk`, into which the head of a chunk is written: 18 bytes, of the buffer or new. -/
def headMemory (b : NgxBuf) : Bytes :=
  match b.start with
  | none => List.replicate 18 0
  | some memory => memory

def headBuf (size : Nat) (b : NgxBuf) : NgxBuf :=
  { b with
    start := some (chunkHead size ++ (headMemory b).drop (chunkHead size).length)
    tag := chunkedTag
    memory := false
    temporary := true
    area := .start
    pos := 0
    last := (chunkHead size).length }

/-- The line end after the data of a chunk. -/
def tailBuf (b : NgxBuf) : NgxBuf :=
  { b with
    tag := chunkedTag, temporary := false, memory := true, area := .text crlf, pos := 0, last := 2 }

/-- `ngx_http_chunked_create_trailers`, and `tl->buf->pos += 2` when there are no data. -/
def lastBuf (trailers : List Trailer) (size : Nat) (b : NgxBuf) : NgxBuf :=
  { b with
    tag := chunkedTag
    temporary := false
    memory := true
    lastBuf := true
    area := .text (lastText trailers)
    pos := if size = 0 then 2 else 0
    last := (lastText trailers).length }

/-! ## The filters -/

/-- `ctx->free` and `ctx->busy`, and the chain of the next filter and what it has sent. -/
structure FilterState where
  heap : Heap
  free : List Nat
  busy : List Nat
  pending : List Nat
  sent : Bytes

/-- Nothing has been passed on yet. -/
def FilterState.init : FilterState := ⟨⟨fun _ => .zeroed, 0⟩, [], [], [], []⟩

/-- What has been passed on: what is sent, and what will be. -/
def FilterState.passed (s : FilterState) : Bytes := s.sent ++ s.heap.bytes s.pending

/-- `ngx_http_next_body_filter`, which sends `n` bytes if there are as many. -/
def nextFilter (out : List Nat) (n : Nat) (s : FilterState) : FilterState :=
  let pending := s.pending ++ out
  let (heap, left) := updateSent s.heap pending n
  { s with heap := heap, pending := left, sent := s.sent ++ (s.heap.bytes pending).take n }

/-- The buffers that are put before and behind those of the chain. -/
def frameBufs (trailers : List Trailer) (size : Nat) (last : Bool) (heap : Heap) (free : List Nat) :
    List Nat × List Nat × Heap × List Nat :=
  let (head, heap, free) :=
    if size ≠ 0 then
      let (id, heap, free) := heap.fill free (headBuf size)
      ([id], heap, free)
    else ([], heap, free)
  let (tail, heap, free) :=
    if last then
      let (id, heap, free) := heap.fill free (lastBuf trailers size)
      ([id], heap, free)
    else if size > 0 then
      let (id, heap, free) := heap.fill free tailBuf
      ([id], heap, free)
    else ([], heap, free)
  (head, tail, heap, free)

/-- The loop over the chain makes a link for a buffer with one of these flags. -/
def linkBufs (heap : Heap) (ids : List Nat) : List Nat :=
  ids.filter fun id =>
    (heap.buf id).flush || (heap.buf id).sync || (heap.buf id).inMemory || (heap.buf id).inFile

/-- `cl->buf->last_buf = 0` if it is set. -/
def clearLast (last : Bool) (cl : Nat) (heap : Heap) : Heap :=
  if last then heap.set cl { heap.buf cl with lastBuf := false } else heap

/-- `ngx_http_chunked_body_filter`; without a chain it calls the next filter only. -/
def bodyFilter (trailers : List Trailer) (chain : List InBuf) (n : Nat) (s : FilterState) :
    FilterState :=
  let (heap, ids) := s.heap.addAll (chain.map InBuf.buf)
  match ids.getLast? with
  | none => nextFilter [] n s
  | some cl =>
    let size := (ids.map fun id => (heap.buf id).size).sum
    let links := linkBufs heap ids
    let last := (heap.buf cl).lastBuf
    let (head, tail, heap, free) := frameBufs trailers size last heap s.free
    let heap := clearLast last cl heap
    let out := head ++ links ++ tail
    let s := nextFilter out n { s with heap := heap, free := free }
    let (heap, free, busy) := updateChains chunkedTag s.heap s.free s.busy out
    { s with heap := heap, free := free, busy := busy }

/-- The filter is called again and again, in each call with what the next filter sends in it. -/
def runFilter (trailers : List Trailer) (calls : List (List InBuf × Nat)) : FilterState :=
  calls.foldl (fun s call => bodyFilter trailers call.1 call.2 s) .init

/-! ## The buffers of the filter -/

/-- A buffer of the filter with a text in it. -/
structure Holds (text : Bytes) (b : NgxBuf) : Prop where
  whole : b.Whole
  size_ne : b.size ≠ 0
  bytes : b.bytes = text

theorem holds_of_memory {b : NgxBuf} {text : Bytes} (hmemory : b.inMemory = true)
    (hlast : b.last = b.pos + text.length)
    (htext : (b.areaBytes.take b.last).drop b.pos = text) (hne : text ≠ []) : Holds text b := by
  have hbytes : b.bytes = text := by
    unfold NgxBuf.bytes
    rw [hmemory]
    exact htext
  have hsize : b.size = text.length := by
    unfold NgxBuf.size
    rw [hmemory]
    simp only [if_true]
    omega
  have hpos := length_pos_of_ne_nil hne
  refine ⟨⟨by rw [hbytes, hsize], fun hnot =>
    absurd (hmemory.symm.trans hnot) Bool.true_eq_false.mp⟩, by omega, hbytes⟩

theorem chunkHead_ne_nil (size : Nat) : chunkHead size ≠ [] :=
  append_ne_nil_of_right_ne_nil _ (cons_ne_nil _ _)

theorem holds_headBuf (size : Nat) (b : NgxBuf) : Holds (chunkHead size) (headBuf size b) := by
  refine holds_of_memory rfl (zero_add _).symm ?_ (chunkHead_ne_nil size)
  exact take_left

theorem holds_tailBuf (b : NgxBuf) : Holds crlf (tailBuf b) :=
  holds_of_memory rfl rfl rfl (cons_ne_nil _ _)

/-- What is written of the last chunk, with the line end of the one before if there is one. -/
def lastPart (trailers : List Trailer) (size : Nat) :
    Bytes := (lastText trailers).drop (if size = 0 then 2 else 0)

theorem lastText_eq (trailers : List Trailer) :
    lastText trailers = crlf ++ (ascii "0" ++ crlf ++ trailersText trailers ++ crlf) := by
  unfold lastText
  split
  next h =>
    rw [eq_nil_of_length_eq_zero h, append_nil]
    rfl
  next => simp only [append_assoc]

theorem holds_lastBuf (trailers : List Trailer) (size : Nat) (b : NgxBuf) :
    Holds (lastPart trailers size) (lastBuf trailers size b) := by
  have hlength : 2 < (lastText trailers).length := by
    rw [lastText_eq]
    simp only [length_append]
    have hcrlf : crlf.length = 2 := rfl
    omega
  have hpart : (lastPart trailers size).length = (lastText trailers).length - if size =
    0 then 2 else 0 :=
    length_drop
  refine holds_of_memory rfl ?_ ?_ ?_
  · rw [hpart]
    unfold lastBuf
    simp only
    split <;> omega
  · unfold lastBuf lastPart NgxBuf.areaBytes
    simp only
    rw [take_length]
  · apply ne_nil_of_length_pos
    rw [hpart]
    split <;> omega

/-! ## A call -/

/-- The bytes of a chain. -/
def chainBytes (chain : List InBuf) : Bytes := chain.flatMap fun b => b.buf.bytes

/-- The chain ends the response. -/
def isLast (chain : List InBuf) : Bool := chain.getLast?.any fun b => b.buf.lastBuf

/-- The head of a chunk. -/
def headText (size : Nat) : Bytes := if size ≠ 0 then chunkHead size else []

/-- What comes after the data of a call. -/
def tailText (trailers : List Trailer) (size : Nat) (last : Bool) : Bytes :=
  if last then lastPart trailers size else if size > 0 then crlf else []

/-- At most one buffer of the filter, with a text in it. -/
structure Piece (heap : Heap) (used : List Nat) (text : Bytes) (r : List Nat × Heap × List Nat) :
    Prop where
  fresh : Fresh r.2.1 r.2.2 (r.1 ++ used)
  nodup : r.1.Nodup
  new : ∀ id ∈ r.1, id ∉ used
  same : ∀ id ∈ used, r.2.1.buf id = heap.buf id
  bytes : r.2.1.bytes r.1 = text
  holds : ∀ id ∈ r.1, ∃ text, Holds text (r.2.1.buf id)

section pieces

variable {heap : Heap} {free used : List Nat} (h : Fresh heap free used)

include h

theorem piece_none : Piece heap used [] ([], heap, free) :=
  ⟨h, nodup_nil, fun _ hid => absurd hid not_mem_nil, fun _ _ => rfl, rfl,
    fun _ hid => absurd hid not_mem_nil⟩

theorem piece_fill {f : NgxBuf → NgxBuf} {text : Bytes} (hholds : ∀ b, Holds text (f b)) :
    Piece heap used text ([(heap.fill free f).1], (heap.fill free f).2) := by
  have hfilled := h.fill f
  obtain ⟨b, hself⟩ := hfilled.self
  refine ⟨hfilled.fresh, nodup_singleton _, ?_, hfilled.same, ?_, ?_⟩
  · exact forall_mem_singleton.mpr hfilled.new
  · rw [Heap.bytes_cons, Heap.bytes_nil, append_nil, hself]
    exact (hholds b).bytes
  · refine forall_mem_singleton.mpr ⟨text, ?_⟩
    rw [hself]
    exact hholds b

theorem piece_head (size : Nat) :
    Piece heap used (headText size)
      (if size ≠
        0 then ([(heap.fill free (headBuf size)).1], (heap.fill free (headBuf size)).2) else
        ([], heap, free)) := by
  unfold headText
  split
  next => exact piece_fill h (holds_headBuf size)
  next => exact piece_none h

theorem piece_tail (trailers : List Trailer) (size : Nat) (last : Bool) :
    Piece heap used (tailText trailers size last)
      (if last then
        ([(heap.fill free (lastBuf trailers size)).1], (heap.fill free (lastBuf trailers size)).2)
        else if size > 0 then ([(heap.fill free tailBuf).1], (heap.fill free tailBuf).2) else
          ([], heap, free)) := by
  unfold tailText
  split
  next => exact piece_fill h (holds_lastBuf trailers size)
  next =>
    split
    next => exact piece_fill h holds_tailBuf
    next => exact piece_none h

end pieces

/-- What is put around the data of a call. -/
structure Framed (trailers : List Trailer) (size : Nat) (last : Bool)
    (heap : Heap) (used : List Nat)
    (r : List Nat × List Nat × Heap × List Nat) : Prop where
  fresh : Fresh r.2.2.1 r.2.2.2 (r.2.1 ++ (r.1 ++ used))
  head_nodup : r.1.Nodup
  tail_nodup : r.2.1.Nodup
  head_new : ∀ id ∈ r.1, id ∉ used
  tail_new : ∀ id ∈ r.2.1, id ∉ r.1 ++ used
  same : ∀ id ∈ used, r.2.2.1.buf id = heap.buf id
  head : r.2.2.1.bytes r.1 = headText size
  tail : r.2.2.1.bytes r.2.1 = tailText trailers size last
  head_holds : ∀ id ∈ r.1, ∃ text, Holds text (r.2.2.1.buf id)
  tail_holds : ∀ id ∈ r.2.1, ∃ text, Holds text (r.2.2.1.buf id)

theorem framed_frameBufs {heap : Heap} {free used : List Nat}
    (h : Fresh heap free used) (trailers : List Trailer)
    (size : Nat) (last : Bool) :
    Framed trailers size last heap used (frameBufs trailers size last heap free) := by
  have hhead := piece_head h size
  unfold frameBufs
  simp only
  generalize
    (if size ≠ 0 then ([(heap.fill free (headBuf size)).1], (heap.fill free (headBuf size)).2)
    else ([], heap, free)) = head at hhead ⊢
  have htail := piece_tail hhead.fresh trailers size last
  have hbefore : ∀ id ∈ head.1, id ∈ head.1 ++ used := fun id hid => mem_append_left _ hid
  refine ⟨htail.fresh, hhead.nodup, htail.nodup, hhead.new, htail.new, fun id hid =>
    ?_, ?_, htail.bytes, fun id hid => ?_,
    htail.holds⟩
  · rw [htail.same id (mem_append_right _ hid), hhead.same id hid]
  · rw [Heap.bytes_congr fun id hid => htail.same id (hbefore id hid)]
    exact hhead.bytes
  · rw [htail.same id (hbefore id hid)]
    exact hhead.holds id hid

/-! ## The filters -/

/-- The invariant of the run. -/
def FilterState.Recycled (s : FilterState) :
    Prop := Core.Recycled chunkedTag s.heap s.free s.busy s.pending

theorem nextFilter_spec {s : FilterState} {busy out : List Nat} (n : Nat)
    (h : Core.Recycled chunkedTag s.heap s.free busy (s.pending ++ out)) :
    Core.Recycled chunkedTag (nextFilter out n s).heap (nextFilter out n s).free busy
      (nextFilter out n s).pending ∧
      (nextFilter out n s).passed = s.sent ++ s.heap.bytes (s.pending ++ out) := by
  have hsent := updateSent_spec h.pending_nodup h.whole n
  refine ⟨h.send n, ?_⟩
  unfold nextFilter FilterState.passed
  simp only
  rw [hsent.bytes, append_assoc, take_append_drop]

/-- What a call passes on. -/
def callText (trailers : List Trailer) (chain : List InBuf) : Bytes :=
  headText (chainBytes chain).length ++ chainBytes chain ++
    tailText trailers (chainBytes chain).length (isLast chain)

theorem callText_nil (trailers : List Trailer) : callText trailers [] = [] := rfl

theorem bytes_filter {heap : Heap} {ids : List Nat} {p : Nat → Bool}
    (h : ∀ id ∈ ids, p id = false → (heap.buf id).bytes = []) :
    heap.bytes (ids.filter p) = heap.bytes ids := by
  induction ids with
  | nil => rfl
  | cons id ids ih =>
    obtain ⟨hid, hids⟩ := forall_mem_cons.mp h
    rw [filter_cons]
    split
    next => rw [Heap.bytes_cons, Heap.bytes_cons, ih hids]
    next hp => rw [Heap.bytes_cons, hid (Bool.eq_false_iff.mpr hp), nil_append, ih hids]

theorem sum_size {heap : Heap} {ids : List Nat} (h : ∀ id ∈ ids, (heap.buf id).Whole) :
    (ids.map fun id => (heap.buf id).size).sum = (heap.bytes ids).length := by
  induction ids with
  | nil => rfl
  | cons id ids ih =>
    obtain ⟨hid, hids⟩ := forall_mem_cons.mp h
    rw [map_cons, sum_cons, ih hids, Heap.bytes_cons, length_append, hid.length]

/-- Clearing the flag `last_buf` changes nothing that is read or sent. -/
structure Cleared (cl : Nat) (heap heap' : Heap) : Prop where
  count : heap'.count = heap.count
  others : ∀ id, id ≠ cl → heap'.buf id = heap.buf id
  bytes : ∀ id, (heap'.buf id).bytes = (heap.buf id).bytes
  tag : ∀ id, (heap'.buf id).tag = (heap.buf id).tag
  size : ∀ id, (heap'.buf id).size = (heap.buf id).size
  empty : ∀ id, (heap.buf id).Whole → (heap'.buf id).inMemory = false →
    (heap'.buf id).inFile = false →
    (heap'.buf id).size = 0

theorem cleared_clearLast (last : Bool) (cl : Nat) (heap : Heap) :
    Cleared cl heap (clearLast last cl heap) := by
  have hflag : ∀ id, ∃ flag,
    (clearLast last cl heap).buf id = { heap.buf id with lastBuf := flag } := by
    intro id
    unfold clearLast
    split
    next =>
      by_cases hid : id = cl
      · subst hid
        exact ⟨false, Heap.buf_set_self _ _ _⟩
      · exact ⟨(heap.buf id).lastBuf, heap.buf_set_of_ne hid _⟩
    next => exact ⟨(heap.buf id).lastBuf, rfl⟩
  refine ⟨?_, fun id hid => ?_, fun id => ?_, fun id => ?_, fun id => ?_, fun id hwhole => ?_⟩
  · unfold clearLast
    split <;> rfl
  · unfold clearLast
    split
    next => exact heap.buf_set_of_ne hid _
    next => rfl
  · obtain ⟨flag, heq⟩ := hflag id
    rw [heq]
    rfl
  · obtain ⟨flag, heq⟩ := hflag id
    rw [heq]
  · obtain ⟨flag, heq⟩ := hflag id
    rw [heq]
    rfl
  · obtain ⟨flag, heq⟩ := hflag id
    rw [heq]
    exact hwhole.empty

theorem Cleared.whole {cl id : Nat} {heap heap' : Heap} (h : Cleared cl heap heap')
    (hid : (heap.buf id).Whole) :
    (heap'.buf id).Whole := ⟨by rw [h.bytes, h.size, hid.length], h.empty id hid⟩

section added

variable {heap heap' : Heap} {free used ids : List Nat} {chain : List InBuf}
  (h : Added heap free used (chain.map InBuf.buf) (heap', ids))

include h

theorem whole_of_added : ∀ id ∈ ids, (heap'.buf id).Whole ∧ (heap'.buf id).tag ≠ chunkedTag := by
  intro id hid
  have hself : ids.map heap'.buf = chain.map InBuf.buf := h.self
  have hmem : heap'.buf id ∈ chain.map InBuf.buf := hself ▸ mem_map_of_mem hid
  obtain ⟨b, -, hb⟩ := mem_map.mp hmem
  exact hb ▸ ⟨b.whole, b.foreign⟩

theorem bytes_of_added : heap'.bytes ids = chainBytes chain := by
  have hself : ids.map heap'.buf = chain.map InBuf.buf := h.self
  unfold Heap.bytes chainBytes
  rw [← flatMap_map (g := NgxBuf.bytes), hself, flatMap_map]

theorem sum_size_of_added :
    (ids.map fun id => (heap'.buf id).size).sum = (chainBytes chain).length := by
  rw [sum_size fun id hid => (whole_of_added h id hid).1, bytes_of_added h]

theorem lastBuf_of_added {cl : Nat} (hcl : ids.getLast? = some cl) :
    (heap'.buf cl).lastBuf = isLast chain := by
  have hself : ids.map heap'.buf = chain.map InBuf.buf := h.self
  have hlast := congrArg List.getLast? hself
  rw [getLast?_map, getLast?_map, hcl, map_some] at hlast
  unfold isLast
  cases hchain : chain.getLast? with
  | none =>
    rw [hchain] at hlast
    exact absurd hlast (some_ne_none _)
  | some b =>
    rw [hchain, map_some] at hlast
    rw [some.inj hlast]
    rfl

end added

/-- The buffers of a call, before the next filter gets them. -/
structure CallBufs (s : FilterState) (trailers : List Trailer)
    (chain : List InBuf) (heap : Heap) (free out : List Nat) :
    Prop where
  recycled : Core.Recycled chunkedTag heap free (s.busy ++ out) (s.pending ++ out)
  same : ∀ id ∈ s.pending, (heap.buf id).bytes = (s.heap.buf id).bytes
  bytes : heap.bytes out = callText trailers chain

theorem callBufs_of_frameBufs {s : FilterState} (h : s.Recycled)
    (trailers : List Trailer) {chain : List InBuf}
    {heap : Heap} {ids : List Nat}
    (hadded : Added s.heap s.free (s.busy ++ s.pending) (chain.map InBuf.buf) (heap, ids))
    {cl : Nat} (hcl : cl ∈ ids) {head tail free : List Nat} {heap₂ heap₃ : Heap}
    (hframed : Framed trailers (chainBytes chain).length (isLast chain) heap
      (ids ++ (s.busy ++ s.pending))
      (head, tail, heap₂, free))
    (hcleared : Cleared cl heap₂ heap₃) :
    CallBufs s trailers chain heap₃ free (head ++ linkBufs heap ids ++ tail) := by
  have hwhole := whole_of_added hadded
  have hsub : ∀ id ∈ linkBufs heap ids, id ∈ ids := fun id hid => mem_of_mem_filter hid
  have hnodup : (linkBufs heap ids).Nodup := hadded.nodup.filter _
  have hlinkBytes : heap.bytes (linkBufs heap ids) = chainBytes chain := by
    refine (bytes_filter fun id hid hp => ?_).trans (bytes_of_added hadded)
    simp only [Bool.or_eq_false_iff] at hp
    exact (hwhole id hid).1.bytes_eq_nil ((hwhole id hid).1.empty hp.1.2 hp.2)
  generalize linkBufs heap ids = links at hsub hnodup hlinkBytes ⊢
  -- where the buffers come from
  have hold : ∀ id ∈ s.busy ++ s.pending, id ∉ ids := fun id hid hmem =>
    lt_irrefl _ (lt_of_lt_of_le (h.fresh.below id hid) (hadded.new id hmem))
  have hlink : ∀ id ∈ links, heap₂.buf id = heap.buf id := fun id hid =>
    hframed.same id (mem_append_left _ (hsub id hid))
  have hkeep : ∀ id ∈ s.pending, heap₃.buf id = s.heap.buf id := by
    intro id hid
    have hmem : id ∈ s.busy ++ s.pending := mem_append_right _ hid
    have hne : id ≠ cl := fun heq => hold id hmem (heq ▸ hcl)
    rw [hcleared.others id hne, hframed.same id (mem_append_right _ hmem)]
    exact hadded.same id (h.fresh.below id hmem)
  have hbytes : ∀ ids, heap₃.bytes ids = heap₂.bytes ids := fun ids =>
    flatMap_congr fun id _ => hcleared.bytes id
  refine ⟨h.pass ?_ hkeep ?_ ?_ ?_ ?_, fun id hid => congrArg NgxBuf.bytes (hkeep id hid), ?_⟩
  · refine (hframed.fresh.mono fun id hid => ?_).congr hcleared.count
    simp only [mem_append] at hid ⊢
    rcases hid with ((hid | hid) | hid) | hid
    · exact .inr (.inl hid)
    · exact .inr (.inr (.inl (hsub id hid)))
    · exact .inl hid
    · exact .inr (.inr (.inr hid))
  · refine nodup_append'.mpr
      ⟨nodup_append'.mpr ⟨hframed.head_nodup, hnodup, ?_⟩, hframed.tail_nodup, ?_⟩
    · exact fun id hhead hid => hframed.head_new id hhead (mem_append_left _ (hsub id hid))
    intro id hid htail
    refine hframed.tail_new id htail ?_
    rcases mem_append.mp hid with hid | hid
    · exact mem_append_left _ hid
    · exact mem_append_right _ (mem_append_left _ (hsub id hid))
  · intro id hid
    rw [← not_or, ← mem_append]
    intro hused
    rcases mem_append.mp hid with hid | hid
    · rcases mem_append.mp hid with hid | hid
      · exact hframed.head_new id hid (mem_append_right _ hused)
      · exact hold id hused (hsub id hid)
    · exact hframed.tail_new id hid (mem_append_right _ (mem_append_right _ hused))
  · intro id hid
    refine hcleared.whole ?_
    rcases mem_append.mp hid with hid | hid
    · rcases mem_append.mp hid with hid | hid
      · obtain ⟨text, hholds⟩ := hframed.head_holds id hid
        exact hholds.whole
      · rw [hlink id hid]
        exact (hwhole id (hsub id hid)).1
    · obtain ⟨text, hholds⟩ := hframed.tail_holds id hid
      exact hholds.whole
  · intro id hid htag
    rw [hcleared.tag] at htag
    rw [hcleared.size]
    rcases mem_append.mp hid with hid | hid
    · rcases mem_append.mp hid with hid | hid
      · obtain ⟨text, hholds⟩ := hframed.head_holds id hid
        exact hholds.size_ne
      · rw [hlink id hid] at htag
        exact absurd htag (hwhole id (hsub id hid)).2
    · obtain ⟨text, hholds⟩ := hframed.tail_holds id hid
      exact hholds.size_ne
  · rw [hbytes, Heap.bytes_append, Heap.bytes_append, hframed.head,
      hframed.tail, Heap.bytes_congr hlink, hlinkBytes]
    rfl

/-- A call passes on the text of its chain, and its buffers can be used again. -/
theorem bodyFilter_spec {s : FilterState} (h : s.Recycled) (trailers : List Trailer)
    (chain : List InBuf) (n : Nat) :
    (bodyFilter trailers chain n s).Recycled ∧
      (bodyFilter trailers chain n s).passed = s.passed ++ callText trailers chain := by
  have hadded := h.fresh.addAll (chain.map InBuf.buf)
  unfold bodyFilter
  generalize s.heap.addAll (chain.map InBuf.buf) = added at hadded ⊢
  obtain ⟨heap, ids⟩ := added
  have hself : ids.map heap.buf = chain.map InBuf.buf := hadded.self
  simp only
  split
  next hnone =>
    have hnil : ids = [] := getLast?_eq_none_iff.mp hnone
    subst hnil
    have hchain : chain = [] := map_eq_nil_iff.mp hself.symm
    have hpending : s.pending ++ [] = s.pending := append_nil _
    have hnext := @nextFilter_spec s s.busy [] n (by rw [hpending]; exact h)
    refine ⟨hnext.1, hnext.2.trans ?_⟩
    rw [hpending, hchain, callText_nil, append_nil]
    rfl
  next cl hcl =>
    have hframed := framed_frameBufs hadded.fresh trailers (chainBytes chain).length (isLast chain)
    rw [sum_size_of_added hadded, lastBuf_of_added hadded hcl]
    generalize frameBufs trailers (chainBytes chain).length (isLast chain) heap s.free =
      framed at hframed ⊢
    obtain ⟨head, tail, heap', free'⟩ := framed
    have hcall := callBufs_of_frameBufs h trailers hadded (mem_of_getLast? hcl) hframed
      (cleared_clearLast (isLast chain) cl heap')
    simp only
    generalize clearLast (isLast chain) cl heap' = heap₃ at hcall ⊢
    generalize head ++ linkBufs heap ids ++ tail = out at hcall ⊢
    have hnext :=
      @nextFilter_spec { s with heap := heap₃, free := free' } (s.busy ++ out) out n hcall.recycled
    have hbusy : (nextFilter out n { s with heap := heap₃, free := free' }).busy = s.busy := rfl
    generalize nextFilter out n { s with heap := heap₃, free := free' } = s' at hnext hbusy ⊢
    have hupdated := updateBusy_spec hnext.1.fresh hnext.1.busy_nodup hnext.1.own
    unfold updateChains
    rw [hbusy]
    refine ⟨hnext.1.update, ?_⟩
    have hpassed := hnext.2
    unfold FilterState.passed at hpassed ⊢
    simp only
    rw [Heap.bytes_congr hupdated.same, hpassed, Heap.bytes_append, hcall.bytes, ← append_assoc]
    congr 2
    exact flatMap_congr hcall.same

end Nginx.Http.ChunkedFilter
