/-
  Os/OutputChain.lean --- how a chain is given to the kernel (`src/os/unix/ngx_writev_chain.c`,
  `src/os/unix/ngx_linux_sendfile_chain.c`, `ngx_chain_coalesce_file` of `src/core/ngx_buf.c`),
  on 64 bits and without threads.

  A call of the kernel takes some of what it is given, and at least a byte if that is not
  empty; or it would block.  Interrupted calls are repeated, and with an error the
  connection is closed.  Offsets in files, aligned or not, stay below 2^63.
-/
import Nginx.Core.Chain

set_option autoImplicit false

namespace Nginx.Os

open Foundation
open Nginx.Core

/-- Where the buffers are: the address of the memory that each points into, its file, and
what memory and files contain. -/
structure Layout where
  mem : Nat → Byte
  place : Nat → Nat
  fd : Nat → Nat
  content : Nat → Bytes
  /-- `ngx_pagesize` -/
  pageSize : Nat

/-- `struct iovec` -/
structure Iovec where
  base : Nat
  len : Nat
  deriving DecidableEq

/-- What `writev` is given. -/
def Layout.vecBytes (L : Layout) (iovs : List Iovec) :
    Bytes := iovs.flatMap fun iov => load L.mem iov.base iov.len

/-- `NGX_IOVS_PREALLOCATE` -/
def iovsPreallocate : Nat := 64

/-- `NGX_SENDFILE_MAXSIZE` -/
def sendfileMaxSize : Nat := 2147483647

/-- `NGX_MAX_SIZE_T_VALUE` -/
def maxSizeT : Nat := 2 ^ 63 - 1

/-- The loop of `ngx_output_chain_to_iovec`, with the last `iov` first and `prev` if there
is one; `none` is `NGX_CHAIN_ERROR`. -/
def toIovec (L : Layout) (heap : Heap) (limit : Nat) : List Nat → List Iovec → Option Nat → Nat →
    Option (List Iovec × Nat × List Nat)
  | [], iovs, _, total => some (iovs.reverse, total, [])
  | id :: chain, iovs, prev, total =>
    let b := heap.buf id
    if total ≥ limit then some (iovs.reverse, total, id :: chain)
    else if b.special then toIovec L heap limit chain iovs prev total
    else if b.inFile then some (iovs.reverse, total, id :: chain)
    else if ¬b.inMemory then none
    else
      let size := min (b.last - b.pos) (limit - total)
      let pos := L.place id + b.pos
      if prev = some pos then
        match iovs with
        | iov :: iovs =>
          toIovec L heap limit chain ({ iov with len := iov.len + size } :: iovs)
            (some (pos + size)) (total + size)
        | [] => none
      else if iovs.length = iovsPreallocate then some (iovs.reverse, total, id :: chain)
      else toIovec L heap limit chain (⟨pos, size⟩ :: iovs) (some (pos + size)) (total + size)

/-- `ngx_output_chain_to_iovec`: the vector, its size and the rest of the chain. -/
def outputChainToIovec (L : Layout) (heap : Heap) (chain : List Nat) (limit : Nat) :
    Option (List Iovec × Nat × List Nat) := toIovec L heap limit chain [] none 0

/-- `(x + ngx_pagesize - 1) & ~((off_t) ngx_pagesize - 1)`, as the page size is a power of 2. -/
def alignUp (pageSize x : Nat) : Nat := (x + pageSize - 1) / pageSize * pageSize

/-- The loop of `ngx_chain_coalesce_file` from a buffer on. -/
def coalesceFile (L : Layout) (heap : Heap) (limit : Nat) : Nat → List Nat → Nat → Nat × List Nat
  | id, chain, total =>
    let b := heap.buf id
    let size := b.fileLast - b.filePos
    if size > limit - total then
      let size := limit - total
      let aligned := alignUp L.pageSize (b.filePos + size)
      (total + if aligned ≤ b.fileLast then aligned - b.filePos else size, id :: chain)
    else
      let total := total + size
      let fprev := b.filePos + size
      match chain with
      | [] => (total, [])
      | next :: rest =>
        if (heap.buf next).inFile ∧ total < limit ∧ L.fd id = L.fd next ∧
          fprev = (heap.buf next).filePos then
          coalesceFile L heap limit next rest total
        else (total, next :: rest)

/-! ## The kernel -/

/-- What a call does with what it is given. -/
inductive KernelResult where
  /-- `NGX_EAGAIN` -/
  | again
  /-- at most so many bytes behind the first one are taken -/
  | taken (n : Nat)
  deriving DecidableEq

/-- The bytes that are taken. -/
def KernelResult.count : KernelResult → Nat → Nat
  | .again, _ => 0
  | .taken n, size => min (n + 1) size

/-- The connection: `c->write->ready`, `c->sent`, the bytes that the kernel has taken, and
the buffers and what is left of the chain. -/
structure SendState where
  ready : Bool
  sent : Nat
  wire : Bytes
  heap : Heap
  chain : List Nat

/-- What comes after a call of the kernel. -/
inductive SendStep where
  /-- `NGX_CHAIN_ERROR` -/
  | error
  | returned (s : SendState)
  /-- the loop goes on with so much sent -/
  | again (send : Nat) (s : SendState)

/-- `c->sent += sent; in = ngx_chain_update_sent(in, sent)` for what is taken of `bytes`. -/
def SendState.take (s : SendState) (bytes : Bytes) (sent : Nat) : SendState :=
  let (heap, chain) := updateSent s.heap s.chain sent
  { s with sent := s.sent + sent, wire := s.wire ++ bytes.take sent, heap := heap, chain := chain }

/-- A turn of the loop of `ngx_writev_chain`. -/
def writevStep (L : Layout) (limit send : Nat) (result : KernelResult) (s : SendState) : SendStep :=
  match outputChainToIovec L s.heap s.chain (subWord limit send) with
  | none => .error
  | some (iovs, size, cl) =>
    if cl.head?.any fun id => (s.heap.buf id).inFile then .error
    else
      let sent := result.count size
      let s := s.take (L.vecBytes iovs) sent
      if size ≠ sent then .returned { s with ready := false }
      else if send + size ≥ limit ∨ s.chain = [] then .returned s
      else .again (send + size) s

/-- What `ngx_linux_sendfile_chain` does with the result of `sendfile` or `writev`. -/
def sendfileResult (limit send size : Nat) (bytes : Bytes) (result : KernelResult) (s : SendState) :
    SendStep :=
  let sent := result.count size
  let s := s.take bytes sent
  if result = .again then .returned { s with ready := false }
  -- `sendfile` may be interrupted at any time
  else if size ≠ sent then .again (send + sent) s
  else if send + sent ≥ limit ∨ s.chain = [] then .returned s
  else .again (send + sent) s

/-- A turn of the loop of `ngx_linux_sendfile_chain`, without the options of the socket. -/
def sendfileStep (L : Layout) (limit send : Nat) (result : KernelResult) (s : SendState) :
    SendStep :=
  match outputChainToIovec L s.heap s.chain (subWord limit send) with
  | none => .error
  | some (iovs, size, cl) =>
    match cl with
    | id :: rest =>
      if iovs.length = 0 ∧ (s.heap.buf id).inFile ∧ send + size < limit then
        let fileSize := (coalesceFile L s.heap (limit - (send + size)) id rest 0).1
        if fileSize = 0 then .error
        else sendfileResult limit send fileSize
          ((L.content (L.fd id)).drop (s.heap.buf id).filePos) result s
      else sendfileResult limit send size (L.vecBytes iovs) result s
    | [] => sendfileResult limit send size (L.vecBytes iovs) result s

/-- The loop, for so many calls of the kernel; inside, `none` is `NGX_CHAIN_ERROR`. -/
def sendLoop (step : Nat → KernelResult → SendState → SendStep) :
    Nat → (Nat → KernelResult) → Nat → SendState →
    Option (Option SendState)
  | 0, _, _, _ => none
  | calls + 1, kernel, send, s =>
    match step send (kernel 0) s with
    | .error => some none
    | .returned s => some (some s)
    | .again send s => sendLoop step calls (fun i => kernel (i + 1)) send s

/-- `limit` when there is none, or too large a one. -/
def boundLimit (largest limit : Nat) : Nat := if limit = 0 ∨ limit > largest then largest else limit

/-- `ngx_writev_chain` -/
def writevChain (L : Layout) (limit : Nat) (calls : Nat) (kernel : Nat → KernelResult)
    (s : SendState) :
    Option (Option SendState) :=
  if ¬s.ready then some (some s)
  else sendLoop (writevStep L (boundLimit (maxSizeT - L.pageSize) limit)) calls kernel 0 s

/-- `ngx_linux_sendfile_chain` -/
def linuxSendfileChain (L : Layout) (limit : Nat) (calls : Nat)
    (kernel : Nat → KernelResult) (s : SendState) :
    Option (Option SendState) :=
  if ¬s.ready then some (some s)
  else sendLoop (sendfileStep L (boundLimit (sendfileMaxSize - L.pageSize) limit)) calls kernel 0 s

end Nginx.Os
