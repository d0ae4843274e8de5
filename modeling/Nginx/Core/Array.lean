/-
  Core/Array.lean --- growing arrays in a pool (`src/core/ngx_array.c`).
-/
import Nginx.Core.PoolClaims

set_option autoImplicit false

namespace Nginx.Core

open Foundation

/-- Unsigned multiplication, modulo `2 ^ 64`. -/
def mulWord (a b : Nat) : Nat := a * b % wordRange

theorem mulWord_of_lt {a b : Nat} (h : a * b < wordRange) :
    mulWord a b = a * b := Nat.mod_eq_of_lt h

/-- `ngx_array_t`; `pool` is the heap's. -/
structure Arr where
  elts : Nat
  nelts : Nat
  size : Nat
  nalloc : Nat
  deriving DecidableEq

/-- `sizeof(ngx_array_t)` -/
def arraySize : Nat := 40

namespace Arena

/-- `p->d.last` is set. -/
def setLast (s : Arena) (last : Nat) : Arena :=
  withBlocks s (s.pool.blocks.modifyHead fun b => { b with last := last })

/-- `ngx_array_init` -/
def arrayInit (s : Arena) (n size : Nat) : Option Arr × Arena :=
  match s.palloc (mulWord n size) with
  | (none, s) => (none, s)
  | (some elts, s) => (some { elts := elts, nelts := 0, size := size, nalloc := n }, s)

/-- `ngx_array_create`; the address of the array and the array. -/
def arrayCreate (s : Arena) (n size : Nat) : Option (Nat × Arr) × Arena :=
  match s.palloc arraySize with
  | (none, s) => (none, s)
  | (some header, s) =>
    match s.arrayInit n size with
    | (none, s) => (none, s)
    | (some a, s) => (some (header, a), s)

/-- The elements are given back, where they are the last in the pool. -/
def releaseElts (s : Arena) (a : Arr) : Arena :=
  let bytes := mulWord a.size a.nalloc
  if addWord a.elts bytes =
    s.pool.first.last then s.setLast (subWord s.pool.first.last bytes) else s

/-- `ngx_array_destroy` of the array at `header` -/
def arrayDestroy (s : Arena) (header : Nat) (a : Arr) : Arena :=
  let s := s.releaseElts a
  if addWord header arraySize = s.pool.first.last then s.setLast header else s

/-- The pool has the elements last, and room for `more` bytes behind them. -/
def InPlace (s : Arena) (a : Arr) (more : Nat) : Prop :=
  addWord a.elts (mulWord a.size a.nalloc) = s.pool.first.last ∧
    addWord s.pool.first.last more ≤ s.pool.first.stop

instance (s : Arena) (a : Arr) (more : Nat) : Decidable (s.InPlace a more) :=
  inferInstanceAs (Decidable (_ ∧ _))

/-- What it takes to give the array room for `n` elements more stays within `size_t`: in place the
end and the count, elsewhere the count `nalloc` and its size. -/
def GrowsWithin (s : Arena) (a : Arr) (n nalloc : Nat) : Prop :=
  (addWord a.elts (a.size * a.nalloc) = s.pool.first.last →
      s.pool.first.last + n * a.size < wordRange) ∧
    if s.InPlace a (n * a.size) then a.nalloc + n < wordRange
    else nalloc < wordRange ∧ nalloc * a.size < wordRange

instance (s : Arena) (a : Arr) (n nalloc : Nat) : Decidable (s.GrowsWithin a n nalloc) :=
  inferInstanceAs (Decidable (_ ∧ _))

end Arena

/-- The heap and what is in memory. -/
structure Memory where
  heap : Arena
  bytes : Nat → Byte

namespace Memory

/-- Elements for `nalloc` in new memory, with the first `copied` bytes of the old ones. -/
def moveElts (m : Memory) (a : Arr) (bytes nalloc copied : Nat) : Option Arr × Memory :=
  match m.heap.palloc bytes with
  | (none, heap) => (none, { m with heap := heap })
  | (some new, heap) =>
    (some { a with elts := new, nalloc := nalloc },
      { heap := heap, bytes := memcpy m.bytes new (load m.bytes a.elts copied) })

/-- The first half of `ngx_array_push`: room for an element. -/
def growOne (m : Memory) (a : Arr) : Option Arr × Memory :=
  let size := mulWord a.size a.nalloc
  if a.nelts = a.nalloc then
    if m.heap.InPlace a a.size then
      (some { a with nalloc := addWord a.nalloc 1 },
        { m with heap := m.heap.setLast (addWord m.heap.pool.first.last a.size) })
    else m.moveElts a (mulWord 2 size) (mulWord 2 a.nalloc) size
  else (some a, m)

/-- `ngx_array_push`; the array behind the call, whose new element is its last one, or `NULL`. -/
def arrayPush (m : Memory) (a : Arr) : Option Arr × Memory :=
  match m.growOne a with
  | (none, m) => (none, m)
  | (some a, m) => (some { a with nelts := addWord a.nelts 1 }, m)

/-- The first half of `ngx_array_push_n`: room for `n` elements. -/
def growMany (m : Memory) (a : Arr) (n : Nat) : Option Arr × Memory :=
  let size := mulWord n a.size
  if a.nalloc < addWord a.nelts n then
    if m.heap.InPlace a size then
      (some { a with nalloc := addWord a.nalloc n },
        { m with heap := m.heap.setLast (addWord m.heap.pool.first.last size) })
    else
      let nalloc := mulWord 2 (if a.nalloc ≤ n then n else a.nalloc)
      m.moveElts a (mulWord nalloc a.size) nalloc (mulWord a.nelts a.size)
  else (some a, m)

/-- `ngx_array_push_n` -/
def arrayPushN (m : Memory) (a : Arr) (n : Nat) : Option Arr × Memory :=
  match m.growMany a n with
  | (none, m) => (none, m)
  | (some a, m) => (some { a with nelts := addWord a.nelts n }, m)

end Memory

/-! ## Runs -/

/-- An allocation of a caller's. -/
structure Allocation where
  region : Region
  /-- what it is aligned to -/
  aligned : Nat
  deriving DecidableEq

/-- An array in use; `created` where `ngx_array_create` made it. -/
structure Entry where
  header : Nat
  created : Bool
  array : Arr
  deriving DecidableEq

/-- A pool with its callers. -/
structure World where
  memory : Memory
  live : List Allocation
  arrays : List Entry
  /-- the cleanups added, in this order -/
  added : List Cleanup

inductive PoolCall where
  | palloc (size : Nat)
  | pnalloc (size : Nat)
  | pmemalign (size alignment : Nat)
  | pfree (p : Nat)
  | cleanupAdd (size : Nat) (handler : Option Nat)
  /-- an array at an address of the caller's choice -/
  | arrayInit (header n size : Nat)
  | arrayCreate (n size : Nat)
  | arrayPush (i : Nat)
  | arrayPushN (i n : Nat)
  | arrayDestroy (i : Nat)
  /-- a caller writes into memory -/
  | write (p : Nat) (byte : Byte)
  deriving DecidableEq

namespace World

def heap (w : World) : Arena := w.memory.heap

/-- The pool behind a call, and a new allocation. -/
def afterAlloc (w : World) (size aligned : Nat) (result : Option Nat × Arena) : World :=
  { w with
    memory := { w.memory with heap := result.2 }
    live := match result.1 with
      | none => w.live
      | some p => ⟨⟨p, size⟩, aligned⟩ :: w.live }

/-- The pool behind a call on the array number `i`. -/
def afterArray (w : World) (i : Nat) (e : Entry) (result : Option Arr × Memory) : World :=
  { w with
    memory := result.2
    arrays := match result.1 with
      | none => w.arrays
      | some a => w.arrays.set i { e with array := a } }

def step (w : World) : PoolCall → World
  | .palloc size => w.afterAlloc size alignment (w.heap.palloc size)
  | .pnalloc size => w.afterAlloc size 1 (w.heap.pnalloc size)
  | .pmemalign size aligned => w.afterAlloc size aligned (w.heap.pmemalign size aligned)
  | .pfree p =>
    let (ok, heap) := w.heap.pfree p
    { w with
      memory := { w.memory with heap := heap }
      live := if ok then w.live.filter fun x => x.region.base ≠ p else w.live
      arrays := if ok then w.arrays.filter fun e =>
        e.array.elts ≠ p ∧ (e.created = true → e.header ≠ p) else w.arrays }
  | .cleanupAdd size handler =>
    match w.heap.cleanupAdd size handler with
    | (none, heap) => { w with memory := { w.memory with heap := heap } }
    | (some c, heap) =>
      { w with
        memory := { w.memory with heap := heap }
        live := if size = 0 then w.live else ⟨⟨c.data, size⟩, alignment⟩ :: w.live
        added := w.added ++ [c] }
  | .arrayInit header n size =>
    match w.heap.arrayInit n size with
    | (none, heap) => { w with memory := { w.memory with heap := heap } }
    | (some a, heap) =>
      { w with memory := { w.memory with heap := heap }, arrays := ⟨header, false, a⟩ :: w.arrays }
  | .arrayCreate n size =>
    match w.heap.arrayCreate n size with
    | (none, heap) => { w with memory := { w.memory with heap := heap } }
    | (some (header, a), heap) =>
      { w with memory := { w.memory with heap := heap }, arrays := ⟨header, true, a⟩ :: w.arrays }
  | .arrayPush i =>
    match w.arrays[i]? with
    | none => w
    | some e => w.afterArray i e (w.memory.arrayPush e.array)
  | .arrayPushN i n =>
    match w.arrays[i]? with
    | none => w
    | some e => w.afterArray i e (w.memory.arrayPushN e.array n)
  | .arrayDestroy i =>
    match w.arrays[i]? with
    | none => w
    | some e =>
      { w with
        memory := { w.memory with heap := w.heap.arrayDestroy e.header e.array }
        arrays := w.arrays.eraseIdx i }
  | .write p byte => { w with memory := { w.memory with bytes := memcpy w.memory.bytes p [byte] } }

end World

/-- No sum or product that a call on an array computes leaves the range of `size_t`. -/
def NoWrap (w : World) : PoolCall → Prop
  | .arrayInit _ n size | .arrayCreate n size => n * size < wordRange
  | .arrayPush i => ∀ e ∈ w.arrays[i]?, e.array.nelts + 1 < wordRange ∧
      (e.array.nelts = e.array.nalloc → w.heap.GrowsWithin e.array 1 (2 * e.array.nalloc))
  | .arrayPushN i n => ∀ e ∈ w.arrays[i]?, e.array.nelts + n < wordRange ∧
      n * e.array.size < wordRange ∧ (e.array.nalloc < e.array.nelts + n →
        w.heap.GrowsWithin e.array n (2 * max n e.array.nalloc))
  | _ => True

/-- What callers may do: free no cleanup, make arrays of one element at least, and not destroy
an array whose header is the end of what is used of the pool's own block, unless
`ngx_array_create` made it. -/
def Permitted (w : World) : PoolCall → Prop
  | .pfree p => ∀ c ∈ w.added, c.record ≠ p
  | .arrayInit _ n _ | .arrayCreate n _ => 1 ≤ n
  | .arrayDestroy i => ∀ e ∈ w.arrays[i]?, e.created = false →
      addWord e.header arraySize ≠ (w.heap.releaseElts e.array).pool.first.last
  | _ => True

/-- A new pool. -/
def newWorld (s : Arena) (bytes : Nat → Byte) :
    World := { memory := ⟨s, bytes⟩, live := [], arrays := [], added := [] }

/-- The states that calls reach from a new pool for `size` bytes. -/
inductive PoolRun (size : Nat) : World → Prop where
  | start {pagesize : Nat} {answers : List (Option Nat)} {s : Arena} (bytes : Nat → Byte)
      (haligned : size % poolAlignment = 0) (hsize : poolSize < size)
      (h : createPool pagesize ⟨[], answers⟩ size = some s) : PoolRun size (newWorld s bytes)
  | step {w : World} (h : PoolRun size w) (call : PoolCall)
    (hpermitted : Permitted w call) (hnowrap : NoWrap w call) :
      PoolRun size (w.step call)

end Nginx.Core
