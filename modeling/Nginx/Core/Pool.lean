/-
  Core/Pool.lean --- memory pools (`src/core/ngx_palloc.c`).

  The system allocator answers as it likes: an answer that is not a region apart from
  those handed out, aligned as asked for, is a failure.  `NGX_DEBUG_PALLOC` is off.
-/
import Nginx.Foundation.Memory
import Nginx.Foundation.Regions

set_option autoImplicit false

namespace Nginx.Core

open Foundation

/-! ## The system -/

/-- What the system has handed out, and what it will answer. -/
structure Sys where
  regions : List Region
  answers : List (Option Nat)
  deriving DecidableEq

namespace Sys

/-- Two regions that exist at the same time; also empty ones have addresses of their own. -/
def Separate (r t : Region) :
    Prop := r.base + max r.size 1 ≤ t.base ∨ t.base + max t.size 1 ≤ r.base

instance (r t : Region) : Decidable (Separate r t) := inferInstanceAs (Decidable (_ ∨ _))

/-- What `malloc` and `posix_memalign` may answer. -/
def Grants (sys : Sys) (alignment : Nat) (r : Region) : Prop :=
  r.base ≠ 0 ∧ r.base % alignment = 0 ∧ r.base + r.size < wordRange ∧
    ∀ t ∈ sys.regions, Separate r t

instance (sys : Sys) (alignment : Nat) (r : Region) : Decidable (sys.Grants alignment r) :=
  inferInstanceAs (Decidable (_ ∧ _ ∧ _ ∧ _))

/-- `ngx_memalign` -/
def memalign (sys : Sys) (alignment size : Nat) : Option Nat × Sys :=
  match sys.answers with
  | some base :: answers =>
    if sys.Grants alignment ⟨base, size⟩
      then (some base, { regions := ⟨base, size⟩ :: sys.regions, answers := answers })
    else (none, { sys with answers := answers })
  | none :: answers => (none, { sys with answers := answers })
  | [] => (none, sys)

/-- `ngx_alloc`; `malloc` aligns for every type. -/
def alloc (sys : Sys) (size : Nat) : Option Nat × Sys := sys.memalign 16 size

/-- `ngx_free` -/
def free (sys : Sys) (p : Nat) :
    Sys := { sys with regions := sys.regions.filter fun r => r.base ≠ p }

end Sys

/-! ## The pool -/

/-- `ngx_pool_data_t`, at its address. -/
structure Block where
  addr : Nat
  /-- how much of the block the pool itself uses at its beginning; no function reads it -/
  header : Nat
  last : Nat
  /-- `d.end` -/
  stop : Nat
  failed : Nat := 0
  deriving DecidableEq

/-- `ngx_pool_large_t`, at the address `record`. -/
structure Large where
  record : Nat
  alloc : Nat
  deriving DecidableEq

/-- `ngx_pool_cleanup_t`, at the address `record`. -/
structure Cleanup where
  record : Nat
  handler : Option Nat
  data : Nat
  deriving DecidableEq

/-- `ngx_pool_t`: the first block is the pool's own; `current` counts blocks. -/
structure Pool where
  blocks : List Block
  max : Nat
  current : Nat
  large : List Large
  cleanup : List Cleanup
  deriving DecidableEq

structure Arena where
  pool : Pool
  sys : Sys
  deriving DecidableEq

/-- `sizeof(ngx_pool_t)` -/
def poolSize : Nat := 80

/-- `sizeof(ngx_pool_data_t)` -/
def dataSize : Nat := 32

/-- `sizeof(ngx_pool_large_t)` -/
def largeSize : Nat := 16

/-- `sizeof(ngx_pool_cleanup_t)` -/
def cleanupSize : Nat := 24

/-- `NGX_POOL_ALIGNMENT` -/
def poolAlignment : Nat := 16

/-- `NGX_ALIGNMENT` -/
def alignment : Nat := 8

/-- `ngx_align_ptr` -/
def alignPtr (p a : Nat) : Nat := addWord p (a - 1) / a * a

/-- `pool->d` -/
def Pool.first (pool : Pool) : Block := pool.blocks.headD ⟨0, 0, 0, 0, 0⟩

/-- `ngx_create_pool`; `NGX_MAX_ALLOC_FROM_POOL` is `pagesize - 1`. -/
def createPool (pagesize : Nat) (sys : Sys) (size : Nat) : Option Arena :=
  match sys.memalign poolAlignment size with
  | (none, _) => none
  | (some p, sys) =>
    let rest := size - poolSize
    some
      { pool :=
          { blocks := [{ addr := p, header := poolSize, last := p + poolSize, stop := p + size }]
            max := if rest < pagesize - 1 then rest else pagesize - 1
            current := 0
            large := []
            cleanup := [] }
        sys := sys }

namespace Arena

/-! ## Allocation -/

/-- Where an allocation in a block begins. -/
def place (b : Block) (align : Bool) : Nat := if align then alignPtr b.last alignment else b.last

/-- The loop of `ngx_palloc_small`, from `pool->current` on. -/
def takeFrom (size : Nat) (align : Bool) : List Block → Option (Nat × List Block)
  | [] => none
  | b :: rest =>
    let m := place b align
    if size ≤ subWord b.stop m then some (m, { b with last := m + size } :: rest)
    else (takeFrom size align rest).map fun found => (found.1, b :: found.2)

/-- The loop of `ngx_palloc_block` over the blocks with a next one, from the block `i` on. -/
def countFailed (i current : Nat) : List Block → List Block × Nat
  | [] => ([], current)
  | [b] => ([b], current)
  | b :: next :: rest =>
    let current := if 4 < b.failed then i + 1 else current
    let (counted, current) := countFailed (i + 1) current (next :: rest)
    ({ b with failed := b.failed + 1 } :: counted, current)

/-- `ngx_palloc_block` -/
def pallocBlock (s : Arena) (size : Nat) : Option Nat × Arena :=
  let psize := subWord s.pool.first.stop s.pool.first.addr
  match s.sys.memalign poolAlignment psize with
  | (none, sys) => (none, { s with sys := sys })
  | (some new, sys) =>
    let m := alignPtr (new + dataSize) alignment
    let (counted, current) :=
      countFailed s.pool.current s.pool.current (s.pool.blocks.drop s.pool.current)
    let block : Block := { addr := new, header := dataSize, last := m + size, stop := new + psize }
    let blocks := s.pool.blocks.take s.pool.current ++ counted ++ [block]
    (some m, { pool := { s.pool with blocks := blocks, current := current }, sys := sys })

/-- `ngx_palloc_small` -/
def pallocSmall (s : Arena) (size : Nat) (align : Bool) : Option Nat × Arena :=
  match takeFrom size align (s.pool.blocks.drop s.pool.current) with
  | some (m, found) =>
    (some m,
      { s with pool := { s.pool with blocks := s.pool.blocks.take s.pool.current ++ found } })
  | none => s.pallocBlock size

/-- The loop of `ngx_palloc_large`: a record without an allocation among the first ones. -/
def reuseLarge (p : Nat) : Nat → List Large → Option (List Large)
  | _, [] => none
  | n, l :: rest =>
    if l.alloc = 0 then some ({ l with alloc := p } :: rest)
    else if 3 < n then none
    else (reuseLarge p (n + 1) rest).map (l :: ·)

/-- The end of `ngx_palloc_large` and of `ngx_pmemalign`: a new record. -/
def addLarge (s : Arena) (p : Nat) : Option Nat × Arena :=
  match s.pallocSmall largeSize true with
  | (none, s) => (none, { s with sys := s.sys.free p })
  | (some record, s) =>
    (some p,
      { s with pool := { s.pool with large := { record := record, alloc := p } :: s.pool.large } })

/-- `ngx_palloc_large` -/
def pallocLarge (s : Arena) (size : Nat) : Option Nat × Arena :=
  match s.sys.alloc size with
  | (none, sys) => (none, { s with sys := sys })
  | (some p, sys) =>
    match reuseLarge p 0 s.pool.large with
    | some large => (some p, { pool := { s.pool with large := large }, sys := sys })
    | none => addLarge { s with sys := sys } p

/-- `ngx_palloc` -/
def palloc (s : Arena) (size : Nat) : Option Nat × Arena :=
  if size ≤ s.pool.max then s.pallocSmall size true else s.pallocLarge size

/-- `ngx_pnalloc` -/
def pnalloc (s : Arena) (size : Nat) : Option Nat × Arena :=
  if size ≤ s.pool.max then s.pallocSmall size false else s.pallocLarge size

/-- `ngx_pmemalign` -/
def pmemalign (s : Arena) (size alignment : Nat) : Option Nat × Arena :=
  match s.sys.memalign alignment size with
  | (none, sys) => (none, { s with sys := sys })
  | (some p, sys) => addLarge { s with sys := sys } p

/-! ## Freeing -/

/-- The loop of `ngx_pfree`. -/
def clearLarge (p : Nat) : List Large → Option (List Large)
  | [] => none
  | l :: rest =>
    if p = l.alloc then some ({ l with alloc := 0 } :: rest) else (clearLarge p rest).map (l :: ·)

/-- `ngx_pfree`; whether it is `NGX_OK`. -/
def pfree (s : Arena) (p : Nat) : Bool × Arena :=
  match clearLarge p s.pool.large with
  | some large => (true, { pool := { s.pool with large := large }, sys := s.sys.free p })
  | none => (false, s)

/-- `ngx_pool_cleanup_add`; the caller sets the handler. -/
def cleanupAdd (s : Arena) (size : Nat) (handler : Option Nat) : Option Cleanup × Arena :=
  match s.palloc cleanupSize with
  | (none, s) => (none, s)
  | (some record, s) =>
    if size ≠ 0 then
      match s.palloc size with
      | (none, s) => (none, s)
      | (some data, s) =>
        let c : Cleanup := { record := record, handler := handler, data := data }
        (some c, { s with pool := { s.pool with cleanup := c :: s.pool.cleanup } })
    else
      let c : Cleanup := { record := record, handler := handler, data := 0 }
      (some c, { s with pool := { s.pool with cleanup := c :: s.pool.cleanup } })

/-- What `ngx_destroy_pool` does: the handlers it calls with their data, what it frees, and
the system behind it. -/
structure Destroyed where
  ran : List (Nat × Nat)
  freed : List Nat
  sys : Sys

/-- `ngx_destroy_pool` -/
def destroyPool (s : Arena) : Destroyed :=
  let ran := s.pool.cleanup.filterMap fun c => c.handler.map fun handler => (handler, c.data)
  let freed := (s.pool.large.map Large.alloc).filter (· ≠ 0) ++ s.pool.blocks.map Block.addr
  { ran := ran, freed := freed, sys := freed.foldl Sys.free s.sys }

end Arena

end Nginx.Core
