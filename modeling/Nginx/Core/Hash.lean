/-
  Core/Hash.lean --- the static hash of `src/core/ngx_hash.c`.

  The elements lie in a memory of bytes: the pointer `value` in 8 bytes, `len`
  in 2, and the name behind them.  The counters `test` are of type `u_short`
  and wrap.  Next to the table, `ngx_hash_init` here returns where it has put
  everything and how much it has set aside.
-/
import Mathlib.Logic.Function.Basic
import Nginx.Core.Base
import Nginx.Foundation.Writes

set_option autoImplicit false

namespace Nginx.Core

open Foundation Function

/-- `ngx_cacheline_size` -/
structure CacheLine where
  shift : Nat
  min_shift : 3 ≤ shift
  deriving DecidableEq

def CacheLine.size (line : CacheLine) : Nat := 2 ^ line.shift

/-- `sizeof(void *)` -/
def pointerSize : Nat := 8

/-- The conversion to `u_short`. -/
def short (n : Nat) : Nat := n % 65536

/-- `ngx_tolower` -/
def tolower (c : Byte) : Byte := if chr 'A' ≤ c ∧ c ≤ chr 'Z' then c ||| 0x20 else c

/-- `ngx_strlow` -/
def strlow (s : Bytes) : Bytes := s.map tolower

/-- `ngx_hash_key_t` -/
structure HashKey where
  /-- the bytes at `key.data`; where that is `NULL`, only their number counts -/
  key : Bytes
  /-- `key.data == NULL` -/
  isNull : Bool
  keyHash : Nat
  value : Nat
  value_lt : value < 2 ^ 64
  deriving DecidableEq

/-- `NGX_HASH_ELT_SIZE` -/
def eltSize (k : HashKey) : Nat := pointerSize + align (k.key.length + 2) pointerSize

/-- The fields of `ngx_hash_init_t` that count here. -/
structure HashInit where
  maxSize : Nat
  bucketSize : Nat
  deriving DecidableEq

/-- What the allocations give: the memory for `test` or not, that for the
buckets or not, and an address for elements of the given total size or none. -/
structure HashAllocs where
  test : Bool
  buckets : Bool
  elts : Nat → Option Nat
  elts_ne : ∀ len addr, elts len = some addr → addr ≠ 0

/-- `ngx_hash_t` -/
structure Hash where
  buckets : Nat → Nat
  size : Nat

/-- The table, the memory that it points to, and how it is laid out. -/
structure BuiltHash where
  hash : Hash
  mem : Nat → Byte
  /-- the elements with their addresses -/
  elts : List (HashKey × Nat)
  /-- the bytes set aside for each bucket -/
  reserved : Nat → Nat
  /-- the address of the terminator of each bucket -/
  ends : Nat → Nat

/-! ## The size of the table -/

/-- The loop over the names for one size; `false` is `goto next`. -/
def trial (size bucketSize : Nat) : List HashKey → (Nat → Nat) → Bool
  | [], _ => true
  | k :: ks, test =>
      if k.isNull then trial size bucketSize ks test
      else
        let key := k.keyHash % size
        let test := update test key (short (test key + eltSize k))
        if test key > short bucketSize then false else trial size bucketSize ks test

/-- `for (size = start; size <= hinit->max_size; size++)`, with the number of
sizes left. -/
def findSize (bucketSize : Nat) (keys : List HashKey) : Nat → Nat → Option Nat
  | 0, _ => none
  | n + 1, size =>
      if trial size bucketSize keys fun _ => 0 then some size
      else findSize bucketSize keys n (size + 1)

/-- The size from which on the sizes are tried. -/
def startSize (conf : HashInit) (bucketSize nelts : Nat) : Nat :=
  let start := nelts / (bucketSize / (2 * pointerSize))
  let start := if start ≠ 0 then start else 1
  if conf.maxSize > 10000 ∧ nelts ≠ 0 ∧ conf.maxSize / nelts < 100 then conf.maxSize - 1000
  else start

/-- The size of the table; where none fits, it is `max_size`. -/
def tableSize (conf : HashInit) (keys : List HashKey) : Nat :=
  let bucketSize := subWord conf.bucketSize pointerSize
  let start := startSize conf bucketSize keys.length
  (findSize bucketSize keys (conf.maxSize + 1 - start) start).getD conf.maxSize

/-! ## The layout -/

/-- The sizes of the elements are added to the counters. -/
def sumSizes (size : Nat) : List HashKey → (Nat → Nat) → Nat → Nat
  | [], test => test
  | k :: ks, test =>
      if k.isNull then sumSizes size ks test
      else
        let key := k.keyHash % size
        sumSizes size ks (update test key (short (test key + eltSize k)))

/-- The counters of the buckets that are in use, rounded up to cache lines. -/
def roundUp (line : CacheLine) (test : Nat → Nat) (i : Nat) : Nat :=
  if test i = pointerSize then test i else short (align (test i) line.size)

/-- `len`, by the rounded counters. -/
def totalLen (size : Nat) (test reserved : Nat → Nat) : Nat :=
  ((List.range size).map fun i => if test i = pointerSize then 0 else reserved i).sum

/-- The addresses of the buckets `i` and on, with the number of those left. -/
def placeBuckets (reserved : Nat → Nat) : Nat → Nat → Nat → (Nat → Nat) → Nat → Nat
  | 0, _, _, buckets => buckets
  | n + 1, i, elts, buckets =>
      if reserved i = pointerSize then placeBuckets reserved n (i + 1) elts buckets
      else
        placeBuckets reserved n (i + 1) (elts + reserved i) (update buckets i elts)

/-- The elements are written to memory. -/
def fillElts (hash : Hash) : List HashKey → (Nat → Nat) → (Nat → Byte) →
    Except Fault ((Nat → Byte) × (Nat → Nat) × List (HashKey × Nat))
  | [], test, mem => .ok (mem, test, [])
  | k :: ks, test, mem =>
      if k.isNull then fillElts hash ks test mem
      else
        let key := k.keyHash % hash.size
        if hash.buckets key = 0 then .error .nullPointer
        else
          let elt := hash.buckets key + test key
          let mem := memcpy mem elt (leBytes 8 k.value)
          let mem := memcpy mem (elt + 8) (leBytes 2 (short k.key.length))
          let mem := memcpy mem (elt + 10) (strlow k.key)
          let test := update test key (short (test key + eltSize k))
          match fillElts hash ks test mem with
          | .ok (mem, test, elts) => .ok (mem, test, (k, elt) :: elts)
          | .error fault => .error fault

/-- The terminator of every bucket is written. -/
def writeEnds (hash : Hash) (ends : Nat → Nat) (mem : Nat → Byte) : Nat → Byte :=
  (List.range hash.size).foldl
    (fun mem i => if hash.buckets i = 0 then mem else memcpy mem (ends i) (leBytes 8 0)) mem

/-- `ngx_hash_init`; `none` is `NGX_ERROR`. -/
def hashInit (line : CacheLine) (conf : HashInit) (allocs : HashAllocs) (mem : Nat → Byte)
    (keys : List HashKey) : Except Fault (Option BuiltHash) :=
  if conf.maxSize = 0 then .ok none
  else if ∃ k ∈ keys, conf.bucketSize < eltSize k + pointerSize then .ok none
  else if allocs.test = false then .ok none
  else if subWord conf.bucketSize pointerSize / (2 * pointerSize) = 0 then .error .divisionByZero
  else
    let size := tableSize conf keys
    let test := sumSizes size keys fun _ => pointerSize
    let reserved := roundUp line test
    if allocs.buckets = false then .ok none
    else match allocs.elts (totalLen size test reserved + line.size) with
    | none => .ok none
    | some elts =>
        let buckets := placeBuckets reserved size 0 (align elts line.size) fun _ => 0
        let hash := { buckets := buckets, size := size }
        match fillElts hash keys (fun _ => 0) mem with
        | .error fault => .error fault
        | .ok (mem, test, elts) =>
            let ends := fun i => buckets i + test i
            .ok (some
              { hash := hash
                mem := writeEnds hash ends mem
                elts := elts
                reserved := reserved
                ends := ends })

/-! ## Lookup -/

/-- `elt->value` -/
def eltValue (mem : Nat → Byte) (elt : Nat) : Nat := leNat (load mem elt 8)

/-- `elt->len` -/
def eltLen (mem : Nat → Byte) (elt : Nat) : Nat := leNat (load mem (elt + 8) 2)

/-- The loop of `ngx_hash_find`. -/
def findElt (mem : Nat → Byte) (name : Bytes) : Nat → Nat → Except Fault Nat
  | 0, _ => .error .outOfFuel
  | n + 1, elt =>
      if eltValue mem elt = 0 then .ok 0
      else if name.length = eltLen mem elt ∧ load mem (elt + 10) name.length = name then
        .ok (eltValue mem elt)
      else findElt mem name n (align (elt + 10 + eltLen mem elt) pointerSize)

/-- `ngx_hash_find`, where 0 is `NULL`; every round moves on by 10 bytes at
least. -/
def hashFind (mem : Nat → Byte) (hash : Hash) (key : Nat) (name : Bytes) : Except Fault Nat :=
  let elt := hash.buckets (key % hash.size)
  if elt = 0 then .ok 0 else findElt mem name (2 ^ 64) elt

end Nginx.Core
