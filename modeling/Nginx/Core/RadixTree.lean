/-
  Core/RadixTree.lean --- the radix tree of `src/core/ngx_radix_tree.c` for
  IPv4 addresses.

  A pointer to a node is its address, and 0 is `NULL`.  The nodes lie in
  memory; the ones that are not in use any more are chained through `right`,
  and new ones are cut from pages.  Allocation does not fail here.
-/
import Mathlib.Logic.Function.Basic
import Nginx.Core.Base

set_option autoImplicit false

namespace Nginx.Core

/-- `uintptr_t` -/
abbrev Word : Type := UInt64

/-- `NGX_RADIX_NO_VALUE` -/
def radixNoValue : Word := 0xffffffffffffffff

/-- `ngx_radix_node_t` -/
structure RadixNode where
  right : Nat
  left : Nat
  parent : Nat
  value : Word
  deriving DecidableEq, Inhabited

/-- `sizeof(ngx_radix_node_t)` -/
def radixNodeSize : Nat := 32

/-- `ngx_radix_tree_t`, with the pool and the memory that it points to. -/
structure RadixTree where
  root : Nat
  /-- how many pages the pool has given; the page after `n` others begins at
  `(n + 1) * ngx_pagesize` -/
  pool : Nat
  free : Nat
  start : Nat
  size : Nat
  nodes : Nat → RadixNode

namespace RadixNode

/-- `node->right` or `node->left`, by a bit of the key -/
def child (n : RadixNode) (right : Bool) : Nat := if right then n.right else n.left

def setChild (n : RadixNode) (right : Bool) (a : Nat) : RadixNode :=
  if right then { n with right := a } else { n with left := a }

end RadixNode

/-- `x & bit` as a condition. -/
def bitSet (x bit : BitVec 32) : Bool := (x &&& bit) != 0

/-- The bit that every walk begins with. -/
def firstBit : BitVec 32 := 0x80000000

namespace RadixTree

/-- Write to the node at an address. -/
def modify (t : RadixTree) (a : Nat) (f : RadixNode → RadixNode) : RadixTree :=
  { t with nodes := Function.update t.nodes a (f (t.nodes a)) }

/-- The page that `ngx_radix_alloc` gets where the one it cuts is used up. -/
def refill (page : PageSize) (t : RadixTree) : RadixTree :=
  if t.size < radixNodeSize then
    { t with start := (t.pool + 1) * page.bytes, size := page.bytes, pool := t.pool + 1 }
  else t

/-- `ngx_radix_alloc` -/
def alloc (page : PageSize) (t : RadixTree) : Nat × RadixTree :=
  if t.free ≠ 0 then (t.free, { t with free := (t.nodes t.free).right })
  else
    let t := t.refill page
    (t.start, { t with start := t.start + radixNodeSize, size := t.size - radixNodeSize })

/-! ## Insertion -/

/-- The first loop of `ngx_radix32tree_insert`, with `bit`, `node` and `next`;
`bit` is 0 after at most 32 rounds. -/
def insertDescend (nodes : Nat → RadixNode) (key mask : BitVec 32) :
    Nat → BitVec 32 → Nat → Nat → BitVec 32 × Nat × Nat
  | 0, bit, node, next => (bit, node, next)
  | n + 1, bit, node, next =>
      if bitSet mask bit then
        let next := (nodes node).child (bitSet key bit)
        if next = 0 then (bit, node, next)
        else insertDescend nodes key mask n (bit >>> 1) next next
      else (bit, node, next)

/-- The body of the second loop: a new node below `node`. -/
def attach (page : PageSize) (t : RadixTree) (node : Nat) (right : Bool) : Nat × RadixTree :=
  let (next, t) := t.alloc page
  let t := t.modify next fun _ => { right := 0, left := 0, parent := node, value := radixNoValue }
  (next, t.modify node fun n => n.setChild right next)

/-- The second loop of `ngx_radix32tree_insert`. -/
def grow (page : PageSize) (key mask : BitVec 32) :
    Nat → BitVec 32 → RadixTree → Nat → Nat × RadixTree
  | 0, _, t, node => (node, t)
  | n + 1, bit, t, node =>
      if bitSet mask bit then
        let (next, t) := t.attach page node (bitSet key bit)
        grow page key mask n (bit >>> 1) t next
      else (node, t)

def setValue (t : RadixTree) (node : Nat) (value : Word) : RadixTree :=
  t.modify node fun n => { n with value := value }

/-- `ngx_radix32tree_insert` -/
def insert32 (page : PageSize) (t : RadixTree) (key mask : BitVec 32) (value : Word) :
    Rc × RadixTree :=
  let (bit, node, next) := insertDescend t.nodes key mask 32 firstBit t.root t.root
  if next ≠ 0 then
    if (t.nodes node).value ≠ radixNoValue then (.busy, t) else (.ok, t.setValue node value)
  else
    let (node, t) := grow page key mask 32 bit t node
    (.ok, t.setValue node value)

/-! ## Deletion -/

/-- The loop of `ngx_radix32tree_delete` that looks for the node. -/
def deleteDescend (nodes : Nat → RadixNode) (key mask : BitVec 32) : Nat → BitVec 32 → Nat → Nat
  | 0, _, node => node
  | n + 1, bit, node =>
      if node ≠ 0 ∧ bitSet mask bit then
        deleteDescend nodes key mask n (bit >>> 1) ((nodes node).child (bitSet key bit))
      else node

/-- A node is cut off its parent and joins the free ones. -/
def detach (t : RadixTree) (node : Nat) : RadixTree :=
  let parent := (t.nodes node).parent
  let t := t.modify parent fun n =>
    if n.right = node then { n with right := 0 } else { n with left := 0 }
  let t := t.modify node fun n => { n with right := t.free }
  { t with free := node }

/-- The loop `for ( ;; )` of `ngx_radix32tree_delete`. -/
def prune : Nat → RadixTree → Nat → Except Fault RadixTree
  | 0, _, _ => .error .outOfFuel
  | n + 1, t, node =>
      let parent := (t.nodes node).parent
      if parent = 0 then .error .nullPointer
      else
        let t := t.detach node
        if (t.nodes parent).right ≠ 0 ∨ (t.nodes parent).left ≠ 0 then .ok t
        else if (t.nodes parent).value ≠ radixNoValue then .ok t
        else if (t.nodes parent).parent = 0 then .ok t
        else prune n t parent

/-- `ngx_radix32tree_delete` -/
def delete32 (t : RadixTree) (key mask : BitVec 32) : Except Fault (Rc × RadixTree) :=
  let node := deleteDescend t.nodes key mask 32 firstBit t.root
  if node = 0 then .ok (.error, t)
  else if (t.nodes node).right ≠ 0 ∨ (t.nodes node).left ≠ 0 then
    if (t.nodes node).value ≠ radixNoValue then .ok (.ok, t.setValue node radixNoValue)
    else .ok (.error, t)
  else
    match prune 32 t node with
    | .ok t => .ok (.ok, t)
    | .error fault => .error fault

/-! ## Lookup -/

/-- The loop of `ngx_radix32tree_find`. -/
def findLoop (nodes : Nat → RadixNode) (key : BitVec 32) :
    Nat → BitVec 32 → Nat → Word → Except Fault Word
  | 0, _, node, value => if node = 0 then .ok value else .error .outOfFuel
  | n + 1, bit, node, value =>
      if node = 0 then .ok value
      else
        let value := if (nodes node).value ≠ radixNoValue then (nodes node).value else value
        findLoop nodes key n (bit >>> 1) ((nodes node).child (bitSet key bit)) value

/-- `ngx_radix32tree_find` -/
def find32 (t : RadixTree) (key : BitVec 32) : Except Fault Word :=
  findLoop t.nodes key 33 firstBit t.root radixNoValue

/-! ## Creation -/

/-- The loop `do { } while (key)` of `ngx_radix_tree_create`; `none` is the
return of `NULL`. -/
def preallocateRow (page : PageSize) (mask inc : BitVec 32) :
    Nat → BitVec 32 → RadixTree → Except Fault (Option RadixTree)
  | 0, _, _ => .error .outOfFuel
  | n + 1, key, t =>
      let (rc, t) := t.insert32 page key mask radixNoValue
      if rc ≠ .ok then .ok none
      else if key + inc ≠ 0 then preallocateRow page mask inc n (key + inc) t
      else .ok (some t)

/-- The loop `while (preallocate--)`, with the number of rounds. -/
def preallocateRows (page : PageSize) :
    Nat → BitVec 32 → BitVec 32 → RadixTree → Except Fault (Option RadixTree)
  | 0, _, _, t => .ok (some t)
  | n + 1, mask, inc, t =>
      let mask := (mask >>> 1) ||| 0x80000000
      match preallocateRow page mask inc (2 ^ 32) 0 t with
      | .ok (some t) => preallocateRows page n mask (inc >>> 1) t
      | .ok none => .ok none
      | .error fault => .error fault

/-- How many rows are made in advance; a negative number counts down through
all values of `ngx_int_t`. -/
def preallocatedRows (page : PageSize) (preallocate : Int) : Nat :=
  if preallocate = -1 then
    match page.bytes / radixNodeSize with
    | 128 => 6
    | 256 => 7
    | _ => 8
  else (preallocate % 2 ^ 64).toNat

/-- `ngx_radix_tree_create`, on memory with these contents. -/
def create (page : PageSize) (memory : Nat → RadixNode) (preallocate : Int) :
    Except Fault (Option RadixTree) :=
  let (root, t) := alloc page
    { root := 0, pool := 0, free := 0, start := 0, size := 0, nodes := memory }
  let t := { t with root := root }
  let t := t.modify root fun _ => { right := 0, left := 0, parent := 0, value := radixNoValue }
  if preallocate = 0 then .ok (some t)
  else preallocateRows page (preallocatedRows page preallocate) 0 firstBit t

end RadixTree

end Nginx.Core
