/-
  Http/V2/Table.lean --- the HPACK tables of `src/http/v2/ngx_http_v2_table.c`.

  The dynamic table of a connection is three pieces of memory: a byte ring
  `storage` that holds the names and values, a growable ring `entries` of
  pointers to entry structures, and the entry structures themselves, which are
  recycled once evicted.  Three counters index the pointer ring: `added`,
  `deleted` and `reused`; they only grow, modulo the width of `ngx_uint_t`,
  and are rebased when the pointer ring grows.

  Pointers into `storage` are offsets from its start, a pointer to an entry
  structure is the number of its allocation.  A function returns `none` where
  the program would dereference the `NULL` in `entries`.
-/
import Nginx.Core.Base
import Nginx.Foundation.Ring

set_option autoImplicit false

namespace Nginx.Http.V2

open Foundation
open Nginx.Core (Rc)

/-- `NGX_HTTP_V2_TABLE_SIZE` -/
def ngxHttpV2TableSize : Nat := 4096

/-- `ngx_http_v2_header_t`, by contents. -/
structure Header where
  name : Bytes
  value : Bytes
  deriving DecidableEq, Inhabited

/-! ## The static table -/

/-- `ngx_http_v2_static_table` -/
def staticTable : List Header :=
  [ (":authority", ""), (":method", "GET"), (":method", "POST"), (":path", "/"),
    (":path", "/index.html"), (":scheme", "http"), (":scheme", "https"),
    (":status", "200"), (":status", "204"), (":status", "206"), (":status", "304"),
    (":status", "400"), (":status", "404"), (":status", "500"),
    ("accept-charset", ""), ("accept-encoding", "gzip, deflate"),
    ("accept-language", ""), ("accept-ranges", ""), ("accept", ""),
    ("access-control-allow-origin", ""), ("age", ""), ("allow", ""),
    ("authorization", ""), ("cache-control", ""), ("content-disposition", ""),
    ("content-encoding", ""), ("content-language", ""), ("content-length", ""),
    ("content-location", ""), ("content-range", ""), ("content-type", ""),
    ("cookie", ""), ("date", ""), ("etag", ""), ("expect", ""), ("expires", ""),
    ("from", ""), ("host", ""), ("if-match", ""), ("if-modified-since", ""),
    ("if-none-match", ""), ("if-range", ""), ("if-unmodified-since", ""),
    ("last-modified", ""), ("link", ""), ("location", ""), ("max-forwards", ""),
    ("proxy-authenticate", ""), ("proxy-authorization", ""), ("range", ""),
    ("referer", ""), ("refresh", ""), ("retry-after", ""), ("server", ""),
    ("set-cookie", ""), ("strict-transport-security", ""), ("transfer-encoding", ""),
    ("user-agent", ""), ("vary", ""), ("via", ""), ("www-authenticate", "") ].map
    fun h => ⟨ascii h.1, ascii h.2⟩

/-- `NGX_HTTP_V2_STATIC_TABLE_ENTRIES` -/
def staticTableEntries : Nat := staticTable.length

/-! ## The dynamic table -/

/-- An `ngx_str_t` whose data lie in `storage`: `data` is the offset there. -/
structure StoredStr where
  len : Nat
  data : Nat
  deriving DecidableEq, Inhabited

/-- An entry structure, an `ngx_http_v2_header_t` that points into `storage`. -/
structure Entry where
  name : StoredStr
  value : StoredStr
  deriving DecidableEq, Inhabited

/-- `ngx_http_v2_hpack_t`, with the entry structures allocated so far. -/
structure Hpack where
  /-- the pointer ring, `none` for `NULL` -/
  entries : Option (Nat → Nat)
  added : Nat
  deleted : Nat
  reused : Nat
  allocated : Nat
  size : Nat
  free : Nat
  storage : Nat → Byte
  /-- the write cursor, an offset in `storage` -/
  pos : Nat
  /-- the entry structures, by the number of their allocation -/
  heap : Nat → Entry
  /-- how many entry structures have been allocated -/
  heapNext : Nat

/-- What memory fresh from `ngx_palloc` contains. -/
structure Junk where
  pointers : Nat → Nat
  bytes : Nat → Byte
  entries : Nat → Entry

/-- The `hpack` member of a fresh connection, all zero. -/
def Hpack.zeroed (junk : Junk) : Hpack where
  entries := none
  added := 0
  deleted := 0
  reused := 0
  allocated := 0
  size := 0
  free := 0
  storage := junk.bytes
  pos := 0
  heap := junk.entries
  heapNext := 0

/-! ### Size accounting -/

/-- `entry = entries[deleted++ % allocated]` and the room it gives back. -/
def Hpack.evict (h : Hpack) : Option Hpack := do
  let entries ← h.entries
  let entry := h.heap (entries (h.deleted % h.allocated))
  return { h with
    deleted := addWord h.deleted 1
    free := h.free + (32 + entry.name.len + entry.value.len) }

/-- `while (need > free)` of both eviction loops.  Every turn frees at least 32
bytes, so `need` turns are more than the loop can take. -/
def Hpack.evictUntil (need : Int) : Nat → Hpack → Option Hpack
  | 0, h => some h
  | fuel + 1, h =>
      if need > h.free then do
        let h ← h.evict
        Hpack.evictUntil need fuel h
      else some h

/-- `ngx_http_v2_table_account` -/
def tableAccount (h : Hpack) (size : Nat) : Option (Rc × Hpack) := do
  let size := size + 32
  if size ≤ h.free then
    return (.ok, { h with free := h.free - size })
  if size > h.size then
    return (.declined, { h with deleted := h.added, free := h.size })
  -- the `do` loop: the first turn is taken without a test
  let h ← h.evict
  let h ← h.evictUntil size size
  return (.ok, { h with free := h.free - size })

/-- `ngx_http_v2_table_size` -/
def tableSize (h : Hpack) (size : Nat) : Option (Rc × Hpack) := do
  if size > ngxHttpV2TableSize then
    return (.error, h)
  let needed : Int := (h.size : Int) - (size : Int)
  let h ← h.evictUntil needed needed.toNat
  return (.ok, { h with size := size, free := ((h.free : Int) - needed).toNat })

/-! ### Insertion -/

/-- The first use of the table: the pointer ring and the byte ring are
allocated and the size is set, whatever it was before. -/
def Hpack.setUp (junk : Junk) (h : Hpack) : Hpack :=
  { h with
    allocated := 64
    size := ngxHttpV2TableSize
    free := ngxHttpV2TableSize
    entries := some junk.pointers
    storage := junk.bytes
    pos := 0 }

/-- The entry structure for a new header: a recycled one while evicted
structures are left, else a new one. -/
def Hpack.takeEntry (h : Hpack) : Option (Nat × Hpack) := do
  if h.reused = h.deleted then
    return (h.heapNext, { h with heapNext := h.heapNext + 1 })
  let entries ← h.entries
  return (entries (h.reused % h.allocated), { h with reused := addWord h.reused 1 })

/-- Copy name and value into the byte ring and fill in the entry structure.
After a name that wrapped, the code takes `NGX_HTTP_V2_TABLE_SIZE - name.len`
for the room that is left, although the cursor is already past that point. -/
def Hpack.copyHeader (h : Hpack) (entry : Nat) (header : Header) : Hpack :=
  let avail := ngxHttpV2TableSize - h.pos
  let name : StoredStr := ⟨header.name.length, h.pos⟩
  let (storage, pos) := Ring.writeAvail avail h.storage h.pos header.name
  let avail := if header.name.length ≤ avail then avail else ngxHttpV2TableSize
  let avail := avail - header.name.length
  let value : StoredStr := ⟨header.value.length, pos⟩
  let (storage, pos) := Ring.writeAvail avail storage pos header.value
  { h with
    storage := storage
    pos := pos
    heap := fun p => if p = entry then ⟨name, value⟩ else h.heap p }

/-- When the pointer ring is full of live entries, move them to a larger one,
the oldest first, and rebase the counters. -/
def Hpack.growEntries (junk : Junk) (h : Hpack) : Option Hpack := do
  if h.allocated ≠ subWord h.added h.deleted then
    return h
  let entries ← h.entries
  let index := h.deleted % h.allocated
  let grown := memcpy junk.pointers 0 (load entries index (h.allocated - index))
  let grown := memcpy grown (h.allocated - index) (load entries 0 index)
  return { h with
    entries := some grown
    added := h.allocated
    deleted := 0
    reused := 0
    allocated := h.allocated + 64 }

/-- `entries[added++ % allocated] = entry` -/
def Hpack.linkEntry (h : Hpack) (entry : Nat) : Option Hpack := do
  let entries ← h.entries
  return { h with
    entries := some fun i => if i = h.added % h.allocated then entry else entries i
    added := addWord h.added 1 }

/-- `ngx_http_v2_add_header`, every allocation succeeding. -/
def addHeader (junk : Junk) (h : Hpack) (header : Header) : Option (Rc × Hpack) := do
  let h := if h.entries.isNone then h.setUp junk else h
  let (rc, h) ← tableAccount h (header.name.length + header.value.length)
  if rc ≠ .ok then
    return (.ok, h)
  let (entry, h) ← h.takeEntry
  let h := h.copyHeader entry header
  let h ← h.growEntries junk
  let h ← h.linkEntry entry
  return (.ok, h)

/-! ### Lookup -/

/-- The two-part copy out of the byte ring. -/
def Hpack.readStored (h : Hpack) (s : StoredStr) : Bytes :=
  Ring.read ngxHttpV2TableSize h.storage s.data s.len

/-- `ngx_http_v2_get_indexed_header`.  `header` is `h2c->state.header`, which a
lookup by name only changes in its name. -/
def getIndexedHeader (h : Hpack) (header : Header) (index : Nat) (nameOnly : Bool) :
    Option (Rc × Header) := do
  if index = 0 then
    return (.error, header)
  let index := index - 1
  match staticTable[index]? with
  | some entry => return (.ok, entry)
  | none =>
    let index := index - staticTableEntries
    if index < subWord h.added h.deleted then
      let entries ← h.entries
      let slot := subWord (subWord h.added index) 1 % h.allocated
      let entry := h.heap (entries slot)
      let header := { header with name := h.readStored entry.name }
      if nameOnly then
        return (.ok, header)
      return (.ok, { header with value := h.readStored entry.value })
    return (.error, header)

/-! ## Runs -/

/-- The calls that change a connection's dynamic table. -/
inductive TableOp where
  /-- `ngx_http_v2_add_header` -/
  | addHeader (header : Header)
  /-- `ngx_http_v2_table_size` -/
  | tableSize (size : Nat)
  deriving DecidableEq

/-- One call, its return code dropped. -/
def TableOp.apply (junk : Junk) (h : Hpack) : TableOp → Option Hpack
  | .addHeader header => (V2.addHeader junk h header).map (·.2)
  | .tableSize size => (V2.tableSize h size).map (·.2)

/-- A sequence of calls. -/
def runTable (junk : Junk) : Hpack → List TableOp → Option Hpack
  | h, [] => some h
  | h, op :: ops => (op.apply junk h).bind fun h => runTable junk h ops

theorem runTable_append (junk : Junk) (h : Hpack) (ops₁ ops₂ : List TableOp) :
    runTable junk h (ops₁ ++ ops₂) =
      (runTable junk h ops₁).bind fun h => runTable junk h ops₂ := by
  induction ops₁ generalizing h with
  | nil => rfl
  | cons op ops ih =>
    simp only [List.cons_append, runTable]
    cases op.apply junk h with
    | none => rfl
    | some h' => exact ih h'

end Nginx.Http.V2
