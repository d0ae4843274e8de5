/-
  Core/OpenFileCache.lean --- the open file cache
  (`src/core/ngx_open_file_cache.c`), as built without vnode events.

  A cached file is a structure on the heap; its number is its address, and one
  that was freed is never an address again.  Looking into a freed structure, or
  taking one out of a tree or a queue that it is not in, has no result.  The
  tree is the list of its nodes: what matters of the order is that the lookup
  finds a node of the name.  A name stands for the string and its hash.

  What the system answers to `stat`, `open` and `fstat`, whether a close is
  reported to have failed (which is only logged), and what there is memory for
  is up to the system.
-/
import Nginx.Core.Base
import Nginx.Foundation.Handles

set_option autoImplicit false

namespace Nginx.Core.OpenFileCache

open Foundation

/-- What `ngx_file_info_t` says of a file. -/
structure FileInfo where
  uniq : Nat
  mtime : Nat
  size : Nat
  isDir : Bool
  isFile : Bool
  isLink : Bool
  isExec : Bool
  deriving DecidableEq

/-- `ngx_open_file_info_t`: the options and the result of a call. -/
structure OpenFileInfo where
  /-- `NGX_INVALID_FILE` is `none` -/
  fd : Option Nat
  info : FileInfo
  directio : Nat
  err : Nat
  valid : Int
  minUses : Nat
  /-- `disable_symlinks` and `disable_symlinks_from` -/
  disableSymlinks : Nat × Nat
  testDir : Bool
  errors : Bool
  isDirectio : Bool
  deriving DecidableEq

/-- `ngx_cached_open_file_t` -/
structure CachedFile (Name : Type) where
  name : Name
  created : Int
  accessed : Int
  fd : Option Nat
  info : FileInfo
  err : Nat
  uses : Nat
  disableSymlinks : Nat × Nat
  count : Nat
  close : Bool
  isDirectio : Bool
  deriving DecidableEq

/-- `unsigned count:24` -/
def countBound : Nat := 2 ^ 24

/-- `uint32_t uses` -/
def usesBound : Nat := 2 ^ 32

/-- `ngx_open_file_cache_t`, with the heap and the descriptors. -/
structure Cache (Name : Type) where
  /-- the structures allocated, `none` where freed -/
  files : List (Option (CachedFile Name))
  /-- the structures freed, with the count that each had -/
  freed : List (Nat × Nat)
  handles : Handles
  tree : List Nat
  expireQueue : List Nat
  current : Nat
  max : Nat
  inactive : Int
  deriving DecidableEq

variable {Name : Type}

namespace Cache

/-- `*file` -/
def get (c : Cache Name) (file : Nat) : Option (CachedFile Name) := c.files[file]?.join

def set (c : Cache Name) (file : Nat) (f : CachedFile Name) : Cache Name :=
  { c with files := c.files.set file (some f) }

/-- `ngx_close_file` -/
def closeFile (c : Cache Name) (fd : Nat) : Cache Name := { c with handles := c.handles.close fd }

/-- `ngx_free(file->name)` and `ngx_free(file)` -/
def free (c : Cache Name) (file : Nat) : Option (Cache Name) := do
  let f ← c.get file
  return { c with files := c.files.set file none, freed := (file, f.count) :: c.freed }

/-- `ngx_queue_remove` -/
def queueRemove (c : Cache Name) (file : Nat) : Option (Cache Name) :=
  if file ∈ c.expireQueue then some { c with expireQueue := c.expireQueue.erase file } else none

/-- `ngx_queue_insert_head` -/
def queueInsertHead (c : Cache Name) (file : Nat) : Cache Name :=
  { c with expireQueue := file :: c.expireQueue }

/-- `ngx_rbtree_delete`, and `cache->current--` that goes with it everywhere -/
def treeDelete (c : Cache Name) (file : Nat) : Option (Cache Name) :=
  if file ∈ c.tree then some
    { c with tree := c.tree.erase file, current := c.current - 1 } else none

/-- `ngx_rbtree_insert`, and `cache->current++` -/
def treeInsert (c : Cache Name) (file : Nat) : Cache Name :=
  { c with tree := file :: c.tree, current := c.current + 1 }

end Cache

/-! ## Closing and expiring -/

/-- `ngx_close_cached_file` -/
def closeCachedFile (file minUses : Nat) (now : Int) (c : Cache Name) : Option (Cache Name) := do
  let f ← c.get file
  if f.close = false then
    let c := c.set file { f with accessed := now }
    let c := (← c.queueRemove file).queueInsertHead file
    if f.uses ≥ minUses ∨ f.count ≠ 0 then return c
    match f.fd with
    | none => return c
    | some fd => return (c.closeFile fd).set file { f with accessed := now, fd := none }
  else
    if f.count ≠ 0 then return c
    match f.fd with
    | none => c.free file
    | some fd => ((c.closeFile fd).set file { f with fd := none }).free file

/-- The body of `while (n < 3)` for the file at the end of the queue. -/
def dropFile (file : Nat) (now : Int) (c : Cache Name) : Option (Cache Name) := do
  let c ← c.queueRemove file
  let c ← c.treeDelete file
  let f ← c.get file
  if f.err = 0 ∧ f.info.isDir = false then
    closeCachedFile file 0 now (c.set file { f with close := true })
  else
    c.free file

/-- The loop of `ngx_expire_old_cached_files`, with so many turns left. -/
def expireLoop (now : Int) : Nat → Nat → Cache Name → Option (Cache Name)
  | 0, _, c => some c
  | turns + 1, n, c =>
      match c.expireQueue.getLast? with
      | none => some c
      | some file => do
          let f ← c.get file
          if n ≠ 0 ∧ now - f.accessed ≤ c.inactive then return c
          let c ← dropFile file now c
          expireLoop now turns (n + 1) c

/-- `ngx_expire_old_cached_files` -/
def expireOldCachedFiles (n : Nat) (now : Int) (c : Cache Name) : Option (Cache Name) :=
  expireLoop now (3 - n) n c

/-- `ngx_open_file_cleanup` -/
def openFileCleanup (file minUses : Nat) (now : Int) (c : Cache Name) : Option (Cache Name) := do
  let f ← c.get file
  let c := c.set file { f with count := (f.count + (countBound - 1)) % countBound }
  let c ← closeCachedFile file minUses now c
  expireOldCachedFiles 1 now c

/-- The loop of `ngx_open_file_cache_cleanup`, with so many turns left. -/
def cacheCleanupLoop (now : Int) : Nat → Cache Name → Option (Cache Name)
  | 0, c => some c
  | turns + 1, c =>
      match c.expireQueue.getLast? with
      | none => some c
      | some file => do
          let c ← c.queueRemove file
          let c ← c.treeDelete file
          let f ← c.get file
          let c ←
            if f.err = 0 ∧ f.info.isDir = false then
              closeCachedFile file 0 now (c.set file { f with close := true, count := 0 })
            else
              c.free file
          cacheCleanupLoop now turns c

/-- `ngx_open_file_cache_cleanup`: each turn takes a file from the queue. -/
def openFileCacheCleanup (now : Int) (c : Cache Name) : Option (Cache Name) :=
  cacheCleanupLoop now c.expireQueue.length c

/-! ## Opening -/

/-- What the system answers in `ngx_open_and_stat_file`: an error is an
`ngx_errno`, and the one of `fstat` is not kept. -/
structure Answers where
  /-- `ngx_file_info_wrapper` -/
  stat : Except Nat FileInfo
  /-- `ngx_open_file_wrapper` -/
  opens : Except Nat Unit
  /-- `ngx_fd_info` -/
  fdInfo : Option FileInfo
  /-- `ngx_directio_on` -/
  directioOn : Bool

/-- `ngx_open_and_stat_file`, from the open on. -/
def openFile (of : OpenFileInfo) (answers : Answers) (c : Cache Name) :
    Rc × OpenFileInfo × Cache Name :=
  match answers.opens with
  | .error err => (.error, { of with fd := none, err := err }, c)
  | .ok _ =>
      let fd := c.handles.opened
      let c := { c with handles := c.handles.openNew }
      match answers.fdInfo with
      | none => (.error, { of with fd := none }, c.closeFile fd)
      | some fi =>
          if fi.isDir then (.ok, { of with fd := none, info := fi }, c.closeFile fd)
          else
            (.ok, { of with
              fd := some fd
              isDirectio := of.isDirectio || (decide (of.directio ≤ fi.size) && answers.directioOn)
              info := fi }, c)

/-- `ngx_open_and_stat_file` -/
def openAndStatFile (of : OpenFileInfo) (answers : Answers) (c : Cache Name) :
    Rc × OpenFileInfo × Cache Name :=
  match of.fd with
  | some _ =>
      match answers.stat with
      | .error err => (.error, { of with fd := none, err := err }, c)
      | .ok fi =>
        if of.info.uniq = fi.uniq then (.ok, { of with info := fi }, c) else openFile of answers c
  | none =>
      if of.testDir then
        match answers.stat with
        | .error err => (.error, { of with fd := none, err := err }, c)
        | .ok fi => if fi.isDir then (.ok, { of with info := fi }, c) else openFile of answers c
      else openFile of answers c

/-- `ngx_open_file_lookup` -/
def lookup [DecidableEq Name] (c : Cache Name) (name : Name) : Option Nat :=
  c.tree.find? fun file => ((c.get file).map CachedFile.name) = some name

/-- A pool cleanup with the handler `ngx_open_file_cleanup`, and the descriptor
that the caller was given. -/
structure Lease where
  file : Nat
  fd : Option Nat
  minUses : Nat
  deriving DecidableEq

/-- What a call returns, and the handler it leaves in its pool cleanup. -/
structure Opened (Name : Type) where
  rc : Rc
  of : OpenFileInfo
  lease : Option Lease
  cache : Cache Name

/-- From the label `found`, with the file out of the queue. -/
def found (file : Nat) (of : OpenFileInfo) (now : Int) (c : Cache Name) : Option (Opened Name) := do
  let f ← c.get file
  let c := (c.set file { f with accessed := now }).queueInsertHead file
  if of.err = 0 then
    return ⟨.ok, of, if of.info.isDir then none else some ⟨file, of.fd, of.minUses⟩, c⟩
  else
    return ⟨.error, of, none, c⟩

/-- What is stored under the label `update`. -/
def CachedFile.updated (f : CachedFile Name) (of : OpenFileInfo) (now : Int) : CachedFile Name :=
  let f :=
    { f with fd := of.fd, err := of.err, disableSymlinks := of.disableSymlinks, created := now }
  if of.err = 0 then
    { f with
      info := of.info
      isDirectio := of.isDirectio
      close := false
      count := if of.info.isDir then f.count else (f.count + 1) % countBound }
  else f

/-- From the labels `add_event` and `update`; without vnode events the first of
them adds nothing. -/
def update (file : Nat) (of : OpenFileInfo) (now : Int) (c : Cache Name) :
    Option (Opened Name) := do
  let f ← c.get file
  found file of now (c.set file (f.updated of now))

/-- From the label `failed`, with the file if it was found. -/
def failed (file : Option Nat) (of : OpenFileInfo) (c : Cache Name) : Option (Opened Name) := do
  let c ← match file with
    | none => some c
    | some file => do
        let c ← c.treeDelete file
        let f ← c.get file
        if f.count = 0 then
          match f.fd with
          | none => c.free file
          | some fd => (c.closeFile fd).free file
        else
          some (c.set file { f with close := true })
  let c := match of.fd with
    | none => c
    | some fd => c.closeFile fd
  return ⟨.error, of, none, c⟩

/-- What there is memory for in a call: what the structure holds before it is
written, which `ngx_alloc` does not clear. -/
structure Memory (Name : Type) where
  cleanup : Bool
  file : Option (CachedFile Name)
  name : Bool

/-- A structure is allocated and inserted, and goes on to `add_event`. -/
def insertFile (name : Name) (of : OpenFileInfo) (now : Int) (memory : Memory Name)
    (c : Cache Name) :
    Option (Opened Name) :=
  match memory.file with
  | none => failed none of c
  | some raw =>
      if memory.name = false then failed none of c
      else
        let file := c.files.length
        let f := { raw with name := name, uses := 1, count := 0 }
        update file of now ({ c with files := c.files ++ [some f] }.treeInsert file)

/-- From the label `create`. -/
def create (name : Name) (of : OpenFileInfo) (now : Int) (memory : Memory Name) (c : Cache Name) :
    Option (Opened Name) :=
  if c.current ≥ c.max then (expireOldCachedFiles 0 now c).bind (insertFile name of now memory)
  else insertFile name of now memory c

/-- What is cached is not looked at again: `file->use_event` and `file->event`
are never set. -/
def CachedFile.fresh (f : CachedFile Name) (of : OpenFileInfo) (now : Int) : Bool :=
  (of.info.uniq = 0 ∨ of.info.uniq = f.info.uniq) ∧ now - f.created < of.valid ∧
    of.disableSymlinks = f.disableSymlinks

/-- What a call is given of a file that is not looked at again. -/
def CachedFile.give (f : CachedFile Name) (of : OpenFileInfo) : OpenFileInfo :=
  if f.err = 0 then { of with fd := f.fd, info := f.info, isDirectio := f.isDirectio }
  else { of with err := f.err }

/-- What becomes of the file `f` once it has been looked at again. -/
def retested (file : Nat) (f : CachedFile Name) (name : Name) (rc : Rc)
    (of : OpenFileInfo) (now : Int)
    (memory : Memory Name) (c : Cache Name) : Option (Opened Name) :=
  if rc ≠ .ok ∧ (of.err = 0 ∨ of.errors = false) then failed (some file) of c
  else if f.info.isDir = true ∨ f.err ≠ 0 then update file of now c
  else if of.info.isDir = false ∧ of.err = 0 ∧ of.info.uniq = f.info.uniq then
    update file { of with isDirectio := f.isDirectio } now c
  else if f.count = 0 then
    match f.fd with
    | none => update file of now c
    | some fd => update file of now (c.closeFile fd)
  else do
    -- the file was changed while in use
    let c ← c.treeDelete file
    create name of now memory (c.set file { f with close := true })

/-- The retest of a file. -/
def retest (file : Nat) (f : CachedFile Name) (name : Name) (of : OpenFileInfo)
    (now : Int) (answers : Answers)
    (memory : Memory Name) (c : Cache Name) : Option (Opened Name) :=
  let of := { of with
    testDir := of.testDir || f.info.isDir
    fd := f.fd
    info := { of.info with uniq := f.info.uniq } }
  let (rc, of, c) := openAndStatFile of answers c
  retested file f name rc of now memory c

/-- `ngx_open_cached_file`, with a cache. -/
def openCachedFile [DecidableEq Name] (name : Name) (of : OpenFileInfo)
    (now : Int) (answers : Answers)
    (memory : Memory Name) (c : Cache Name) : Option (Opened Name) :=
  let of := { of with fd := none, err := 0 }
  if memory.cleanup = false then some ⟨.error, of, none, c⟩
  else
    match lookup c name with
    | some file => do
        let f ← c.get file
        let f := { f with uses := (f.uses + 1) % usesBound }
        let c ← (c.set file f).queueRemove file
        if f.fd = none ∧ f.err = 0 ∧ f.info.isDir = false then
          -- not used often enough to be kept open
          let (rc, of, c) := openAndStatFile of answers c
          if rc ≠ .ok ∧ (of.err = 0 ∨ of.errors = false) then failed (some file) of c
          else update file of now c
        else if f.fresh of now then
          let c := if f.err = 0 ∧ f.info.isDir = false then
            c.set file { f with count := (f.count + 1) % countBound } else c
          found file (f.give of) now c
        else retest file f name of now answers memory c
    | none =>
        let (rc, of, c) := openAndStatFile of answers c
        if rc ≠ .ok ∧ (of.err = 0 ∨ of.errors = false) then failed none of c
        else create name of now memory c

/-! ## Runs -/

/-- The cache, and the pool cleanups that have not run yet. -/
structure State (Name : Type) where
  cache : Cache Name
  leases : List Lease

/-- What can happen between the start and the end of the cache. -/
inductive Event (Name : Type) where
  | openCached (name : Name) (of : OpenFileInfo) (now : Int) (answers : Answers)
    (memory : Memory Name)
  /-- the pool with this cleanup is destroyed -/
  | cleanup (lease : Lease) (now : Int)
  | expire (n : Nat) (now : Int)

/-- One event; a pool cleanup runs only if it is there. -/
def step [DecidableEq Name] (s : State Name) : Event Name → Option (State Name)
  | .openCached name of now answers memory => do
      let opened ← openCachedFile name of now answers memory s.cache
      return ⟨opened.cache, opened.lease.toList ++ s.leases⟩
  | .cleanup lease now =>
      if lease ∈ s.leases then do
        let c ← openFileCleanup lease.file lease.minUses now s.cache
        return ⟨c, s.leases.erase lease⟩
      else some s
  | .expire n now => do
      let c ← expireOldCachedFiles n now s.cache
      return ⟨c, s.leases⟩

/-- `ngx_open_file_cache_init` -/
def init (max : Nat) (inactive : Int) : State Name :=
  ⟨⟨[], [], ⟨0, []⟩, [], [], 0, max, inactive⟩, []⟩

end Nginx.Core.OpenFileCache
