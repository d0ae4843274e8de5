/-
  Http/Location/Tree.lean --- static locations: the queue of a server is sorted, joined and
  nested (`src/http/ngx_http.c`), and searched as a tree for each URI
  (`src/http/ngx_http_core_module.c`).

  The file system is one that tells lower from upper case.  Locations are those with a
  static name; the regular expressions, the named and the unnamed ones stand behind them in
  the queue and are split off.
-/
import Nginx.Foundation.InsertionSort
import Nginx.Foundation.Memory

set_option autoImplicit false

namespace Nginx.Http.Location

open Foundation List

/-! ## Locations -/

/-- `ngx_http_core_loc_conf_t`. The modules set `auto_redirect` where the name ends in a slash. -/
structure LocConf where
  name : Bytes
  exactMatch : Bool
  autoRedirect : Bool
  noNul : name.all (· ≠ 0)
  slashAtEnd : autoRedirect = true → name.getLast? = some (chr '/')

/-- `ngx_http_location_queue_t` -/
structure LocationQueue where
  exact : Option LocConf
  inclusive : Option LocConf
  name : Bytes
  list : List LocationQueue

/-- `ngx_http_add_location` -/
def addLocation (clcf : LocConf) : LocationQueue :=
  if clcf.exactMatch then ⟨some clcf, none, clcf.name, []⟩ else ⟨none, some clcf, clcf.name, []⟩

/-- `'/'` is the lowest character. -/
def slashFirst (c : Byte) : Nat := if c = chr '/' then 0 else c.toNat

/-- `ngx_filename_cmp`; behind its end a string has a NUL. -/
def filenameCmp : Nat → Bytes → Bytes → Int
  | 0, _, _ => 0
  | n + 1, s1, s2 =>
    let c1 := s1.headD 0
    let c2 := s2.headD 0
    if c1 = c2 then
      if c1 ≠ 0 then filenameCmp n s1.tail s2.tail else 0
    else if c1 = 0 ∨ c2 = 0 then (c1.toNat : Int) - c2.toNat
    else (slashFirst c1 : Int) - slashFirst c2

/-! ## The queue -/

/-- `ngx_http_cmp_locations` -/
def cmpLocations (one two : LocationQueue) : Int :=
  let rc := filenameCmp (min one.name.length two.name.length + 1) one.name two.name
  if rc = 0 ∧ one.exact.isNone ∧ two.exact.isSome then 1 else rc

/-- `ngx_http_join_exact_locations`; `none` is a duplicate location. -/
def joinExactLocations : List LocationQueue → Option (List LocationQueue)
  | [] => some []
  | [lq] => some [lq]
  | lq :: lx :: rest =>
    if lq.name.length = lx.name.length ∧ filenameCmp lx.name.length lq.name lx.name = 0 then
      if (lq.exact.isSome ∧ lx.exact.isSome) ∨ (lq.inclusive.isSome ∧ lx.inclusive.isSome) then none
      else joinExactLocations ({ lq with inclusive := lx.inclusive } :: rest)
    else (joinExactLocations (lx :: rest)).map (lq :: ·)
termination_by queue => queue.length

/-- The location is inside `lq`. -/
def inside (lq lx : LocationQueue) : Bool :=
  lq.name.length ≤ lx.name.length && filenameCmp lq.name.length lq.name lx.name = 0

/-- `ngx_http_create_locations_list`, from an element on. -/
def createLocationsList : List LocationQueue → List LocationQueue
  | [] => []
  | [lq] => [lq]
  | lq :: lx :: rest =>
    if lq.inclusive.isNone then lq :: createLocationsList (lx :: rest)
    else if ¬inside lq lx then lq :: createLocationsList (lx :: rest)
    else
      { lq with list := createLocationsList (lx :: rest.takeWhile (inside lq)) } ::
        createLocationsList (rest.dropWhile (inside lq))
termination_by queue => queue.length
decreasing_by
  all_goals simp_wf
  · have := (List.takeWhile_prefix (l := rest) (inside lq)).length_le
    omega
  · have := (dropWhile_suffix (l := rest) (inside lq)).length_le
    omega

/-! ## The tree -/

/-- `ngx_http_location_tree_node_t`; the length is kept in a byte. -/
inductive LocationTree where
  | null
  | node (exact inclusive : Option LocConf) (autoRedirect : Bool) (len : Nat) (name : Bytes)
      (left right tree : LocationTree)

theorem sizeOf_queue_pos (lq : LocationQueue) : 0 < sizeOf lq := by
  obtain ⟨exact, inclusive, name, list⟩ := lq
  simp only [LocationQueue.mk.sizeOf_spec]
  omega

variable {locations : List LocationQueue}

theorem sizeOf_take_lt {k : Nat} (hk : k < locations.length) :
    sizeOf (locations.take k) < sizeOf locations := by
  induction locations generalizing k with
  | nil => simp at hk
  | cons lq locations ih =>
    have := sizeOf_queue_pos lq
    cases k with
    | zero => simp only [take_zero, List.nil.sizeOf_spec, List.cons.sizeOf_spec]; omega
    | succ k =>
      have := ih (by simpa using hk : k < locations.length)
      simp only [take_succ_cons, List.cons.sizeOf_spec]
      omega

theorem sizeOf_drop_lt {k : Nat} (hk : k < locations.length) :
    sizeOf (locations.drop (k + 1)) < sizeOf locations := by
  induction locations generalizing k with
  | nil => simp at hk
  | cons lq locations ih =>
    cases k with
    | zero => simp only [zero_add, drop_succ_cons, drop_zero, List.cons.sizeOf_spec]; omega
    | succ k =>
      have := ih (by simpa using hk : k < locations.length)
      simp only [drop_succ_cons, List.cons.sizeOf_spec] at this ⊢
      omega

theorem sizeOf_list_lt {lq : LocationQueue} (h : lq ∈ locations) :
    sizeOf lq.list < sizeOf locations := by
  have := sizeOf_lt_of_mem h
  obtain ⟨exact, inclusive, name, list⟩ := lq
  simp only [LocationQueue.mk.sizeOf_spec] at this ⊢
  omega

/-- `ngx_http_create_locations_tree`, with the middle that `ngx_queue_middle` finds. -/
def createLocationsTree (locations : List LocationQueue) (pre : Nat) : LocationTree :=
  match _middle : locations[locations.length / 2]? with
  | none => .null
  | some lq =>
    let len := lq.name.length - pre
    .node lq.exact lq.inclusive
      (lq.exact.any LocConf.autoRedirect || lq.inclusive.any LocConf.autoRedirect)
      (len % 256) (lq.name.drop pre)
      (createLocationsTree (locations.take (locations.length / 2)) pre)
      (createLocationsTree (locations.drop (locations.length / 2 + 1)) pre)
      (createLocationsTree lq.list (pre + len))
termination_by sizeOf locations
decreasing_by
  · exact sizeOf_take_lt (List.getElem?_eq_some_iff.mp ‹_›).1
  · exact sizeOf_drop_lt (List.getElem?_eq_some_iff.mp ‹_›).1
  · exact sizeOf_list_lt (mem_of_getElem? ‹_›)

/-- `ngx_queue_sort` in `ngx_http_init_locations`, and `ngx_http_init_static_location_trees`. -/
def initStaticLocationTrees (locations : List LocConf) : Option LocationTree :=
  (joinExactLocations (queueSort cmpLocations (locations.map addLocation))).map fun queue =>
    createLocationsTree (createLocationsList queue) 0

/-! ## The search -/

/-- `rv` with the location that is set: `NGX_OK` is an exact match, `NGX_DONE` an automatic
redirect, `NGX_AGAIN` an inclusive match and `NGX_DECLINED` none. -/
inductive LocationMatch where
  | declined
  | ok (clcf : LocConf)
  | again (clcf : LocConf)
  | done (clcf : LocConf)

/-- `ngx_http_core_find_static_location` from a node on. -/
def findStaticLocation : LocationTree → Bytes → LocationMatch → LocationMatch
  | .null, _, rv => rv
  | .node exact inclusive autoRedirect len name left right tree, uri, rv =>
    let n := if uri.length ≤ len then uri.length else len
    let rc := filenameCmp n uri name
    if rc < 0 then findStaticLocation left uri rv
    else if 0 < rc then findStaticLocation right uri rv
    else if len < uri.length then
      match inclusive with
      | some clcf => findStaticLocation tree (uri.drop n) (.again clcf)
      -- exact only
      | none => findStaticLocation right uri rv
    else if uri.length = len then
      match exact with
      | some clcf => .ok clcf
      | none => inclusive.elim rv .again
    else findStaticLocation left uri
      (if uri.length + 1 = len ∧ autoRedirect then (exact.or inclusive).elim rv .done else rv)

end Nginx.Http.Location
