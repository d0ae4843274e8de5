/-
  Http/Sub/Filter.lean --- the filter that replaces strings in a response
  (`src/http/modules/ngx_http_sub_filter_module.c`), with `sub_filter_once off`, and
  what its tables say.

  What a buffer has not been read of, from `ctx->pos` to `buf->last`, is a list of
  bytes; an offset below 0 is one into `ctx->looked`, from its end.  What the filter
  passes on is the bytes of its buffers one after the other.

  The matches are sorted by the byte at which the shortest pattern ends.  An entry of
  `index` is the first match with such a byte or a greater one; an entry of `shift` is a
  number of places at which no pattern can begin.
-/
import Nginx.Core.Hash
import Nginx.Foundation.Keyed
import Nginx.Foundation.Substitution

set_option autoImplicit false

namespace Nginx.Http.Sub

open List Foundation
open Nginx.Core (tolower)

/-- `ngx_http_sub_match_t` -/
abbrev SubMatch : Type := Rule Byte

/-! ## Tables -/

/-- `ngx_http_sub_tables_t` -/
structure SubTables where
  minMatchLen : Nat
  maxMatchLen : Nat
  index : List Nat
  shift : Byte → Nat

/-- The byte that `ngx_http_sub_cmp_matches` compares. -/
def cmpByte (cmpIndex : Nat) (m : SubMatch) : Nat := (m.pattern.getD cmpIndex 0).toNat

/-- `tables->index[ch++] = (u_char) i` for the matches from the `i`th on, and then to the end of
the table. -/
def fillIndex (cmpIndex : Nat) : Nat → List SubMatch → List Nat → List Nat
  | i, [], index => index ++ List.replicate (257 - index.length) (i % 256)
  | i, m :: subs, index =>
    fillIndex cmpIndex (i + 1) subs
      (index ++ List.replicate (cmpByte cmpIndex m + 1 - index.length) (i % 256))

/-- `tables->shift[c] = ngx_min(tables->shift[c], (u_char) j)` for the `j`th byte before the one
that is compared. -/
def lowerShift (cmpIndex : Nat) (m : SubMatch) (shift : Byte → Nat) (j : Nat) : Byte → Nat :=
  let c := m.pattern.getD (cmpIndex - j) 0
  Function.update shift c (min (shift c) (j % 256))

/-- `ngx_http_sub_init_tables`, and the matches as it sorts them. -/
def initTables : List SubMatch → SubTables × List SubMatch
  | [] => (⟨0, 0, [], fun _ => 0⟩, [])
  | m :: rest =>
    let minLen := rest.foldl (fun n x => min n x.pattern.length) m.pattern.length
    let maxLen := rest.foldl (fun n x => max n x.pattern.length) m.pattern.length
    let subs := sortByKey (cmpByte (minLen - 1)) (m :: rest)
    let shifts := min minLen 255
    (⟨minLen, maxLen, fillIndex (minLen - 1) 0 subs [],
      subs.foldl (fun shift x =>
        (List.range shifts).foldl (lowerShift (minLen - 1) x) shift) fun _ => shifts⟩,
      subs)

/-! ## Matching -/

/-- `ngx_http_sub_match` at `start`: `none` is `NGX_DECLINED`, `some []` is `NGX_OK`, and otherwise
there is a part of the pattern left. -/
def subMatch (looked rest : Bytes) (start : Int) (m : SubMatch) : Option Bytes :=
  if start ≥ 0 then compareText tolower (rest.drop start.toNat) m.pattern
  else
    match compareText tolower (looked.drop (looked.length + start).toNat) m.pattern with
    | none => none
    | some pattern => compareText tolower rest pattern

/-- The matches from the `i`th to the `j`th, of which `count` are left, up to one that is not
declined. -/
def tryMatches (test : SubMatch → Option Bytes) (subs : List SubMatch) :
    Nat → Nat → Option (Nat × SubMatch × Bytes)
  | 0, _ => none
  | count + 1, i =>
    match subs[i]? with
    | none => none
    | some m =>
      match test m with
      | none => tryMatches test subs count (i + 1)
      | some left => some (i, m, left)

/-- How the loop of `ngx_http_sub_parse` ends. -/
inductive ScanEnd where
  /-- `offset < end` is no longer true -/
  | past (offset : Int) (index : Nat)
  /-- a match is not complete -/
  | cut (offset : Int) (index : Nat)
  /-- the `index`th match -/
  | found (offset : Int) (index : Nat) (m : SubMatch)
  deriving DecidableEq

/-- The byte at an offset. -/
def byteAt (looked rest : Bytes) (offset : Int) : Byte :=
  if offset < 0 then looked.getD (looked.length + offset).toNat 0 else rest.getD offset.toNat 0

/-- The loop of `ngx_http_sub_parse`; the offset grows in each turn, of which so many are made at
the most. -/
def scanLoop (tables : SubTables) (subs : List SubMatch) (looked rest : Bytes) :
    Nat → Int → Nat → ScanEnd
  | 0, offset, index => .past offset index
  | turns + 1, offset, index =>
    if offset < rest.length then
      let c := tolower (byteAt looked rest offset)
      if tables.shift c > 0 then scanLoop tables subs looked rest turns
        (offset + tables.shift c) index
      else
        let start := offset - tables.minMatchLen + 1
        let i := max (tables.index.getD c.toNat 0) index
        let j := tables.index.getD (c.toNat + 1) 0
        match tryMatches (subMatch looked rest start) subs (j - i) i with
        | some (i, m, []) => .found offset i m
        | some (i, _, _ :: _) => .cut offset i
        | none => scanLoop tables subs looked rest turns (offset + 1) 0
    else .past offset index

/-- The loop of `ngx_http_sub_parse` when the buffer is to be flushed. -/
def flushLoop (tables : SubTables) (subs : List SubMatch) (looked rest : Bytes) : Nat → Int → Int
  | 0, offset => offset
  | turns + 1, offset =>
    let start := offset - tables.minMatchLen + 1
    if start ≥ rest.length then offset
    else if subs.any fun m =>
      subMatch looked rest start m ≠ none ∧ subMatch looked rest start m ≠ some [] then offset
    else flushLoop tables subs looked rest turns (offset + 1)

/-! ## Parsing -/

/-- What `ngx_http_sub_ctx_t` has from one call to another. -/
structure SubCtx where
  looked : Bytes
  offset : Int
  index : Nat
  deriving DecidableEq

/-- `ngx_http_sub_parse` with what is in `ctx->saved`, what is between `ctx->copy_start` and
`ctx->copy_end`, and what is left of the buffer; `some m` is `NGX_OK`, and otherwise it is
`NGX_AGAIN`. -/
structure ParseResult where
  replaced : Option SubMatch
  saved : Bytes
  copy : Bytes
  ctx : SubCtx
  rest : Bytes
  deriving DecidableEq

/-- The end of `ngx_http_sub_parse`, from `done` on. -/
def parseDone (looked rest : Bytes) (replaced : Option SubMatch)
    (start next stop offset : Int) (index : Nat) :
    ParseResult :=
  { replaced := replaced
    saved := looked.take (looked.length + min start 0).toNat
    copy := rest.take (max start 0).toNat
    ctx :=
      { looked := looked.drop (looked.length + min next 0).toNat ++
          (rest.drop (max next 0).toNat).take (stop - max next 0).toNat
        offset := offset - stop
        index := index }
    rest := rest.drop stop.toNat }

/-- `ngx_http_sub_parse` -/
def parse (tables : SubTables) (subs : List SubMatch) (ctx : SubCtx) (rest : Bytes) (flush : Bool) :
    ParseResult :=
  let again (offset : Int) (index : Nat) :=
    let start := offset - tables.minMatchLen + 1
    parseDone ctx.looked rest none start start rest.length offset index
  match scanLoop tables subs ctx.looked rest (rest.length - ctx.offset).toNat ctx.offset ctx.index
    with
  | .found offset i m =>
    let start := offset - tables.minMatchLen + 1
    let next := start + m.pattern.length
    parseDone ctx.looked rest (some m) start next (max next 0) (offset + m.pattern.length) i
  | .cut offset i => again offset i
  | .past offset index =>
    if flush then
      let turns := (rest.length - (offset - tables.minMatchLen + 1)).toNat
      again (flushLoop tables subs ctx.looked rest turns offset) index
    else again offset index

/-! ## The filter -/

/-- A buffer in memory, with `flush` or `recycled`, and with `last_buf` or `last_in_chain`. -/
structure SubBuf where
  data : Bytes
  flush : Bool
  last : Bool
  deriving DecidableEq

/-- The filter between two buffers: its context, what it has passed on, and the largest of `looked`
and `saved` so far. -/
structure SubState where
  ctx : SubCtx
  out : Bytes
  most : Nat
  deriving DecidableEq

/-- The loop of `ngx_http_sub_body_filter` over a buffer: each turn takes something from the buffer
or from `looked`. -/
def bufferLoop (tables : SubTables) (subs : List SubMatch) (last : Bool) :
    Nat → SubState → Bytes → SubState
  | 0, s, _ => s
  | turns + 1, s, rest =>
    if rest = [] then s
    else
      let r := parse tables subs s.ctx rest last
      let most := max s.most (max r.saved.length r.ctx.looked.length)
      match r.replaced with
      | none => bufferLoop tables subs last turns ⟨r.ctx, s.out ++ r.saved ++ r.copy, most⟩ r.rest
      | some m =>
        let ctx := { r.ctx with index := 0 }
        bufferLoop tables subs last turns ⟨ctx, s.out ++ r.saved ++ r.copy ++ m.value, most⟩ r.rest

/-- A buffer of the chain. -/
def filterBuf (tables : SubTables) (subs : List SubMatch) (last : Bool)
    (s : SubState) (buf : SubBuf) : SubState :=
  let s := bufferLoop tables subs last (s.ctx.looked.length + buf.data.length + 1) s buf.data
  if s.ctx.looked ≠ [] ∧ buf.last then
    { s with ctx := { s.ctx with looked := [] }, out := s.out ++ s.ctx.looked }
  else s

/-- `ngx_http_sub_body_filter` for a chain: the last buffer is flushed if one of them asks for it.
-/
def filterChain (tables : SubTables) (subs : List SubMatch) :
    Bool → List SubBuf → SubState → SubState
  | _, [], s => s
  | flush, buf :: chain, s =>
    let flush := flush || buf.flush
    filterChain tables subs flush chain (filterBuf tables subs (chain.isEmpty && flush) s buf)

/-- `ngx_http_sub_header_filter` sets the context up. -/
def SubState.init (tables : SubTables) : SubState := ⟨⟨[], tables.minMatchLen - 1, 0⟩, [], 0⟩

/-- The filter is called for one chain after another. -/
def subFilter (pairs : List SubMatch) (calls : List (List SubBuf)) : SubState :=
  let (tables, subs) := initTables pairs
  calls.foldl (fun s chain => filterChain tables subs false chain s) (.init tables)

/-- What a scan relies on. -/
structure Tabled (pairs : List SubMatch) (tables : SubTables) (subs : List SubMatch) : Prop where
  min_pos : 0 < tables.minMatchLen
  min_le : ∀ m ∈ pairs, tables.minMatchLen ≤ m.pattern.length
  le_max : ∀ m ∈ pairs, m.pattern.length ≤ tables.maxMatchLen
  min_le_max : tables.minMatchLen ≤ tables.maxMatchLen
  mem : ∀ m, m ∈ subs ↔ m ∈ pairs
  /-- the matches of one byte are in the order in which they are configured -/
  find : ∀ (test : SubMatch → Bool) (c : Nat),
    (∀ m ∈ pairs, test m = true → cmpByte (tables.minMatchLen - 1) m = c) →
      subs.find? test = pairs.find? test
  index : ∀ c < 257, ∃ v, tables.index[c]? = some v ∧
    ∀ k m, subs[k]? = some m → (k < v ↔ cmpByte (tables.minMatchLen - 1) m < c)
  shift_le : ∀ c, tables.shift c ≤ tables.minMatchLen
  shift : ∀ c, ∀ j < tables.shift c, ∀ m ∈ pairs, m.pattern[tables.minMatchLen - 1 - j]? ≠ some c

/-! ## The lengths -/

theorem foldl_min_spec (n : Nat) (l : List SubMatch) :
    l.foldl (fun n x => min n x.pattern.length) n ≤ n ∧
      (∀ m ∈ l, l.foldl (fun n x => min n x.pattern.length) n ≤ m.pattern.length) ∧
      (0 < n → (∀ m ∈ l, m.pattern ≠ []) → 0 < l.foldl (fun n x => min n x.pattern.length) n) := by
  induction l generalizing n with
  | nil => exact ⟨le_refl n, fun m hm => absurd hm not_mem_nil, fun h _ => h⟩
  | cons x l ih =>
    obtain ⟨hle, hmem, hpos⟩ := ih (min n x.pattern.length)
    rw [foldl_cons]
    refine ⟨le_trans hle (min_le_left _ _), fun m hm => ?_, fun hn hne => ?_⟩
    · rcases mem_cons.mp hm with rfl | hm
      · exact le_trans hle (Nat.min_le_right _ _)
      · exact hmem m hm
    · have hx := length_pos_of_ne_nil (hne x mem_cons_self)
      exact hpos (by omega) fun m hm => hne m (mem_cons_of_mem _ hm)

theorem foldl_max_spec (n : Nat) (l : List SubMatch) :
    n ≤ l.foldl (fun n x => max n x.pattern.length) n ∧
      ∀ m ∈ l, m.pattern.length ≤ l.foldl (fun n x => max n x.pattern.length) n := by
  induction l generalizing n with
  | nil => exact ⟨le_refl n, fun m hm => absurd hm not_mem_nil⟩
  | cons x l ih =>
    obtain ⟨hle, hmem⟩ := ih (max n x.pattern.length)
    rw [foldl_cons]
    refine ⟨le_trans (le_max_left _ _) hle, fun m hm => ?_⟩
    rcases mem_cons.mp hm with rfl | hm
    · exact le_trans (le_max_right _ _) hle
    · exact hmem m hm

/-! ## The index -/

theorem exists_fillIndex_eq (cmpIndex i : Nat) (subs : List SubMatch) (index : List Nat) :
    ∃ more, fillIndex cmpIndex i subs index = index ++ more := by
  induction subs generalizing i index with
  | nil => exact ⟨_, rfl⟩
  | cons m subs ih =>
    obtain ⟨more, hmore⟩ :=
      ih (i + 1) (index ++ List.replicate (cmpByte cmpIndex m + 1 - index.length) (i % 256))
    unfold fillIndex
    rw [hmore, append_assoc]
    exact ⟨_, rfl⟩

theorem cmpByte_lt (cmpIndex : Nat) (m : SubMatch) : cmpByte cmpIndex m < 256 := UInt8.toNat_lt _

/-- The entries that are not filled yet count the matches with a byte that is less. -/
theorem fillIndex_spec {cmpIndex i : Nat} {subs : List SubMatch} {index : List Nat}
    (hsorted : subs.Pairwise fun a b => cmpByte cmpIndex a ≤ cmpByte cmpIndex b)
    (hi : i + subs.length < 256)
    {c : Nat} (hindex : index.length ≤ c) (hc : c < 257) :
    ∃ v, (fillIndex cmpIndex i subs index)[c]? = some v ∧ i ≤ v ∧
      ∀ k m, subs[k]? = some m → (i + k < v ↔ cmpByte cmpIndex m < c) := by
  induction subs generalizing i index with
  | nil =>
    refine ⟨i, ?_, le_refl i, fun k m hm => absurd hm (by simp)⟩
    unfold fillIndex
    rw [getElem?_append_right hindex, getElem?_replicate_of_lt (by omega),
      Nat.mod_eq_of_lt (by simpa using hi)]
  | cons x subs ih =>
    obtain ⟨hfirst, hsorted⟩ := pairwise_cons.mp hsorted
    rw [length_cons] at hi
    have hbyte := cmpByte_lt cmpIndex x
    unfold fillIndex
    by_cases hfilled : c < cmpByte cmpIndex x + 1
    · -- this entry is filled for the match
      obtain ⟨more, hmore⟩ := exists_fillIndex_eq cmpIndex (i + 1) subs
        (index ++ List.replicate (cmpByte cmpIndex x + 1 - index.length) (i % 256))
      refine ⟨i, ?_, le_refl i, fun k m hm => ?_⟩
      · rw [hmore, append_assoc, getElem?_append_right hindex,
          getElem?_append_left (by rw [length_replicate]; omega),
            getElem?_replicate_of_lt (by omega),
          Nat.mod_eq_of_lt (by omega)]
      have hle : cmpByte cmpIndex x ≤ cmpByte cmpIndex m := by
        cases k with
        | zero => exact le_of_eq (congrArg _ (Option.some.inj hm))
        | succ k => exact hfirst m (mem_of_getElem? hm)
      omega
    · have hlength :
        (index ++ List.replicate (cmpByte cmpIndex x + 1 - index.length) (i % 256)).length ≤ c := by
        rw [length_append, length_replicate]
        omega
      obtain ⟨v, hv, hle, hcount⟩ := ih hsorted (i := i + 1) (by omega) hlength
      refine ⟨v, hv, by omega, fun k m hm => ?_⟩
      cases k with
      | zero =>
        obtain rfl : x = m := Option.some.inj hm
        omega
      | succ k =>
        have hk := hcount k m hm
        omega

/-! ## The shifts -/

section lowered

variable {β : Type} {step : (Byte → Nat) → β → Byte → Nat}

theorem foldl_le (hle : ∀ f b c, step f b c ≤ f c) (l : List β) (f : Byte → Nat) (c : Byte) :
    l.foldl step f c ≤ f c := by
  induction l generalizing f with
  | nil => exact le_rfl
  | cons b l ih => exact le_trans (ih (step f b)) (hle f b c)

theorem foldl_le_of_mem (hle : ∀ f b c, step f b c ≤ f c) {l : List β}
    {b : β} (hb : b ∈ l) {c : Byte} {v : Nat}
    (hv : ∀ f, step f b c ≤ v) (f : Byte → Nat) : l.foldl step f c ≤ v := by
  induction l generalizing f with
  | nil => exact absurd hb not_mem_nil
  | cons x l ih =>
    rcases mem_cons.mp hb with rfl | hb
    · exact le_trans (foldl_le hle l (step f b) c) (hv f)
    · exact ih hb (step f x)

end lowered

theorem lowerShift_le (cmpIndex : Nat) (m : SubMatch) (f : Byte → Nat) (j : Nat) (c : Byte) :
    lowerShift cmpIndex m f j c ≤ f c := by
  simp only [lowerShift, Function.update_apply]
  split
  next h => exact h ▸ min_le_left _ _
  next => exact le_rfl

theorem lowerShift_self {cmpIndex j : Nat} {m : SubMatch} {c : Byte} (hj : j < 256)
    (hc : m.pattern.getD (cmpIndex - j) 0 = c) (f : Byte → Nat) :
    lowerShift cmpIndex m f j c ≤ j := by
  simp only [lowerShift, hc, Function.update_self]
  rw [Nat.mod_eq_of_lt hj]
  exact Nat.min_le_right _ _

theorem foldl_lowerShift_le_self (cmpIndex shifts : Nat) (subs : List SubMatch)
    (f : Byte → Nat) (c : Byte) :
    subs.foldl (fun shift x => (List.range shifts).foldl (lowerShift cmpIndex x) shift) f c ≤ f c :=
  foldl_le (fun f x c => foldl_le (lowerShift_le cmpIndex x) (List.range shifts) f c) subs f c

theorem foldl_lowerShift_le_of_mem {cmpIndex shifts j : Nat} {subs : List SubMatch}
    {m : SubMatch} (hm : m ∈ subs)
    (hj : j < shifts) (hshifts : shifts < 256) {c : Byte}
    (hc : m.pattern[cmpIndex - j]? = some c) (f : Byte → Nat) :
    subs.foldl (fun shift x => (List.range shifts).foldl (lowerShift cmpIndex x) shift) f c ≤
      j := by
  refine foldl_le_of_mem (fun f x c => foldl_le (lowerShift_le cmpIndex x) _ f c) hm (fun f => ?_) f
  refine foldl_le_of_mem (lowerShift_le cmpIndex m) (mem_range.mpr hj)
    (lowerShift_self (by omega) ?_) f
  rw [getD_eq_getElem?_getD, hc]
  rfl

/-! ## All tables -/

theorem tabled_initTables {pairs : List SubMatch} (hne : pairs ≠ []) (hcount : pairs.length ≤ 255)
    (hpatterns : ∀ m ∈ pairs, m.pattern ≠ []) :
    Tabled pairs (initTables pairs).1 (initTables pairs).2 := by
  cases pairs with
  | nil => exact absurd rfl hne
  | cons x rest =>
    obtain ⟨hmin, hmins, hpos⟩ := foldl_min_spec x.pattern.length rest
    obtain ⟨hmax, hmaxs⟩ := foldl_max_spec x.pattern.length rest
    simp only [initTables]
    generalize rest.foldl (fun n x => min n x.pattern.length) x.pattern.length =
      minLen at hmin hmins hpos ⊢
    generalize rest.foldl (fun n x => max n x.pattern.length) x.pattern.length =
      maxLen at hmax hmaxs ⊢
    have hshift_le : ∀ c, _ ≤ min minLen 255 :=
      foldl_lowerShift_le_self (minLen - 1) (min minLen 255)
        (sortByKey (cmpByte (minLen - 1)) (x :: rest)) _
    constructor
    · exact hpos (length_pos_of_ne_nil (hpatterns x mem_cons_self)) fun m hm =>
        hpatterns m (mem_cons_of_mem _ hm)
    · exact forall_mem_cons.mpr ⟨hmin, hmins⟩
    · exact forall_mem_cons.mpr ⟨hmax, hmaxs⟩
    · exact le_trans hmin hmax
    · exact fun m => mem_sortByKey
    · exact fun test c htest => find?_sortByKey_of_key c htest
    · intro c hc
      have hlength : 0 + (sortByKey (cmpByte (minLen - 1)) (x :: rest)).length < 256 := by
        rw [length_sortByKey]
        omega
      have hindex : ([] : List Nat).length ≤ c := Nat.zero_le c
      obtain ⟨v, hv, -, hcounted⟩ :=
        fillIndex_spec (pairwise_sortByKey (x :: rest)) hlength hindex hc
      refine ⟨v, hv, fun k m hm => ?_⟩
      rw [← hcounted k m hm, zero_add]
    · exact fun c => le_trans (hshift_le c) (min_le_left _ _)
    · intro c j hj m hm hc
      have hshifts : j < min minLen 255 := lt_of_lt_of_le hj (hshift_le c)
      have hsub : m ∈ sortByKey (cmpByte (minLen - 1)) (x :: rest) := mem_sortByKey.mpr hm
      have hle := foldl_lowerShift_le_of_mem hsub hshifts (by omega) hc fun _ => min minLen 255
      exact absurd hj (not_lt.mpr hle)

end Nginx.Http.Sub
