/-
  Http/MultiHeaderLines.lean --- `ngx_http_parse_multi_header_lines`: one value
  out of headers with many, such as `Cookie`.

  The components of a header are seen here as the text from the beginning of
  each one on, since a value ends at the next semicolon and may thus go on behind
  a comma.  The code goes from component to component, but where it meets the
  name alone it takes the separator for the byte that should have been an equals
  sign, and the next component is passed over with it.
-/
import Mathlib.Algebra.Group.Nat.Even
import Nginx.Core.StrCase

set_option autoImplicit false

namespace Nginx.Http

open List Foundation
open Nginx.Core (Str strlow strncasecmp skipWhile)

/-- `ch == ';' || ch == ','` -/
def isPairSeparator (ch : Byte) : Bool := ch = chr ';' ∨ ch = chr ','

/-- `while (start < end && *start == ' ') { start++; }` -/
def passSpaces (mem : Nat → Byte) (stop start : Nat) :
    Nat := skipWhile mem (· == chr ' ') (stop - start) start

/-- The first loop at the label `skip`, `start` being so far from `end`. -/
def skipLoop (mem : Nat → Byte) : Nat → Nat → Nat
  | 0, start => start
  | left + 1, start =>
    if isPairSeparator (mem start) then start + 1 else skipLoop mem left (start + 1)

/-- From the label `skip` on. -/
def skipPair (mem : Nat → Byte) (stop start : Nat) :
    Nat := passSpaces mem stop (skipLoop mem (stop - start) start)

/-- `while (start < end)`, for so many rounds at most: what is stored to `value`, which is nothing
where that is `NULL`. -/
def headerLineLoop (mem : Nat → Byte) (stop : Nat) (name : Bytes) (isNull : Bool) :
    Nat → Nat → Option (Option Str)
  | 0, _ => none
  | left + 1, start =>
      if stop ≤ start then none
      else if strncasecmp mem start name ≠
        0 then headerLineLoop mem stop name isNull left (skipPair mem stop start)
      else
        let start := passSpaces mem stop (start + name.length)
        if isNull then
          if start = stop ∨ mem start = chr ',' then some none
          else headerLineLoop mem stop name isNull left (skipPair mem stop start)
        else if start = stop then headerLineLoop mem stop name isNull left (skipPair mem stop start)
        else if mem start ≠ chr '=' then
          -- the invalid header value, and `start` is behind the byte
          headerLineLoop mem stop name isNull left (skipPair mem stop (start + 1))
        else
          let start := passSpaces mem stop (start + 1)
          some (some ⟨start, skipWhile mem (· != chr ';') (stop - start) start - start⟩)

/-- The loop over the headers, from the `i`th on. -/
def headersLoop (mem : Nat → Byte) (name : Bytes) (isNull : Bool) :
    Nat → List Str → Option (Nat × Option Str)
  | _, [] => none
  | i, h :: headers =>
      if name.length > h.len then headersLoop mem name isNull (i + 1) headers
      else
        match headerLineLoop mem (h.data + h.len) name isNull h.len h.data with
        | some value => some (i, value)
        | none => headersLoop mem name isNull (i + 1) headers

/-- `ngx_http_parse_multi_header_lines`: the index and the value, or `none` for `NGX_DECLINED`. -/
def parseMultiHeaderLines (mem : Nat → Byte) (headers : List Str) (name : Bytes) (isNull : Bool) :
    Option (Nat × Option Str) :=
  headersLoop mem name isNull 0 headers

/-! ## Components -/

/-- Where a walk through a header is. -/
inductive PairWalk where
  /-- at the beginning of a component -/
  | begin
  /-- behind a separator, and spaces do not count -/
  | spaces
  /-- in a component -/
  | inside
  deriving DecidableEq

/-- The text from the beginning of each component on. -/
def componentsFrom : PairWalk → Bytes → List Bytes
  | _, [] => []
  | .begin, ch :: text =>
    (ch :: text) :: componentsFrom (if isPairSeparator ch then .spaces else .inside) text
  | .spaces, ch :: text =>
      if ch = chr ' ' then componentsFrom .spaces text
      else (ch :: text) :: componentsFrom (if isPairSeparator ch then .spaces else .inside) text
  | .inside, ch :: text => componentsFrom (if isPairSeparator ch then .spaces else .inside) text

attribute [local simp] componentsFrom

/-- What stands behind the name and spaces in a component that begins with the name. -/
def behindName (name text : Bytes) : Option Bytes :=
  if strlow (text.take name.length) =
    strlow name then some ((text.drop name.length).dropWhile (· == chr ' ')) else none

/-- The component is the name, spaces and an equals sign. -/
def isPair (name text : Bytes) : Bool := (behindName name text).any fun rest =>
    rest.head? == some (chr '=')

/-- The component is the name and spaces alone, and there is another one. -/
def isBare (name text : Bytes) : Bool := (behindName name text).any fun rest =>
    rest.head?.any isPairSeparator

/-- The text of a value and all behind it. -/
def pairValue (name text : Bytes) : Bytes :=
  (((text.drop name.length).dropWhile (· == chr ' ')).drop 1).dropWhile (· == chr ' ')

/-- The place of a value in a header, from the text of the component on. -/
def valueStr (stop : Nat) (name text : Bytes) : Str :=
  ⟨stop - (pairValue name text).length, ((pairValue name text).takeWhile (· != chr ';')).length⟩

/-- The first component of a header that is the name, spaces and an equals sign. -/
def findPair (mem : Nat → Byte) (h : Str) (name : Bytes) : Option Bytes :=
  (componentsFrom .begin (h.text mem)).find? (isPair name)

/-- The first of them in headers, from the `i`th header on. -/
def findPairIn (mem : Nat → Byte) (name : Bytes) : Nat → List Str → Option (Nat × Str)
  | _, [] => none
  | i, h :: headers =>
      match findPair mem h name with
      | some text => some (i, valueStr (h.data + h.len) name text)
      | none => findPairIn mem name (i + 1) headers

/-- What is behind the next separator and the spaces after it. -/
def nextText (text : Bytes) : Bytes :=
  ((text.dropWhile fun ch => !isPairSeparator ch).drop 1).dropWhile (· == chr ' ')

section Components

variable {name text : Bytes} {ch : Byte}

theorem componentsFrom_spaces (text : Bytes) :
    componentsFrom .spaces text = componentsFrom .begin (text.dropWhile (· == chr ' ')) := by
  induction text with
  | nil => rfl
  | cons ch text ih =>
    rw [componentsFrom]
    split
    · next hspace => rw [ih, dropWhile_cons_of_pos (by rw [hspace]; rfl)]
    · next hspace => rw [dropWhile_cons_of_neg (by rwa [beq_iff_eq]), componentsFrom]

theorem nextText_separator (hch : isPairSeparator ch = true) (text : Bytes) :
    nextText (ch :: text) = text.dropWhile (· == chr ' ') := by
  rw [nextText, dropWhile_cons_of_neg (by rw [hch]; decide), drop_one, tail_cons]

theorem nextText_other (hch : isPairSeparator ch = false) (text : Bytes) :
    nextText (ch :: text) = nextText text := by
  rw [nextText, dropWhile_cons_of_pos (by rw [hch]; rfl), nextText]

theorem nextText_append {head : Bytes} (hhead : ∀ ch ∈ head, isPairSeparator ch = false)
    (text : Bytes) :
    nextText (head ++ text) = nextText text := by
  induction head with
  | nil => rfl
  | cons ch head ih =>
    obtain ⟨hch, hhead⟩ := forall_mem_cons.mp hhead
    rw [cons_append, nextText_other hch, ih hhead]

theorem componentsFrom_inside (text : Bytes) :
    componentsFrom .inside text = componentsFrom .begin (nextText text) := by
  induction text with
  | nil => rfl
  | cons ch text ih =>
    rw [componentsFrom]
    cases hch : isPairSeparator ch with
    | true => rw [if_pos rfl, componentsFrom_spaces, nextText_separator hch]
    | false => rw [if_neg Bool.false_ne_true, ih, nextText_other hch]

theorem componentsFrom_begin (hne : text ≠ []) :
    componentsFrom .begin text = text :: componentsFrom .begin (nextText text) := by
  obtain ⟨ch, text, rfl⟩ := exists_cons_of_ne_nil hne
  rw [componentsFrom]
  cases hch : isPairSeparator ch with
  | true => rw [if_pos rfl, componentsFrom_spaces, nextText_separator hch]
  | false => rw [if_neg Bool.false_ne_true, componentsFrom_inside, nextText_other hch]

theorem nextText_suffix (text : Bytes) : nextText text <:+ text :=
  (dropWhile_suffix _).trans ((drop_suffix 1 _).trans (dropWhile_suffix _))

theorem length_nextText_lt (hne : text ≠ []) : (nextText text).length < text.length := by
  obtain ⟨ch, text, rfl⟩ := exists_cons_of_ne_nil hne
  cases hch : isPairSeparator ch with
  | true =>
    rw [nextText_separator hch]
    exact Nat.lt_succ_of_le (dropWhile_suffix _).length_le
  | false =>
    rw [nextText_other hch]
    exact Nat.lt_succ_of_le (nextText_suffix text).length_le

theorem suffix_of_mem_components {t : Bytes} (h : t ∈ componentsFrom .begin text) : t <:+ text := by
  induction hn : text.length using Nat.strongRecOn generalizing text with
  | _ n ih =>
    by_cases hne : text = []
    · rw [hne] at h
      cases h
    · rw [componentsFrom_begin hne] at h
      rcases mem_cons.mp h with rfl | h
      · exact suffix_rfl
      · exact (ih _ (hn ▸ length_nextText_lt hne) h rfl).trans (nextText_suffix text)

theorem components_total {t t' : Bytes} (h : t ∈ componentsFrom .begin text)
    (h' : t' ∈ componentsFrom .begin text) :
    t = t' ∨ t' ∈ componentsFrom .begin (nextText t) ∨ t ∈ componentsFrom .begin (nextText t') := by
  induction hn : text.length using Nat.strongRecOn generalizing text with
  | _ n ih =>
    by_cases hne : text = []
    · rw [hne] at h
      cases h
    rw [componentsFrom_begin hne] at h h'
    rcases mem_cons.mp h with rfl | h
    · rcases mem_cons.mp h' with rfl | h'
      · exact .inl rfl
      · exact .inr (.inl h')
    · rcases mem_cons.mp h' with rfl | h'
      · exact .inr (.inr h)
      · exact ih _ (hn ▸ length_nextText_lt hne) h h' rfl

theorem nodup_components (text : Bytes) : (componentsFrom .begin text).Nodup := by
  induction hn : text.length using Nat.strongRecOn generalizing text with
  | _ n ih =>
    by_cases hne : text = []
    · rw [hne]
      exact nodup_nil
    · have hlt := length_nextText_lt hne
      rw [componentsFrom_begin hne, nodup_cons]
      exact ⟨fun h =>
        absurd (suffix_of_mem_components h).length_le (not_le.mpr hlt), ih _ (hn ▸ hlt) _ rfl⟩

end Components

/-! ## What the code takes -/

/-- The component that the code takes: behind the name alone, it passes one over. -/
def pickPair (name : Bytes) : List Bytes → Option Bytes
  | [] => none
  | [t] => if isPair name t then some t else none
  | t :: t' :: ts =>
    if isPair name t then some t else if isBare name t then pickPair name ts else pickPair name
      (t' :: ts)

section Pick

variable {name t : Bytes} {ts : List Bytes}

theorem pickPair_pair (h : isPair name t = true) : pickPair name (t :: ts) = some t := by
  cases ts with
  | nil => rw [pickPair, if_pos h]
  | cons t' ts => rw [pickPair, if_pos h]

theorem pickPair_other (h : isPair name t = false) (hbare : isBare name t = false) :
    pickPair name (t :: ts) = pickPair name ts := by
  cases ts with
  | nil => exact if_neg (ne_true_of_eq_false h)
  | cons t' ts => rw [pickPair, h, hbare, if_neg Bool.false_ne_true, if_neg Bool.false_ne_true]

theorem pickPair_bare (h : isPair name t = false) (hbare : isBare name t = true) :
    pickPair name (t :: ts) = pickPair name ts.tail := by
  cases ts with
  | nil => exact if_neg (ne_true_of_eq_false h)
  | cons t' ts => rw [pickPair, h, if_neg Bool.false_ne_true, if_pos hbare, tail_cons]

theorem pickPair_mem {t : Bytes} (h : pickPair name ts = some t) :
    t ∈ ts ∧ isPair name t = true := by
  induction ts using pickPair.induct name with
  | case1 => cases h
  | case2 u hpair =>
    rw [pickPair_pair hpair, Option.some.injEq] at h
    exact ⟨h ▸ mem_cons_self, h ▸ hpair⟩
  | case3 u hpair =>
    rw [pickPair, if_neg hpair] at h
    cases h
  | case4 u u' us hpair =>
    rw [pickPair_pair hpair, Option.some.injEq] at h
    exact ⟨h ▸ mem_cons_self, h ▸ hpair⟩
  | case5 u u' us hpair hbare ih =>
    rw [pickPair_bare (eq_false_of_ne_true hpair) hbare] at h
    exact ⟨mem_cons_of_mem _ (mem_cons_of_mem _ (ih h).1), (ih h).2⟩
  | case6 u u' us hpair hbare ih =>
    rw [pickPair_other (eq_false_of_ne_true hpair) (eq_false_of_ne_true hbare)]
      at h
    exact ⟨mem_cons_of_mem _ (ih h).1, (ih h).2⟩

/-- How many components in a row, directly before the first pair, are the name alone. -/
def bareBefore (name : Bytes) (ts : List Bytes) : Nat :=
  ((ts.takeWhile fun t => !isPair name t).reverse.takeWhile (isBare name)).length

theorem bareBefore_pair (h : isPair name t = true) (ts : List Bytes) :
    bareBefore name (t :: ts) = 0 := by
  rw [bareBefore, takeWhile_cons_of_neg (by rw [h]; decide)]
  rfl

theorem bareBefore_other (h : isPair name t = false) (hbare : isBare name t = false)
    (ts : List Bytes) :
    bareBefore name (t :: ts) = bareBefore name ts := by
  rw [bareBefore, takeWhile_cons_of_pos (by rw [h]; rfl), reverse_cons, takeWhile_append]
  split
  · next hall =>
      rw [takeWhile_cons_of_neg (ne_true_of_eq_false hbare),
        append_nil, bareBefore, hall]
  · rfl

theorem even_bareBefore_bare (h : isPair name t = false) (hbare : isBare name t = true)
    {t' : Bytes} (h' : isPair name t' = false)
    (ts : List Bytes) : Even (bareBefore name (t :: t' :: ts)) ↔ Even (bareBefore name ts) := by
  rw [bareBefore, takeWhile_cons_of_pos (by rw [h]; rfl),
    takeWhile_cons_of_pos (by rw [h']; rfl), reverse_cons,
    reverse_cons, append_assoc, takeWhile_append]
  split
  · next hall =>
    rw [bareBefore, length_append, hall]
    cases hbare' : isBare name t' with
    | true =>
      rw [singleton_append, takeWhile_cons_of_pos hbare', takeWhile_cons_of_pos hbare,
        takeWhile_nil,
        length_cons, length_singleton]
      exact ⟨fun heven => by simpa using heven.tsub (even_two), fun heven => heven.add even_two⟩
    | false =>
      rw [singleton_append, takeWhile_cons_of_neg (ne_true_of_eq_false hbare'),
        length_nil, add_zero]
  · rfl

theorem find?_cons_other (h : isPair name t = false) (ts : List Bytes) :
    (t :: ts).find? (isPair name) = ts.find? (isPair name) := by
  rw [find?_cons, h]

theorem pickPair_eq_find (hnodup : ts.Nodup) {u : Bytes} (hfind : ts.find? (isPair name) = some u) :
    pickPair name ts = some u ↔ Even (bareBefore name ts) := by
  induction ts using pickPair.induct name with
  | case1 => cases hfind
  | case2 t hpair =>
    rw [find?_cons, hpair] at hfind
    rw [pickPair_pair hpair, bareBefore_pair hpair]
    exact iff_of_true hfind Even.zero
  | case3 t hpair =>
    rw [find?_cons_other (eq_false_of_ne_true hpair)] at hfind
    cases hfind
  | case4 t t' ts hpair =>
    rw [find?_cons, hpair] at hfind
    rw [pickPair_pair hpair, bareBefore_pair hpair]
    exact iff_of_true hfind Even.zero
  | case5 t t' ts hpair hbare ih =>
    have hnot := eq_false_of_ne_true hpair
    rw [find?_cons_other hnot] at hfind
    rw [pickPair_bare hnot hbare, tail_cons]
    have hnodup' := (nodup_cons.mp hnodup).2
    cases hpair' : isPair name t' with
    | true =>
      rw [find?_cons, hpair', Option.some.injEq] at hfind
      refine iff_of_false (fun hpick => ?_) ?_
      · rw [← hfind] at hpick
        exact (nodup_cons.mp hnodup').1 (pickPair_mem hpick).1
      · rw [bareBefore, takeWhile_cons_of_pos (by rw [hnot]; rfl),
          takeWhile_cons_of_neg (by rw [hpair']; decide),
          reverse_singleton, takeWhile_cons_of_pos hbare, takeWhile_nil, length_singleton]
        decide
    | false =>
      rw [find?_cons_other hpair'] at hfind
      rw [even_bareBefore_bare hnot hbare hpair']
      exact ih (nodup_cons.mp hnodup').2 hfind
  | case6 t t' ts hpair hbare ih =>
    have hnot := eq_false_of_ne_true hpair
    have hnotBare := eq_false_of_ne_true hbare
    rw [find?_cons_other hnot] at hfind
    rw [pickPair_other hnot hnotBare, bareBefore_other hnot hnotBare]
    exact ih (nodup_cons.mp hnodup).2 hfind

theorem pickPair_of_find_none (hfind : ts.find? (isPair name) = none) :
    pickPair name ts = none := by
  cases hpick : pickPair name ts with
  | none => rfl
  | some t =>
    obtain ⟨hmem, hpair⟩ := pickPair_mem hpick
    exact absurd hpair (find?_eq_none.mp hfind t hmem)

end Pick

end Nginx.Http
