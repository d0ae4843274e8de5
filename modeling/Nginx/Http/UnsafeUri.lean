/-
  Http/UnsafeUri.lean --- `ngx_http_parse_unsafe_uri`: the check of a URI that
  something other than a request line names.

  The first scan runs over the URI as it is, and looks for `..` up to the end of
  it and not up to the `?`; the second runs over the unescaped path, if there
  was anything to unescape.
-/
import Nginx.Core.Base
import Nginx.Core.EscapeUri
import Nginx.Foundation.Segments

set_option autoImplicit false

namespace Nginx.Http

open List Foundation Option
open Foundation.Segments (exists_splitOn not_mem_takeWhile_ne)
open Nginx.Core
open Parse

/-! ## The function -/

/-- `p[0] == '.' && p[1] == '.' && (len == 2 || ngx_path_separator(p[2]))`, where `len` bytes are
left and these are more than one. -/
def dotDotAt (p : Bytes) : Bool :=
  1 < p.length && p.getD 0 0 == chr '.' && p.getD 1 0 == chr '.' &&
    (p.length == 2 || p.getD 2 0 == chr '/')

/-- `for ( ; len; len--)` over the URI: `goto unsafe`, or `quoted` with what is behind the `?`. -/
def unsafeLoop : Bool → Bytes → Option (Bool × Option Bytes)
  | quoted, [] => some (quoted, none)
  | quoted, ch :: p =>
      if ch = chr '%' then unsafeLoop true p
      else if isUsual ch then unsafeLoop quoted p
      else if ch = chr '?' then some (quoted, some p)
      else if ch = 0 then none
      else if ch = chr '/' ∧ dotDotAt p then none
      else unsafeLoop quoted p

/-- `for ( ; len; len--)` over the unescaped path: whether it ends with `goto unsafe`. -/
def unsafeUnescaped : Bytes → Bool
  | [] => false
  | ch :: p =>
    if ch = 0 then true else if ch = chr '/' ∧ dotDotAt p then true else unsafeUnescaped p

/-- `uri->len -= len`, at a `?` with so much behind it. -/
def cutUri (uri : Bytes) : Option Bytes → Bytes
  | some p => uri.take (uri.length - (p.length + 1))
  | none => uri

/-- `ngx_http_parse_unsafe_uri`: the return code, `*uri` and `*args`.  `alloc` tells whether
`ngx_pnalloc` has memory. -/
def parseUnsafeUri (alloc : Bool) (uri args : Bytes) : Rc × Bytes × Bytes :=
  if uri.length = 0 ∨ uri.getD 0 0 = chr '?' then (.error, uri, args)
  else if dotDotAt uri then (.error, uri, args)
  else
    match unsafeLoop false uri with
    | none => (.error, uri, args)
    | some (quoted, found) =>
        let path := cutUri uri found
        let args := found.getD args
        if quoted then
          if alloc then
            let unescaped := unescapePlain path
            if dotDotAt unescaped then (.error, unescaped, args)
            else if unsafeUnescaped unescaped then (.error, unescaped, args)
            else (.ok, unescaped, args)
          else (.error, path, args)
        else (.ok, path, args)

/-! ## Segments -/

/-- The segments of a path, or those that have a slash behind them. -/
def segmentsOf (whole : Bool) (path : Bytes) : List Bytes :=
  if whole then path.splitOn (chr '/') else (path.splitOn (chr '/')).dropLast

/-- One of them is `..`. -/
def HasUp (whole : Bool) (path : Bytes) : Prop := ascii ".." ∈ segmentsOf whole path

/-- The first one is. -/
def StartsUp (whole : Bool) (path : Bytes) : Prop :=
  (whole = true ∧ path = ascii "..") ∨ ∃ rest, path = ascii ".." ++ chr '/' :: rest

/-- One behind the first one is. -/
def LaterUp (whole : Bool) (path : Bytes) : Prop :=
  ascii ".." ∈ if whole then (path.splitOn (chr '/')).tail
    else (path.splitOn (chr '/')).tail.dropLast

section Segments

variable {whole : Bool} {path : Bytes}

theorem slash_not_mem_up : chr '/' ∉ ascii ".." := by decide

theorem hasUp_iff : HasUp whole path ↔ StartsUp whole path ∨ LaterUp whole path := by
  obtain ⟨head, hfree, ⟨rfl, hsplit⟩ | ⟨rest, rfl, hsplit⟩⟩ := exists_splitOn (chr '/') path
  · have hno : ¬ ∃ rest, path = ascii ".." ++ chr '/' :: rest := by
      rintro ⟨rest, rfl⟩
      exact hfree (mem_append_right _ mem_cons_self)
    cases whole with
    | true => simp [HasUp, segmentsOf, StartsUp, LaterUp, hsplit, hno, eq_comm]
    | false => simp [HasUp, segmentsOf, StartsUp, LaterUp, hsplit, hno]
  have hne : rest.splitOn (chr '/') ≠ [] := splitOn_ne_nil _ _
  have hwhole : head ++ chr '/' :: rest ≠ ascii ".." := by
    intro heq
    exact slash_not_mem_up (heq ▸ mem_append_right _ mem_cons_self)
  have hstarts : (∃ rest', head ++ chr '/' :: rest = ascii ".." ++ chr '/' :: rest') ↔
    ascii ".." = head := by
    constructor
    · rintro ⟨rest', heq⟩
      have hheads := congrArg (fun l => (List.splitOn (chr '/') l).head?) heq
      rw [splitOn_append_cons_self, splitOn_append_cons_self, splitOn_eq_singleton hfree,
        splitOn_eq_singleton slash_not_mem_up] at hheads
      exact (some.inj hheads).symm
    · rintro rfl
      exact ⟨rest, rfl⟩
  cases whole with
  | true => simp [HasUp, segmentsOf, StartsUp, LaterUp, hsplit, hstarts, hwhole]
  | false =>
    simp [HasUp, segmentsOf, StartsUp, LaterUp, hsplit, hstarts, dropLast_cons_of_ne_nil hne]

theorem not_laterUp_nil : ¬ LaterUp whole [] := by cases whole <;> simp [LaterUp]

theorem laterUp_slash : LaterUp whole (chr '/' :: path) ↔ HasUp whole path := by
  rw [LaterUp, splitOn_cons_eq_if_modifyHead, if_pos (beq_self_eq_true _),
    tail_cons, HasUp, segmentsOf]

theorem laterUp_cons {ch : Byte} (hch : ch ≠ chr '/') :
    LaterUp whole (ch :: path) ↔ LaterUp whole path := by
  have htail : ((ch :: path).splitOn (chr '/')).tail = (path.splitOn (chr '/')).tail := by
    rw [splitOn_cons_eq_if_modifyHead, if_neg (mt beq_iff_eq.mp hch), tail_modifyHead]
  rw [LaterUp, LaterUp, htail]

end Segments

/-! ## The scans -/

/-- What is behind the path. -/
def tailText (tail : Option Bytes) : Bytes := (tail.map (chr '?' :: ·)).getD []

section Scans

variable {path : Bytes} {tail : Option Bytes} {quoted : Bool}

theorem dotDotAt_iff {p : Bytes} : dotDotAt p = true ↔ StartsUp true p := by
  match p with
  | [] => simp [dotDotAt, StartsUp, ascii]
  | [a] => simp [dotDotAt, StartsUp, ascii]
  | [a, b] => simp [dotDotAt, StartsUp, ascii, chr]
  | a :: b :: c :: p => simp [dotDotAt, StartsUp, ascii, chr, and_assoc]

theorem dotDotAt_append (hpath : chr '?' ∉ path) :
    dotDotAt (path ++ tailText tail) = true ↔ StartsUp tail.isNone path := by
  rw [dotDotAt_iff]
  cases tail with
  | none => rw [tailText, map_none, getD_none, append_nil, isNone_none]
  | some args =>
    have hmark : chr '?' ∉ ascii ".." := by decide
    have hne : chr '?' ≠ chr '/' := by decide
    rw [tailText, map_some, getD_some, isNone_some]
    constructor
    · rintro (⟨-, heq⟩ | ⟨rest, heq⟩)
      · exact absurd (heq ▸ mem_append_right _ mem_cons_self) hmark
      rcases append_eq_append_iff.mp heq with ⟨c, hup, htail⟩ | ⟨c, hfront, htail⟩
      · cases c with
        | nil => exact absurd (cons.inj htail).1 hne
        | cons d c =>
          have hd : d ∈ ascii ".." := hup ▸ mem_append_right _ mem_cons_self
          exact absurd ((cons.inj htail).1 ▸ hd) hmark
      · cases c with
        | nil => exact absurd (cons.inj htail).1.symm hne
        | cons d c =>
          obtain ⟨rfl, -⟩ := cons.inj htail
          exact .inr ⟨c, hfront⟩
    · rintro (⟨h, -⟩ | ⟨rest, rfl⟩)
      · cases h
      · exact .inr ⟨rest ++ chr '?' :: args, by rw [append_assoc, cons_append]⟩

theorem ne_of_isUsual {ch : Byte} (h : isUsual ch = true) : ch ≠ 0 ∧ ch ≠ chr '/' := by
  constructor
  · rintro rfl
    revert h
    decide
  · rintro rfl
    revert h
    decide

/-- The scan of the path, for any tail behind it. -/
theorem unsafeLoop_append (hpath : chr '?' ∉ path) :
    (0 ∈ path ∨ LaterUp tail.isNone path → unsafeLoop quoted (path ++ tailText tail) = none) ∧
      (¬ (0 ∈ path ∨ LaterUp tail.isNone path) →
        unsafeLoop quoted (path ++ tailText tail) =
          some (quoted || decide (chr '%' ∈ path), tail)) := by
  induction path generalizing quoted with
  | nil =>
    refine ⟨fun h => absurd h (not_or.mpr ⟨not_mem_nil, not_laterUp_nil⟩), fun _ => ?_⟩
    rw [nil_append, decide_eq_false not_mem_nil, Bool.or_false]
    cases tail with
    | none => rfl
    | some args => rfl
  | cons ch path ih =>
    obtain ⟨hch, hrest⟩ := not_or.mp (mt mem_cons.mpr hpath)
    have ih := fun quoted => @ih quoted hrest
    rw [cons_append, unsafeLoop]
    by_cases hpercent : ch = chr '%'
    · subst hpercent
      have hzero : (0 : Byte) ∈ chr '%' :: path ↔ 0 ∈ path :=
        mem_cons.trans (or_iff_right (by decide))
      rw [if_pos rfl, hzero, laterUp_cons (by decide), decide_eq_true mem_cons_self, Bool.or_true]
      exact ih true
    have hquoted : decide (chr '%' ∈ ch :: path) = decide (chr '%' ∈ path) := by
      rw [decide_eq_decide, mem_cons]
      exact or_iff_right (Ne.symm hpercent)
    rw [if_neg hpercent, hquoted]
    by_cases husual : isUsual ch = true
    · obtain ⟨hne, hslash⟩ := ne_of_isUsual husual
      have hzero : 0 ∈ ch :: path ↔ 0 ∈ path := mem_cons.trans (or_iff_right hne.symm)
      rw [if_pos husual, hzero, laterUp_cons hslash]
      exact ih quoted
    rw [if_neg husual, if_neg (Ne.symm hch)]
    by_cases hnul : ch = 0
    · subst hnul
      rw [if_pos rfl]
      exact ⟨fun _ => rfl, fun h => absurd (.inl mem_cons_self) h⟩
    have hzero : 0 ∈ ch :: path ↔ 0 ∈ path := mem_cons.trans (or_iff_right (Ne.symm hnul))
    rw [if_neg hnul, hzero]
    by_cases hslash : ch = chr '/'
    · subst hslash
      have hdots := @dotDotAt_append _ tail hrest
      rw [laterUp_slash, hasUp_iff]
      by_cases hstarts : StartsUp tail.isNone path
      · rw [if_pos ⟨rfl, hdots.mpr hstarts⟩]
        exact ⟨fun _ => rfl, fun h => absurd (.inr (.inl hstarts)) h⟩
      · rw [if_neg fun h => hstarts (hdots.mp h.2), or_iff_right hstarts]
        exact ih quoted
    · rw [if_neg fun h => hslash h.1, laterUp_cons hslash]
      exact ih quoted

theorem unsafeUnescaped_iff {path : Bytes} :
    unsafeUnescaped path = true ↔ 0 ∈ path ∨ LaterUp true path := by
  induction path with
  | nil => exact iff_of_false (by decide) (not_or.mpr ⟨not_mem_nil, not_laterUp_nil⟩)
  | cons ch path ih =>
    rw [unsafeUnescaped]
    by_cases hnul : ch = 0
    · rw [if_pos hnul, hnul]
      exact iff_of_true rfl (.inl mem_cons_self)
    have hzero : 0 ∈ ch :: path ↔ 0 ∈ path := mem_cons.trans (or_iff_right (Ne.symm hnul))
    rw [if_neg hnul, hzero]
    by_cases hslash : ch = chr '/'
    · subst hslash
      rw [laterUp_slash, hasUp_iff]
      by_cases hstarts : StartsUp true path
      · rw [if_pos ⟨rfl, dotDotAt_iff.mpr hstarts⟩]
        exact iff_of_true rfl (.inr (.inl hstarts))
      · rw [if_neg fun h => hstarts (dotDotAt_iff.mp h.2), ih, or_iff_right hstarts]
    · rw [if_neg fun h => hslash h.1, ih, laterUp_cons hslash]

end Scans

/-! ## The function, by what the scans find -/

section Outcome

variable {path args : Bytes} {tail : Option Bytes} {alloc : Bool}

/-- The first scan is for `goto unsafe`. -/
def Refused (whole : Bool) (path : Bytes) : Prop := path = [] ∨ 0 ∈ path ∨ HasUp whole path

theorem parseUnsafeUri_refused (hpath : chr '?' ∉ path) (hrefused : Refused tail.isNone path) :
    parseUnsafeUri alloc (path ++ tailText tail) args = (.error, path ++ tailText tail, args) := by
  rw [parseUnsafeUri]
  by_cases hempty : path = []
  · refine if_pos ?_
    subst hempty
    cases tail with
    | none => exact .inl rfl
    | some found => exact .inr rfl
  have hfound := hrefused.resolve_left hempty
  split
  · rfl
  split
  · rfl
  · next hdots =>
    have hstarts : ¬ StartsUp tail.isNone path := mt (dotDotAt_append hpath).mpr hdots
    rw [hasUp_iff, or_iff_right hstarts] at hfound
    rw [(unsafeLoop_append hpath).1 hfound]

theorem parseUnsafeUri_passed (hpath : chr '?' ∉ path) (hpassed : ¬ Refused tail.isNone path) :
    parseUnsafeUri alloc (path ++ tailText tail) args =
      if chr '%' ∈ path then
        if alloc then
          if dotDotAt (unescapePlain path) then (.error, unescapePlain path, tail.getD args)
          else if unsafeUnescaped (unescapePlain path)
            then (.error, unescapePlain path, tail.getD args)
          else (.ok, unescapePlain path, tail.getD args)
        else (.error, path, tail.getD args)
      else (.ok, path, tail.getD args) := by
  obtain ⟨hne, hfound⟩ := not_or.mp hpassed
  rw [hasUp_iff] at hfound
  have hstarts : ¬ StartsUp tail.isNone path := fun h => hfound (.inr (.inl h))
  have hloop := (@unsafeLoop_append _ _ false hpath).2 fun h => hfound (h.imp id .inr)
  have hfirst : ¬ ((path ++ tailText tail).length = 0 ∨
    (path ++ tailText tail).getD 0 0 = chr '?') := by
    cases path with
    | nil => exact absurd rfl hne
    | cons ch path => exact not_or.mpr ⟨Nat.succ_ne_zero _, fun h => hpath (h ▸ mem_cons_self)⟩
  have hcut : cutUri (path ++ tailText tail) tail = path := by
    cases tail with
    | none => exact append_nil path
    | some found =>
      have hlength : (path ++ chr '?' :: found).length - (found.length + 1) = path.length := by
        rw [length_append, length_cons, Nat.add_sub_cancel]
      exact (congrArg (fun n => (path ++ chr '?' :: found).take n) hlength).trans take_left
  rw [parseUnsafeUri, if_neg hfirst, if_neg (mt (dotDotAt_append hpath).mp hstarts), hloop]
  dsimp only
  rw [hcut, Bool.false_or]
  by_cases hpercent : chr '%' ∈ path
  · rw [if_pos hpercent, if_pos (decide_eq_true hpercent)]
  · rw [if_neg hpercent, if_neg (mt of_decide_eq_true hpercent)]

theorem refused_unescaped :
    dotDotAt path = true ∨ unsafeUnescaped path = true ↔ 0 ∈ path ∨ HasUp true path := by
  rw [dotDotAt_iff, unsafeUnescaped_iff, hasUp_iff, or_left_comm]

end Outcome

/-! ## What the check promises -/

/-- The URI up to the first `?`. -/
def uriPath (uri : Bytes) : Bytes := uri.takeWhile fun ch => ch != chr '?'

/-- The part behind the first `?`, if there is one. -/
def uriTail (uri : Bytes) : Option Bytes := (uri.dropWhile fun ch => ch != chr '?').tail?

theorem uriPath_append_uriTail (uri : Bytes) : uriPath uri ++ tailText (uriTail uri) = uri := by
  have hsplit : uriPath uri ++ uri.dropWhile (fun ch => ch != chr '?') = uri :=
    takeWhile_append_dropWhile
  cases hdrop : uri.dropWhile (fun ch => ch != chr '?') with
  | nil =>
    rw [hdrop] at hsplit
    rw [uriTail, hdrop]
    exact hsplit
  | cons ch rest =>
    have hhead : (ch != chr '?') = false := by
      have h := head?_dropWhile_not (fun ch => ch != chr '?') uri
      rw [hdrop] at h
      simpa using h
    have hch : ch = chr '?' := by simpa using hhead
    rw [hdrop, hch] at hsplit
    rw [uriTail, hdrop]
    exact hsplit

theorem mark_not_mem_uriPath (uri : Bytes) : chr '?' ∉ uriPath uri := not_mem_takeWhile_ne _ _

/-- What is wrong with a path: it is empty, or has a NUL, or a segment `..`. -/
def BadPath (path : Bytes) : Prop := path = [] ∨ 0 ∈ path ∨ ascii ".." ∈ path.splitOn (chr '/')

/-- What `ngx_http_parse_unsafe_uri` is for: `NGX_OK` gives a path with nothing wrong with it, and
the part behind the first `?` where there is one; and `NGX_ERROR` with memory at hand is for a
path that has something wrong with it as it is or unescaped. -/
structure RightCheck (uri args : Bytes) : Prop where
  ok : ∀ alloc uri' args', parseUnsafeUri alloc uri args = (.ok, uri', args') →
    ¬ BadPath uri' ∧ args' = (uriTail uri).getD args
  error : ∀ uri' args', parseUnsafeUri true uri args = (.error, uri', args') →
    BadPath (uriPath uri) ∨ BadPath (unescapePlain (uriPath uri))

/-- Nothing is escaped in the path, and its only segment `..` is the last one, with a `?` behind it.
-/
structure UpBeforeMark (uri : Bytes) : Prop where
  mark : (uriTail uri).isNone = false
  plain : chr '%' ∉ uriPath uri
  noNul : 0 ∉ uriPath uri
  last : ((uriPath uri).splitOn (chr '/')).getLast? = some (ascii "..")
  front : ascii ".." ∉ ((uriPath uri).splitOn (chr '/')).dropLast

/-- The path is not empty, and unescaping leaves nothing of it. -/
structure VanishingPath (uri : Bytes) : Prop where
  ne_nil : uriPath uri ≠ []
  noNul : 0 ∉ uriPath uri
  vanishes : Vanishes (uriPath uri)

section Check

variable {path uri args : Bytes}

theorem hasUp_true_iff :
    HasUp true path ↔ HasUp false path ∨ (path.splitOn (chr '/')).getLast? = some (ascii "..") := by
  obtain ⟨front, last, hsplit⟩ : ∃ front last, path.splitOn (chr '/') = front ++ [last] :=
    ⟨_, _, (dropLast_append_getLast (splitOn_ne_nil _ _)).symm⟩
  simp [HasUp, segmentsOf, hsplit, eq_comm]

theorem HasUp.whole {whole : Bool} (h : HasUp whole path) : HasUp true path := by
  cases whole with
  | true => exact h
  | false => exact hasUp_true_iff.mpr (.inl h)

theorem not_startsUp_percent {whole : Bool} : ¬ StartsUp whole (chr '%' :: path) := by
  rintro (⟨-, heq⟩ | ⟨rest, heq⟩)
  · exact absurd (cons.inj heq).1 (by decide)
  · exact absurd (cons.inj heq).1 (by decide)

theorem ne_slash_of_hexDigit {d : Byte} (hd : (hexDigit? d).isSome = true) : d ≠ chr '/' := by
  rintro rfl
  revert hd
  decide

theorem not_hasUp_of_vanishes {whole : Bool} (h : Vanishes path) : ¬ HasUp whole path := by
  have hpercent : chr '%' ≠ chr '/' := by decide
  induction h with
  | nil =>
    rw [hasUp_iff]
    refine not_or.mpr ⟨?_, not_laterUp_nil⟩
    rintro (⟨-, heq⟩ | ⟨rest, heq⟩) <;> cases heq
  | percent =>
    rw [hasUp_iff, laterUp_cons hpercent]
    exact not_or.mpr ⟨not_startsUp_percent, not_laterUp_nil⟩
  | digit hd =>
    rw [hasUp_iff, laterUp_cons hpercent, laterUp_cons (ne_slash_of_hexDigit hd)]
    exact not_or.mpr ⟨not_startsUp_percent, not_laterUp_nil⟩
  | @escape d ch rest hd hch hrest ih =>
    rw [hasUp_iff, laterUp_cons hpercent, laterUp_cons (ne_slash_of_hexDigit hd)]
    refine not_or.mpr ⟨not_startsUp_percent, ?_⟩
    by_cases hslash : ch = chr '/'
    · rw [hslash, laterUp_slash]
      exact ih
    · rw [laterUp_cons hslash]
      exact fun hlater => ih (hasUp_iff.mpr (.inr hlater))

theorem percent_mem_of_vanishes (h : Vanishes path) (hne : path ≠ []) : chr '%' ∈ path := by
  cases h with
  | nil => exact absurd rfl hne
  | _ => exact mem_cons_self

theorem not_refused_of_vanishingPath {whole : Bool} (h : VanishingPath uri) :
    ¬ Refused whole (uriPath uri) := by
  rintro (hnil | hnul | hup)
  · exact h.ne_nil hnil
  · exact h.noNul hnul
  · exact not_hasUp_of_vanishes h.vanishes hup

theorem not_refused_of_upBeforeMark (h : UpBeforeMark uri) : ¬ Refused false (uriPath uri) := by
  rintro (hnil | hnul | hup)
  · have hlast := h.last
    rw [hnil] at hlast
    exact absurd (some.inj hlast) (by decide)
  · exact h.noNul hnul
  · exact h.front hup

theorem parse_refused {alloc : Bool} (h : Refused (uriTail uri).isNone (uriPath uri)) :
    parseUnsafeUri alloc uri args = (.error, uri, args) := by
  have hrefused := @parseUnsafeUri_refused _ args _ alloc (mark_not_mem_uriPath uri) h
  rwa [uriPath_append_uriTail] at hrefused

theorem parse_plain {alloc : Bool} (h : ¬ Refused (uriTail uri).isNone (uriPath uri))
    (hplain : chr '%' ∉ uriPath uri) :
    parseUnsafeUri alloc uri args = (.ok, uriPath uri, (uriTail uri).getD args) := by
  have hpassed := @parseUnsafeUri_passed _ args _ alloc (mark_not_mem_uriPath uri) h
  rwa [uriPath_append_uriTail, if_neg hplain] at hpassed

theorem parse_quoted (h : ¬ Refused (uriTail uri).isNone (uriPath uri))
    (hquoted : chr '%' ∈ uriPath uri) :
    parseUnsafeUri false uri args = (.error, uriPath uri, (uriTail uri).getD args) ∧
      parseUnsafeUri true uri args =
        (if dotDotAt (unescapePlain (uriPath uri)) ∨
          unsafeUnescaped (unescapePlain (uriPath uri)) then .error else .ok,
          unescapePlain (uriPath uri), (uriTail uri).getD args) := by
  have hpassed := fun alloc => @parseUnsafeUri_passed _ args _ alloc (mark_not_mem_uriPath uri) h
  rw [uriPath_append_uriTail] at hpassed
  constructor
  · have hfail := hpassed false
    rwa [if_pos hquoted, if_neg Bool.false_ne_true] at hfail
  have hfull := hpassed true
  rw [if_pos hquoted, if_pos rfl] at hfull
  rw [hfull]
  by_cases hdots : dotDotAt (unescapePlain (uriPath uri)) = true
  · rw [if_pos hdots, if_pos (.inl hdots)]
  · rw [if_neg hdots]
    by_cases hscan : unsafeUnescaped (unescapePlain (uriPath uri)) = true
    · rw [if_pos hscan, if_pos (.inr hscan)]
    · rw [if_neg hscan, if_neg (not_or.mpr ⟨hdots, hscan⟩)]

theorem badPath_of_refused {whole : Bool} (h : Refused whole path) : BadPath path :=
  h.imp id (Or.imp id HasUp.whole)

/-- **The check of a URI.**  It is complete for every URI but two kinds: a last segment `..` that
the arguments follow, where nothing is escaped, and a path that unescaping makes empty. -/
theorem rightCheck_iff (uri args : Bytes) :
    RightCheck uri args ↔ ¬ UpBeforeMark uri ∧ ¬ VanishingPath uri := by
  constructor
  · intro hright
    constructor
    · intro hup
      have hpassed : ¬ Refused (uriTail uri).isNone (uriPath uri) :=
        hup.mark ▸ not_refused_of_upBeforeMark hup
      refine (hright.ok true _ _ (parse_plain hpassed hup.plain)).1 (.inr (.inr ?_))
      exact hasUp_true_iff.mpr (.inr hup.last)
    · intro hvanish
      have hquoted := percent_mem_of_vanishes hvanish.vanishes hvanish.ne_nil
      have hfull := (@parse_quoted _ args (not_refused_of_vanishingPath hvanish) hquoted).2
      rw [hvanish.vanishes.unescapePlain] at hfull
      exact (hright.ok true _ _ hfull).1 (.inl rfl)
  · rintro ⟨hup, hvanish⟩
    by_cases hrefused : Refused (uriTail uri).isNone (uriPath uri)
    · refine ⟨fun alloc uri' args' hok => ?_, fun _ _ _ => .inl (badPath_of_refused hrefused)⟩
      rw [parse_refused hrefused] at hok
      cases hok
    obtain ⟨hne, hclean⟩ := not_or.mp hrefused
    obtain ⟨hnul, hfree⟩ := not_or.mp hclean
    by_cases hquoted : chr '%' ∈ uriPath uri
    · obtain ⟨hfail, hfull⟩ := @parse_quoted _ args hrefused hquoted
      by_cases hscan : dotDotAt (unescapePlain (uriPath uri)) = true ∨
        unsafeUnescaped (unescapePlain (uriPath uri)) = true
      · rw [if_pos hscan] at hfull
        refine ⟨?_, fun _ _ _ => .inr (.inr (refused_unescaped.mp hscan))⟩
        intro alloc uri' args' hok
        cases alloc with
        | true =>
          rw [hfull] at hok
          cases hok
        | false =>
          rw [hfail] at hok
          cases hok
      · rw [if_neg hscan] at hfull
        refine ⟨?_, ?_⟩
        · intro alloc uri' args' hok
          cases alloc with
          | true =>
            rw [hfull] at hok
            cases hok
            refine ⟨?_, rfl⟩
            rintro (hnil | hbad)
            · exact hvanish ⟨hne, hnul, unescapePlain_eq_nil_iff.mp hnil⟩
            · exact hscan (refused_unescaped.mpr hbad)
          | false =>
            rw [hfail] at hok
            cases hok
        · intro uri' args' herror
          rw [hfull] at herror
          cases herror
    · have hplain := fun alloc => @parse_plain _ args alloc hrefused hquoted
      refine ⟨?_, ?_⟩
      · intro alloc uri' args' hok
        rw [hplain alloc] at hok
        cases hok
        refine ⟨?_, rfl⟩
        rintro (hnil | hzero | hmem)
        · exact hne hnil
        · exact hnul hzero
        cases hmark : (uriTail uri).isNone with
        | true =>
          rw [hmark] at hfree
          exact hfree hmem
        | false =>
          rw [hmark] at hfree
          exact hup ⟨hmark, hquoted, hnul, (hasUp_true_iff.mp hmem).resolve_left hfree, hfree⟩
      · intro uri' args' herror
        rw [hplain true] at herror
        cases herror

end Check

/-- `..` in front of the arguments is accepted. -/
theorem parseUnsafeUri_up : ¬ ∀ uri args, RightCheck uri args := by
  intro hall
  have hok : parseUnsafeUri true (ascii "/..?x") [] = (.ok, ascii "/..", ascii "x") := by decide
  refine ((hall (ascii "/..?x") []).ok true _ _ hok).1 (.inr (.inr ?_))
  decide

end Nginx.Http
