/-
  Http/Parse/UriDots.lean --- slashes and dot segments in a decoded path, and
  when `ngx_http_parse_complex_uri` returns the reference result.

  A walk with merging is a walk over the merged path.  Over one segment and the
  slash behind it a walk does one step of the removal of dot segments, except
  that `u -= 5` skips an empty segment: `..` then takes the one below as well.
  The last segment is only written.
-/
import Nginx.Http.Parse.UriNormal

set_option autoImplicit false

namespace Nginx.Http.Parse

open List Foundation Option
open Foundation.Segments

/-! ## Merging -/

variable {ch : Byte}

theorem walkStep_slash_iff {mergeSlashes : Bool} {q q' : PathState × Bytes}
    (h : walkStep mergeSlashes q ch = some q') : q'.1 = .slash ↔ ch = chr '/' := by
  obtain ⟨state, u⟩ := q
  by_cases hslash : ch = chr '/'
  · simp only [walkStep, hslash, if_true, iff_true] at h ⊢
    cases state with
    | usual => exact (some.inj h) ▸ rfl
    | slash =>
      cases mergeSlashes with
      | false => exact (some.inj h) ▸ rfl
      | true => exact (some.inj h) ▸ rfl
    | dot => exact (some.inj h) ▸ rfl
    | dotDot =>
      obtain ⟨u', -, rfl⟩ := map_eq_some_iff.mp h
      rfl
  · simp only [walkStep, hslash, if_false, iff_false] at h ⊢
    split at h
    · cases state <;> exact (some.inj h) ▸ PathState.noConfusion
    · exact (some.inj h) ▸ PathState.noConfusion

theorem walkStep_merge_eq {q : PathState × Bytes}
    (h : ¬ (q.1 = .slash ∧ ch = chr '/')) : walkStep true q ch = walkStep false q ch := by
  obtain ⟨state, u⟩ := q
  cases state <;> simp_all [walkStep]

theorem mergeFrom_cons {afterSlash : Bool} (h : ¬ (afterSlash = true ∧ ch = chr '/'))
    (path : Bytes) : mergeFrom afterSlash (ch :: path) = ch :: mergeFrom (ch = chr '/') path := by
  rw [mergeFrom]
  by_cases hslash : ch = chr '/'
  · rw [if_pos hslash, if_neg fun hafter => h ⟨hafter, hslash⟩, decide_eq_true hslash]
  · rw [if_neg hslash, decide_eq_false hslash]

theorem foldlM_walk_merge (path : Bytes) : ∀ q : PathState × Bytes,
    path.foldlM (walkStep true) q = (mergeFrom (q.1 = .slash) path).foldlM (walkStep false) q := by
  induction path with
  | nil => exact fun _ => rfl
  | cons ch path ih =>
    intro q
    by_cases hmerge : q.1 = .slash ∧ ch = chr '/'
    · obtain ⟨hstate, hslash⟩ := hmerge
      have hstep : walkStep true q ch = some q := by
        rw [walkStep, if_pos hslash, hstate]
        exact congrArg some (Prod.ext hstate.symm rfl)
      rw [foldlM_cons, hstep, bind_eq_bind, bind_some, ih]
      simp [mergeFrom, hslash, hstate]
    · rw [mergeFrom_cons (by simpa using hmerge), foldlM_cons, foldlM_cons,
        walkStep_merge_eq hmerge]
      cases hwalk : walkStep false q ch with
      | none => rfl
      | some q' =>
        rw [bind_eq_bind, bind_some, ih]
        simp [walkStep_slash_iff hwalk]

/-! ## `u -= 5` -/

theorem scanSlash_append {pre text post : Bytes} (hfree : chr '/' ∉ text) : ∀ {i : Nat},
    pre.length ≤ i → i ≤ pre.length + text.length →
    scanSlash (pre ++ chr '/' :: (text ++ post)) i = some (pre ++ [chr '/']) := by
  have hhit : (pre ++ chr '/' :: (text ++ post))[pre.length]? = some (chr '/') := by simp
  have htake : (pre ++ chr '/' :: (text ++ post)).take (pre.length + 1) = pre ++ [chr '/'] := by
    rw [take_length_add_append]
    rfl
  intro i
  induction i with
  | zero =>
    intro hle _
    have hpre : pre.length = 0 := Nat.le_zero.mp hle
    rw [hpre] at hhit htake
    rw [scanSlash, if_pos hhit, htake]
  | succ i ih =>
    intro hle htext
    by_cases hat : pre.length = i + 1
    · rw [hat] at hhit htake
      rw [scanSlash, if_pos hhit, htake]
    have hmiss : (pre ++ chr '/' :: (text ++ post))[i + 1]? ≠ some (chr '/') := by
      intro hget
      obtain ⟨k, rfl⟩ : ∃ k, i = pre.length + k := ⟨i - pre.length, by omega⟩
      rw [getElem?_append_right (by omega), show pre.length + k + 1 - pre.length = k + 1 by
        omega, getElem?_cons_succ, getElem?_append_left (by omega)] at hget
      exact hfree (mem_of_getElem? hget)
    rw [scanSlash, if_neg hmiss]
    exact ih (by omega) (by omega)

variable {out : List Bytes}

theorem popSegment_pathText (hfree : ∀ s ∈ out, chr '/' ∉ s) :
    popSegment (pathText (chr '/') (ascii ".." :: out)) =
      (popThrough [] out).map fun out => pathText (chr '/') ([] :: out) := by
  have hdots : (ascii "..").length = 2 := rfl
  cases out with
  | nil => rfl
  | cons s out =>
    have hs : chr '/' ∉ s := hfree s mem_cons_self
    have htext : pathText (chr '/') (ascii ".." :: s :: out) =
        pathText (chr '/') out ++ chr '/' :: (s ++ chr '/' :: ascii "..") := by
      simp [pathText, append_assoc]
    by_cases hempty : s = []
    · rw [popThrough, if_pos hempty]
      cases out with
      | nil =>
        rw [hempty]
        rfl
      | cons t out =>
        have ht : chr '/' ∉ t := hfree t (mem_cons_of_mem s mem_cons_self)
        have htext₂ : pathText (chr '/') (ascii ".." :: s :: t :: out) =
            pathText (chr '/') out ++ chr '/' :: (t ++ chr '/' :: chr '/' :: ascii "..") := by
          rw [htext, hempty]
          simp [pathText, append_assoc]
        rw [popSegment, htext₂, if_neg (by simp; omega),
          scanSlash_append ht (by simp; omega) (by simp; omega)]
        rfl
    · have hpos : 0 < s.length := length_pos_of_ne_nil hempty
      rw [popThrough, if_neg hempty, popSegment, htext, if_neg (by simp; omega),
        scanSlash_append hs (by simp; omega) (by simp; omega)]
      rfl

/-! ## Segments -/

/-- The state behind a segment. -/
def segmentState (s : Bytes) : PathState :=
  if s = [] then .slash else if s = ascii "." then .dot else if s = ascii ".." then .dotDot
  else .usual

theorem walkStep_segment {u s : Bytes} (hch : ch ≠ chr '/') :
    walkStep false (segmentState s, u) ch = some (segmentState (s ++ [ch]), u ++ [ch]) := by
  rw [walkStep, if_neg hch]
  by_cases hdot : ch = chr '.'
  · subst hdot
    rw [if_pos rfl]
    by_cases hnil : s = []
    · subst hnil
      rfl
    by_cases hone : s = ascii "."
    · subst hone
      rfl
    by_cases htwo : s = ascii ".."
    · subst htwo
      rfl
    have hlong : s ++ [chr '.'] ≠ ascii "." ∧ s ++ [chr '.'] ≠ ascii ".." := by
      constructor
      · intro h
        exact hnil (append_inj_left' (show s ++ [chr '.'] = [] ++ [chr '.'] from h) rfl)
      · intro h
        exact hone (append_inj_left' (show s ++ [chr '.'] = [chr '.'] ++ [chr '.'] from h) rfl)
    simp [segmentState, hnil, hone, htwo, hlong]
  · have hlong : s ++ [ch] ≠ ascii "." ∧ s ++ [ch] ≠ ascii ".." := by
      constructor
      · intro h
        exact hdot (cons.inj
          (append_inj_right' (show s ++ [ch] = [] ++ [chr '.'] from h) rfl)).1
      · intro h
        exact hdot (cons.inj
          (append_inj_right' (show s ++ [ch] = [chr '.'] ++ [chr '.'] from h) rfl)).1
    rw [if_neg hdot]
    simp [segmentState, hlong]

theorem foldlM_walk_segment {u : Bytes} {text : Bytes} (hfree : chr '/' ∉ text) : ∀ s : Bytes,
    text.foldlM (walkStep false) (segmentState s, u ++ s) =
      some (segmentState (s ++ text), u ++ (s ++ text)) := by
  induction text with
  | nil =>
    intro s
    rw [append_nil]
    rfl
  | cons ch text ih =>
    intro s
    obtain ⟨hch, hfree⟩ := not_or.mp (mt mem_cons.mpr hfree)
    rw [foldlM_cons, walkStep_segment (Ne.symm hch), bind_eq_bind, bind_some,
      append_assoc, ih hfree, append_assoc, singleton_append]

theorem walkStep_slash (hfree : ∀ s ∈ out, chr '/' ∉ s) (s : Bytes) :
    walkStep false (segmentState s, pathText (chr '/') (s :: out)) (chr '/') =
      (enter (ascii ".") (ascii "..") (popThrough []) out s).map
        fun out => (.slash, pathText (chr '/') ([] :: out)) := by
  by_cases hnil : s = []
  · subst hnil
    rfl
  by_cases hone : s = ascii "."
  · subst hone
    simp [walkStep, segmentState, enter, pathText, ascii]
  by_cases htwo : s = ascii ".."
  · subst htwo
    have hpop := popSegment_pathText hfree
    have hstate : segmentState (ascii "..") = .dotDot := rfl
    rw [walkStep, if_pos rfl, hstate]
    simp only [hpop, enter, Option.map_map]
    rfl
  · simp [walkStep, segmentState, enter, hnil, hone, htwo, pathText]

theorem foldlM_walk_segments {last : Bytes} (hlast : chr '/' ∉ last) : ∀ {dirs out : List Bytes},
    (∀ s ∈ dirs, chr '/' ∉ s) → (∀ s ∈ out, chr '/' ∉ s) →
    (dirs.flatMap (· ++ [chr '/']) ++ last).foldlM (walkStep false)
        (.slash, pathText (chr '/') ([] :: out)) =
      (dirs.foldlM (enter (ascii ".") (ascii "..") (popThrough [])) out).map
        fun out => (segmentState last, pathText (chr '/') (last :: out)) := by
  have hwalk : ∀ (out : List Bytes) (s : Bytes), chr '/' ∉ s →
      s.foldlM (walkStep false) (.slash, pathText (chr '/') ([] :: out)) =
        some (segmentState s, pathText (chr '/') (s :: out)) := by
    intro out s hs
    have hrun := foldlM_walk_segment (u := pathText (chr '/') ([] :: out)) hs []
    rw [append_nil, nil_append] at hrun
    rw [show PathState.slash = segmentState [] from rfl, hrun, pathText, pathText,
      append_assoc, cons_append, nil_append]
  intro dirs
  induction dirs with
  | nil =>
    intro out _ _
    rw [flatMap_nil, nil_append, hwalk out last hlast]
    rfl
  | cons s dirs ih =>
    intro out hdirs hout
    obtain ⟨hs, hdirs⟩ := forall_mem_cons.mp hdirs
    rw [flatMap_cons, append_assoc, append_assoc, foldlM_append, hwalk out s hs,
      bind_eq_bind, bind_some, singleton_append, foldlM_cons,
      walkStep_slash hout, foldlM_cons]
    cases henter : enter (ascii ".") (ascii "..") (popThrough []) out s with
    | none => rfl
    | some out' =>
      rw [map_some, bind_eq_bind, bind_some, bind_eq_bind,
        bind_some]
      refine ih hdirs fun t ht => ?_
      rcases enter_mem (fun _ _ h => popThrough_mem h) henter t ht with rfl | hmem
      · exact hs
      · exact hout t hmem

theorem intercalate_concat (sep : Byte) (dirs : List Bytes) (last : Bytes) :
    [sep].intercalate (dirs ++ [last]) = dirs.flatMap (· ++ [sep]) ++ last := by
  induction dirs with
  | nil => simp
  | cons s dirs ih =>
    rw [cons_append, intercalate_cons_of_ne_nil (by simp), ih, flatMap_cons,
      append_assoc (s ++ [sep]), append_assoc]

/-! ## The result -/

/-- The segments before the last of a path that starts with a slash. -/
def dirSegments (path : Bytes) : List Bytes := (segments path).dropLast

/-- The last segment. -/
def lastSegment (path : Bytes) : Bytes := (segments path).getLast (splitOn_ne_nil _ _)

theorem segments_eq (path : Bytes) : segments path = dirSegments path ++ [lastSegment path] :=
  (dropLast_append_getLast _).symm

variable {path : Bytes}

theorem not_mem_segments {s : Bytes} (hs : s ∈ segments path) : chr '/' ∉ s :=
  not_mem_of_mem_splitOn (chr '/') s hs

theorem removeDots_eq (path : Bytes) :
    removeDots path =
      (((dirSegments path).foldlM (enter (ascii ".") (ascii "..") popOne) []).bind
        (enterLast (ascii ".") (ascii "..") [] · (lastSegment path))).map
        (pathText (chr '/')) := by
  rw [removeDots, segments_eq, removeDotSegments_concat]

theorem foldlM_walk_path (mergeSlashes : Bool) (path : Bytes) :
    ((chr '/' :: path).foldlM (walkStep mergeSlashes) (.usual, [])).map Prod.snd =
      ((dirSegments (mergeSlashesIf mergeSlashes (chr '/' :: path))).foldlM
        (enter (ascii ".") (ascii "..") (popThrough [])) []).map
        fun out => pathText (chr '/')
          (lastSegment (mergeSlashesIf mergeSlashes (chr '/' :: path)) :: out) := by
  obtain ⟨tail, htail, hwalk⟩ : ∃ tail,
      mergeSlashesIf mergeSlashes (chr '/' :: path) = chr '/' :: tail ∧
      (chr '/' :: path).foldlM (walkStep mergeSlashes) (.usual, []) =
        tail.foldlM (walkStep false) (.slash, pathText (chr '/') [[]]) := by
    cases mergeSlashes with
    | false => exact ⟨path, rfl, rfl⟩
    | true =>
      refine ⟨mergeFrom true path, rfl, ?_⟩
      rw [foldlM_walk_merge]
      rfl
  rw [hwalk, htail]
  have htext : tail = (dirSegments (chr '/' :: tail)).flatMap (· ++ [chr '/']) ++
      lastSegment (chr '/' :: tail) := by
    rw [← intercalate_concat, ← segments_eq]
    exact (intercalate_splitOn (chr '/')).symm
  have hfree : ∀ s ∈ segments (chr '/' :: tail), chr '/' ∉ s := fun s hs => not_mem_segments hs
  rw [segments_eq] at hfree
  obtain ⟨hdirs, hlast⟩ := forall_mem_append.mp hfree
  conv_lhs => rw [htext]
  rw [foldlM_walk_segments (hlast _ (mem_singleton_self _)) hdirs
    fun s hs => absurd hs not_mem_nil, Option.map_map]
  rfl

/-- The decoded path of a raw URI, as far as its escapes are right, with the
slashes merged if they are to be. -/
def decodedPath (mergeSlashes : Bool) (raw : Bytes) : Bytes :=
  mergeSlashesIf mergeSlashes (unescape (cutPath raw)).1

theorem parseComplexUri_uri_eq (mergeSlashes : Bool) (tail : Bytes) :
    (parseComplexUri mergeSlashes (chr '/' :: tail)).map ComplexResult.uri =
      if BadEscape (chr '/' :: tail) then none
      else ((dirSegments (decodedPath mergeSlashes (chr '/' :: tail))).foldlM
        (enter (ascii ".") (ascii "..") (popThrough [])) []).map
        fun out => pathText (chr '/')
          (lastSegment (decodedPath mergeSlashes (chr '/' :: tail)) :: out) := by
  rw [parseComplexUri_uri, written_feed _ _ (le_rfl) .start (.usual, []) rfl rfl, pathResult]
  have hcut : cutPath (chr '/' :: tail) = chr '/' :: cutPath tail :=
    cutPath_cons (by decide) (by decide) tail
  have hslash : chr '/' ≠ chr '%' := by decide
  simp only [decodedPath, hcut, unescape_cons hslash, foldlM_walk_path]

theorem referenceUri_eq (mergeSlashes : Bool) (raw : Bytes) :
    referenceUri mergeSlashes raw =
      if (unescape (cutPath raw)).2 = .whole then removeDots (decodedPath mergeSlashes raw)
      else none := by
  rw [referenceUri, percentDecode, decodedPath]
  split <;> rfl

/-- `..`, with a segment behind it, finds no segment to take, when it takes an
empty segment together with the one below. -/
def ClimbsThrough (path : Bytes) : Prop :=
  (dirSegments path).foldlM (enter (ascii ".") (ascii "..") (popThrough [])) [] = none

/-- The raw URIs that are normalised as the reference says: those refused for
an escape; those refused for a `..` that the reference refuses too; and those
that do not end inside an escape, in `.` or in `..`, and have no `..` directly
over an empty segment. -/
def NormalisedRight (mergeSlashes : Bool) (raw : Bytes) : Prop :=
  BadEscape raw ∨
  (ClimbsThrough (decodedPath mergeSlashes raw) ∧
    ((unescape (cutPath raw)).2 = .cutShort ∨ removeDots (decodedPath mergeSlashes raw) = none)) ∨
  ((unescape (cutPath raw)).2 = .whole ∧
    lastSegment (decodedPath mergeSlashes raw) ≠ ascii "." ∧
    lastSegment (decodedPath mergeSlashes raw) ≠ ascii ".." ∧
    ¬ UpOverEmpty (ascii ".") (ascii "..") [] (dirSegments (decodedPath mergeSlashes raw)) [])

theorem enterLast_eq_some {out' : List Bytes} {last : Bytes}
    (h : enterLast (ascii ".") (ascii "..") [] out last = some out') :
    ∃ s rest, out' = s :: rest ∧ (s = [] ∨ s = last) ∧
      (last = ascii "." ∨ last = ascii ".." → s = []) ∧
      (last ≠ ascii "." → last ≠ ascii ".." → rest = out) ∧ ∀ t ∈ rest, t ∈ out := by
  rw [enterLast] at h
  split at h
  · cases h
    exact ⟨[], out, rfl, Or.inl rfl, fun _ => rfl, fun _ _ => rfl, fun t ht => ht⟩
  split at h
  · rename_i hup
    obtain ⟨rest, hpop, rfl⟩ := map_eq_some_iff.mp h
    exact ⟨[], rest, rfl, Or.inl rfl, fun _ => rfl, fun _ hne => absurd hup hne, popOne_mem hpop⟩
  · rename_i hhere hup
    cases h
    exact ⟨last, out, rfl, Or.inr rfl, fun hdot => (hdot.elim hhere hup).elim, fun _ _ => rfl,
      fun t ht => ht⟩

/-- Where the walk agrees with the specification it meets none of the slips. -/
theorem of_pathText_eq_removeDots
    (hrun : (dirSegments path).foldlM (enter (ascii ".") (ascii "..") (popThrough [])) [] =
      some out)
    (hsame : some (pathText (chr '/') (lastSegment path :: out)) = removeDots path) :
    lastSegment path ≠ ascii "." ∧ lastSegment path ≠ ascii ".." ∧
      ¬ UpOverEmpty (ascii ".") (ascii "..") [] (dirSegments path) [] := by
  have hfree : ∀ s ∈ segments path, chr '/' ∉ s := fun s hs => not_mem_segments hs
  rw [segments_eq] at hfree
  obtain ⟨hdirs, hlast⟩ := forall_mem_append.mp hfree
  replace hlast := hlast _ (mem_singleton_self _)
  have hout : ∀ s ∈ out, chr '/' ∉ s := fun s hs =>
    (foldlM_enter_mem (fun _ _ h => popThrough_mem h) hrun s hs).elim (hdirs s)
      fun hnil => absurd hnil not_mem_nil
  rw [removeDots_eq] at hsame
  obtain ⟨out', hout', htext⟩ := map_eq_some_iff.mp hsame.symm
  obtain ⟨high, hhigh, hend⟩ := bind_eq_some_iff.mp hout'
  have hhighFree : ∀ s ∈ high, chr '/' ∉ s := fun s hs =>
    (foldlM_enter_mem (fun _ _ h => popOne_mem h) hhigh s hs).elim (hdirs s)
      fun hnil => absurd hnil not_mem_nil
  obtain ⟨s, rest, rfl, hs, hdot, hrest, hmem⟩ := enterLast_eq_some hend
  have hsFree : chr '/' ∉ s := by
    rcases hs with rfl | rfl
    · exact not_mem_nil
    · exact hlast
  -- the two texts have the same segments
  have hsegs := pathText_injective (chr '/')
    (forall_mem_cons.mpr ⟨hsFree, fun t ht => hhighFree t (hmem t ht)⟩)
    (forall_mem_cons.mpr ⟨hlast, hout⟩) htext
  rw [cons.injEq] at hsegs
  have hne : lastSegment path ≠ ascii "." ∧ lastSegment path ≠ ascii ".." := by
    rw [← not_or]
    intro hdots
    have hempty := hsegs.1.symm.trans (hdot hdots)
    rcases hdots with h | h <;> rw [h] at hempty <;> exact absurd hempty (by decide)
  refine ⟨hne.1, hne.2, fun hover => ?_⟩
  rcases foldlM_popThrough_lt (by decide) hover with hnone | ⟨low, high', hlow, hhigh', hlt⟩
  · rw [hrun] at hnone
    cases hnone
  rw [hrun] at hlow
  rw [hhigh] at hhigh'
  cases hlow
  cases hhigh'
  have hlen := congrArg List.length hsegs.2
  rw [hrest hne.1 hne.2] at hlen
  omega

theorem pathText_eq_removeDots (hone : lastSegment path ≠ ascii ".")
    (htwo : lastSegment path ≠ ascii "..")
    (hover : ¬ UpOverEmpty (ascii ".") (ascii "..") [] (dirSegments path) []) :
    ((dirSegments path).foldlM (enter (ascii ".") (ascii "..") (popThrough [])) []).map
      (fun out => pathText (chr '/') (lastSegment path :: out)) = removeDots path := by
  rw [removeDots_eq, foldlM_popThrough_eq (by decide) hover]
  cases (dirSegments path).foldlM (enter (ascii ".") (ascii "..") popOne) [] with
  | none => rfl
  | some out => simp [enterLast, hone, htwo]

/-- **Complex URIs.**  The normalised path is that of the reference, and the
URI is refused with it, on the raw URIs of the three kinds and on no other. -/
theorem parseComplexUri_right_iff (mergeSlashes : Bool) (tail : Bytes) :
    (parseComplexUri mergeSlashes (chr '/' :: tail)).map ComplexResult.uri =
        referenceUri mergeSlashes (chr '/' :: tail) ↔
      NormalisedRight mergeSlashes (chr '/' :: tail) := by
  rw [parseComplexUri_uri_eq, referenceUri_eq, NormalisedRight, ClimbsThrough]
  generalize decodedPath mergeSlashes (chr '/' :: tail) = path
  by_cases hbad : BadEscape (chr '/' :: tail)
  · have hnot : (unescape (cutPath (chr '/' :: tail))).2 ≠ .whole := by
      rcases hbad with h | ⟨h, -⟩ <;> rw [h] <;> simp
    simp only [hbad, if_true, hnot, if_false, true_or]
  have hends : (unescape (cutPath (chr '/' :: tail))).2 ≠ .whole →
      (unescape (cutPath (chr '/' :: tail))).2 = .cutShort := by
    intro hne
    cases h : (unescape (cutPath (chr '/' :: tail))).2 with
    | whole => exact absurd h hne
    | cutShort => rfl
    | bad => exact absurd (Or.inl h) hbad
  simp only [hbad, if_false, false_or]
  by_cases hwhole : (unescape (cutPath (chr '/' :: tail))).2 = .whole
  · simp only [hwhole, if_true, reduceCtorEq, false_or, true_and]
    constructor
    · intro hsame
      cases hrun : (dirSegments path).foldlM
          (enter (ascii ".") (ascii "..") (popThrough [])) [] with
      | none =>
        rw [hrun] at hsame
        exact Or.inl ⟨rfl, hsame.symm⟩
      | some out =>
        rw [hrun] at hsame
        exact Or.inr (of_pathText_eq_removeDots hrun hsame)
    · rintro (⟨hnone, href⟩ | ⟨hone, htwo, hover⟩)
      · rw [hnone, href]
        rfl
      · exact pathText_eq_removeDots hone htwo hover
  · simp only [hends hwhole, reduceCtorEq, if_false, true_or, and_true, false_and, or_false,
      map_eq_none_iff]

/-- The last segment of each kind that the parser leaves alone, an escape cut
short, and a `..` that takes two segments. -/
theorem parseComplexUri_wrong :
    (parseComplexUri true (ascii "/a/..")).map ComplexResult.uri = some (ascii "/a/..") ∧
    referenceUri true (ascii "/a/..") = some (ascii "/") ∧
    (parseComplexUri true (ascii "/a%4")).map ComplexResult.uri = some (ascii "/a") ∧
    referenceUri true (ascii "/a%4") = none ∧
    (parseComplexUri false (ascii "/a//../b")).map ComplexResult.uri = some (ascii "/b") ∧
    referenceUri false (ascii "/a//../b") = some (ascii "/a/b") := by
  decide +kernel

end Nginx.Http.Parse
