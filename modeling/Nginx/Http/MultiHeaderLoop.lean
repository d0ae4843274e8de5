/-
  Http/MultiHeaderLoop.lean --- when `ngx_http_parse_multi_header_lines` finds
  the first value of a name.
-/
import Mathlib.Data.List.TakeWhile
import Nginx.Http.MultiHeaderLines

set_option autoImplicit false

namespace Nginx.Http

open List Foundation Option
open Nginx.Core (Str strlow tolower strncasecmp skipWhile)

/-! ## Components that are the name -/

section Names

variable {name text : Bytes}

/-- No separator is in a name. -/
def IsName (name : Bytes) : Prop := name ≠ [] ∧ ∀ ch ∈ name, isPairSeparator ch = false

set_option maxRecDepth 4000 in
theorem isPairSeparator_tolower (ch : Byte) :
    isPairSeparator (tolower ch) = isPairSeparator ch := by
  revert ch
  apply forall_byte
  decide

theorem noSeparator_of_strlow {s t : Bytes} (h : strlow s = strlow t)
    (ht : ∀ ch ∈ t, isPairSeparator ch = false) :
    ∀ ch ∈ s, isPairSeparator ch = false := by
  intro ch hch
  have hmem : tolower ch ∈ strlow t := by
    rw [← h]
    exact mem_map.mpr ⟨ch, hch, rfl⟩
  obtain ⟨ch', hch', heq⟩ := mem_map.mp hmem
  rw [← isPairSeparator_tolower, ← heq, isPairSeparator_tolower]
  exact ht ch' hch'

theorem noSeparator_takeWhile_space (s : Bytes) :
    ∀ ch ∈ s.takeWhile (· == chr ' '), isPairSeparator ch = false := by
  intro ch hch
  have hspace := mem_takeWhile_imp hch
  rw [beq_iff_eq] at hspace
  rw [hspace]
  rfl

theorem nextText_behindName (hname : IsName name)
    (h : strlow (text.take name.length) = strlow name) :
    nextText text = nextText ((text.drop name.length).dropWhile (· == chr ' ')) := by
  have hsplit : text = text.take name.length ++ ((text.drop name.length).takeWhile (· == chr ' ') ++
      (text.drop name.length).dropWhile (· == chr ' ')) := by
    rw [takeWhile_append_dropWhile, take_append_drop]
  conv_lhs => rw [hsplit]
  rw [nextText_append (noSeparator_of_strlow h hname.2),
    nextText_append (noSeparator_takeWhile_space _)]

theorem nextText_dropWhile_space (text : Bytes) :
    nextText (text.dropWhile (· == chr ' ')) = nextText text := by
  conv_rhs => rw [← takeWhile_append_dropWhile (p := (· == chr ' ')) (l := text)]
  rw [nextText_append (noSeparator_takeWhile_space _)]

theorem isPair_iff : isPair name text = true ↔ strlow (text.take name.length) = strlow name ∧
    ((text.drop name.length).dropWhile (· == chr ' ')).head? = some (chr '=') := by
  rw [isPair, behindName]
  split
  · next h => rw [any_some, beq_iff_eq, and_iff_right h]
  · next h => exact iff_of_false (by rw [any_none]; exact Bool.false_ne_true) fun hc => h hc.1

theorem isBare_iff : isBare name text = true ↔ strlow (text.take name.length) = strlow name ∧
    ((text.drop name.length).dropWhile (· == chr ' ')).head?.any isPairSeparator = true := by
  rw [isBare, behindName]
  split
  · next h => rw [any_some, and_iff_right h]
  · next h => exact iff_of_false (by rw [any_none]; exact Bool.false_ne_true) fun hc => h hc.1

theorem length_nextText_le_pairValue (hname : IsName name) (h : isPair name text = true) :
    (nextText text).length ≤ (pairValue name text).length := by
  obtain ⟨htake, hhead⟩ := isPair_iff.mp h
  obtain ⟨rest, hrest⟩ := head?_eq_some_iff.mp hhead
  have heq : isPairSeparator (chr '=') = false := rfl
  rw [nextText_behindName hname htake, pairValue, hrest, nextText_other heq, drop_one, tail_cons,
    ← nextText_dropWhile_space]
  exact (nextText_suffix _).length_le

theorem length_pairValue_lt (h : isPair name text = true) :
    (pairValue name text).length < text.length := by
  obtain ⟨-, hhead⟩ := isPair_iff.mp h
  obtain ⟨rest, hrest⟩ := head?_eq_some_iff.mp hhead
  have hvalue := (dropWhile_suffix (l := rest) (· == chr ' ')).length_le
  have hbehind := (dropWhile_suffix (l := text.drop name.length) (· == chr ' ')).length_le
  rw [hrest, length_cons, length_drop] at hbehind
  rw [pairValue, hrest, drop_one, tail_cons]
  omega

end Names

/-! ## The loop over a header -/

section HeaderLine

variable {mem : Nat → Byte} {h : Str} {name : Bytes} {start : Nat}

/-- A header that has been parsed: no NUL is in its value, and one is behind it. -/
structure Parsed (mem : Nat → Byte) (h : Str) : Prop where
  noNul : 0 ∉ h.text mem
  terminated : mem (h.data + h.len) = 0

theorem passSpaces_spec (mem : Nat → Byte) (hle : start ≤ h.data + h.len) :
    start ≤ passSpaces mem (h.data + h.len) start ∧
      passSpaces mem (h.data + h.len) start ≤ h.data + h.len ∧
      h.rest mem (passSpaces mem (h.data + h.len) start) =
        (h.rest mem start).dropWhile (· == chr ' ') :=
  Core.skipWhile_spec mem _ hle

theorem skipLoop_spec (mem : Nat → Byte) (hle : start ≤ h.data + h.len) :
    start ≤ skipLoop mem (h.data + h.len - start) start ∧
      skipLoop mem (h.data + h.len - start) start ≤ h.data + h.len ∧
      (start < h.data + h.len → start < skipLoop mem (h.data + h.len - start) start) ∧
      h.rest mem (skipLoop mem (h.data + h.len - start) start) =
        ((h.rest mem start).dropWhile fun ch => !isPairSeparator ch).drop 1 := by
  generalize hleft : h.data + h.len - start = left
  induction left generalizing start with
  | zero =>
    have hend : h.data + h.len ≤ start := by omega
    refine ⟨Nat.le_refl start, hle, fun hlt => absurd hlt (not_lt.mpr hend), ?_⟩
    rw [skipLoop, Str.rest_of_le hend]
    rfl
  | succ left ih =>
    have hlt : start < h.data + h.len := by omega
    rw [skipLoop, Str.rest_cons hlt]
    split
    · next hsep =>
      refine ⟨Nat.le_succ start, hlt, fun _ => Nat.lt_succ_self start, ?_⟩
      rw [dropWhile_cons_of_neg (by rw [hsep]; decide), drop_one, tail_cons]
    · next hsep =>
      obtain ⟨hfrom, hto, -, hrest⟩ := @ih (start + 1) hlt (by omega)
      refine ⟨by omega, hto, fun _ => by omega, ?_⟩
      rw [hrest, dropWhile_cons_of_pos (by rw [eq_false_of_ne_true hsep]; rfl)]

theorem skipPair_spec (mem : Nat → Byte) (hle : start ≤ h.data + h.len) :
    start ≤ skipPair mem (h.data + h.len) start ∧
      skipPair mem (h.data + h.len) start ≤ h.data + h.len ∧
      (start < h.data + h.len → start < skipPair mem (h.data + h.len) start) ∧
      h.rest mem (skipPair mem (h.data + h.len) start) = nextText (h.rest mem start) := by
  obtain ⟨hfrom, hto, hlt, hloop⟩ := skipLoop_spec mem hle
  obtain ⟨hfrom', hto', hrest⟩ := passSpaces_spec mem hto
  refine ⟨le_trans hfrom hfrom', hto', fun h => lt_of_lt_of_le (hlt h) hfrom', ?_⟩
  rw [skipPair, hrest, hloop, nextText]

theorem strncasecmp_eq_zero_iff (hparsed : Parsed mem h) (hdata : h.data ≤ start)
    (hle : start ≤ h.data + h.len) (name : Bytes) :
    strncasecmp mem start name = 0 ↔ strlow ((h.rest mem start).take name.length) = strlow name ∨
      (0 ∈ name ∧ strlow (h.rest mem start) = strlow (name.takeWhile (· != 0))) := by
  induction name generalizing start with
  | nil => exact iff_of_true rfl (.inl rfl)
  | cons c name ih =>
    have hzero : tolower 0 = 0 := rfl
    rcases eq_or_lt_of_le hle with rfl | hlt
    · have hfirst : strlow (List.take (c :: name).length ([] : Bytes)) ≠ strlow (c :: name) := by
        rw [take_nil]
        exact fun hc => by cases hc
      rw [Str.rest_of_le (le_rfl), or_iff_right hfirst, strncasecmp,
        hparsed.terminated, hzero]
      by_cases hc : c = 0
      · subst hc
        exact iff_of_true rfl ⟨mem_cons_self, rfl⟩
      rw [takeWhile_cons_of_pos (by rwa [bne_iff_ne])]
      refine iff_of_false ?_ fun hboth => by cases hboth.2
      have hne : (0 : Byte) ≠ tolower c := fun heq => hc (Core.tolower_eq_zero.mp heq.symm)
      rw [if_neg hne]
      exact fun hsub => hne (UInt8.toNat_inj.mp (by simp at hsub ⊢; omega))
    · have hne : mem start ≠ 0 := by
        intro heq
        refine hparsed.noNul (mem_of_mem_drop (i := start - h.data) ?_)
        rw [← Str.rest_data, Str.drop_rest (by omega), Nat.add_sub_cancel' hdata,
          Str.rest_cons hlt, heq]
        exact mem_cons_self
      have hlow : tolower (mem start) ≠ 0 := fun heq => hne (Core.tolower_eq_zero.mp heq)
      rw [strncasecmp, Str.rest_cons hlt, length_cons, take_succ_cons,
        strlow, strlow, map_cons, map_cons,
        cons.injEq]
      by_cases heq : tolower (mem start) = tolower c
      · have hc : c ≠ 0 := fun hc => hlow (heq.trans (by rw [hc]; rfl))
        rw [if_pos heq, if_pos hlow, ih (Nat.le_succ_of_le hdata) hlt,
          takeWhile_cons_of_pos (by rwa [bne_iff_ne]), mem_cons,
          or_iff_right (Ne.symm hc), and_iff_right heq]
        refine or_congr_right (and_congr_right fun _ => ?_)
        rw [strlow, strlow, strlow, strlow, map_cons, map_cons, cons.injEq, and_iff_right heq]
      rw [if_neg heq]
      refine iff_of_false (fun hsub => heq (UInt8.toNat_inj.mp (by omega))) ?_
      rintro (⟨heq', -⟩ | ⟨-, hlow'⟩)
      · exact heq heq'
      by_cases hc : c = 0
      · rw [hc, takeWhile_cons_of_neg (by decide)] at hlow'
        cases hlow'
      · rw [takeWhile_cons_of_pos (by rwa [bne_iff_ne]), strlow, strlow,
          map_cons, map_cons, cons.injEq] at hlow'
        exact heq hlow'.1

theorem sub_length_rest (hle : start ≤ h.data + h.len) :
    h.data + h.len - (h.rest mem start).length = start := by
  rw [Str.length_rest]
  omega

theorem headerLineLoop_none (mem : Nat → Byte) (stop : Nat) (name : Bytes)
    (isNull : Bool) (left : Nat) (hle : stop ≤ start) :
    headerLineLoop mem stop name isNull left start = none := by
  cases left with
  | zero => rfl
  | succ left => rw [headerLineLoop, if_pos hle]

/-- The loop picks from the components of the text, one at a time. -/
theorem headerLineLoop_eq_pickPair (hparsed : Parsed mem h) (hname : IsName name)
    (hnul : 0 ∉ name) (left : Nat)
    (hdata : h.data ≤ start) (hle : start ≤ h.data + h.len)
    (hleft : h.data + h.len - start ≤ left) :
    headerLineLoop mem (h.data + h.len) name false left start =
      (pickPair name (componentsFrom .begin (h.rest mem start))).map fun t =>
        some (valueStr (h.data + h.len) name t) := by
  induction left generalizing start with
  | zero =>
    rw [Str.rest_of_le (by omega)]
    rfl
  | succ left ih =>
    rcases eq_or_lt_of_le hle with rfl | hlt
    · rw [headerLineLoop_none _ _ _ _ _ (le_rfl), Str.rest_of_le (le_rfl)]
      rfl
    have hne : h.rest mem start ≠ [] := by
      rw [Str.rest_cons hlt]
      exact cons_ne_nil _ _
    have hcompare := strncasecmp_eq_zero_iff hparsed hdata hle name
    rw [or_iff_left fun hboth => hnul hboth.1] at hcompare
    obtain ⟨hskip, hskip', hpast, hskipped⟩ := skipPair_spec mem hle
    rw [headerLineLoop, if_neg (not_le.mpr hlt), componentsFrom_begin hne]
    by_cases htake : strlow ((h.rest mem start).take name.length) = strlow name
    · rw [if_neg (not_not.mpr (hcompare.mpr htake))]
      have hfits : start + name.length ≤ h.data + h.len := by
        have hlen := congrArg List.length htake
        rw [strlow, strlow, length_map, length_map, length_take, Str.length_rest] at hlen
        omega
      obtain ⟨hfrom, hto, hrest⟩ := passSpaces_spec mem hfits
      rw [← Str.drop_rest hfits] at hrest
      have hnext := nextText_behindName hname htake
      rw [← hrest] at hnext
      have hpair : isPair name (h.rest mem start) = true ↔
          (h.rest mem (passSpaces mem (h.data + h.len) (start + name.length))).head? =
            some (chr '=') := by
        rw [isPair_iff, ← hrest, and_iff_right htake]
      have hbare : isBare name (h.rest mem start) = true ↔
          (h.rest mem (passSpaces mem (h.data + h.len) (start + name.length))).head?.any
            isPairSeparator = true := by
        rw [isBare_iff, ← hrest, and_iff_right htake]
      have hvalue : pairValue name (h.rest mem start) =
          ((h.rest mem (passSpaces mem (h.data + h.len) (start + name.length))).drop 1).dropWhile
            (· == chr ' ') := by
        rw [hrest, pairValue]
      generalize passSpaces mem
        (h.data + h.len) (start + name.length) = place at hfrom hto hrest hnext hpair hbare hvalue
      simp only [Bool.false_eq_true, if_false]
      rcases eq_or_lt_of_le hto with rfl | hplace
      · -- the name is all that is left
        rw [Str.rest_of_le (le_rfl)] at hpair hbare hnext
        obtain ⟨hend, -⟩ := skipPair_spec (h := h) mem (le_rfl)
        rw [if_pos rfl, headerLineLoop_none _ _ _ _ _ hend, hnext,
          pickPair_other (eq_false_of_ne_true (mt hpair.mp (by simp)))
            (eq_false_of_ne_true (mt hbare.mp (by simp)))]
        rfl
      · rw [if_neg (ne_of_lt hplace)]
        rw [Str.rest_cons hplace] at hpair hbare hnext hvalue
        rw [head?_cons, some.injEq] at hpair
        rw [head?_cons, any_some] at hbare
        rw [drop_one, tail_cons] at hvalue
        obtain ⟨hskip, hskip', -, hskipped⟩ := @skipPair_spec h (place + 1) mem hplace
        have hrecur := @ih (skipPair mem (h.data + h.len) (place + 1)) (by omega) hskip' (by omega)
        rw [hskipped] at hrecur
        by_cases heq : mem place = chr '='
        · rw [if_neg (not_not.mpr heq), pickPair_pair (hpair.mpr heq), map_some]
          obtain ⟨hfrom', hto', hrest'⟩ := @passSpaces_spec h (place + 1) mem hplace
          obtain ⟨hfrom'', hto'', hrest''⟩ := Core.skipWhile_spec mem (· != chr ';') hto'
          have hlast := congrArg List.length (takeWhile_append_dropWhile (p := (· != chr ';'))
            (l := h.rest mem (passSpaces mem (h.data + h.len) (place + 1))))
          rw [length_append, ← hrest'', Str.length_rest, Str.length_rest] at hlast
          rw [valueStr, hvalue, ← hrest', sub_length_rest hto']
          refine congrArg _ (congrArg _ (congrArg _ ?_))
          omega
        · rw [if_pos heq, hrecur]
          have hnot := eq_false_of_ne_true (mt hpair.mp heq)
          cases hsep : isPairSeparator (mem place) with
          | false =>
            rw [pickPair_other hnot
              (eq_false_of_ne_true (by rw [hbare, hsep]; exact Bool.false_ne_true)), hnext,
              nextText_other hsep]
          | true =>
            -- the separator is taken, and the next component goes with it
            rw [pickPair_bare hnot (hbare.mpr hsep), hnext, nextText_separator hsep,
              ← nextText_dropWhile_space]
            by_cases hlast : (h.rest mem (place + 1)).dropWhile (· == chr ' ') = []
            · rw [hlast]
              rfl
            · rw [componentsFrom_begin hlast, tail_cons]
    · rw [if_pos (mt hcompare.mp htake),
        ih (le_trans hdata hskip) hskip' (by have := hpast hlt; omega),
        hskipped, pickPair_other]
      · exact eq_false_of_ne_true fun hpair => htake (isPair_iff.mp hpair).1
      · exact eq_false_of_ne_true fun hbare => htake (isBare_iff.mp hbare).1

/-- With a NUL in the name, the end of the header can be taken for it: a component at the end is
what the name has before the NUL, and an equals sign is in memory where the name would end. -/
def SpillsFrom (mem : Nat → Byte) (stop : Nat) (name t : Bytes) : Prop :=
  0 ∈ name ∧ strlow t = strlow (name.takeWhile (· != 0)) ∧
    mem (stop - t.length + name.length) = chr '='

theorem length_takeWhile_nul {name : Bytes} (hnul : 0 ∈ name) :
    (name.takeWhile (· != 0)).length < name.length := by
  have hle := (List.takeWhile_prefix (l := name) (· != 0)).length_le
  refine lt_of_le_of_ne hle fun heq => ?_
  have hself := (List.takeWhile_prefix (l := name) (· != 0)).eq_of_length heq
  have hmem := mem_takeWhile_imp (hself.symm ▸ hnul)
  exact absurd hmem (by decide)

theorem headerLineLoop_nul (hparsed : Parsed mem h) (hname : IsName name)
    (hnul : 0 ∈ name) (left : Nat)
    (hdata : h.data ≤ start) (hle : start ≤ h.data + h.len)
    (hleft : h.data + h.len - start ≤ left) :
    headerLineLoop mem (h.data + h.len) name false left start = none ↔
      ∀ t ∈ componentsFrom .begin (h.rest mem start), ¬ SpillsFrom mem (h.data + h.len) name t := by
  induction left generalizing start with
  | zero =>
    rw [Str.rest_of_le (by omega)]
    exact iff_of_true rfl fun t ht => absurd ht not_mem_nil
  | succ left ih =>
    rcases eq_or_lt_of_le hle with rfl | hlt
    · rw [headerLineLoop_none _ _ _ _ _ (le_rfl), Str.rest_of_le (le_rfl)]
      exact iff_of_true rfl fun t ht => absurd ht not_mem_nil
    have hne : h.rest mem start ≠ [] := by
      rw [Str.rest_cons hlt]
      exact cons_ne_nil _ _
    have hfree : 0 ∉ h.rest mem start := by
      intro hmem
      refine hparsed.noNul (mem_of_mem_drop (i := start - h.data) ?_)
      rwa [← Str.rest_data, Str.drop_rest (by omega), Nat.add_sub_cancel' hdata]
    have hexact : strlow ((h.rest mem start).take name.length) ≠ strlow name := by
      intro heq
      have hmem : 0 ∈ strlow ((h.rest mem start).take name.length) := by
        rw [heq]
        exact mem_map.mpr ⟨0, hnul, rfl⟩
      obtain ⟨c, hc, hzero⟩ := mem_map.mp hmem
      rw [Core.tolower_eq_zero.mp hzero] at hc
      exact hfree (mem_of_mem_take hc)
    have hcompare := strncasecmp_eq_zero_iff hparsed hdata hle name
    rw [or_iff_right hexact, and_iff_right hnul] at hcompare
    have hspills : SpillsFrom mem (h.data + h.len) name (h.rest mem start) ↔
        strncasecmp mem start name = 0 ∧ mem (start + name.length) = chr '=' := by
      rw [SpillsFrom, and_iff_right hnul, hcompare, sub_length_rest hle]
    rw [headerLineLoop, if_neg (not_le.mpr hlt), componentsFrom_begin hne,
      forall_mem_cons, hspills]
    by_cases hmatch : strncasecmp mem start name = 0
    · have hlow := hcompare.mp hmatch
      have hpast : h.data + h.len < start + name.length := by
        have hlen := congrArg List.length hlow
        have hshort := length_takeWhile_nul hnul
        rw [strlow, strlow, length_map, length_map, Str.length_rest] at hlen
        omega
      have hspaces : ∀ place, h.data + h.len ≤ place →
        passSpaces mem (h.data + h.len) place = place := by
        intro place hplace
        rw [passSpaces, Nat.sub_eq_zero_of_le hplace, skipWhile]
      have hskip : ∀ place, h.data + h.len ≤ place →
        skipPair mem (h.data + h.len) place = place := by
        intro place hplace
        rw [skipPair, Nat.sub_eq_zero_of_le hplace, skipLoop, hspaces place hplace]
      have hlast : nextText (h.rest mem start) = [] := by
        have hno : ∀ ch ∈ h.rest mem start, isPairSeparator ch = false :=
          noSeparator_of_strlow hlow fun ch hch => hname.2 ch ((List.takeWhile_prefix _).subset hch)
        rw [← append_nil (h.rest mem start), nextText_append hno]
        rfl
      rw [if_neg (not_not.mpr hmatch), hlast, and_iff_right hmatch, hspaces _ (le_of_lt hpast)]
      simp only [Bool.false_eq_true, if_false]
      rw [if_neg (ne_of_gt hpast)]
      by_cases heq : mem (start + name.length) = chr '='
      · rw [if_neg (not_not.mpr heq)]
        exact iff_of_false (by simp) fun hboth => hboth.1 heq
      · have hbehind : h.data + h.len ≤ start + name.length + 1 := by omega
        rw [if_pos heq, hskip _ hbehind, headerLineLoop_none _ _ _ _ _ hbehind]
        exact iff_of_true rfl ⟨heq, fun t ht => absurd ht not_mem_nil⟩
    · obtain ⟨hskip, hskip', hpast, hskipped⟩ := skipPair_spec mem hle
      rw [if_pos hmatch, ih (le_trans hdata hskip) hskip' (by have := hpast hlt; omega),
        hskipped]
      exact (and_iff_right fun hboth => hmatch hboth.1).symm

end HeaderLine

/-! ## Headers -/

section Headers

variable {mem : Nat → Byte} {h : Str} {headers : List Str} {name : Bytes}

/-- A header that is longer than the name spills. -/
def Spills (mem : Nat → Byte) (h : Str) (name : Bytes) : Prop :=
  name.length ≤ h.len ∧
    ∃ t ∈ componentsFrom .begin (h.text mem), SpillsFrom mem (h.data + h.len) name t

/-- The first value of the name can be found: no header spills, and in the first header with a pair
of this name, an even number of components directly before the pair are the name alone. -/
def Findable (mem : Nat → Byte) (headers : List Str) (name : Bytes) : Prop :=
  (∀ h ∈ headers, ¬ Spills mem h name) ∧
    ∀ h, headers.find? (fun h => (findPair mem h name).isSome) = some h →
      Even (bareBefore name (componentsFrom .begin (h.text mem)))

theorem le_of_headersLoop {isNull : Bool} {i k : Nat} {value : Option Str}
    (hloop : headersLoop mem name isNull i headers = some (k, value)) :
    i ≤ k := by
  induction headers generalizing i with
  | nil => cases hloop
  | cons h headers ih =>
    rw [headersLoop] at hloop
    split at hloop
    · exact Nat.le_of_succ_le (ih hloop)
    · split at hloop
      · rw [some.injEq, Prod.mk.injEq] at hloop
        exact Nat.le_of_eq hloop.1
      · exact Nat.le_of_succ_le (ih hloop)

theorem valueStr_ne (hname : IsName name) {t t' : Bytes}
    (ht : t ∈ componentsFrom .begin (h.text mem))
    (hpair : isPair name t = true) (hpair' : isPair name t' = true)
    (hbehind : t' ∈ componentsFrom .begin (nextText t)) :
    valueStr (h.data + h.len) name t ≠ valueStr (h.data + h.len) name t' := by
  intro heq
  have hdata := congrArg Str.data heq
  have hlen := (suffix_of_mem_components ht).length_le
  have hvalue := length_pairValue_lt hpair
  have hvalue' := length_pairValue_lt hpair'
  have hle := length_nextText_le_pairValue hname hpair
  have hle' := (suffix_of_mem_components hbehind).length_le
  rw [Str.text, length_load] at hlen
  simp only [valueStr] at hdata
  omega

theorem valueStr_inj (hname : IsName name) {t t' : Bytes}
    (ht : t ∈ componentsFrom .begin (h.text mem))
    (ht' : t' ∈ componentsFrom .begin (h.text mem)) (hpair : isPair name t = true)
    (hpair' : isPair name t' = true)
    (heq : valueStr (h.data + h.len) name t = valueStr (h.data + h.len) name t') : t = t' := by
  rcases components_total ht ht' with h | h | h
  · exact h
  · exact absurd heq (valueStr_ne hname ht hpair hpair' h)
  · exact absurd heq.symm (valueStr_ne hname ht' hpair' hpair h)

theorem findPair_of_short (hshort : h.len < name.length) : findPair mem h name = none := by
  rw [findPair, find?_eq_none]
  intro t ht hpair
  have hlen := congrArg List.length (isPair_iff.mp hpair).1
  have hle := (suffix_of_mem_components ht).length_le
  rw [strlow, strlow, length_map, length_map, length_take] at hlen
  rw [Str.text, length_load] at hle
  omega

theorem findPair_of_nul (hparsed : Parsed mem h) (hnul : 0 ∈ name) :
    findPair mem h name = none := by
  rw [findPair, find?_eq_none]
  intro t ht hpair
  have hmem : 0 ∈ strlow (t.take name.length) := by
    rw [(isPair_iff.mp hpair).1]
    exact mem_map.mpr ⟨0, hnul, rfl⟩
  obtain ⟨c, hc, hzero⟩ := mem_map.mp hmem
  rw [Core.tolower_eq_zero.mp hzero] at hc
  exact hparsed.noNul ((suffix_of_mem_components ht).subset (mem_of_mem_take hc))

theorem headerLineLoop_text (hparsed : Parsed mem h) (hname : IsName name) (hnul : 0 ∉ name) :
    headerLineLoop mem (h.data + h.len) name false h.len h.data =
      (pickPair name (componentsFrom .begin (h.text mem))).map fun t =>
        some (valueStr (h.data + h.len) name t) := by
  rw [headerLineLoop_eq_pickPair hparsed hname hnul h.len (le_rfl)
    (Nat.le_add_right _ _) (by omega), Str.rest_data]

/-- All headers, by induction on them. -/
theorem headersLoop_iff (hname : IsName name) (hnul : 0 ∉ name)
    (hparsed : ∀ h ∈ headers, Parsed mem h) (i : Nat) :
    headersLoop mem name false i headers =
      (findPairIn mem name i headers).map (fun found => (found.1, some found.2)) ↔
      ∀ h, headers.find? (fun h => (findPair mem h name).isSome) = some h →
        Even (bareBefore name (componentsFrom .begin (h.text mem))) := by
  induction headers generalizing i with
  | nil => exact iff_of_true rfl fun h hfind => by cases hfind
  | cons h headers ih =>
    obtain ⟨hhere, hparsed⟩ := forall_mem_cons.mp hparsed
    have hloop := headerLineLoop_text hhere hname hnul
    rw [headersLoop, findPairIn, find?_cons]
    cases hfind : findPair mem h name with
    | none =>
      simp only [isSome_none]
      split
      · exact ih hparsed (i + 1)
      · rw [pickPair_of_find_none hfind, map_none] at hloop
        rw [hloop]
        exact ih hparsed (i + 1)
    | some t =>
      have hlen : ¬ name.length > h.len := fun hshort => by
        rw [findPair_of_short hshort] at hfind
        cases hfind
      simp only [isSome_some, some.injEq, forall_eq', map_some]
      rw [if_neg hlen, hloop, ← pickPair_eq_find (nodup_components _) hfind]
      cases hpick : pickPair name (componentsFrom .begin (h.text mem)) with
      | none =>
        refine iff_of_false (fun heq => ?_) fun heq => by cases heq
        rw [map_none] at heq
        exact absurd (le_of_headersLoop heq) (Nat.not_succ_le_self i)
      | some t' =>
        obtain ⟨hmem', hpair'⟩ := pickPair_mem hpick
        rw [map_some]
        simp only [some.injEq, Prod.mk.injEq, true_and]
        refine ⟨fun heq => ?_, fun heq => by rw [heq]⟩
        exact valueStr_inj hname hmem' (mem_of_find?_eq_some hfind) hpair'
          (find?_some hfind) heq

theorem headersLoop_nul (hname : IsName name) (hnul : 0 ∈ name)
    (hparsed : ∀ h ∈ headers, Parsed mem h) (i : Nat) :
    headersLoop mem name false i headers = none ↔ ∀ h ∈ headers, ¬ Spills mem h name := by
  induction headers generalizing i with
  | nil => exact iff_of_true rfl fun h hh => absurd hh not_mem_nil
  | cons h headers ih =>
    obtain ⟨hhere, hparsed⟩ := forall_mem_cons.mp hparsed
    have hloop :=
      headerLineLoop_nul hhere hname hnul h.len (le_rfl) (Nat.le_add_right _ _) (by omega)
    rw [headersLoop, forall_mem_cons]
    split
    · next hshort =>
      rw [ih hparsed (i + 1)]
      exact (and_iff_right fun hspills => absurd hspills.1 (not_le.mpr hshort)).symm
    next hlen =>
    have hspills : ¬ Spills mem h name ↔
      headerLineLoop mem (h.data + h.len) name false h.len h.data = none := by
      rw [hloop, Spills, and_iff_right (not_lt.mp hlen), not_exists, Str.rest_data]
      exact forall_congr' fun t => not_and
    rw [hspills]
    cases hline : headerLineLoop mem (h.data + h.len) name false h.len h.data with
    | none => exact (ih hparsed (i + 1)).trans (and_iff_right rfl).symm
    | some value => exact iff_of_false (fun heq => by cases heq) fun hboth => by cases hboth.1

theorem findPairIn_nul (hnul : 0 ∈ name) (hparsed : ∀ h ∈ headers, Parsed mem h) (i : Nat) :
    findPairIn mem name i headers = none := by
  induction headers generalizing i with
  | nil => rfl
  | cons h headers ih =>
    obtain ⟨hhere, hparsed⟩ := forall_mem_cons.mp hparsed
    rw [findPairIn, findPair_of_nul hhere hnul]
    exact ih hparsed (i + 1)

/-- **A value among many.**  `ngx_http_parse_multi_header_lines` returns the header of the first
component that is the name, spaces and an equals sign, and the value behind it, just in case this
component can be found. -/
theorem parseMultiHeaderLines_eq_iff (mem : Nat → Byte) (headers : List Str)
    (name : Bytes) (hname : IsName name)
    (hparsed : ∀ h ∈ headers, Parsed mem h) :
    parseMultiHeaderLines mem headers name false =
      (findPairIn mem name 0 headers).map (fun found => (found.1, some found.2)) ↔
      Findable mem headers name := by
  rw [parseMultiHeaderLines, Findable]
  by_cases hnul : 0 ∈ name
  · have hnone : ∀ h, headers.find? (fun h => (findPair mem h name).isSome) ≠ some h := by
      intro h hfind
      have hsome := find?_some hfind
      rw [findPair_of_nul (hparsed h (mem_of_find?_eq_some hfind)) hnul] at hsome
      cases hsome
    rw [findPairIn_nul hnul hparsed, map_none, headersLoop_nul hname hnul hparsed]
    exact (and_iff_left fun h hfind => absurd hfind (hnone h)).symm
  · have hspills : ∀ h ∈ headers, ¬ Spills mem h name := fun h _ hspills => by
      obtain ⟨-, t, -, hmem, -⟩ := hspills
      exact hnul hmem
    rw [headersLoop_iff hname hnul hparsed]
    exact (and_iff_right hspills).symm

/-- Headers one behind the other from address 1 on, with a NUL behind each. -/
def cookies (values : List Bytes) (i : Nat) :
    Byte := (values.flatMap fun value => value ++ [0]).getD (i - 1) 0

set_option maxRecDepth 4000 in
/-- The pair is the second one of the second header; its value is `1,2`. -/
theorem parseMultiHeaderLines_second :
    let mem := cookies [ascii "b=2", ascii "ab; A = 1,2; a=3"]
    parseMultiHeaderLines mem [⟨1, 3⟩, ⟨5, 16⟩] (ascii "a") false = some (1, some ⟨13, 3⟩) ∧
      findPairIn mem (ascii "a") 0 [⟨1, 3⟩, ⟨5, 16⟩] = some (1, ⟨13, 3⟩) ∧
      Findable mem [⟨1, 3⟩, ⟨5, 16⟩] (ascii "a") := by
  intro mem
  have hparsed : ∀ h ∈ ([⟨1, 3⟩, ⟨5, 16⟩] : List Str), Parsed mem h :=
    forall_mem_cons.mpr ⟨⟨by decide, by decide⟩,
      forall_mem_cons.mpr ⟨⟨by decide, by decide⟩, nofun⟩⟩
  have hcall : parseMultiHeaderLines mem [⟨1, 3⟩, ⟨5, 16⟩] (ascii "a") false =
      some (1, some ⟨13, 3⟩) := by decide
  have hfind : findPairIn mem (ascii "a") 0 [⟨1, 3⟩, ⟨5, 16⟩] = some (1, ⟨13, 3⟩) := by decide
  refine ⟨hcall, hfind, (parseMultiHeaderLines_eq_iff mem _ _ ⟨by decide, by decide⟩ hparsed).mp ?_⟩
  rw [hcall, hfind]
  rfl

set_option maxRecDepth 4000 in
/-- Behind the name alone, the pair is passed over. -/
theorem parseMultiHeaderLines_bare :
    ¬ ∀ (mem : Nat → Byte) (headers : List Str) (name : Bytes), IsName name →
    (∀ h ∈ headers, Parsed mem h) →
    parseMultiHeaderLines mem headers name false = (findPairIn mem name 0 headers).map fun found =>
      (found.1, some found.2) := by
  intro hall
  have hfound := hall (cookies [ascii "a;a=1"]) [⟨1, 5⟩] (ascii "a") ⟨by decide, by decide⟩
    (forall_mem_cons.mpr ⟨⟨by decide, by decide⟩, fun h hh => absurd hh not_mem_nil⟩)
  exact absurd hfound (by decide)

end Headers

end Nginx.Http
