/-
  Core/StrCase.lean --- the functions of `src/core/ngx_string.c` that compare and
  search strings without regard to the case of ASCII letters.

  The string that is read is in memory, by an address; the one it is compared
  with is given by its bytes, whose number is the argument `n`.
-/
import Nginx.Core.Hash

set_option autoImplicit false

namespace Nginx.Core

open List Foundation

/-- `ngx_str_t` -/
structure Str where
  data : Nat
  len : Nat
  deriving DecidableEq

/-- The bytes of a string. -/
def Str.text (mem : Nat → Byte) (s : Str) : Bytes := load mem s.data s.len

/-- `ngx_strncasecmp` -/
def strncasecmp (mem : Nat → Byte) : Nat → Bytes → Int
  | _, [] => 0
  | s1, c :: s2 =>
      let c1 := tolower (mem s1)
      let c2 := tolower c
      if c1 = c2 then
        if c1 ≠ 0 then strncasecmp mem (s1 + 1) s2 else 0
      else (c1.toNat : Int) - c2.toNat

/-- Both loops of `ngx_strlcasestrn`, `s1` being so far from `last`. -/
def strlcasestrnLoop (mem : Nat → Byte) (c2 : Byte) (s2 : Bytes) : Nat → Nat → Option Nat
  | 0, _ => none
  | left + 1, s1 =>
      if tolower (mem s1) = c2 ∧ strncasecmp mem (s1 + 1) s2 = 0 then some s1
      else strlcasestrnLoop mem c2 s2 left (s1 + 1)

/-- `ngx_strlcasestrn(s1, last, s2, n)` for a string `s2` of `n + 1` bytes. -/
def strlcasestrn (mem : Nat → Byte) (s1 last : Nat) : Bytes → Option Nat
  | [] => none
  | c :: s2 => strlcasestrnLoop mem (tolower c) s2 (last - s2.length - s1) s1

/-- The loop of `ngx_strlchr`, `p` being so far from `last`. -/
def strlchrLoop (mem : Nat → Byte) (c : Byte) : Nat → Nat → Option Nat
  | 0, _ => none
  | left + 1, p => if mem p = c then some p else strlchrLoop mem c left (p + 1)

/-- `ngx_strlchr` -/
def strlchr (mem : Nat → Byte) (p last : Nat) (c : Byte) :
    Option Nat := strlchrLoop mem c (last - p) p

/-! ## Bytes from an address on -/

section Load

variable {α : Type} {mem : Nat → α} {p : Nat}

@[simp] theorem load_zero : load mem p 0 = [] := rfl

theorem load_succ (n : Nat) : load mem p (n + 1) = mem p :: load mem (p + 1) n := by
  rw [load, range_succ_eq_map, map_cons, map_map, load]
  refine congrArg _ (map_congr_left fun i _ => ?_)
  rw [Function.comp_apply, Nat.succ_eq_add_one, add_comm i 1, add_assoc]

theorem take_load {m n : Nat} (h : m ≤ n) : (load mem p n).take m = load mem p m := by
  obtain ⟨k, rfl⟩ := Nat.exists_eq_add_of_le h
  rw [load_append, take_left' (length_load mem p m)]

theorem drop_load {m n : Nat} (h : m ≤ n) : (load mem p n).drop m = load mem (p + m) (n - m) := by
  obtain ⟨k, rfl⟩ := Nat.exists_eq_add_of_le h
  rw [load_append, drop_left' (length_load mem p m), Nat.add_sub_cancel_left]

theorem getElem?_load {i n : Nat} (h : i < n) : (load mem p n)[i]? = some (mem (p + i)) := by
  rw [getElem?_eq_getElem (by rwa [length_load]), getElem_load]

end Load

/-! ## What is left of a string -/

section Rest

variable {mem : Nat → Byte} {s : Str} {p : Nat}

/-- The bytes of a string from an address on. -/
def Str.rest (mem : Nat → Byte) (s : Str) (p : Nat) : Bytes := load mem p (s.data + s.len - p)

theorem Str.rest_data : s.rest mem s.data = s.text mem := by
  rw [Str.rest, Nat.add_sub_cancel_left, Str.text]

theorem Str.rest_of_le (h : s.data + s.len ≤ p) : s.rest mem p = [] := by
  rw [Str.rest, Nat.sub_eq_zero_of_le h, load_zero]

theorem Str.rest_cons (hlt : p < s.data + s.len) : s.rest mem p = mem p :: s.rest mem (p + 1) := by
  have hleft : s.data + s.len - p = s.data + s.len - (p + 1) + 1 := by omega
  rw [Str.rest, Str.rest, hleft, load_succ]

theorem Str.length_rest : (s.rest mem p).length = s.data + s.len - p := length_load _ _ _

theorem Str.drop_rest {n : Nat} (h : p + n ≤ s.data + s.len) :
    (s.rest mem p).drop n = s.rest mem (p + n) := by
  rw [Str.rest, drop_load (by omega), Str.rest, Nat.sub_sub]

/-- A loop that goes on while the bytes are of a kind, `p` being so far from the end. -/
def skipWhile (mem : Nat → Byte) (kind : Byte → Bool) : Nat → Nat → Nat
  | 0, p => p
  | left + 1, p => if kind (mem p) then skipWhile mem kind left (p + 1) else p

theorem skipWhile_spec (mem : Nat → Byte) (kind : Byte → Bool) (hp : p ≤ s.data + s.len) :
    p ≤ skipWhile mem kind (s.data + s.len - p) p ∧
      skipWhile mem kind (s.data + s.len - p) p ≤ s.data + s.len ∧
      s.rest mem (skipWhile mem kind (s.data + s.len - p) p) = (s.rest mem p).dropWhile kind := by
  generalize hleft : s.data + s.len - p = left
  induction left generalizing p with
  | zero =>
    have hend : s.data + s.len ≤ p := by omega
    exact ⟨Nat.le_refl p, hp, by rw [skipWhile, Str.rest_of_le hend]; rfl⟩
  | succ left ih =>
    have hlt : p < s.data + s.len := by omega
    rw [skipWhile, Str.rest_cons hlt]
    split
    · next hkind =>
      obtain ⟨hle, hend, hrest⟩ := @ih (p + 1) hlt (by omega)
      exact ⟨by omega, hend, by rw [hrest, dropWhile_cons_of_pos hkind]⟩
    · next hkind =>
        exact ⟨Nat.le_refl p, hp, by rw [Str.rest_cons hlt, dropWhile_cons_of_neg hkind]⟩

end Rest

/-! ## Comparing -/

section Compare

variable {mem : Nat → Byte} {p : Nat} {s : Bytes}

set_option maxRecDepth 4000 in
theorem tolower_eq_zero {c : Byte} : tolower c = 0 ↔ c = 0 := by
  revert c
  apply forall_byte
  decide

/-- An ASCII letter. -/
def isAlpha (c : Byte) : Bool := (chr 'A' ≤ c ∧ c ≤ chr 'Z') ∨ (chr 'a' ≤ c ∧ c ≤ chr 'z')

set_option maxRecDepth 8000 in
theorem isAlpha_tolower (c : Byte) : isAlpha (tolower c) = isAlpha c := by
  revert c
  apply forall_byte
  decide

theorem tolower_of_not_alpha {c : Byte} (hc : isAlpha c = false) : tolower c = c := by
  rw [isAlpha, decide_eq_false_iff_not, not_or] at hc
  exact if_neg hc.1

theorem tolower_eq_iff {b c : Byte} (hc : isAlpha c = false) : tolower b = c ↔ b = c := by
  constructor
  · rintro rfl
    rw [isAlpha_tolower] at hc
    exact (tolower_of_not_alpha hc).symm
  · rintro rfl
    exact tolower_of_not_alpha hc

theorem mem_strlow {c : Byte} {l : Bytes} (hc : isAlpha c = false) : c ∈ strlow l ↔ c ∈ l := by
  rw [strlow, mem_map]
  constructor
  · rintro ⟨b, hb, heq⟩
    rwa [← (tolower_eq_iff hc).mp heq]
  · exact fun h => ⟨c, h, tolower_of_not_alpha hc⟩

/-- No byte between the first and the last one ends a string for `ngx_strncasecmp`. -/
def NoNul (s : Bytes) : Prop := ∀ c ∈ s.dropLast, c ≠ 0

theorem strncasecmp_of_eq (h : strlow (load mem p s.length) = strlow s) :
    strncasecmp mem p s = 0 := by
  induction s generalizing p with
  | nil => rfl
  | cons c s ih =>
    rw [length_cons, load_succ, strlow, strlow, map_cons, map_cons, cons.injEq] at h
    rw [strncasecmp, if_pos h.1]
    split
    · exact ih h.2
    · rfl

theorem eq_of_strncasecmp (hs : NoNul s) (h : strncasecmp mem p s = 0) :
    strlow (load mem p s.length) = strlow s := by
  induction s generalizing p with
  | nil => rfl
  | cons c s ih =>
    rw [strncasecmp] at h
    split at h
    · next heq =>
      rw [length_cons, load_succ, strlow, strlow, map_cons, map_cons, heq]
      refine congrArg _ ?_
      cases s with
      | nil => rfl
      | cons d s =>
        have hc : c ≠ 0 := hs c mem_cons_self
        rw [heq, if_pos fun hzero => hc (tolower_eq_zero.mp hzero)] at h
        exact ih (fun x hx => hs x (mem_cons_of_mem _ hx)) h
    · next hne =>
      have hval : (tolower (mem p)).toNat = (tolower c).toNat := by omega
      exact absurd (UInt8.toNat_inj.mp hval) hne

theorem strncasecmp_eq_zero (hs : NoNul s) :
    strncasecmp mem p s = 0 ↔ strlow (load mem p s.length) = strlow s :=
  ⟨eq_of_strncasecmp hs, strncasecmp_of_eq⟩

end Compare

/-! ## Searching -/

section Search

variable {mem : Nat → Byte} {s1 last : Nat} {s2 : Bytes}

/-- The string stands at this address, whatever the case of its letters. -/
def Occurs (mem : Nat → Byte) (s2 : Bytes) (i : Nat) :
    Prop := strlow (load mem i s2.length) = strlow s2

theorem occurs_cons {c : Byte} (hs : NoNul s2) (i : Nat) :
    (tolower (mem i) = tolower c ∧ strncasecmp mem (i + 1) s2 = 0) ↔ Occurs mem (c :: s2) i := by
  rw [Occurs, length_cons, load_succ, strlow, map_cons, strlow, map_cons, cons.injEq]
  exact and_congr_right fun _ => strncasecmp_eq_zero hs

theorem strlcasestrnLoop_spec {c : Byte} (hs : NoNul s2) (left : Nat) {s1 : Nat} :
    match strlcasestrnLoop mem (tolower c) s2 left s1 with
    | none => ∀ i, s1 ≤ i → i < s1 + left → ¬ Occurs mem (c :: s2) i
    | some q =>
      s1 ≤ q ∧ q < s1 + left ∧ Occurs mem (c :: s2) q ∧ ∀ i, s1 ≤ i → i < q →
        ¬ Occurs mem (c :: s2) i := by
  induction left generalizing s1 with
  | zero => exact fun i hi hlt => absurd hlt (not_lt.mpr hi)
  | succ left ih =>
    rw [strlcasestrnLoop]
    by_cases hoccurs : Occurs mem (c :: s2) s1
    · rw [if_pos ((occurs_cons hs s1).mpr hoccurs)]
      exact ⟨Nat.le_refl s1, by omega, hoccurs, fun i hi hlt => absurd hlt (not_lt.mpr hi)⟩
    rw [if_neg (mt (occurs_cons hs s1).mp hoccurs)]
    have hrest := @ih (s1 + 1)
    cases hloop : strlcasestrnLoop mem (tolower c) s2 left (s1 + 1) with
    | none =>
      rw [hloop] at hrest
      intro i hi hlt
      rcases eq_or_lt_of_le hi with rfl | hi
      · exact hoccurs
      · exact hrest i hi (by omega)
    | some q =>
      rw [hloop] at hrest
      obtain ⟨hle, hlt, hq, hbefore⟩ := hrest
      refine ⟨by omega, by omega, hq, fun i hi hiq => ?_⟩
      rcases eq_or_lt_of_le hi with rfl | hi
      · exact hoccurs
      · exact hbefore i hi hiq

theorem strlcasestrn_spec (hne : s2 ≠ []) (hs : NoNul s2.tail) :
    match strlcasestrn mem s1 last s2 with
    | none => ∀ i, s1 ≤ i → i + s2.length ≤ last → ¬ Occurs mem s2 i
    | some q =>
      s1 ≤ q ∧ q + s2.length ≤ last ∧ Occurs mem s2 q ∧ ∀ i, s1 ≤ i → i < q →
        ¬ Occurs mem s2 i := by
  obtain ⟨c, s2, rfl⟩ := exists_cons_of_ne_nil hne
  have hspec := @strlcasestrnLoop_spec mem s2 c hs (last - s2.length - s1) s1
  rw [strlcasestrn]
  cases hloop : strlcasestrnLoop mem (tolower c) s2 (last - s2.length - s1) s1 with
  | none =>
    rw [hloop] at hspec
    intro i hi hle
    rw [length_cons] at hle
    exact hspec i hi (by omega)
  | some q =>
    rw [hloop] at hspec
    obtain ⟨hle, hlt, hq⟩ := hspec
    refine ⟨hle, ?_, hq⟩
    rw [length_cons]
    omega

theorem strlchr_spec (mem : Nat → Byte) (c : Byte) {p last : Nat} (h : p ≤ last) :
    p ≤ (strlchr mem p last c).getD last ∧ (strlchr mem p last c).getD last ≤ last ∧
      load mem p ((strlchr mem p last c).getD last - p) =
        (load mem p (last - p)).takeWhile (· != c) := by
  obtain ⟨left, rfl⟩ := Nat.exists_eq_add_of_le h
  rw [strlchr, Nat.add_sub_cancel_left]
  clear h
  induction left generalizing p with
  | zero =>
    exact ⟨Nat.le_refl p,
      Nat.le_refl p, by rw [strlchrLoop, Option.getD_none, add_zero, Nat.sub_self]; rfl⟩
  | succ left ih =>
    rw [strlchrLoop, load_succ]
    split
    · next heq =>
      refine ⟨Nat.le_refl p, Nat.le_add_right p _, ?_⟩
      rw [Option.getD_some, Nat.sub_self, takeWhile_cons_of_neg (by simp [heq])]
      rfl
    next hne =>
    obtain ⟨hle, hlast, htext⟩ := @ih (p + 1)
    have hp : p + (left + 1) = p + 1 + left := by omega
    rw [hp]
    refine ⟨by omega, hlast, ?_⟩
    have hsub : (strlchrLoop mem c left (p + 1)).getD (p + 1 + left) - p =
        (strlchrLoop mem c left (p + 1)).getD (p + 1 + left) - (p + 1) + 1 := by omega
    rw [hsub, load_succ, htext, takeWhile_cons_of_pos (by simp [hne])]

end Search

end Nginx.Core
