/-
  Http/Args.lean --- `ngx_http_arg`: one argument of a request by its name.

  The code searches for the name anywhere and looks at the bytes next to it.
  What it finds is stated over the arguments between the `&`.  `argScan` is in
  between: it goes through the text byte by byte and knows where an argument
  begins.
-/
import Nginx.Core.StrCase
import Nginx.Foundation.Segments

set_option autoImplicit false

namespace Nginx.Http

open List Foundation
open Nginx.Core (Str strlow strlcasestrn strlchr NoNul Occurs load_succ take_load getElem?_load)

/-- The `for` loop of `ngx_http_arg`, `p` being at most so far from `last`. -/
def argLoop (mem : Nat → Byte) (args : Str) (name : Bytes) : Nat → Nat → Option Str
  | 0, _ => none
  | left + 1, p =>
      let last := args.data + args.len
      -- we need '=' after name, so drop one char from last
      match strlcasestrn mem p (last - 1) name with
      | none => none
      | some p =>
          if (p = args.data ∨ mem (p - 1) = chr '&') ∧ mem (p + name.length) = chr '=' then
            let data := p + name.length + 1
            some ⟨data, (strlchr mem p last (chr '&')).getD last - data⟩
          else argLoop mem args name left (p + 1)

/-- `ngx_http_arg`: the value, or `none` for `NGX_DECLINED`. -/
def httpArg (mem : Nat → Byte) (args : Str) (name : Bytes) : Option Str :=
  if args.len = 0 then none else argLoop mem args name args.len args.data

/-! ## Arguments -/

/-- The text begins with the name and an equals sign. -/
def argIs (name text : Bytes) :
    Bool := strlow (text.take name.length) = strlow name ∧ text[name.length]? = some (chr '=')

/-- The value of the first argument of this name. -/
def findArg (name args : Bytes) : Option Bytes :=
  ((args.splitOn (chr '&')).find? (argIs name)).map (·.drop (name.length + 1))

/-- The same from within the text: does an argument begin here, and what comes. -/
def argScan (name : Bytes) : Bool → Bytes → Option Bytes
  | _, [] => none
  | begins, c :: text =>
      if begins && argIs name (c :: text)
        then some (((c :: text).drop (name.length + 1)).takeWhile (· != chr '&'))
      else argScan name (c == chr '&') text

section Scan

variable {name : Bytes}

theorem ampersand_not_mem_strlow (hname : chr '&' ∉ name) : chr '&' ∉ strlow name :=
  fun hmem => hname ((Core.mem_strlow (by decide)).mp hmem)

theorem argIs_of_length_le {text : Bytes} (hle : text.length ≤ name.length) :
    argIs name text = false := by
  rw [argIs, decide_eq_false_iff_not]
  rintro ⟨-, heq⟩
  rw [getElem?_eq_none hle] at heq
  cases heq

theorem argIs_append {head rest : Bytes} (hname : chr '&' ∉ name) :
    argIs name (head ++ chr '&' :: rest) = argIs name head := by
  rcases lt_or_ge name.length head.length with hlt | hge
  · rw [argIs, argIs, take_append_of_le_length (Nat.le_of_lt hlt), getElem?_append_left hlt]
  rw [argIs_of_length_le hge, argIs, decide_eq_false_iff_not]
  rintro ⟨htake, heq⟩
  rcases Nat.eq_or_lt_of_le hge with hlen | hlt
  · rw [getElem?_append_right hge, ← hlen, Nat.sub_self, getElem?_cons_zero] at heq
    exact absurd heq (by decide)
  refine ampersand_not_mem_strlow hname ?_
  rw [← htake]
  refine mem_map.mpr ⟨chr '&', ?_, by decide⟩
  rw [take_append, mem_append, take_of_length_le hge]
  refine .inr ?_
  obtain ⟨k, hk⟩ := Nat.exists_eq_succ_of_ne_zero (Nat.sub_ne_zero_of_lt hlt)
  rw [hk, take_succ_cons]
  exact mem_cons_self

theorem drop_takeWhile {n : Nat} {head rest : Bytes} (hhead : chr '&' ∉ head)
    (hn : n ≤ head.length) :
    ((head ++ chr '&' :: rest).drop n).takeWhile (· != chr '&') = head.drop n := by
  rw [drop_append_of_le_length hn, takeWhile_append_of_pos,
    takeWhile_cons_of_neg (by simp), append_nil]
  intro c hc
  rw [bne_iff_ne]
  rintro rfl
  exact hhead (mem_of_mem_drop hc)

theorem lt_of_argIs {text : Bytes} (h : argIs name text = true) : name.length < text.length := by
  by_contra hle
  rw [argIs_of_length_le (not_lt.mp hle)] at h
  cases h

theorem argScan_inside (head : Bytes) (hhead : chr '&' ∉ head) (rest : Bytes) :
    argScan name false (head ++ rest) = argScan name false rest := by
  induction head with
  | nil => rfl
  | cons c head ih =>
    rw [cons_append, argScan, Bool.false_and, if_neg Bool.false_ne_true]
    rw [mem_cons, not_or] at hhead
    rw [show (c == chr '&') = false from beq_false_of_ne (Ne.symm hhead.1)]
    exact ih hhead.2

theorem argScan_arg (hname : chr '&' ∉ name) {arg : Bytes} (harg : chr '&' ∉ arg) (rest : Bytes) :
    argScan name true (arg ++ chr '&' :: rest) =
      if argIs name arg then some (arg.drop (name.length + 1)) else argScan name true rest := by
  have hnext : argScan name false (chr '&' :: rest) = argScan name true rest := rfl
  cases arg with
  | nil =>
    have hnot : argIs name (chr '&' :: rest) = false :=
      (@argIs_append name [] rest hname).trans (argIs_of_length_le (Nat.zero_le _))
    rw [argIs_of_length_le (Nat.zero_le _), if_neg Bool.false_ne_true,
      nil_append, argScan, Bool.true_and, hnot,
      if_neg Bool.false_ne_true]
    exact hnext
  | cons c head =>
    have hscan := @argIs_append name (c :: head) rest hname
    rw [cons_append] at hscan ⊢
    rw [argScan, Bool.true_and, hscan]
    split
    · next his =>
      rw [← cons_append, drop_takeWhile harg (lt_of_argIs his)]
    · rw [mem_cons, not_or] at harg
      rw [show (c == chr '&') = false from beq_false_of_ne (Ne.symm harg.1),
        argScan_inside head harg.2, hnext]

theorem argScan_last {arg : Bytes} (harg : chr '&' ∉ arg) :
    argScan name true arg = if argIs name arg then some (arg.drop (name.length + 1)) else none := by
  cases arg with
  | nil => rw [argIs_of_length_le (Nat.zero_le _)]; rfl
  | cons c head =>
    rw [argScan, Bool.true_and]
    split
    · refine congrArg some (takeWhile_eq_self_iff.mpr fun b hb => ?_)
      rw [bne_iff_ne]
      rintro rfl
      exact harg (mem_of_mem_drop hb)
    · rw [mem_cons, not_or] at harg
      have hinside := @argScan_inside name head harg.2 []
      rw [append_nil] at hinside
      rw [show (c == chr '&') = false from beq_false_of_ne (Ne.symm harg.1), hinside]
      rfl

theorem argScan_eq_findArg (hname : chr '&' ∉ name) (args : Bytes) :
    argScan name true args = findArg name args := by
  have hsplit : ∀ parts : List Bytes, parts ≠ [] → (∀ arg ∈ parts, chr '&' ∉ arg) →
      argScan name true ([chr '&'].intercalate parts) =
        (parts.find? (argIs name)).map (·.drop (name.length + 1)) := by
    intro parts
    induction parts with
    | nil => exact fun h => absurd rfl h
    | cons arg parts ih =>
      intro _ hparts
      obtain ⟨harg, hparts⟩ := forall_mem_cons.mp hparts
      rw [find?_cons]
      cases parts with
      | nil =>
        rw [intercalate_singleton, argScan_last harg]
        cases argIs name arg <;> rfl
      | cons next parts =>
        rw [intercalate_cons_cons, append_assoc, singleton_append, argScan_arg hname harg]
        cases argIs name arg with
        | true => rfl
        | false => exact ih (cons_ne_nil _ _) hparts
  have hargs :=
    hsplit (args.splitOn (chr '&')) (splitOn_ne_nil _ _)
      (Foundation.Segments.not_mem_of_mem_splitOn _)
  rwa [intercalate_splitOn] at hargs

end Scan

/-! ## The search -/

section Search

variable {mem : Nat → Byte} {args : Str} {name : Bytes} {p : Nat}

/-- An argument begins at this address. -/
def beginsAt (mem : Nat → Byte) (args : Str) (p : Nat) :
    Bool := p = args.data ∨ mem (p - 1) = chr '&'

theorem argIs_load {n : Nat} : argIs name (load mem p n) = true ↔
    name.length < n ∧ Occurs mem name p ∧ mem (p + name.length) = chr '=' := by
  constructor
  · intro h
    have hlt := lt_of_argIs h
    rw [length_load] at hlt
    rw [argIs, decide_eq_true_eq, take_load (Nat.le_of_lt hlt),
      getElem?_load hlt, Option.some.injEq] at h
    exact ⟨hlt, h⟩
  · rintro ⟨hlt, h⟩
    rw [argIs, decide_eq_true_eq, take_load (Nat.le_of_lt hlt),
      getElem?_load hlt, Option.some.injEq]
    exact h

theorem argIs_rest : argIs name (args.rest mem p) = true ↔
    p + name.length < args.data + args.len ∧ Occurs mem name p ∧
      mem (p + name.length) = chr '=' := by
  rw [Str.rest, argIs_load]
  exact and_congr_left fun _ => by omega

theorem beginsAt_succ (hp : args.data ≤ p) : beginsAt mem args (p + 1) = (mem p == chr '&') := by
  rw [beginsAt, Nat.add_sub_cancel, Bool.eq_iff_iff, decide_eq_true_eq, beq_iff_eq]
  exact or_iff_right (by omega)

theorem argScan_skip (hp : args.data ≤ p) {q : Nat} (hpq : p ≤ q) (hq : q ≤ args.data + args.len)
    (hnot : ∀ i, p ≤ i → i < q → i + name.length < args.data + args.len → ¬ Occurs mem name i) :
    argScan name (beginsAt mem args p) (args.rest mem p) =
      argScan name (beginsAt mem args q) (args.rest mem q) := by
  induction hpq with
  | refl => rfl
  | @step q hpq ih =>
    have hdata : args.data ≤ q := le_trans hp hpq
    have hnone : argIs name (mem q :: args.rest mem (q + 1)) = false := by
      rw [← Str.rest_cons hq, ← Bool.not_eq_true, argIs_rest]
      rintro ⟨hlt, hoccurs, -⟩
      exact hnot q hpq (Nat.lt_succ_self q) hlt hoccurs
    rw [ih (Nat.le_of_lt hq) fun i hi hlt =>
      hnot i hi (Nat.lt_succ_of_lt hlt), Str.rest_cons hq, argScan, hnone, Bool.and_false,
      if_neg Bool.false_ne_true, ← beginsAt_succ hdata]

theorem value_text (hname : chr '&' ∉ name) (hlt : p + name.length < args.data + args.len)
    (hoccurs : Occurs mem name p)
    (heq : mem (p + name.length) = chr '=') :
    Str.text mem ⟨p + name.length + 1,
      (strlchr mem p (args.data + args.len) (chr '&')).getD (args.data + args.len) -
        (p + name.length + 1)⟩ =
      ((args.rest mem p).drop (name.length + 1)).takeWhile (· != chr '&') := by
  obtain ⟨hle, hlast, htext⟩ :=
    Core.strlchr_spec mem (chr '&') (Nat.le_of_lt (Nat.lt_of_le_of_lt (Nat.le_add_right p _) hlt))
  generalize (strlchr mem p (args.data + args.len) (chr '&')).getD (args.data + args.len) =
    stop at hle hlast htext ⊢
  have hleft : args.data + args.len - p =
    name.length + 1 + (args.data + args.len - (p + name.length + 1)) := by omega
  have hfirst : ∀ c ∈ load mem p (name.length + 1), (c != chr '&') = true := by
    intro c hc
    rw [bne_iff_ne]
    rintro rfl
    rw [load_append, mem_append] at hc
    rcases hc with hc | hc
    · refine ampersand_not_mem_strlow hname ?_
      rw [← hoccurs]
      exact mem_map.mpr ⟨_, hc, by decide⟩
    · rw [load_succ, Core.load_zero, mem_singleton, heq] at hc
      exact absurd hc (by decide)
  rw [hleft, load_append, takeWhile_append_of_pos hfirst] at htext
  have hlen := congrArg List.length htext
  rw [length_load, length_append, length_load] at hlen
  have hstop : stop - p = name.length + 1 + (stop - (p + name.length + 1)) := by omega
  rw [hstop, load_append] at htext
  rw [Str.text, Str.rest, hleft, load_append, drop_left' (length_load _ _ _)]
  exact append_cancel_left htext

/-- The loop over the memory is the scan of the text. -/
theorem argLoop_eq_argScan (hne : name ≠ []) (hname : chr '&' ∉ name)
    (hnul : NoNul name.tail) (left : Nat) (hp : args.data ≤ p)
    (hple : p ≤ args.data + args.len) (hleft : args.data + args.len ≤ p + left) :
    (argLoop mem args name left p).map (Str.text mem) =
      argScan name (beginsAt mem args p) (args.rest mem p) := by
  have hend : ∀ begins, argScan name begins (args.rest mem (args.data + args.len)) = none := by
    intro begins
    rw [Str.rest, Nat.sub_self]
    rfl
  have hpos := length_pos_iff.mpr hne
  induction left generalizing p with
  | zero =>
    obtain rfl : p = args.data + args.len := by omega
    rw [hend]
    rfl
  | succ left ih =>
    have hspec := @Core.strlcasestrn_spec mem p (args.data + args.len - 1) name hne hnul
    rw [argLoop]
    cases hfound : strlcasestrn mem p (args.data + args.len - 1) name with
    | none =>
      rw [hfound] at hspec
      rw [argScan_skip hp hple (le_rfl) fun i hi _ hlt => hspec i hi (by omega), hend]
      rfl
    | some q =>
      rw [hfound] at hspec
      obtain ⟨hpq, hq, hoccurs, hbefore⟩ := hspec
      have hqlt : q + name.length < args.data + args.len := by omega
      have hdata : args.data ≤ q := le_trans hp hpq
      have hqlast : q < args.data + args.len := by omega
      rw [argScan_skip hp hpq (Nat.le_of_lt hqlast) fun i hi hlt _ =>
        hbefore i hi hlt, Str.rest_cons hqlast, argScan, ← Str.rest_cons hqlast]
      have hcond : (beginsAt mem args q && argIs name (args.rest mem q)) = true ↔
          (q = args.data ∨ mem (q - 1) = chr '&') ∧ mem (q + name.length) = chr '=' := by
        rw [Bool.and_eq_true, argIs_rest, beginsAt, decide_eq_true_eq]
        exact and_congr_right fun _ => ⟨fun h => h.2.2, fun h => ⟨hqlt, hoccurs, h⟩⟩
      by_cases hhere : (q = args.data ∨ mem (q - 1) = chr '&') ∧ mem (q + name.length) = chr '='
      · rw [if_pos (hcond.mpr hhere)]
        simp only [if_pos hhere, Option.map_some]
        rw [value_text hname hqlt hoccurs hhere.2]
      · have hrest : args.data + args.len ≤ q + 1 + left := by omega
        rw [if_neg (mt hcond.mp hhere), ← beginsAt_succ hdata]
        simp only [if_neg hhere]
        exact ih (Nat.le_succ_of_le hdata) hqlast hrest

/-- **One argument.**  `ngx_http_arg` finds the first of the arguments between the `&` that begins
with the name and an equals sign, and returns what is behind the sign. -/
theorem httpArg_eq_findArg (mem : Nat → Byte) (args : Str) (name : Bytes)
    (hne : name ≠ []) (hname : chr '&' ∉ name)
    (hnul : NoNul name.tail) :
    (httpArg mem args name).map (Str.text mem) = findArg name (args.text mem) := by
  rw [← argScan_eq_findArg hname, httpArg]
  split
  · next hlen =>
    rw [Str.text, hlen]
    rfl
  · rw [argLoop_eq_argScan hne hname hnul args.len (le_rfl)
      (Nat.le_add_right _ _) (le_rfl), Str.rest,
      Nat.add_sub_cancel_left, beginsAt, decide_eq_true (.inl rfl)]
    rfl

/-- The text from address 1 on. -/
def placed (text : Bytes) (i : Nat) : Byte := text.getD (i - 1) 0

theorem httpArg_eq_findArg_upper :
    (httpArg (placed (ascii "ab=1&B=2&b=3")) ⟨1, 12⟩ (ascii "b")).map
      (Str.text (placed (ascii "ab=1&B=2&b=3"))) =
      findArg (ascii "b") (Str.text (placed (ascii "ab=1&B=2&b=3")) ⟨1, 12⟩) :=
  httpArg_eq_findArg _ _ (ascii "b") (by decide) (by decide) fun c hc => (by cases hc)

/-- A NUL within the name ends the comparison. -/
theorem httpArg_nul_name :
    ¬ ∀ (mem : Nat → Byte) (args : Str) (name : Bytes), name ≠ [] → chr '&' ∉ name →
    chr '=' ∉ name →
    (httpArg mem args name).map (Str.text mem) = findArg name (args.text mem) := by
  intro h
  have hfound :=
    h (placed [chr 'a', 0, chr 'c', chr '=', chr 'x']) ⟨1, 5⟩ [chr 'a', 0, chr 'b']
      (by decide) (by decide) (by decide)
  exact absurd hfound (by decide)

end Search

end Nginx.Http
