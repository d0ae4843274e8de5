/-
  Http/ValidateHost.lean --- `ngx_http_validate_host` of `src/http/ngx_http_request.c`.

  The pass over the host does four things at once: it refuses bytes, it looks for
  the end of the name, it remembers the last dot, and it notices upper case.
  They are taken apart here, and what the function returns is put together again
  from the parts.
-/
import Mathlib.Data.List.TakeWhile
import Nginx.Core.StrCase

set_option autoImplicit false

namespace Nginx.Http

open List Foundation Option
open Nginx.Core (strlow)

/-- The states of `ngx_http_validate_host`. -/
inductive HostState where
  | usual
  | literal
  | rest
  deriving DecidableEq

/-- The variables of the loop. -/
structure HostScan where
  dotPos : Nat
  hostLen : Nat
  state : HostState
  alloc : Bool
  deriving DecidableEq

/-- `ch >= 'A' && ch <= 'Z'` -/
def isUpper (ch : Byte) : Bool := chr 'A' ≤ ch ∧ ch ≤ chr 'Z'

/-- The `switch (ch)` at the `i`th byte; `none` is `NGX_DECLINED`. -/
def hostByte (i : Nat) (ch : Byte) (s : HostScan) : Option HostScan :=
  if ch = chr '.' then
    if s.dotPos = subWord i 1 then none else some { s with dotPos := i }
  else if ch = chr ':' then
    some (if s.state = .usual then { s with hostLen := i, state := .rest } else s)
  else if ch = chr '[' then
    some (if i = 0 then { s with state := .literal } else s)
  else if ch = chr ']' then
    some (if s.state = .literal then { s with hostLen := i + 1, state := .rest } else s)
  else if ch = 0 then none
  else if ch = chr '/' then none
  else some (if isUpper ch then { s with alloc := true } else s)

/-- The loop from the `i`th byte on. -/
def hostLoop : Nat → Bytes → HostScan → Option HostScan
  | _, [], s => some s
  | i, ch :: host, s => (hostByte i ch s).bind (hostLoop (i + 1) host)

/-- What `ngx_http_validate_host` returns. -/
inductive HostRc where
  /-- `NGX_OK`, with the host that is stored -/
  | ok (host : Bytes)
  /-- `NGX_DECLINED` -/
  | declined
  /-- `NGX_ERROR` -/
  | error
  deriving DecidableEq

/-- `ngx_http_validate_host`, `memory` being whether `ngx_pnalloc` gives any. -/
def validateHost (memory alloc : Bool) (host : Bytes) : HostRc :=
  match hostLoop 0 host ⟨host.length, host.length, .usual, alloc⟩ with
  | none => .declined
  | some s =>
      let hostLen := if s.dotPos = subWord s.hostLen 1 then subWord s.hostLen 1 else s.hostLen
      if hostLen = 0 then .declined
      else if s.alloc then
        if memory then .ok (strlow (host.take hostLen)) else .error
      else .ok (host.take hostLen)

/-! ## The four things -/

/-- No byte is refused, `dot` being whether there is a dot just before. -/
def hostClean : Bool → Bytes → Bool
  | _, [] => true
  | dot, ch :: host =>
    if ch = chr '.' then !dot && hostClean true host else ch != 0 && ch != chr
      '/' && hostClean false host

/-- The place of the last dot. -/
def lastDot : Nat → Bytes → Nat → Nat
  | _, [], dotPos => dotPos
  | i, ch :: host, dotPos => lastDot (i + 1) host (if ch = chr '.' then i else dotPos)

/-- What a byte behind the first one does to the state and the length of the name. -/
def cutByte (i : Nat) (ch : Byte) (cut : HostState × Nat) : HostState × Nat :=
  if ch = chr ':' ∧ cut.1 = .usual then (.rest, i)
  else if ch = chr ']' ∧ cut.1 = .literal then (.rest, i + 1)
  else cut

/-- The state and the length of the name behind the first byte. -/
def hostCut : Nat → Bytes → HostState × Nat → HostState × Nat
  | _, [], cut => cut
  | i, ch :: host, cut => hostCut (i + 1) host (cutByte i ch cut)

/-- The name: a literal up to its bracket, all of a literal that is not closed, and else what is
before the port. -/
def hostName (host : Bytes) : Bytes :=
  if host.head? = some (chr '[') then
    if chr ']' ∈ host then host.takeWhile (· != chr ']') ++ [chr ']'] else host
  else host.takeWhile (· != chr ':')

section Parts

variable {host : Bytes} {i n : Nat} {s : HostScan}

theorem subWord_one (hi : 0 < i) (hlt : i < 2 ^ 64) : subWord i 1 = i - 1 := subWord_of_le hi hlt

theorem cutByte_other {ch : Byte} (hcolon : ch ≠ chr ':') (hclose : ch ≠ chr ']')
    (i : Nat) (cut : HostState × Nat) :
    cutByte i ch cut = cut := by
  rw [cutByte, if_neg fun h => hcolon h.1, if_neg fun h => hclose h.1]

theorem hostByte_other {ch : Byte} (hch : ch ≠ chr '.') (hi : 0 < i) (s : HostScan) :
    hostByte i ch s = if (ch != 0 && ch != chr '/') = true then
      some ⟨s.dotPos, (cutByte i ch (s.state, s.hostLen)).2,
        (cutByte i ch (s.state, s.hostLen)).1, s.alloc || isUpper ch⟩
    else none := by
  have hsame : ∀ c : Byte, isUpper c = false → (s.alloc || isUpper c) = s.alloc :=
    fun c hc => by rw [hc, Bool.or_false]
  rw [hostByte, if_neg hch]
  by_cases hcolon : ch = chr ':'
  · have hkept : (chr ':' != 0 && chr ':' != chr '/') = true := by decide
    subst hcolon
    rw [if_pos rfl, hsame (chr ':') (by decide), hkept]
    by_cases husual : s.state = .usual
    · have hcut : cutByte i (chr ':') (s.state, s.hostLen) = (.rest, i) := if_pos ⟨rfl, husual⟩
      rw [if_pos husual, hcut, if_pos rfl]
    · have hcut : cutByte i (chr ':') (s.state, s.hostLen) = (s.state, s.hostLen) := by
        rw [cutByte, if_neg fun h => husual h.2, if_neg fun h => absurd h.1 (by decide)]
      rw [if_neg husual, hcut, if_pos rfl]
  rw [if_neg hcolon]
  by_cases hopen : ch = chr '['
  · have hkept : (chr '[' != 0 && chr '[' != chr '/') = true := by decide
    subst hopen
    rw [if_pos rfl, hsame (chr '[') (by decide), hkept,
      cutByte_other (by decide) (by decide), if_neg (ne_of_gt hi), if_pos rfl]
  rw [if_neg hopen]
  by_cases hclose : ch = chr ']'
  · have hkept : (chr ']' != 0 && chr ']' != chr '/') = true := by decide
    subst hclose
    rw [if_pos rfl, hsame (chr ']') (by decide), hkept]
    by_cases hliteral : s.state = .literal
    · have hcut : cutByte i (chr ']') (s.state, s.hostLen) = (.rest, i + 1) := by
        rw [cutByte, if_neg fun h => hcolon h.1]
        exact if_pos ⟨rfl, hliteral⟩
      rw [if_pos hliteral, hcut, if_pos rfl]
    · have hcut : cutByte i (chr ']') (s.state, s.hostLen) = (s.state, s.hostLen) := by
        rw [cutByte, if_neg fun h => hcolon h.1, if_neg fun h => hliteral h.2]
      rw [if_neg hliteral, hcut, if_pos rfl]
  rw [if_neg hclose, cutByte_other hcolon hclose]
  by_cases hzero : ch = 0
  · subst hzero
    rfl
  by_cases hslash : ch = chr '/'
  · subst hslash
    rfl
  have hkept : (ch != 0 && ch != chr '/') = true := by
    rw [Bool.and_eq_true, bne_iff_ne, bne_iff_ne]
    exact ⟨hzero, hslash⟩
  rw [if_neg hzero, if_neg hslash, hkept, if_pos rfl]
  cases hupper : isUpper ch with
  | true => rw [if_pos rfl, Bool.or_true]
  | false => rw [if_neg Bool.false_ne_true, Bool.or_false]

theorem hostLoop_eq (host : Bytes) (i : Nat) (s : HostScan) (hi : 0 < i)
    (hlt : i + host.length < 2 ^ 64)
    (hdot : s.dotPos < i ∨ s.dotPos = i + host.length) :
    hostLoop i host s =
      if hostClean (s.dotPos + 1 = i) host then
        some ⟨lastDot i host s.dotPos, (hostCut i host (s.state, s.hostLen)).2,
          (hostCut i host (s.state, s.hostLen)).1,
          s.alloc || host.any isUpper⟩
      else none := by
  induction host generalizing i s with
  | nil => rw [hostLoop, hostClean, if_pos rfl, lastDot, hostCut, any_nil, Bool.or_false]
  | cons ch host ih =>
    rw [length_cons] at hlt hdot
    rw [hostLoop, hostClean, lastDot, hostCut, any_cons]
    by_cases hch : ch = chr '.'
    · subst hch
      have hsub := subWord_one hi (by omega)
      have hcut : cutByte i (chr '.') (s.state, s.hostLen) = (s.state, s.hostLen) := rfl
      rw [hostByte, if_pos rfl, if_pos rfl, if_pos rfl, hsub, hcut]
      by_cases hprev : s.dotPos + 1 = i
      · rw [if_pos (by omega), decide_eq_true hprev, Bool.not_true,
          Bool.false_and, if_neg Bool.false_ne_true]
        rfl
      · rw [if_neg (by omega), decide_eq_false hprev, Bool.not_false, Bool.true_and, bind_some,
          ih (i + 1) _ (Nat.succ_pos i) (by omega) (.inl (Nat.lt_succ_self i)), decide_eq_true rfl]
        rfl
    · have hnotdot : (decide (s.dotPos + 1 = i + 1)) = false := decide_eq_false (by omega)
      rw [hostByte_other hch hi, if_neg hch, if_neg hch]
      cases hkept : ch != 0 && ch != chr '/' with
      | false =>
        rw [if_neg Bool.false_ne_true, Bool.false_and, if_neg Bool.false_ne_true]
        rfl
      | true =>
        rw [if_pos rfl, bind_some, ih (i + 1) _ (Nat.succ_pos i) (by omega) (by simp only; omega),
          hnotdot, Bool.true_and,
          Bool.or_assoc]

/-! ## The name -/

theorem hostCut_rest (host : Bytes) (i k : Nat) : hostCut i host (.rest, k) = (.rest, k) := by
  induction host generalizing i with
  | nil => rfl
  | cons ch host ih =>
    have hcut : cutByte i ch (.rest, k) = (.rest, k) := by
      rw [cutByte, if_neg fun h => (by cases h.2), if_neg fun h => (by cases h.2)]
    rw [hostCut, hcut, ih]

theorem hostCut_usual (host : Bytes) (i : Nat) (hn : i + host.length = n) :
    (hostCut i host (.usual, n)).2 = i + (host.takeWhile (· != chr ':')).length := by
  induction host generalizing i with
  | nil => exact hn.symm
  | cons ch host ih =>
    rw [length_cons] at hn
    rw [hostCut]
    by_cases hcolon : ch = chr ':'
    · have hcut : cutByte i ch (.usual, n) = (.rest, i) := if_pos ⟨hcolon, rfl⟩
      rw [hcut, hostCut_rest, takeWhile_cons_of_neg (by rw [hcolon]; decide)]
      rfl
    · have hcut : cutByte i ch (.usual, n) = (.usual, n) := by
        rw [cutByte, if_neg fun h => hcolon h.1, if_neg fun h => (by cases h.2)]
      rw [hcut, ih (i + 1) (by omega), takeWhile_cons_of_pos (by rwa [bne_iff_ne]), length_cons]
      omega

theorem hostCut_literal (host : Bytes) (i : Nat) :
    (hostCut i host (.literal, n)).2 = if chr ']' ∈ host then i +
      (host.takeWhile (· != chr ']')).length + 1 else n := by
  induction host generalizing i with
  | nil => rfl
  | cons ch host ih =>
    rw [hostCut]
    by_cases hclose : ch = chr ']'
    · have hcut : cutByte i ch (.literal, n) = (.rest, i + 1) := by
        rw [cutByte, if_neg fun h => (by cases h.2)]
        exact if_pos ⟨hclose, rfl⟩
      rw [hcut, hostCut_rest, if_pos (by rw [hclose]; exact mem_cons_self),
        takeWhile_cons_of_neg (by rw [hclose]; decide)]
      rfl
    · have hcut : cutByte i ch (.literal, n) = (.literal, n) := by
        rw [cutByte, if_neg fun h => (by cases h.2), if_neg fun h => hclose h.1]
      rw [hcut, ih (i + 1), takeWhile_cons_of_pos (by rwa [bne_iff_ne]), length_cons]
      refine if_congr ?_ (by omega) rfl
      rw [mem_cons, or_iff_right (Ne.symm hclose)]

theorem hostName_usual {ch : Byte} (hch : ch ≠ chr '[') (host : Bytes) :
    hostName (ch :: host) = (ch :: host).takeWhile (· != chr ':') := by
  rw [hostName, head?_cons, if_neg fun h => hch (some.inj h)]

theorem hostName_literal (host : Bytes) : hostName (chr '[' :: host) =
    if chr ']' ∈ host then chr '[' ::
      (host.takeWhile (· != chr ']') ++ [chr ']']) else chr '[' :: host := by
  have hmem : chr ']' ∈ chr '[' :: host ↔ chr ']' ∈ host := by
    rw [mem_cons, or_iff_right (by decide)]
  rw [hostName, head?_cons, if_pos rfl]
  refine if_congr hmem ?_ rfl
  rw [takeWhile_cons_of_pos (by decide), cons_append]

theorem hostLoop_zero (host : Bytes) (alloc : Bool) (hlen : host.length < 2 ^ 64 - 1) :
    ∃ state, hostLoop 0 host ⟨host.length, host.length, .usual, alloc⟩ =
      if hostClean false host
        then some ⟨lastDot 0 host host.length, (hostName host).length, state,
        alloc || host.any isUpper⟩
      else none := by
  cases host with
  | nil => exact ⟨.usual, by rw [any_nil, Bool.or_false]; rfl⟩
  | cons ch host =>
    rw [length_cons] at hlen ⊢
    have hfirst : subWord 0 1 = 2 ^ 64 - 1 := rfl
    have hrest := fun (dotPos hostLen : Nat) (state : HostState) (alloc : Bool)
        (hdot : dotPos < 1 ∨ dotPos = 1 + host.length) =>
      hostLoop_eq host 1 ⟨dotPos, hostLen, state, alloc⟩ one_pos (by omega) hdot
    rw [hostLoop, hostClean, lastDot, any_cons]
    by_cases hdot : ch = chr '.'
    · subst hdot
      have hname : (hostName (chr '.' :: host)).length = 1 +
        (host.takeWhile (· != chr ':')).length := by
        rw [hostName_usual (by decide), takeWhile_cons_of_pos (by decide),
          length_cons, add_comm]
      have hbyte : hostByte 0 (chr '.') ⟨host.length + 1, host.length + 1, .usual, alloc⟩ =
          some ⟨0, host.length + 1, .usual, alloc⟩ := by
        rw [hostByte, if_pos rfl, if_neg (by rw [hfirst]; exact ne_of_lt hlen)]
      refine ⟨(hostCut 1 host (.usual, host.length + 1)).1, ?_⟩
      rw [hbyte, bind_some, hrest 0 _ _ _ (.inl one_pos),
        hostCut_usual host 1 (add_comm 1 _), hname, if_pos rfl, if_pos rfl]
      rfl
    rw [if_neg hdot, if_neg hdot]
    have hnotdot : decide (host.length + 1 + 1 = 1) = false := decide_eq_false (by omega)
    by_cases hcolon : ch = chr ':'
    · subst hcolon
      have hname : (hostName (chr ':' :: host)).length = 0 := by
        rw [hostName_usual (by decide), takeWhile_cons_of_neg (by decide), length_nil]
      have hbyte : hostByte 0 (chr ':') ⟨host.length + 1, host.length + 1, .usual, alloc⟩ =
        some ⟨host.length + 1, 0, .rest, alloc⟩ := rfl
      refine ⟨.rest, ?_⟩
      rw [hbyte, bind_some, hrest _ _ _ _ (.inr (add_comm _ 1)), hostCut_rest, hname, hnotdot]
      rfl
    by_cases hopen : ch = chr '['
    · subst hopen
      have hbyte : hostByte 0 (chr '[') ⟨host.length + 1, host.length + 1, .usual, alloc⟩ =
          some ⟨host.length + 1, host.length + 1, .literal, alloc⟩ := rfl
      have hname : (hostName (chr '[' :: host)).length =
          if chr ']' ∈ host then 1 +
            (host.takeWhile (· != chr ']')).length + 1 else host.length + 1 := by
        rw [hostName_literal]
        by_cases hclose : chr ']' ∈ host
        · rw [if_pos hclose, if_pos hclose, length_cons, length_append,
            length_singleton, add_comm 1]
        · rw [if_neg hclose, if_neg hclose, length_cons]
      refine ⟨(hostCut 1 host (.literal, host.length + 1)).1, ?_⟩
      rw [hbyte, bind_some, hrest _ _ _ _ (.inr (add_comm _ 1)),
        hostCut_literal, hname, hnotdot]
      rfl
    have hname : (hostName (ch :: host)).length = 1 + (host.takeWhile (· != chr ':')).length := by
      rw [hostName_usual hopen, takeWhile_cons_of_pos (by rwa [bne_iff_ne]),
        length_cons, add_comm]
    have hbyte : hostByte 0 ch ⟨host.length + 1, host.length + 1, .usual, alloc⟩ =
      if (ch != 0 && ch != chr '/') = true then
        some ⟨host.length + 1, host.length + 1, .usual, alloc || isUpper ch⟩ else none := by
      rw [hostByte, if_neg hdot, if_neg hcolon, if_neg hopen]
      by_cases hclose : ch = chr ']'
      · subst hclose
        cases alloc <;> rfl
      by_cases hzero : ch = 0
      · subst hzero
        rfl
      by_cases hslash : ch = chr '/'
      · subst hslash
        rfl
      have hkept : (ch != 0 && ch != chr '/') = true := by
        rw [Bool.and_eq_true, bne_iff_ne, bne_iff_ne]
        exact ⟨hzero, hslash⟩
      rw [if_neg hclose, if_neg hzero, if_neg hslash, hkept, if_pos rfl]
      cases isUpper ch with
      | true => rw [if_pos rfl, Bool.or_true]
      | false => rw [if_neg Bool.false_ne_true, Bool.or_false]
    rw [hbyte]
    cases hkept : ch != 0 && ch != chr '/' with
    | false => exact ⟨.usual, rfl⟩
    | true =>
      refine ⟨(hostCut 1 host (.usual, host.length + 1)).1, ?_⟩
      rw [if_pos rfl, bind_some, hrest _ _ _ _ (.inr (add_comm _ 1)),
        hostCut_usual host 1 (add_comm 1 _), hname,
        hnotdot, Bool.or_assoc, Bool.true_and]

end Parts

end Nginx.Http
