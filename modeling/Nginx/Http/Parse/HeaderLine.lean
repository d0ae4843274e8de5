/-
  Http/Parse/HeaderLine.lean --- `ngx_http_parse_header_line`: one line of a
  header of a request or of a response.

  The fields of `r` that the function works on are one record; addresses stand
  for the pointers.  `hash` and `i` are local to a call and go back to `r` where
  it returns `NGX_AGAIN` or `NGX_OK`.
-/
import Nginx.Core.StrCase
import Nginx.Http.Parse.Char

set_option autoImplicit false

namespace Nginx.Http.Parse

open Foundation Option
open Nginx.Core (tolower)

/-- The states of `ngx_http_parse_header_line`. -/
inductive HeaderState where
  | start
  | name
  | spaceBeforeValue
  | value
  | spaceAfterValue
  | ignoreLine
  | almostDone
  | headerAlmostDone
  deriving DecidableEq

/-- `NGX_HTTP_LC_HEADER_LEN` -/
def ngxHttpLcHeaderLen : Nat := 32

/-- `r->state`, `r->header_hash`, `r->lowcase_index` and what they belong to. -/
structure HeaderLine where
  state : HeaderState
  headerHash : UInt64
  lowcaseIndex : Nat
  invalidHeader : Bool
  lowcaseHeader : Nat → Byte
  headerNameStart : Nat
  headerNameEnd : Nat
  headerStart : Nat
  headerEnd : Nat

/-- `allow_underscores`, and whether `r->upstream` is set. -/
structure HeaderEnv where
  allowUnderscores : Bool
  upstream : Bool

/-- `lowcase[]` -/
def lowcaseTable : Bytes :=
  List.replicate 45 0 ++ chr '-' :: List.replicate 2 0 ++ ascii "0123456789" ++
    List.replicate 7 0 ++
    ascii "abcdefghijklmnopqrstuvwxyz" ++ List.replicate 6 0 ++
      ascii "abcdefghijklmnopqrstuvwxyz" ++ List.replicate 133 0

def lowcase (ch : Byte) : Byte := lowcaseTable.getD ch.toNat 0

/-- `ngx_hash(key, c)` -/
def ngxHash (key : UInt64) (c : Byte) : UInt64 := key * 31 + c.toUInt64

/-- What the `switch (state)` does with a byte. -/
inductive HeaderStep where
  /-- `break` -/
  | next (s : HeaderLine)
  /-- `goto done` -/
  | done (s : HeaderLine)
  /-- `goto header_done` -/
  | headerDone (s : HeaderLine)
  /-- `return NGX_HTTP_PARSE_INVALID_HEADER` -/
  | invalid

/-- The first byte of a name. -/
def HeaderLine.first (s : HeaderLine) (c : Byte) : HeaderLine :=
  { s with
    headerHash := ngxHash 0 c, lowcaseHeader := Function.update s.lowcaseHeader 0 c
    lowcaseIndex := 1 }

/-- Another byte of a name. -/
def HeaderLine.more (s : HeaderLine) (c : Byte) : HeaderLine :=
  { s with
    headerHash := ngxHash s.headerHash c
    lowcaseHeader := Function.update s.lowcaseHeader s.lowcaseIndex c
    lowcaseIndex := (s.lowcaseIndex + 1) &&& (ngxHttpLcHeaderLen - 1) }

/-- `case sw_start` -/
def startStep (env : HeaderEnv) (p : Nat) (ch : Byte) (s : HeaderLine) : HeaderStep :=
  let s := { s with headerNameStart := p, invalidHeader := false }
  if ch = cr then .next { s with headerEnd := p, state := .headerAlmostDone }
  else if ch = lf then .headerDone { s with headerEnd := p }
  else
    let s := { s with state := .name }
    if lowcase ch ≠ 0 then .next (s.first (lowcase ch))
    else if ch = chr '_' then
      if env.allowUnderscores then .next (s.first ch) else .next { s with invalidHeader := true }
    else if ch = 0 then .invalid
    else .next { s with invalidHeader := true }

/-- `case sw_name` -/
def nameStep (env : HeaderEnv) (mem : Nat → Byte) (p : Nat) (ch : Byte) (s : HeaderLine) :
    HeaderStep :=
  if lowcase ch ≠ 0 then .next (s.more (lowcase ch))
  else if ch = chr '_' then
    if env.allowUnderscores then .next (s.more ch) else .next { s with invalidHeader := true }
  else if ch = chr ':' then .next { s with headerNameEnd := p, state := .spaceBeforeValue }
  else if ch = cr then .next
    { s with headerNameEnd := p, headerStart := p, headerEnd := p, state := .almostDone }
  else if ch = lf then .done { s with headerNameEnd := p, headerStart := p, headerEnd := p }
  -- IIS may send the duplicate "HTTP/1.1 ..." lines
  else if ch = chr '/' ∧ env.upstream = true ∧ p - s.headerNameStart = 4 ∧
    load mem s.headerNameStart 4 = ascii "HTTP" then
    .next { s with state := .ignoreLine }
  else if ch = 0 then .invalid
  else .next { s with invalidHeader := true }

/-- The `switch (state)` on the byte at `p`. -/
def headerStep (env : HeaderEnv) (mem : Nat → Byte) (p : Nat) (s : HeaderLine) : HeaderStep :=
  let ch := mem p
  match s.state with
  | .start => startStep env p ch s
  | .name => nameStep env mem p ch s
  | .spaceBeforeValue =>
      if ch = chr ' ' then .next s
      else if ch = cr then .next { s with headerStart := p, headerEnd := p, state := .almostDone }
      else if ch = lf then .done { s with headerStart := p, headerEnd := p }
      else if ch = 0 then .invalid
      else .next { s with headerStart := p, state := .value }
  | .value =>
      if ch = chr ' ' then .next { s with headerEnd := p, state := .spaceAfterValue }
      else if ch = cr then .next { s with headerEnd := p, state := .almostDone }
      else if ch = lf then .done { s with headerEnd := p }
      else if ch = 0 then .invalid
      else .next s
  | .spaceAfterValue =>
      if ch = chr ' ' then .next s
      else if ch = cr then .next { s with state := .almostDone }
      else if ch = lf then .done s
      else if ch = 0 then .invalid
      else .next { s with state := .value }
  | .ignoreLine => if ch = lf then .next { s with state := .start } else .next s
  | .almostDone => if ch = lf then .done s else if ch = cr then .next s else .invalid
  | .headerAlmostDone => if ch = lf then .headerDone s else .invalid

/-- What a call returns, with `b->pos`. -/
inductive HeaderRc where
  /-- `NGX_OK` -/
  | ok (s : HeaderLine) (pos : Nat)
  /-- `NGX_AGAIN` -/
  | again (s : HeaderLine) (pos : Nat)
  /-- `NGX_HTTP_PARSE_HEADER_DONE` -/
  | headerDone (s : HeaderLine) (pos : Nat)
  /-- `NGX_HTTP_PARSE_INVALID_HEADER` -/
  | invalid

/-- `for (p = b->pos; p < b->last; p++)` over so many bytes. -/
def headerLoop (env : HeaderEnv) (mem : Nat → Byte) : Nat → Nat → HeaderLine → HeaderRc
  | 0, p, s => .again s p
  | left + 1, p, s =>
      match headerStep env mem p s with
      | .next s => headerLoop env mem left (p + 1) s
      | .done s => .ok { s with state := .start } (p + 1)
      | .headerDone s => .headerDone { s with state := .start } (p + 1)
      | .invalid => .invalid

/-- `ngx_http_parse_header_line`.  At the end of the header `hash` and `i` are dropped. -/
def parseHeaderLine (env : HeaderEnv) (mem : Nat → Byte) (left p : Nat) (s : HeaderLine) :
    HeaderRc :=
  match headerLoop env mem left p s with
  | .headerDone s' p =>
    .headerDone { s' with headerHash := s.headerHash, lowcaseIndex := s.lowcaseIndex } p
  | rc => rc

/-- Call after call, each with so many bytes more, until one does not return `NGX_AGAIN`. -/
def parseHeaderCalls (env : HeaderEnv) (mem : Nat → Byte) : List Nat → Nat → HeaderLine → HeaderRc
  | [], p, s => .again s p
  | left :: calls, p, s =>
      match parseHeaderLine env mem left p s with
      | .again s p => parseHeaderCalls env mem calls p s
      | rc => rc

/-! ## Names -/

/-- The byte that goes into the hash and into `r->lowcase_header` for one of a name. -/
def nameByte? (env : HeaderEnv) (ch : Byte) : Option Byte :=
  if lowcase ch ≠ 0 then some (lowcase ch) else if ch = chr '_' ∧
    env.allowUnderscores = true then some ch else none

set_option maxRecDepth 4000 in
theorem lowcaseTable_eq_tolower :
    (lowcaseTable.zipIdx.all fun e => e.1 == 0 || e.1 == tolower (UInt8.ofNat e.2)) = true := by
  decide

theorem lowcase_eq_tolower (ch : Byte) (h : lowcase ch ≠ 0) : lowcase ch = tolower ch := by
  rw [lowcase, List.getD_eq_getElem?_getD] at h ⊢
  cases hentry : lowcaseTable[ch.toNat]? with
  | none =>
    rw [hentry] at h
    exact absurd (getD_none) h
  | some c =>
    have hmem :=
      List.mem_zipIdx_iff_getElem?.mpr
        (show lowcaseTable[(c, ch.toNat).2]? = some (c, ch.toNat).1 from hentry)
    have htable := List.all_eq_true.mp lowcaseTable_eq_tolower _ hmem
    rw [Bool.or_eq_true, beq_iff_eq, beq_iff_eq, UInt8.ofNat_toNat] at htable
    rw [hentry, getD_some] at h
    rw [getD_some]
    exact htable.resolve_left h

theorem nameByte?_eq_some {env : HeaderEnv} {ch c : Byte} (h : nameByte? env ch = some c) :
    c = tolower ch := by
  rw [nameByte?] at h
  split at h
  · next hne =>
    rw [← some.inj h]
    exact lowcase_eq_tolower ch hne
  split at h
  · next hboth =>
    rw [← some.inj h, hboth.1]
    rfl
  · cases h

/-- `ngx_hash` over a name. -/
def hashName (name : Bytes) : UInt64 := name.foldl ngxHash 0

/-! ## Steps -/

section Steps

variable {env : HeaderEnv} {mem : Nat → Byte} {p q p' : Nat} {s t s' : HeaderLine}

/-- The bytes from one place to another keep the loop going. -/
inductive Steps (env : HeaderEnv) (mem : Nat → Byte) (p : Nat) (s : HeaderLine) :
    Nat → HeaderLine → Prop where
  | refl : Steps env mem p s p s
  | next {q : Nat} {t t' : HeaderLine} (h : Steps env mem p s q t)
    (hstep : headerStep env mem q t = .next t') :
      Steps env mem p s (q + 1) t'

theorem Steps.le (h : Steps env mem p s q t) : p ≤ q := by
  induction h with
  | refl => exact Nat.le_refl p
  | next _ _ ih => exact Nat.le_succ_of_le ih

theorem Steps.trans {r : Nat} {u : HeaderLine} (h : Steps env mem p s q t)
    (h' : Steps env mem q t r u) : Steps env mem p s r u := by
  induction h' with
  | refl => exact h
  | next _ hstep ih => exact ih.next hstep

theorem headerLoop_steps (h : Steps env mem p s q t) (left : Nat) :
    headerLoop env mem (q - p + left) p s = headerLoop env mem left q t := by
  induction h generalizing left with
  | refl => rw [Nat.sub_self, zero_add]
  | @next q t t' h hstep ih =>
    have hle := h.le
    have hleft : q + 1 - p + left = q - p + (left + 1) := by omega
    rw [hleft, ih, headerLoop, hstep]

theorem steps_of_headerLoop (left p : Nat) (s : HeaderLine) :
    (∀ s' p', headerLoop env mem left p s = .again s' p' → Steps env mem p s p' s') ∧
      ∀ s' p', headerLoop env mem left p s = .ok s' p' →
        ∃ q t u, Steps env mem p s q t ∧ headerStep env mem q t = .done u ∧
          s' = { u with state := .start } ∧ p' = q + 1 := by
  induction left generalizing p s with
  | zero =>
    refine ⟨fun s' p' h => ?_, fun s' p' h => ?_⟩
    · cases h
      exact .refl
    · cases h
  | succ left ih =>
    rw [headerLoop]
    cases hstep : headerStep env mem p s with
    | next s₁ =>
      have hfirst : Steps env mem p s (p + 1) s₁ := .next .refl hstep
      obtain ⟨hagain, hok⟩ := ih (p + 1) s₁
      refine ⟨fun s' p' h => hfirst.trans (hagain s' p' h), fun s' p' h => ?_⟩
      obtain ⟨q, t, u, hsteps, hdone, hs, hp⟩ := hok s' p' h
      exact ⟨q, t, u, hfirst.trans hsteps, hdone, hs, hp⟩
    | done u =>
      refine ⟨fun s' p' h => ?_, fun s' p' h => ?_⟩
      · cases h
      · cases h
        exact ⟨p, s, u, .refl, hstep, rfl, rfl⟩
    | headerDone u => exact ⟨fun s' p' h => (by cases h), fun s' p' h => (by cases h)⟩
    | invalid => exact ⟨fun s' p' h => (by cases h), fun s' p' h => (by cases h)⟩

theorem parseHeaderLine_eq_ok_iff {left : Nat} :
    parseHeaderLine env mem left p s = .ok s' p' ↔ headerLoop env mem left p s = .ok s' p' := by
  rw [parseHeaderLine]
  cases headerLoop env mem left p s with
  | headerDone t q => exact iff_of_false (fun h => by cases h) (fun h => by cases h)
  | _ => exact Iff.rfl

theorem parseHeaderLine_eq_again_iff {left : Nat} :
    parseHeaderLine env mem left p s = .again s' p' ↔
      headerLoop env mem left p s = .again s' p' := by
  rw [parseHeaderLine]
  cases headerLoop env mem left p s with
  | headerDone t q => exact iff_of_false (fun h => by cases h) (fun h => by cases h)
  | _ => exact Iff.rfl

/-- The calls for a line, whatever their lengths, are one loop up to its end. -/
theorem steps_of_calls {calls : List Nat} (h : parseHeaderCalls env mem calls p s = .ok s' p') :
    ∃ q t u, Steps env mem p s q t ∧ headerStep env mem q t = .done u ∧
      s' = { u with state := .start } ∧ p' = q + 1 := by
  induction calls generalizing p s with
  | nil => cases h
  | cons left calls ih =>
    rw [parseHeaderCalls] at h
    cases hcall : parseHeaderLine env mem left p s with
    | again s₁ p₁ =>
      rw [hcall] at h
      obtain ⟨q, t, u, hsteps, hdone, hs, hp⟩ := ih h
      have hfirst := (steps_of_headerLoop left p s).1 s₁ p₁ (parseHeaderLine_eq_again_iff.mp hcall)
      exact ⟨q, t, u, hfirst.trans hsteps, hdone, hs, hp⟩
    | ok s₁ p₁ =>
      rw [hcall] at h
      cases h
      exact (steps_of_headerLoop left p s).2 s' p' (parseHeaderLine_eq_ok_iff.mp hcall)
    | headerDone s₁ p₁ =>
      rw [hcall] at h
      cases h
    | invalid =>
      rw [hcall] at h
      cases h

theorem parseHeaderLine_of_steps {u : HeaderLine} (h : Steps env mem p s q t)
    (hdone : headerStep env mem q t = .done u) :
    parseHeaderLine env mem (q + 1 - p) p s = .ok { u with state := .start } (q + 1) := by
  have hle := h.le
  have hleft : q + 1 - p = q - p + 1 := by omega
  rw [parseHeaderLine_eq_ok_iff, hleft, headerLoop_steps h, headerLoop, hdone]

end Steps

end Nginx.Http.Parse
