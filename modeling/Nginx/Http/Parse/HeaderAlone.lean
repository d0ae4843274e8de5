/-
  Http/Parse/HeaderAlone.lean --- whether what a header line gives depends on
  the line alone, and the header lines of one request.

  Every field that a line's results are made of is set before it is used, but
  for `hash` and `i`: a first byte that no name may have leaves them as the line
  before left them.  Where no line begins so with anything left behind, a line
  is read as if it came first.
-/
import Nginx.Http.Parse.HeaderLine

set_option autoImplicit false

namespace Nginx.Http.Parse

open Foundation List Option Function
open Nginx.Core (strlow)

/-! ## What is set where -/

/-- The end of the name is set in this line. -/
def HeaderState.hasName : HeaderState → Bool
  | .spaceBeforeValue | .value | .spaceAfterValue | .almostDone => true
  | _ => false

/-- The start of the value is. -/
def HeaderState.hasValue : HeaderState → Bool
  | .value | .spaceAfterValue | .almostDone => true
  | _ => false

/-- The end of the value is, and holds. -/
def HeaderState.hasEnd : HeaderState → Bool
  | .spaceAfterValue | .almostDone => true
  | _ => false

/-- Two records agree on what is set in the line so far. -/
structure Same (s f : HeaderLine) : Prop where
  state : s.state = f.state
  hash : s.headerHash = f.headerHash
  index : s.lowcaseIndex = f.lowcaseIndex
  invalid : s.invalidHeader = f.invalidHeader
  nameStart : s.headerNameStart = f.headerNameStart
  nameEnd : s.state.hasName = true → s.headerNameEnd = f.headerNameEnd
  valueStart : s.state.hasValue = true → s.headerStart = f.headerStart
  valueEnd : s.state.hasEnd = true → s.headerEnd = f.headerEnd

/-- Two records agree on the results of a line. -/
structure SameResult (s f : HeaderLine) : Prop where
  hash : s.headerHash = f.headerHash
  index : s.lowcaseIndex = f.lowcaseIndex
  invalid : s.invalidHeader = f.invalidHeader
  nameStart : s.headerNameStart = f.headerNameStart
  nameEnd : s.headerNameEnd = f.headerNameEnd
  valueStart : s.headerStart = f.headerStart
  valueEnd : s.headerEnd = f.headerEnd

section Lockstep

variable {env : HeaderEnv} {mem : Nat → Byte} {p : Nat} {s f : HeaderLine}

theorem Same.next {s' : HeaderLine} (h : Same s f) (hne : s.state ≠ .start)
    (hstep : headerStep env mem p s = .next s') :
    ∃ f', headerStep env mem p f = .next f' ∧ (s'.state ≠ .start → Same s' f') := by
  obtain ⟨state, hash, index, invalid, lowcased, nameStart, nameEnd, valueStart, valueEnd⟩ := s
  obtain ⟨state', hash', index', invalid', lowcased', nameStart', nameEnd',
    valueStart', valueEnd'⟩ := f
  obtain ⟨rfl, rfl, rfl, rfl, rfl, hname, hvalue, hend⟩ := h
  cases state with
  | start => exact absurd rfl hne
  | name =>
    simp only [headerStep, nameStep] at hstep ⊢
    split_ifs at hstep ⊢
    all_goals cases hstep
    all_goals refine ⟨_, rfl, fun hne => ?_⟩
    all_goals
      refine ⟨rfl, rfl, rfl, rfl, rfl, fun h => ?_, fun h => ?_, fun h => ?_⟩
      all_goals first
        | rfl
        | cases h
  | spaceBeforeValue | value | spaceAfterValue | ignoreLine | almostDone | headerAlmostDone =>
    simp only [headerStep] at hstep ⊢
    split_ifs at hstep ⊢
    all_goals cases hstep
    all_goals refine ⟨_, rfl, fun hne => ?_⟩
    all_goals
      refine ⟨rfl, rfl, rfl, rfl, rfl, fun h => ?_, fun h => ?_, fun h => ?_⟩
      all_goals first
        | rfl
        | exact hname rfl
        | exact hvalue rfl
        | exact hend rfl
        | cases h

theorem Same.done {u : HeaderLine} (h : Same s f) (hne : s.state ≠ .start)
    (hstep : headerStep env mem p s = .done u) :
    ∃ u', headerStep env mem p f = .done u' ∧ SameResult u u' := by
  obtain ⟨state, hash, index, invalid, lowcased, nameStart, nameEnd, valueStart, valueEnd⟩ := s
  obtain ⟨state', hash', index', invalid', lowcased', nameStart', nameEnd',
    valueStart', valueEnd'⟩ := f
  obtain ⟨rfl, rfl, rfl, rfl, rfl, hname, hvalue, hend⟩ := h
  cases state with
  | start => exact absurd rfl hne
  | name =>
    simp only [headerStep, nameStep] at hstep ⊢
    split_ifs at hstep ⊢
    all_goals cases hstep
    all_goals exact ⟨_, rfl, ⟨rfl, rfl, rfl, rfl, rfl, rfl, rfl⟩⟩
  | spaceBeforeValue | value | spaceAfterValue | ignoreLine | almostDone | headerAlmostDone =>
    simp only [headerStep] at hstep ⊢
    split_ifs at hstep ⊢
    all_goals cases hstep
    all_goals
      refine ⟨_, rfl, ⟨rfl, rfl, rfl, rfl, ?_, ?_, ?_⟩⟩
      all_goals first
        | rfl
        | exact hname rfl
        | exact hvalue rfl
        | exact hend rfl

end Lockstep

/-! ## The first byte -/

/-- A byte that begins a name and that no name may have. -/
def InvalidFirst (env : HeaderEnv) (ch : Byte) : Prop := ch ≠ cr ∧ ch ≠ lf ∧ nameByte? env ch = none

/-- A record for a line alone. -/
structure HeaderLine.Fresh (s : HeaderLine) : Prop where
  state : s.state = .start
  hash : s.headerHash = 0
  index : s.lowcaseIndex = 0

/-- Nothing is left behind where a line begins with a byte that no name may have. -/
def CleanStart (env : HeaderEnv) (mem : Nat → Byte) (p : Nat) (s : HeaderLine) : Prop :=
  s.state = .start → InvalidFirst env (mem p) → s.headerHash = 0 ∧ s.lowcaseIndex = 0

section First

variable {env : HeaderEnv} {mem : Nat → Byte} {p : Nat} {s f s' : HeaderLine}

theorem nameByte?_cr : nameByte? env cr = none := by
  rw [nameByte?, if_neg (by decide), if_neg fun h => absurd h.1 (by decide)]

theorem nameByte?_lf : nameByte? env lf = none := by
  rw [nameByte?, if_neg (by decide), if_neg fun h => absurd h.1 (by decide)]

theorem ne_eol_of_nameByte? {ch c : Byte} (h : nameByte? env ch = some c) : ch ≠ cr ∧ ch ≠ lf := by
  constructor
  · rintro rfl
    rw [nameByte?_cr] at h
    cases h
  · rintro rfl
    rw [nameByte?_lf] at h
    cases h

theorem startStep_byte {ch c : Byte} (h : nameByte? env ch = some c) :
    startStep env p ch s = .next (HeaderLine.first
      { s with headerNameStart := p, invalidHeader := false, state := .name } c) := by
  obtain ⟨hcr, hlf⟩ := ne_eol_of_nameByte? h
  rw [startStep, if_neg hcr, if_neg hlf]
  rw [nameByte?] at h
  by_cases hlow : lowcase ch ≠ 0
  · rw [if_pos hlow] at h ⊢
    rw [← some.inj h]
  rw [if_neg hlow] at h ⊢
  by_cases hunder : ch = chr '_' ∧ env.allowUnderscores = true
  · rw [if_pos hunder] at h
    rw [if_pos hunder.1, if_pos hunder.2, ← some.inj h]
  · rw [if_neg hunder] at h
    cases h

theorem startStep_other {ch : Byte} (h : InvalidFirst env ch) :
    startStep env p ch s = if ch = 0 then .invalid else .next
      { s with headerNameStart := p, invalidHeader := true, state := .name } := by
  obtain ⟨hcr, hlf, hnone⟩ := h
  rw [startStep, if_neg hcr, if_neg hlf]
  rw [nameByte?] at hnone
  by_cases hlow : lowcase ch ≠ 0
  · rw [if_pos hlow] at hnone
    cases hnone
  rw [if_neg hlow] at hnone ⊢
  by_cases hunder : ch = chr '_'
  · have hallow : ¬ env.allowUnderscores = true := by
      intro hallow
      rw [if_pos ⟨hunder, hallow⟩] at hnone
      cases hnone
    have hnul : ch ≠ 0 := by
      rw [hunder]
      decide
    rw [if_pos hunder, if_neg hallow, if_neg hnul]
  · rw [if_neg hunder]

theorem same_of_name (hs : s.state = .name) (hf : f.state = .name)
    (hash : s.headerHash = f.headerHash)
    (index : s.lowcaseIndex = f.lowcaseIndex) (invalid : s.invalidHeader = f.invalidHeader)
    (nameStart : s.headerNameStart = f.headerNameStart) : Same s f := by
  refine ⟨hs.trans hf.symm, hash, index, invalid, nameStart, ?_, ?_, ?_⟩
  · rw [hs]
    exact fun h => absurd h Bool.false_ne_true
  · rw [hs]
    exact fun h => absurd h Bool.false_ne_true
  · rw [hs]
    exact fun h => absurd h Bool.false_ne_true

theorem same_first (hs : s.state = .start) (hclean : CleanStart env mem p s) (hf : f.Fresh)
    (hstep : headerStep env mem p s = .next s') (hstate : s'.state ≠ .headerAlmostDone) :
    ∃ f', headerStep env mem p f = .next f' ∧ Same s' f' := by
  have hstart : startStep env p (mem p) s = .next s' := by
    rw [headerStep, hs] at hstep
    exact hstep
  have hstart' : headerStep env mem p f = startStep env p (mem p) f := by rw [headerStep, hf.state]
  rw [hstart']
  cases hbyte : nameByte? env (mem p) with
  | some c =>
    rw [startStep_byte hbyte] at hstart ⊢
    cases hstart
    exact ⟨_, rfl, same_of_name rfl rfl rfl rfl rfl rfl⟩
  | none =>
    by_cases hcr : mem p = cr
    · rw [startStep, if_pos hcr] at hstart
      cases hstart
      exact absurd rfl hstate
    by_cases hlf : mem p = lf
    · rw [startStep, if_neg hcr, if_pos hlf] at hstart
      cases hstart
    have hinvalid : InvalidFirst env (mem p) := ⟨hcr, hlf, hbyte⟩
    obtain ⟨hhash, hindex⟩ := hclean hs hinvalid
    rw [startStep_other hinvalid] at hstart ⊢
    split at hstart
    · cases hstart
    · next hnul =>
      cases hstart
      rw [if_neg hnul]
      exact ⟨_, rfl,
        same_of_name rfl rfl (hhash.trans hf.hash.symm) (hindex.trans hf.index.symm) rfl rfl⟩

end First

/-! ## The name -/

/-- How many bytes of a name go into the hash. -/
def countNameBytes (env : HeaderEnv) (name : Bytes) :
    Nat := name.countP fun ch => (nameByte? env ch).isSome

/-- What `hash` and `i` say about so many bytes of the name: `i` counts those that go into the
hash, and where these are all, the hash and the lower-cased name are theirs. -/
structure Named (env : HeaderEnv) (mem : Nat → Byte) (s : HeaderLine) (n : Nat) : Prop where
  index : s.lowcaseIndex = countNameBytes env (load mem s.headerNameStart n) % 32
  hash : countNameBytes env (load mem s.headerNameStart n) = n →
    s.headerHash = hashName (strlow (load mem s.headerNameStart n))
  lowcased : countNameBytes env (load mem s.headerNameStart n) = n → n < 32 →
    load s.lowcaseHeader 0 n = strlow (load mem s.headerNameStart n)

section Name

variable {env : HeaderEnv} {mem : Nat → Byte} {p n : Nat} {s s' : HeaderLine}

theorem load_concat {α : Type} (mem : Nat → α) (a n : Nat) :
    load mem a (n + 1) = load mem a n ++ [mem (a + n)] := by
  rw [load_append, Core.load_succ, Core.load_zero]

theorem countNameBytes_le (name : Bytes) : countNameBytes env name ≤ name.length := countP_le_length

theorem countNameBytes_concat (name : Bytes) (ch : Byte) :
    countNameBytes env (name ++ [ch]) =
      countNameBytes env name + if (nameByte? env ch).isSome then 1 else 0 := by
  rw [countNameBytes, countP_append, countP_singleton, countNameBytes]

theorem Named.congr (h : Named env mem s n) (hash : s'.headerHash = s.headerHash)
    (index : s'.lowcaseIndex = s.lowcaseIndex)
    (lowcased : s'.lowcaseHeader = s.lowcaseHeader)
    (nameStart : s'.headerNameStart = s.headerNameStart) : Named env mem s' n := by
  refine ⟨?_, ?_, ?_⟩
  · rw [index, nameStart]
    exact h.index
  · rw [hash, nameStart]
    exact h.hash
  · rw [lowcased, nameStart]
    exact h.lowcased

theorem Named.first {c : Byte} (hbyte : nameByte? env (mem p) = some c)
    (hstart : s.headerNameStart = p) :
    Named env mem (s.first c) 1 := by
  have hname : load mem (s.first c).headerNameStart 1 = [mem p] := by
    rw [show (s.first c).headerNameStart = p from hstart]
    rfl
  have hlow : strlow [mem p] = [c] := by rw [nameByte?_eq_some hbyte, strlow, map_singleton]
  have hcount : countNameBytes env [mem p] = 1 := by
    rw [countNameBytes, countP_singleton, hbyte]; rfl
  refine ⟨?_, fun _ => ?_, fun _ _ => ?_⟩
  · rw [hname, hcount]
    rfl
  · rw [hname, hlow]
    rfl
  · rw [hname, hlow, Core.load_succ, Core.load_zero, HeaderLine.first]
    dsimp only
    rw [update_self]

theorem Named.otherFirst (hbyte : nameByte? env (mem p) = none)
    (hstart : s.headerNameStart = p) (hindex : s.lowcaseIndex = 0) :
    Named env mem s 1 := by
  have hcount : countNameBytes env (load mem s.headerNameStart 1) = 0 := by
    rw [hstart, Core.load_succ, Core.load_zero, countNameBytes, countP_singleton, hbyte]
    rfl
  refine ⟨?_, fun h => ?_, fun h => ?_⟩
  · rw [hcount, hindex]
  · rw [hcount] at h
    cases h
  · rw [hcount] at h
    cases h

theorem Named.more {c : Byte} (h : Named env mem s n)
    (hbyte : nameByte? env (mem (s.headerNameStart + n)) = some c) :
    Named env mem (s.more c) (n + 1) := by
  have hname : load mem (s.more c).headerNameStart (n + 1) =
    load mem s.headerNameStart n ++ [mem (s.headerNameStart + n)] :=
    load_concat mem s.headerNameStart n
  have hlow : strlow (load mem s.headerNameStart n ++ [mem (s.headerNameStart + n)]) =
    strlow (load mem s.headerNameStart n) ++ [c] := by
    rw [nameByte?_eq_some hbyte, strlow, map_append, map_singleton, strlow]
  have hcount : countNameBytes env (load mem s.headerNameStart n ++ [mem (s.headerNameStart + n)]) =
      countNameBytes env (load mem s.headerNameStart n) + 1 := by
    rw [countNameBytes_concat, hbyte]
    rfl
  refine ⟨?_, fun hall => ?_, fun hall hn => ?_⟩
  · rw [hname, hcount, HeaderLine.more]
    dsimp only
    rw [h.index, ngxHttpLcHeaderLen, Nat.and_two_pow_sub_one_eq_mod _ 5]
    omega
  · rw [hname, hcount] at hall
    rw [hname, hlow, HeaderLine.more]
    dsimp only
    rw [h.hash (Nat.succ.inj hall), hashName, hashName, foldl_append]
    rfl
  rw [hname, hcount] at hall
  have hwhole := Nat.succ.inj hall
  have hindex : s.lowcaseIndex = n := by
    rw [h.index, hwhole]
    omega
  have hload : load (update s.lowcaseHeader n c) 0 n = load s.lowcaseHeader 0 n := by
    refine map_congr_left fun j hj => ?_
    rw [zero_add]
    exact update_of_ne (ne_of_lt (mem_range.mp hj)) _ _
  rw [hname, hlow, HeaderLine.more, load_concat]
  dsimp only
  rw [hindex, hload, h.lowcased hwhole (by omega), zero_add, update_self]

theorem Named.other (h : Named env mem s n)
    (hbyte : nameByte? env (mem (s.headerNameStart + n)) = none) :
    Named env mem s (n + 1) := by
  have hcount : countNameBytes env (load mem s.headerNameStart (n + 1)) =
    countNameBytes env (load mem s.headerNameStart n) := by
    rw [load_concat, countNameBytes_concat, hbyte]
    rfl
  have hle := @countNameBytes_le env (load mem s.headerNameStart n)
  rw [length_load] at hle
  refine ⟨?_, fun h => ?_, fun h => ?_⟩
  · rw [hcount]
    exact h.index
  · omega
  · omega

theorem Named.whole (h : Named env mem s n) (hindex : s.lowcaseIndex = n) :
    load s.lowcaseHeader 0 n = strlow (load mem s.headerNameStart n) ∧
      s.headerHash = hashName (strlow (load mem s.headerNameStart n)) := by
  have hle := @countNameBytes_le env (load mem s.headerNameStart n)
  rw [length_load] at hle
  have hmod := h.index
  have hall : countNameBytes env (load mem s.headerNameStart n) = n := by omega
  exact ⟨h.lowcased hall (by omega), h.hash hall⟩

end Name

/-! ## Lines -/

/-- What the machine has done in a line so far. -/
structure InLine (env : HeaderEnv) (mem : Nat → Byte) (p : Nat) (s : HeaderLine) : Prop where
  lt : s.headerNameStart < p
  alone : ∀ f : HeaderLine, f.Fresh → ∃ f', Steps env mem s.headerNameStart f p f' ∧ Same s f'
  name : s.state = .name → Named env mem s (p - s.headerNameStart)
  named : s.state.hasName = true → Named env mem s (s.headerNameEnd - s.headerNameStart)

section Line

variable {env : HeaderEnv} {mem : Nat → Byte} {p : Nat} {s s' u : HeaderLine}

theorem nameStep_byte {ch c : Byte} (h : nameByte? env ch = some c) :
    nameStep env mem p ch s = .next (s.more c) := by
  rw [nameByte?] at h
  rw [nameStep]
  by_cases hlow : lowcase ch ≠ 0
  · rw [if_pos hlow] at h ⊢
    rw [← some.inj h]
  rw [if_neg hlow] at h ⊢
  by_cases hunder : ch = chr '_' ∧ env.allowUnderscores = true
  · rw [if_pos hunder] at h
    rw [if_pos hunder.1, if_pos hunder.2, ← some.inj h]
  · rw [if_neg hunder] at h
    cases h

/-- The fields that the name leaves behind. -/
structure SameName (s s' : HeaderLine) : Prop where
  hash : s'.headerHash = s.headerHash
  index : s'.lowcaseIndex = s.lowcaseIndex
  lowcased : s'.lowcaseHeader = s.lowcaseHeader
  nameStart : s'.headerNameStart = s.headerNameStart

theorem Named.sameName {n : Nat} (h : Named env mem s n) (hsame : SameName s s') :
    Named env mem s' n :=
  h.congr hsame.hash hsame.index hsame.lowcased hsame.nameStart

theorem nameStep_other {ch : Byte} (hs : s.state = .name) (h : nameByte? env ch = none)
    (hstep : nameStep env mem p ch s = .next s') :
    SameName s s' ∧
      (s'.state = .name ∨ s'.state = .ignoreLine ∨ s'.state.hasName = true ∧
      s'.headerNameEnd = p) := by
  rw [nameByte?] at h
  rw [nameStep] at hstep
  by_cases hlow : lowcase ch ≠ 0
  · rw [if_pos hlow] at h
    cases h
  rw [if_neg hlow] at h hstep
  by_cases hunder : ch = chr '_'
  · have hallow : ¬ env.allowUnderscores = true := by
      intro hallow
      rw [if_pos ⟨hunder, hallow⟩] at h
      cases h
    rw [if_pos hunder, if_neg hallow] at hstep
    cases hstep
    exact ⟨⟨rfl, rfl, rfl, rfl⟩, .inl hs⟩
  rw [if_neg hunder] at hstep
  split_ifs at hstep
  all_goals cases hstep
  · exact ⟨⟨rfl, rfl, rfl, rfl⟩, .inr (.inr ⟨rfl, rfl⟩)⟩
  · exact ⟨⟨rfl, rfl, rfl, rfl⟩, .inr (.inr ⟨rfl, rfl⟩)⟩
  · exact ⟨⟨rfl, rfl, rfl, rfl⟩, .inr (.inl rfl)⟩
  · exact ⟨⟨rfl, rfl, rfl, rfl⟩, .inl hs⟩

theorem nameStep_done {ch : Byte} (hstep : nameStep env mem p ch s = .done u) :
    SameName s u ∧ u.headerNameEnd = p := by
  rw [nameStep] at hstep
  split_ifs at hstep
  cases hstep
  exact ⟨⟨rfl, rfl, rfl, rfl⟩, rfl⟩

theorem headerStep_next_of_ne (hstart : s.state ≠ .start) (hname : s.state ≠ .name)
    (hstep : headerStep env mem p s = .next s') :
    SameName s s' ∧ s'.headerNameEnd = s.headerNameEnd ∧ s'.state ≠ .name ∧
      (s'.state.hasName = true → s.state.hasName = true) := by
  obtain ⟨state, hash, index, invalid, lowcased, nameStart, nameEnd, valueStart, valueEnd⟩ := s
  cases state with
  | start => exact absurd rfl hstart
  | name => exact absurd rfl hname
  | spaceBeforeValue | value | spaceAfterValue | ignoreLine | almostDone | headerAlmostDone =>
    simp only [headerStep] at hstep
    split_ifs at hstep
    all_goals cases hstep
    all_goals
      refine ⟨⟨rfl, rfl, rfl, rfl⟩, rfl, HeaderState.noConfusion, fun h => ?_⟩
      first
        | rfl
        | cases h

theorem headerStep_done_of_ne (hstart : s.state ≠ .start) (hname : s.state ≠ .name)
    (hstep : headerStep env mem p s = .done u) :
    SameName s u ∧ u.headerNameEnd = s.headerNameEnd ∧ s.state.hasName = true := by
  obtain ⟨state, hash, index, invalid, lowcased, nameStart, nameEnd, valueStart, valueEnd⟩ := s
  cases state with
  | start => exact absurd rfl hstart
  | name => exact absurd rfl hname
  | spaceBeforeValue | value | spaceAfterValue | ignoreLine | almostDone | headerAlmostDone =>
    simp only [headerStep] at hstep
    split_ifs at hstep
    all_goals cases hstep
    all_goals exact ⟨⟨rfl, rfl, rfl, rfl⟩, rfl, rfl⟩

theorem InLine.first (hs : s.state = .start) (hclean : CleanStart env mem p s)
    (hstep : headerStep env mem p s = .next s') (hstate : s'.state ≠ .headerAlmostDone) :
    InLine env mem (p + 1) s' := by
  have hstart : startStep env p (mem p) s = .next s' := by
    rw [headerStep, hs] at hstep
    exact hstep
  have hnamed : s'.headerNameStart = p ∧ s'.state = .name ∧ Named env mem s' 1 := by
    cases hbyte : nameByte? env (mem p) with
    | some c =>
      rw [startStep_byte hbyte] at hstart
      cases hstart
      exact ⟨rfl, rfl, Named.first hbyte rfl⟩
    | none =>
      by_cases hcr : mem p = cr
      · rw [startStep, if_pos hcr] at hstart
        cases hstart
        exact absurd rfl hstate
      by_cases hlf : mem p = lf
      · rw [startStep, if_neg hcr, if_pos hlf] at hstart
        cases hstart
      rw [startStep_other ⟨hcr, hlf, hbyte⟩] at hstart
      split at hstart
      · cases hstart
      · cases hstart
        exact ⟨rfl, rfl, Named.otherFirst hbyte rfl (hclean hs ⟨hcr, hlf, hbyte⟩).2⟩
  obtain ⟨hat, hname, hone⟩ := hnamed
  refine ⟨by omega, fun f hf => ?_, fun _ => ?_, fun h => ?_⟩
  · obtain ⟨f', hstep', hsame⟩ := same_first hs hclean hf hstep hstate
    rw [hat]
    exact ⟨f', .next .refl hstep', hsame⟩
  · rw [hat, Nat.add_sub_cancel_left]
    exact hone
  · rw [hname] at h
    cases h

/-- The invariant inside a line. -/
theorem InLine.next (h : InLine env mem p s) (hstart : s.state ≠ .start)
    (hstep : headerStep env mem p s = .next s')
    (hstart' : s'.state ≠ .start) : InLine env mem (p + 1) s' := by
  have halone : ∀ f : HeaderLine, f.Fresh → ∃ f', Steps env mem s.headerNameStart f (p + 1) f' ∧
    Same s' f' := by
    intro f hf
    obtain ⟨t, hsteps, hsame⟩ := h.alone f hf
    obtain ⟨f', hstep', hsame'⟩ := hsame.next hstart hstep
    exact ⟨f', hsteps.next hstep', hsame' hstart'⟩
  have hlt := h.lt
  by_cases hname : s.state = .name
  · have hnamed := h.name hname
    have hstep' : nameStep env mem p (mem p) s = .next s' := by
      rw [headerStep, hname] at hstep
      exact hstep
    have hat : s.headerNameStart + (p - s.headerNameStart) = p := by omega
    have hsucc : p - s.headerNameStart + 1 = p + 1 - s.headerNameStart := by omega
    cases hbyte : nameByte? env (mem p) with
    | some c =>
      rw [nameStep_byte hbyte] at hstep'
      cases hstep'
      refine ⟨Nat.lt_succ_of_lt hlt, halone, fun _ => ?_, fun hhas => ?_⟩
      · have hmore := hnamed.more (c := c) (by rw [hat]; exact hbyte)
        rw [hsucc] at hmore
        exact hmore
      · have hvoid : s.state.hasName = true := hhas
        rw [hname] at hvoid
        cases hvoid
    | none =>
      obtain ⟨hsame, hwhere⟩ := nameStep_other hname hbyte hstep'
      refine ⟨?_, ?_, fun _ => ?_, fun hhas => ?_⟩
      · rw [hsame.nameStart]
        exact Nat.lt_succ_of_lt hlt
      · rw [hsame.nameStart]
        exact halone
      · have hother := (hnamed.other (by rw [hat]; exact hbyte)).sameName hsame
        rw [hsucc] at hother
        rw [hsame.nameStart]
        exact hother
      · rcases hwhere with hstate | hstate | ⟨-, hend⟩
        · rw [hstate] at hhas
          cases hhas
        · rw [hstate] at hhas
          cases hhas
        · rw [hend, hsame.nameStart]
          exact hnamed.sameName hsame
  · obtain ⟨hsame, hend, hstate, hhas⟩ := headerStep_next_of_ne hstart hname hstep
    refine ⟨?_, ?_, fun h => absurd h hstate, fun hhas' => ?_⟩
    · rw [hsame.nameStart]
      exact Nat.lt_succ_of_lt hlt
    · rw [hsame.nameStart]
      exact halone
    · rw [hend, hsame.nameStart]
      exact (h.named (hhas hhas')).sameName hsame

theorem InLine.done (h : InLine env mem p s) (hstart : s.state ≠ .start)
    (hstep : headerStep env mem p s = .done u) :
    u.headerNameStart = s.headerNameStart ∧
      Named env mem u (u.headerNameEnd - u.headerNameStart) := by
  by_cases hname : s.state = .name
  · have hstep' : nameStep env mem p (mem p) s = .done u := by
      rw [headerStep, hname] at hstep
      exact hstep
    obtain ⟨hsame, hend⟩ := nameStep_done hstep'
    rw [hend, hsame.nameStart]
    exact ⟨rfl, (h.name hname).sameName hsame⟩
  · obtain ⟨hsame, hend, hhas⟩ := headerStep_done_of_ne hstart hname hstep
    rw [hend, hsame.nameStart]
    exact ⟨rfl, (h.named hhas).sameName hsame⟩

end Line

/-! ## Runs -/

/-- The lines that are parsed on one request, under a condition on what each begins with. -/
inductive HeaderRun (mem : Nat → Byte) (cond : HeaderEnv → Nat → HeaderLine → Prop) :
    Nat → HeaderLine → Prop where
  | fresh {p : Nat} {s : HeaderLine} (hs : s.Fresh) : HeaderRun mem cond p s
  | line {env : HeaderEnv} {calls : List Nat} {p p' : Nat} {s s' : HeaderLine}
    (hrun : HeaderRun mem cond p s)
      (hcond : cond env p s)
        (hcall : parseHeaderCalls env mem calls p s = .ok s' p') : HeaderRun mem cond p' s'

/-- At each step from here on, a line that begins with a byte that no name may have begins with
nothing left behind. -/
def CleanRun (mem : Nat → Byte) (env : HeaderEnv) (p : Nat) (s : HeaderLine) : Prop :=
  ∀ q t, Steps env mem p s q t → CleanStart env mem q t

/-- The results of a line that ends at `p` are those of the line alone; and where `lowcase_index`
is the length of the name, `lowcase_header` and `header_hash` are the name's. -/
structure AloneRight (env : HeaderEnv) (mem : Nat → Byte) (s : HeaderLine) (p : Nat) : Prop where
  alone : ∀ f : HeaderLine, f.Fresh →
    ∃ f', parseHeaderLine env mem (p - s.headerNameStart) s.headerNameStart f = .ok f' p ∧
      SameResult s f'
  lookup : s.lowcaseIndex = s.headerNameEnd - s.headerNameStart →
    load s.lowcaseHeader 0 (s.headerNameEnd - s.headerNameStart) =
        strlow (load mem s.headerNameStart (s.headerNameEnd - s.headerNameStart)) ∧
      s.headerHash =
        hashName (strlow (load mem s.headerNameStart (s.headerNameEnd - s.headerNameStart)))

section Run

variable {env : HeaderEnv} {mem : Nat → Byte} {p p' q : Nat} {s s' t : HeaderLine}
    {calls : List Nat}

theorem HeaderRun.state {cond : HeaderEnv → Nat → HeaderLine → Prop} (h : HeaderRun mem cond p s) :
    s.state = .start := by
  cases h with
  | fresh hs => exact hs.state
  | line _ _ hcall =>
    obtain ⟨q, t, u, -, -, hs, -⟩ := steps_of_calls hcall
    rw [hs]

theorem inLine_of_steps (hs : s.state = .start) (hclean : CleanRun mem env p s)
    (h : Steps env mem p s q t) :
    t.state = .start ∨ t.state = .headerAlmostDone ∨ InLine env mem q t := by
  induction h with
  | refl => exact .inl hs
  | @next q t t' h hstep ih =>
    by_cases hstart' : t'.state = .start
    · exact .inl hstart'
    by_cases hend : t'.state = .headerAlmostDone
    · exact .inr (.inl hend)
    refine .inr (.inr ?_)
    rcases ih with hstart | hlast | hline
    · exact InLine.first hstart (hclean q t h) hstep hend
    · rw [headerStep, hlast] at hstep
      dsimp only at hstep
      split at hstep <;> cases hstep
    · by_cases hstart : t.state = .start
      · exact InLine.first hstart (hclean q t h) hstep hend
      · exact hline.next hstart hstep hstart'

theorem not_done_of_start {u : HeaderLine} (hs : s.state = .start) :
    headerStep env mem p s ≠ .done u := by
  intro hstep
  rw [headerStep, hs] at hstep
  dsimp only at hstep
  rw [startStep] at hstep
  split_ifs at hstep

/-- **Header lines by themselves.**  On a request on which no line begins with a byte that no name
may have while a hash or an index is left behind, every line gives what it gives alone. -/
theorem headerLine_alone (hrun : HeaderRun mem (CleanRun mem) p s) (hclean : CleanRun mem env p s)
    (hcall : parseHeaderCalls env mem calls p s = .ok s' p') : AloneRight env mem s' p' := by
  obtain ⟨q, t, u, hsteps, hdone, rfl, rfl⟩ := steps_of_calls hcall
  have hstart : t.state ≠ .start := fun h => not_done_of_start h hdone
  rcases inLine_of_steps hrun.state hclean hsteps with h | h | hline
  · exact absurd h hstart
  · rw [headerStep, h] at hdone
    dsimp only at hdone
    split at hdone <;> cases hdone
  obtain ⟨hat, hnamed⟩ := hline.done hstart hdone
  refine ⟨fun f hf => ?_, fun hindex => hnamed.whole hindex⟩
  obtain ⟨t', hsteps', hsame⟩ := hline.alone f hf
  obtain ⟨u', hdone', hresult⟩ := hsame.done hstart hdone
  have hline : parseHeaderLine env mem (q + 1 - u.headerNameStart) u.headerNameStart f = .ok
    { u' with state := .start } (q + 1) := by
    rw [hat]
    exact parseHeaderLine_of_steps hsteps' hdone'
  exact ⟨_, hline,
    ⟨hresult.hash, hresult.index, hresult.invalid, hresult.nameStart, hresult.nameEnd,
    hresult.valueStart, hresult.valueEnd⟩⟩

theorem state_of_client (hupstream : env.upstream = false)
    (hne : s.state ≠ .ignoreLine) (hstep : headerStep env mem p s = .next s') :
    s'.state ≠ .start ∧ s'.state ≠ .ignoreLine := by
  obtain ⟨state, hash, index, invalid, lowcased, nameStart, nameEnd, valueStart, valueEnd⟩ := s
  cases state with
  | ignoreLine => exact absurd rfl hne
  | start =>
    simp only [headerStep, startStep] at hstep
    split_ifs at hstep
    all_goals cases hstep
    all_goals exact ⟨HeaderState.noConfusion, HeaderState.noConfusion⟩
  | name =>
    simp only [headerStep, nameStep, hupstream, Bool.false_eq_true, false_and, and_false, if_false]
      at hstep
    split_ifs at hstep
    all_goals cases hstep
    all_goals exact ⟨HeaderState.noConfusion, HeaderState.noConfusion⟩
  | spaceBeforeValue | value | spaceAfterValue | almostDone | headerAlmostDone =>
    simp only [headerStep] at hstep
    split_ifs at hstep
    all_goals cases hstep
    all_goals exact ⟨HeaderState.noConfusion, HeaderState.noConfusion⟩

theorem cleanRun_of_client (hupstream : env.upstream = false)
    (hs : s.state = .start) (hclean : CleanStart env mem p s) :
    CleanRun mem env p s := by
  have hsteps : ∀ q t, Steps env mem p s q t → q = p ∧ t = s ∨ t.state ≠ .start ∧
    t.state ≠ .ignoreLine := by
    intro q t h
    induction h with
    | refl => exact .inl ⟨rfl, rfl⟩
    | @next q t t' _ hstep ih =>
      refine .inr (state_of_client hupstream ?_ hstep)
      rcases ih with ⟨-, rfl⟩ | ⟨-, hne⟩
      · rw [hs]
        exact HeaderState.noConfusion
      · exact hne
  intro q t h
  rcases hsteps q t h with ⟨rfl, rfl⟩ | ⟨hne, -⟩
  · exact hclean
  · exact fun hs => absurd hs hne

end Run

/-! ## A name of an earlier line -/

/-- What `NGX_OK` gives. -/
def HeaderRc.ok? : HeaderRc → Option (HeaderLine × Nat)
  | .ok s p => some (s, p)
  | _ => none

/-- `r` as it is allocated. -/
def zeroedHeader : HeaderLine := ⟨.start, 0, 0, false, fun _ => 0, 0, 0, 0, 0⟩

theorem fresh_zeroedHeader : zeroedHeader.Fresh := ⟨rfl, rfl, rfl⟩

theorem exists_of_ok? {rc : HeaderRc} {α : Type} {g : HeaderLine × Nat → α}
    {a : α} (h : rc.ok?.map g = some a) :
    ∃ s p, rc = .ok s p ∧ g (s, p) = a := by
  cases rc with
  | ok s p => exact ⟨s, p, rfl, some.inj h⟩
  | _ => cases h

/-- Two lines of one request, the first one in two calls. -/
theorem headerLine_alone_host :
    let mem := memcpy (fun _ => 0) 16 (ascii "Host: a\r\nVia: b\r\n")
    ∃ s₁ s₂, parseHeaderCalls ⟨false, false⟩ mem [3, 6] 16 zeroedHeader = .ok s₁ 25 ∧
      parseHeaderCalls ⟨false, false⟩ mem [8] 25 s₁ = .ok s₂ 33 ∧
      AloneRight ⟨false, false⟩ mem s₁ 25 ∧ AloneRight ⟨false, false⟩ mem s₂ 33 := by
  intro mem
  have hruns : (parseHeaderCalls ⟨false, false⟩ mem [3, 6] 16 zeroedHeader).ok?.map (fun r =>
      (r.1.state, r.2, (parseHeaderCalls ⟨false, false⟩ mem [8] r.2 r.1).ok?.map Prod.snd)) =
      some (.start, 25, some 33) := by decide +kernel
  obtain ⟨s₁, p₁, hcall₁, hfields⟩ := exists_of_ok? hruns
  simp only [Prod.mk.injEq] at hfields
  obtain ⟨hstart, rfl, hsecond⟩ := hfields
  obtain ⟨s₂, p₂, hcall₂, rfl⟩ := exists_of_ok? hsecond
  have hclean₁ : CleanRun mem ⟨false, false⟩ 16 zeroedHeader :=
    cleanRun_of_client rfl rfl fun _ _ => ⟨rfl, rfl⟩
  have hclean₂ : CleanRun mem ⟨false, false⟩ 25 s₁ :=
    cleanRun_of_client rfl hstart fun _ hinvalid => absurd hinvalid.2.2 (by decide +kernel)
  have hrun₁ := @HeaderRun.fresh mem (CleanRun mem) 16 _ fresh_zeroedHeader
  exact ⟨s₁, s₂, hcall₁, hcall₂, headerLine_alone hrun₁ hclean₁ hcall₁,
    headerLine_alone (hrun₁.line hclean₁ hcall₁) hclean₂ hcall₂⟩

/-- A name of four bytes that no name may have is looked up as the name of the line before. -/
theorem headerLine_leftover :
    ¬ ∀ (mem : Nat → Byte) (env : HeaderEnv) (calls : List Nat) (p p' : Nat) (s s' : HeaderLine),
    HeaderRun mem (fun _ _ _ => True) p s → parseHeaderCalls env mem calls p s = .ok s' p' →
      AloneRight env mem s' p' := by
  intro hall
  let mem : Nat → Byte := memcpy (fun _ => 0) 16 (ascii "Host: a\r\n@@@@: b\r\n")
  have htwice : (parseHeaderCalls ⟨false, false⟩ mem [9] 16 zeroedHeader).ok?.map (fun r =>
      (parseHeaderCalls ⟨false, false⟩ mem [9] r.2 r.1).ok?.map fun r =>
        (r.1.lowcaseIndex, r.1.headerNameStart, r.1.headerNameEnd, load r.1.lowcaseHeader 0 4)) =
      some (some (4, 25, 29, ascii "host")) := by decide +kernel
  obtain ⟨s₁, p₁, hcall₁, hsecond⟩ := exists_of_ok? htwice
  obtain ⟨s₂, p₂, hcall₂, hfields⟩ := exists_of_ok? hsecond
  simp only [Prod.mk.injEq] at hfields
  obtain ⟨hindex, hstart, hend, hlow⟩ := hfields
  have hlookup :=
    (hall mem _ _ _ _ _ _ (.line (.fresh fresh_zeroedHeader) trivial hcall₁) hcall₂).lookup
  rw [hindex, hstart, hend] at hlookup
  have hname := (hlookup rfl).1
  rw [hlow] at hname
  exact absurd hname (by decide +kernel)

end Nginx.Http.Parse
