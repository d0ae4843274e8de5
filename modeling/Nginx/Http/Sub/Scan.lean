/-
  Http/Sub/Scan.lean --- what a call of `ngx_http_sub_parse` does with the bytes in
  `ctx->looked` and those that are left of the buffer, taken as one text.
-/
import Nginx.Http.Sub.Filter

set_option autoImplicit false

namespace Nginx.Http.Sub

open List Foundation Option
open Nginx.Core (tolower)

/-! ## Offsets -/

section offsets

variable (looked rest : Bytes)

theorem subMatch_eq (s : Nat) (m : SubMatch) :
    subMatch looked rest (s - looked.length) m =
      compareText tolower ((looked ++ rest).drop s) m.pattern := by
  unfold subMatch
  split
  next h =>
    have hs : ((s : Int) - looked.length).toNat = s - looked.length := by omega
    have hlooked : looked.drop s = [] := drop_of_length_le (by omega)
    rw [hs, drop_append, hlooked, nil_append]
  next h =>
    have hs : ((looked.length : Int) + (s - looked.length)).toNat = s := by omega
    rw [hs, drop_append_of_le_length (by omega), compareText_append]
    cases compareText tolower (looked.drop s) m.pattern <;> rfl

theorem getElem?_byteAt {p : Nat} (hp : p < (looked ++ rest).length) :
    (looked ++ rest)[p]? = some (byteAt looked rest (p - looked.length)) := by
  rw [length_append] at hp
  unfold byteAt
  split
  next h =>
    have hs : ((looked.length : Int) + (p - looked.length)).toNat = p := by omega
    rw [hs, List.getElem?_append_left (by omega), getD_eq_getElem?_getD,
      getElem?_eq_getElem (by omega)]
    rfl
  next h =>
    have hs : ((p : Int) - looked.length).toNat = p - looked.length := by omega
    rw [hs, getElem?_append_right (by omega), getD_eq_getElem?_getD,
      getElem?_eq_getElem (by omega)]
    rfl

/-- The offset at which the scan is when a pattern may begin at the `s`th byte. -/
def SubTables.place (tables : SubTables) (s : Nat) :
    Int := s - looked.length + tables.minMatchLen - 1

end offsets

/-! ## The matches at one place -/

section attempts

variable {test : SubMatch → Option Bytes} {subs : List SubMatch} {count i : Nat}

theorem tryMatches_none (h : tryMatches test subs count i = none) {k : Nat}
    {m : SubMatch} (hk : i ≤ k)
    (hcount : k < i + count) (hm : subs[k]? = some m) : test m = none := by
  induction count generalizing i with
  | zero => omega
  | succ count ih =>
    unfold tryMatches at h
    split at h
    next hend =>
      have hlength := List.getElem?_eq_none_iff.mp hend
      obtain ⟨hlt, -⟩ := List.getElem?_eq_some_iff.mp hm
      omega
    next x hx =>
      split at h
      next htest =>
        rcases eq_or_lt_of_le hk with rfl | hlt
        · rw [hx] at hm
          exact some.inj hm ▸ htest
        · exact ih h hlt (by omega)
      next => exact absurd h (some_ne_none _)

theorem tryMatches_some {k : Nat} {m : SubMatch} {left : Bytes}
    (h : tryMatches test subs count i = some (k, m, left)) :
    subs[k]? = some m ∧ test m = some left ∧ ∀ k' m', i ≤ k' → k' < k →
      subs[k']? = some m' → test m' = none := by
  induction count generalizing i with
  | zero => exact absurd h.symm (some_ne_none _)
  | succ count ih =>
    unfold tryMatches at h
    split at h
    next => exact absurd h.symm (some_ne_none _)
    next x hx =>
      split at h
      next htest =>
        obtain ⟨hm, hleft, hbefore⟩ := ih h
        refine ⟨hm, hleft, fun k' m' hk' hlt hm' => ?_⟩
        rcases eq_or_lt_of_le hk' with rfl | hlater
        · rw [hx] at hm'
          exact some.inj hm' ▸ htest
        · exact hbefore k' m' hlater hlt hm'
      next htest =>
        obtain ⟨rfl, rfl, rfl⟩ : i = k ∧ x = m ∧ _ = left := by simpa using h
        exact ⟨hx, htest, fun k' _ hk' hlt => absurd hlt (not_lt.mpr hk')⟩

end attempts

/-- No pattern stands at the first places of the text. -/
def Clear (pairs : List SubMatch) (text : Bytes) (places : Nat) : Prop :=
  ∀ s < places, ∀ m ∈ pairs, m.stands tolower (text.drop s) = false

/-- The first `index` matches do not stand at the `s`th byte, and the byte to compare there is one
that ends a pattern. -/
def Resumed (tables : SubTables) (subs : List SubMatch) (text : Bytes) (s index : Nat) : Prop :=
  index = 0 ∨ ∃ b, text[s + (tables.minMatchLen - 1)]? = some b ∧ tables.shift (tolower b) = 0 ∧
    ∀ k < index, ∀ m, subs[k]? = some m → m.stands tolower (text.drop s) = false

theorem Resumed.append {tables : SubTables} {subs : List SubMatch} {text : Bytes} {s index : Nat}
    (h : Resumed tables subs text s index) (more : Bytes) :
    Resumed tables subs (text ++ more) s index := by
  rcases h with rfl | ⟨b, hb, hshift, hbefore⟩
  · exact .inl rfl
  obtain ⟨hlt, -⟩ := List.getElem?_eq_some_iff.mp hb
  refine .inr ⟨b, ?_, hshift, fun k hk m hm => ?_⟩
  · rw [List.getElem?_append_left hlt, hb]
  · rw [drop_append_of_le_length (by omega)]
    exact stands_append_of_not (hbefore k hk m hm) more

section scan

variable {pairs : List SubMatch} {tables : SubTables} {subs : List SubMatch}
    (h : Tabled pairs tables subs)

include h

theorem Tabled.cmpByte_of_stands {text : Bytes} {s : Nat} {b : Byte} {m : SubMatch}
    (hb : text[s + (tables.minMatchLen - 1)]? = some b) (hm : m ∈ pairs)
    (hstands : m.stands tolower (text.drop s) = true) :
    cmpByte (tables.minMatchLen - 1) m = (tolower b).toNat := by
  obtain ⟨left, hleft⟩ := isSome_iff_exists.mp hstands
  have hle := h.min_le m hm
  have hpos := h.min_pos
  rw [← getElem?_drop] at hb
  have hbyte := getElem?_of_stands hleft hb (by omega)
  unfold cmpByte
  rw [getD_eq_getElem?_getD, hbyte]
  rfl

theorem Tabled.between {text : Bytes} {s : Nat} {b : Byte} {k : Nat} {m : SubMatch}
    (hb : text[s + (tables.minMatchLen - 1)]? = some b) (hm : subs[k]? = some m)
    (hstands : m.stands tolower (text.drop s) = true) :
    tables.index.getD (tolower b).toNat 0 ≤ k ∧
      k < tables.index.getD ((tolower b).toNat + 1) 0 := by
  have hbyte := h.cmpByte_of_stands hb ((h.mem m).mp (mem_of_getElem? hm)) hstands
  have hlt : (tolower b).toNat < 256 := UInt8.toNat_lt _
  obtain ⟨v, hv, hbefore⟩ := h.index (tolower b).toNat (by omega)
  obtain ⟨v', hv', hbefore'⟩ := h.index ((tolower b).toNat + 1) (by omega)
  have hge := hbefore k m hm
  have hlt' := hbefore' k m hm
  simp only [getD_eq_getElem?_getD, hv, hv', getD_some]
  omega

section place

variable {text : Bytes} {s index : Nat} {b : Byte}
    (hb : text[s + (tables.minMatchLen - 1)]? = some b)
  (hresumed : Resumed tables subs text s index)

include hb hresumed

theorem Tabled.max_le {k : Nat} {m : SubMatch} (hm : subs[k]? = some m)
    (hstands : m.stands tolower (text.drop s) = true) :
    max (tables.index.getD (tolower b).toNat 0) index ≤ k := by
  have hge := (h.between hb hm hstands).1
  have hindex : index ≤ k := by
    rcases hresumed with rfl | ⟨-, -, -, hbefore⟩
    · exact Nat.zero_le k
    · apply not_lt.mp
      intro hlt
      exact Bool.false_ne_true ((hbefore k hlt m hm).symm.trans hstands)
  exact Nat.max_le.mpr ⟨hge, hindex⟩

theorem Tabled.none_stands
    (hnone : tryMatches (fun m => compareText tolower (text.drop s) m.pattern) subs
      (tables.index.getD ((tolower b).toNat + 1) 0 - max
        (tables.index.getD (tolower b).toNat 0) index)
      (max (tables.index.getD (tolower b).toNat 0) index) = none) :
    ∀ m ∈ pairs, m.stands tolower (text.drop s) = false := by
  intro m hm
  apply Bool.eq_false_iff.mpr
  intro hstands
  obtain ⟨k, hk⟩ := mem_iff_getElem?.mp ((h.mem m).mpr hm)
  have hge := h.max_le hb hresumed hk hstands
  have hlt := (h.between hb hk hstands).2
  have htest := tryMatches_none hnone hge (by omega) hk
  unfold Rule.stands at hstands
  rw [htest] at hstands
  exact Bool.false_ne_true hstands

theorem Tabled.first_stands (hshift : tables.shift (tolower b) = 0)
    {count k : Nat} {m : SubMatch} {left : Bytes}
    (hsome : tryMatches (fun m => compareText tolower (text.drop s) m.pattern) subs count
      (max (tables.index.getD (tolower b).toNat 0) index) = some (k, m, left)) :
    (pairs.find? fun m => m.stands tolower (text.drop s)) = some m ∧
      compareText tolower (text.drop s) m.pattern = some left ∧ Resumed tables subs text s k := by
  obtain ⟨hm, hleft, hbetween⟩ := tryMatches_some hsome
  have hbefore : ∀ k' < k, ∀ m', subs[k']? = some m' → m'.stands tolower (text.drop s) = false := by
    intro k' hk' m' hm'
    apply Bool.eq_false_iff.mpr
    intro hstands
    have hnot := hbetween k' m' (h.max_le hb hresumed hm' hstands) hk' hm'
    unfold Rule.stands at hstands
    rw [hnot] at hstands
    exact Bool.false_ne_true hstands
  have hstands : m.stands tolower (text.drop s) = true := by
    unfold Rule.stands
    rw [hleft]
    rfl
  obtain ⟨hlt, hget⟩ := List.getElem?_eq_some_iff.mp hm
  have hfind : (subs.find? fun m => m.stands tolower (text.drop s)) = some m := by
    refine List.find?_eq_some_iff_getElem.mpr ⟨hstands, k, hlt, hget, fun j hj => ?_⟩
    simp [hbefore j hj _ (getElem?_eq_getElem (by omega))]
  rw [h.find _ _ fun m hm hstands => h.cmpByte_of_stands hb hm hstands] at hfind
  exact ⟨hfind, hleft, .inr ⟨b, hb, hshift, hbefore⟩⟩

end place

/-! ## The loops -/

theorem Tabled.clear_shift {text : Bytes} {s : Nat} {b : Byte}
    (hb : text[s + (tables.minMatchLen - 1)]? = some b)
    (hclear : Clear pairs text s) : Clear pairs text (s + tables.shift (tolower b)) := by
  intro k hk m hm
  apply Bool.eq_false_iff.mpr
  intro hstands
  by_cases hbefore : k < s
  · exact Bool.false_ne_true ((hclear k hbefore m hm).symm.trans hstands)
  have hpos := h.min_pos
  have hle := h.min_le m hm
  have hshift := h.shift_le (tolower b)
  have hplace : k + (tables.minMatchLen - 1 - (k - s)) = s + (tables.minMatchLen - 1) := by omega
  obtain ⟨left, hleft⟩ := isSome_iff_exists.mp hstands
  rw [← hplace, ← getElem?_drop] at hb
  exact h.shift (tolower b) (k - s) (by omega) m hm (getElem?_of_stands hleft hb (by omega))

/-- How the scan of a text ends. -/
def ScanEnd.Right (pairs : List SubMatch) (tables : SubTables)
    (subs : List SubMatch) (looked rest : Bytes) :
    ScanEnd → Prop
  | .past offset index =>
    ∃ s ≤ (looked ++ rest).length, offset = tables.place looked s ∧ rest.length ≤ offset ∧
      index = 0 ∧ Clear pairs (looked ++ rest) s
  | .cut offset index => ∃ s ≤ (looked ++ rest).length, offset = tables.place looked s ∧
      Clear pairs (looked ++ rest) s ∧ Resumed tables subs (looked ++ rest) s index ∧
      ∃ m, (pairs.find? fun m => m.stands tolower ((looked ++ rest).drop s)) = some m ∧
        m.occurs tolower ((looked ++ rest).drop s) = false
  | .found offset _ m => ∃ s ≤ (looked ++ rest).length, offset = tables.place looked s ∧
      Clear pairs (looked ++ rest) s ∧
      (pairs.find? fun m => m.stands tolower ((looked ++ rest).drop s)) = some m ∧
      m.occurs tolower ((looked ++ rest).drop s) = true

/-- The scan finds the first place where a pattern stands, by induction on the turns. -/
theorem Tabled.scanLoop_right {looked rest : Bytes} {turns s index : Nat}
    (hs : s ≤ (looked ++ rest).length)
    (hturns : (rest.length - tables.place looked s).toNat ≤ turns)
    (hclear : Clear pairs (looked ++ rest) s)
    (hresumed : Resumed tables subs (looked ++ rest) s index) :
    (scanLoop tables subs looked rest turns (tables.place looked s) index).Right
      pairs tables subs looked rest := by
  have hpos := h.min_pos
  have hover : ∀ {s index}, s ≤ (looked ++ rest).length → Clear pairs (looked ++ rest) s →
      Resumed tables subs (looked ++ rest) s index → rest.length ≤ tables.place looked s →
      (ScanEnd.past (tables.place looked s) index).Right pairs tables subs looked rest := by
    intro s index hs hclear hresumed hend
    refine ⟨s, hs, rfl, hend, ?_, hclear⟩
    rcases hresumed with hzero | ⟨b, hb, -⟩
    · exact hzero
    -- there is still a byte to compare
    obtain ⟨hlt, -⟩ := List.getElem?_eq_some_iff.mp hb
    rw [length_append] at hlt
    unfold SubTables.place at hend
    omega
  induction turns generalizing s index with
  | zero => exact hover hs hclear hresumed (by omega)
  | succ turns ih =>
    unfold scanLoop
    split
    next hlt =>
      have hplace : tables.place looked s =
        ((s + (tables.minMatchLen - 1) : Nat) : Int) - looked.length := by
        unfold SubTables.place
        omega
      have hp : s + (tables.minMatchLen - 1) < (looked ++ rest).length := by
        rw [length_append]
        omega
      have hb := getElem?_byteAt looked rest hp
      rw [← hplace] at hb
      simp only
      generalize byteAt looked rest (tables.place looked s) = b at hb ⊢
      have hstart : tables.place looked s - tables.minMatchLen + 1 = s - looked.length := by
        unfold SubTables.place
        omega
      have htest : (subMatch looked rest (tables.place looked s - tables.minMatchLen + 1)) =
          fun m => compareText tolower ((looked ++ rest).drop s) m.pattern := by
        funext m
        rw [hstart, subMatch_eq]
      have hnext : ∀ n, tables.place looked s + (n : Nat) = tables.place looked (s + n) := by
        intro n
        unfold SubTables.place
        omega
      rw [htest]
      split
      next hshift =>
        have hle := h.shift_le (tolower b)
        have hindex : index = 0 := by
          rcases hresumed with hzero | ⟨b', hb', hshift', -⟩
          · exact hzero
          · rw [hb] at hb'
            obtain rfl := some.inj hb'
            omega
        rw [hnext]
        refine ih (by omega) ?_ (h.clear_shift hb hclear) (.inl hindex)
        rw [← hnext]
        omega
      next hshift =>
        split
        next k m hsome =>
          obtain ⟨hfind, hleft, -⟩ := h.first_stands hb hresumed (by omega) hsome
          exact ⟨s, hs, rfl, hclear, hfind, decide_eq_true hleft⟩
        next k m p left hsome =>
          obtain ⟨hfind, hleft, hresumed'⟩ := h.first_stands hb hresumed (by omega) hsome
          refine ⟨s, hs, rfl, hclear, hresumed', m, hfind, decide_eq_false ?_⟩
          rw [hleft]
          exact fun heq => cons_ne_nil p left (some.inj heq)
        next hnone =>
          have hnot := h.none_stands hb hresumed hnone
          have hclear' : Clear pairs (looked ++ rest) (s + 1) := by
            intro k hk
            rcases Nat.lt_succ_iff_lt_or_eq.mp hk with hk | rfl
            · exact hclear k hk
            · exact hnot
          have hone := hnext 1
          rw [Nat.cast_one] at hone
          rw [hone]
          exact ih (by omega) (by rw [← hone]; omega) hclear' (.inl rfl)
    next hge => exact hover hs hclear hresumed (by omega)

/-- The flush goes on to the first place at which a pattern stands. -/
theorem Tabled.flushLoop_spec {looked rest : Bytes} (turns : Nat) {s : Nat}
    (hs : s ≤ (looked ++ rest).length)
    (hend : rest.length ≤ tables.place looked s) (hclear : Clear pairs (looked ++ rest) s) :
    ∃ s' ≤ (looked ++ rest).length,
      flushLoop tables subs looked rest turns (tables.place looked s) = tables.place looked s' ∧
      rest.length ≤ tables.place looked s' ∧ Clear pairs (looked ++ rest) s' := by
  induction turns generalizing s with
  | zero => exact ⟨s, hs, rfl, hend, hclear⟩
  | succ turns ih =>
    have hstart : tables.place looked s - tables.minMatchLen + 1 = s - looked.length := by
      unfold SubTables.place
      omega
    unfold flushLoop
    simp only [hstart, subMatch_eq]
    split
    next => exact ⟨s, hs, rfl, hend, hclear⟩
    next hlt =>
      rw [length_append] at hs
      split
      next => exact ⟨s, by rw [length_append]; exact hs, rfl, hend, hclear⟩
      next hnot =>
        have hone : tables.place looked s + 1 = tables.place looked (s + 1) := by
          unfold SubTables.place
          omega
        rw [hone]
        refine ih (by rw [length_append]; omega) (by omega) fun k hk m hm => ?_
        rcases Nat.lt_succ_iff_lt_or_eq.mp hk with hk | rfl
        · exact hclear k hk m hm
        -- what is left of the text is shorter than all patterns
        apply Bool.eq_false_iff.mpr
        intro hstands
        have hany := Bool.eq_false_iff.mpr hnot
        have htest := any_eq_false.mp hany m ((h.mem m).mpr hm)
        obtain ⟨left, hleft⟩ := isSome_iff_exists.mp hstands
        obtain rfl : left = [] := by simpa [hleft] using htest
        have hle := length_le_of_occurs hleft
        have hmin := h.min_le m hm
        rw [length_drop, length_append] at hle
        unfold SubTables.place at hend
        omega

end scan

/-! ## A call -/

/-- What goes on and what is kept, when the first `s` bytes are passed on and those up to the `n`th
are taken. -/
theorem parseDone_spec {looked rest : Bytes} {s n : Nat}
    (hn : n ≤ (looked ++ rest).length) {stop : Int}
    (hnext : max ((n : Int) - looked.length) 0 ≤ stop) (hstop : stop ≤ rest.length)
    (replaced : Option SubMatch)
    (offset : Int) (index : Nat) :
    let r :=
      parseDone looked rest replaced (s - looked.length) (n - looked.length) stop offset index
    r.saved ++ r.copy = (looked ++ rest).take s ∧ r.ctx.looked ++ r.rest = (looked ++ rest).drop n ∧
      (r.ctx.looked.length : Int) = looked.length + stop - n := by
  rw [length_append] at hn
  have hsaved : ((looked.length : Int) + min ((s : Int) - looked.length) 0).toNat =
    min s looked.length := by omega
  have hcopy : (max ((s : Int) - looked.length) 0).toNat = s - looked.length := by omega
  have hkept : ((looked.length : Int) + min ((n : Int) - looked.length) 0).toNat =
    min n looked.length := by omega
  have hread : (max ((n : Int) - looked.length) 0).toNat = n - looked.length := by omega
  have hlen : (stop - max ((n : Int) - looked.length) 0).toNat =
    stop.toNat - (n - looked.length) := by omega
  unfold parseDone
  simp only [hsaved, hcopy, hkept, hread, hlen]
  refine ⟨?_, ?_, ?_⟩
  · rw [take_append]
    congr 1
    rw [min_def]
    split
    next => rfl
    next h => rw [take_length, take_of_length_le (by omega)]
  · have hrest : (rest.drop (n - looked.length)).drop (stop.toNat - (n - looked.length)) =
      rest.drop stop.toNat := by
      rw [drop_drop]
      congr 1
      omega
    rw [append_assoc, ← hrest, take_append_drop, drop_append]
    congr 1
    rw [min_def]
    split
    next => rfl
    next h => rw [drop_length, drop_of_length_le (by omega)]
  · rw [length_append, length_drop, length_take, length_drop]
    omega

/-- The context before a call: all places before those in `looked` are dealt with. -/
structure Pending (tables : SubTables) (subs : List SubMatch) (ctx : SubCtx) : Prop where
  offset : ctx.offset = tables.minMatchLen - 1 - ctx.looked.length
  resumed : Resumed tables subs ctx.looked 0 ctx.index
  looked_lt : ctx.looked.length < tables.maxMatchLen

/-- Bytes that are kept when nothing comes after them: too few for a pattern, or the first pattern
that stands there is cut off. -/
def Settled (pairs : List SubMatch) (tables : SubTables) (looked : Bytes) : Prop :=
  looked.length < tables.minMatchLen ∨
    ∃ m, (pairs.find? fun m => m.stands tolower looked) = some m ∧ m.occurs tolower looked = false

/-- What a call does that takes all of the buffer. -/
structure ParseResult.Again (pairs : List SubMatch) (tables : SubTables)
    (subs : List SubMatch) (text : Bytes)
    (r : ParseResult) : Prop where
  replaced : r.replaced = none
  rest : r.rest = []
  passed : Passed tolower pairs text (r.saved ++ r.copy) r.ctx.looked
  pending : Pending tables subs r.ctx
  settled : Settled pairs tables r.ctx.looked

/-- What a call does that finds a match. -/
structure ParseResult.Replaces (pairs : List SubMatch) (tables : SubTables)
    (subs : List SubMatch) (text : Bytes)
    (r : ParseResult) (m : SubMatch) : Prop where
  replaced : r.replaced = some m
  passed : Passed tolower pairs text (r.saved ++ r.copy ++ m.value) (r.ctx.looked ++ r.rest)
  pending : Pending tables subs { r.ctx with index := 0 }
  settled : r.rest = [] → Settled pairs tables r.ctx.looked
  less : (r.ctx.looked ++ r.rest).length < text.length

section call

variable {pairs : List SubMatch} {tables : SubTables} {subs : List SubMatch}
    (h : Tabled pairs tables subs)

include h

/-- A partial match at the end is kept for the next buffer. -/
theorem Tabled.again {looked rest : Bytes} {s index : Nat} (hs : s ≤ (looked ++ rest).length)
    (hclear : Clear pairs (looked ++ rest) s)
    (hresumed : Resumed tables subs (looked ++ rest) s index)
    (hsettled : Settled pairs tables ((looked ++ rest).drop s)) :
    (parseDone looked rest none (s - looked.length) (s - looked.length) rest.length
      (tables.place looked s) index).Again
      pairs tables subs (looked ++ rest) := by
  have hn := hs
  rw [length_append] at hs
  obtain ⟨hout, hkept, hlength⟩ :=
    parseDone_spec (s := s) hn (by omega) (Int.le_refl _) none (tables.place looked s) index
  have hrest : (parseDone looked rest none (s - looked.length) (s - looked.length) rest.length
      (tables.place looked s) index).rest = [] := by
    unfold parseDone
    simp
  have hlooked := hkept
  rw [hrest, append_nil] at hlooked
  have hlt : ((looked ++ rest).drop s).length < tables.maxMatchLen := by
    rcases hsettled with hshort | ⟨m, hfind, hcut⟩
    · exact lt_of_lt_of_le hshort h.min_le_max
    have hstands :=
      find?_some (p := fun m : SubMatch => m.stands tolower ((looked ++ rest).drop s)) hfind
    obtain ⟨left, hleft⟩ := isSome_iff_exists.mp hstands
    have hne : left ≠ [] := by
      rintro rfl
      exact Bool.false_ne_true (hcut.symm.trans (decide_eq_true hleft))
    exact lt_of_lt_of_le (length_lt_of_cut hleft hne) (h.le_max m (mem_of_find?_eq_some hfind))
  refine ⟨rfl, hrest, ?_, ⟨?_, ?_, ?_⟩, ?_⟩
  · rw [hout, hlooked]
    exact Passed.many hn hclear
  · rw [hlength]
    unfold parseDone SubTables.place
    simp only
    omega
  · rw [hlooked]
    rcases hresumed with rfl | ⟨b, hb, hshift, hbefore⟩
    · exact .inl rfl
    · refine .inr ⟨b, ?_, hshift, hbefore⟩
      rw [getElem?_drop, zero_add]
      exact hb
  · rw [hlooked]
    exact hlt
  · rw [hlooked]
    exact hsettled

theorem Tabled.replaces {looked rest : Bytes} {s i : Nat} {m : SubMatch} (hne : rest ≠ [])
    (hs : s ≤ (looked ++ rest).length) (hclear : Clear pairs (looked ++ rest) s)
    (hfind : (pairs.find? fun m => m.stands tolower ((looked ++ rest).drop s)) = some m)
    (hoccurs : m.occurs tolower ((looked ++ rest).drop s) = true)
    (hlooked : looked.length < tables.maxMatchLen) :
    (parseDone looked rest (some m) (s - looked.length) (s - looked.length + m.pattern.length)
      (max (s - looked.length + m.pattern.length) 0)
        (tables.place looked s + m.pattern.length) i).Replaces
      pairs tables subs (looked ++ rest) m := by
  have hle := length_le_of_occurs (of_decide_eq_true hoccurs)
  have hpos := h.min_pos
  have hmin := h.min_le m (mem_of_find?_eq_some hfind)
  have hpattern : m.pattern ≠ [] := ne_nil_of_length_pos (by omega)
  rw [length_drop] at hle
  have hnext : (s : Int) - looked.length + m.pattern.length =
    (s + m.pattern.length : Nat) - looked.length := by omega
  have hn : s + m.pattern.length ≤ (looked ++ rest).length := by omega
  have hend := hn
  rw [length_append] at hend
  rw [hnext]
  obtain ⟨hout, hkept, hlength⟩ := parseDone_spec (s := s) hn (Int.le_refl _) (by omega) (some m)
    (tables.place looked s + m.pattern.length) i
  have hless := congrArg List.length hkept
  rw [length_drop] at hless
  have hrest :
    (parseDone looked rest (some m) (s - looked.length)
    ((s + m.pattern.length : Nat) - looked.length)
      (max ((s + m.pattern.length : Nat) - looked.length) 0)
        (tables.place looked s + m.pattern.length) i).rest.length =
        rest.length - (max ((s + m.pattern.length : Nat) - looked.length : Int) 0).toNat := by
    unfold parseDone
    exact length_drop
  refine ⟨rfl, ?_, ⟨?_, .inl rfl, ?_⟩, fun hnil => .inl ?_, ?_⟩
  · rw [hout, hkept]
    have hrule := (Passed.many hs hclear).trans (Passed.rule hfind hoccurs hpattern)
    rw [drop_drop] at hrule
    exact hrule
  · simp only
    rw [hlength]
    unfold parseDone SubTables.place
    simp only
    omega
  · simp only
    omega
  · have hfew := congrArg List.length hnil
    have hsome := length_pos_of_ne_nil hne
    rw [hrest, length_nil] at hfew
    omega
  · omega

/-- A call takes all of the buffer, or it finds the first match that stands. -/
theorem Tabled.parse_spec {ctx : SubCtx} {rest : Bytes} (hctx : Pending tables subs ctx)
    (hne : rest ≠ [])
    (flush : Bool) :
    (parse tables subs ctx rest flush).saved.length ≤ ctx.looked.length ∧
      ((parse tables subs ctx rest flush).Again pairs tables subs (ctx.looked ++ rest) ∨
        ∃ m, (parse tables subs ctx rest flush).Replaces pairs tables subs
          (ctx.looked ++ rest) m) := by
  have hplace : ctx.offset = tables.place ctx.looked 0 := by
    rw [hctx.offset]
    unfold SubTables.place
    omega
  have hstart : ∀ s,
    tables.place ctx.looked s - tables.minMatchLen + 1 = s - ctx.looked.length := by
    intro s
    unfold SubTables.place
    omega
  have hsaved : ∀ replaced start next stop offset index,
      (parseDone ctx.looked rest replaced start next stop offset index).saved.length ≤
        ctx.looked.length := by
    intro replaced start next stop offset index
    unfold parseDone
    rw [length_take]
    exact min_le_right _ _
  have hshort : ∀ s, rest.length ≤ tables.place ctx.looked s →
    Settled pairs tables ((ctx.looked ++ rest).drop s) := by
    intro s hend
    have hpos := h.min_pos
    unfold SubTables.place at hend
    refine .inl ?_
    rw [length_drop, length_append]
    omega
  have hright :=
    h.scanLoop_right (Nat.zero_le _) (le_rfl) (fun k hk => absurd hk (Nat.not_lt_zero k))
    (hctx.resumed.append rest)
  rw [← hplace] at hright
  unfold parse
  simp only
  generalize scanLoop tables subs ctx.looked rest
    (rest.length - ctx.offset).toNat ctx.offset ctx.index = e at hright ⊢
  cases e with
  | past offset index =>
    obtain ⟨s, hs, rfl, hend, rfl, hclear⟩ := hright
    cases flush with
    | false =>
      refine ⟨hsaved _ _ _ _ _ _, .inl ?_⟩
      simp only [hstart]
      exact h.again hs hclear (.inl rfl) (hshort s hend)
    | true =>
      obtain ⟨s', hs', hflush, hend', hclear'⟩ :=
        h.flushLoop_spec
          (rest.length - (tables.place ctx.looked s - tables.minMatchLen + 1)).toNat hs hend hclear
      refine ⟨hsaved _ _ _ _ _ _, .inl ?_⟩
      simp only [if_true, hflush]
      simp only [hstart]
      exact h.again hs' hclear' (.inl rfl) (hshort s' hend')
  | cut offset index =>
    obtain ⟨s, hs, rfl, hclear, hresumed, hcut⟩ := hright
    refine ⟨hsaved _ _ _ _ _ _, .inl ?_⟩
    simp only [hstart]
    exact h.again hs hclear hresumed (.inr hcut)
  | found offset index m =>
    obtain ⟨s, hs, rfl, hclear, hfind, hoccurs⟩ := hright
    refine ⟨hsaved _ _ _ _ _ _, .inr ⟨m, ?_⟩⟩
    simp only [hstart]
    exact h.replaces hne hs hclear hfind hoccurs hctx.looked_lt

end call

end Nginx.Http.Sub
