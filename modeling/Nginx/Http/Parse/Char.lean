/-
  Http/Parse/Char.lean --- the character tests that the state machines of
  `src/http/ngx_http_parse.c` share, and the pair of states with which they
  skip to the end of a line.
-/
import Nginx.Foundation.Machines
import Nginx.Foundation.Memory

set_option autoImplicit false

namespace Nginx.Http.Parse

open Foundation List

/-- `CR` -/
def cr : Byte := 13

/-- `LF` -/
def lf : Byte := 10

/-- The value of a hexadecimal digit, as the machines decode it: a decimal
digit first, else `ch | 0x20` between `'a'` and `'f'`. -/
def hexDigit? (ch : Byte) : Option Nat :=
  if chr '0' ≤ ch ∧ ch ≤ chr '9' then
    some (ch - chr '0').toNat
  else
    let c := ch ||| 0x20
    if chr 'a' ≤ c ∧ c ≤ chr 'f' then some (c - chr 'a' + 10).toNat else none

set_option maxRecDepth 4000 in
theorem hexDigit?_lt {ch : Byte} {v : Nat} (h : hexDigit? ch = some v) : v < 16 := by
  have hall : ∀ ch : Byte, ∀ v ∈ hexDigit? ch, v < 16 := by
    apply forall_byte
    decide
  exact hall ch v h

theorem hexDigit?_cr : hexDigit? cr = none := by decide

theorem hexDigit?_lf : hexDigit? lf = none := by decide

/-! ## The table `usual` -/

/-- `usual[]`: a bit is cleared for every byte that a URI parser looks at. -/
def usual : List UInt32 :=
  [0xffffdbfe, 0x7fff37d6, 0xffffffff, 0xffffffff,
   0xffffffff, 0xffffffff, 0xffffffff, 0xffffffff]

/-- `usual[ch >> 5] & (1U << (ch & 0x1f))` -/
def isUsual (ch : Byte) : Bool :=
  usual.getD (ch >>> 5).toNat 0 &&& ((1 : UInt32) <<< (ch &&& 0x1f).toUInt32) != 0

set_option maxRecDepth 8000 in
theorem isUsual_eq_false_iff (ch : Byte) : isUsual ch = false ↔
    ch = 0 ∨ ch = lf ∨ ch = cr ∨ ch = chr ' ' ∨ ch = chr '#' ∨ ch = chr '%' ∨ ch = chr '+' ∨
      ch = chr '.' ∨ ch = chr '/' ∨ ch = chr '?' := by
  revert ch
  apply forall_byte
  decide

/-! ## Line ends -/

/-- A line end: `CR LF` or `LF` alone. -/
def IsEol (l : Bytes) : Prop := l = [cr, lf] ∨ l = [lf]

/-- No byte of a line end occurs. -/
def NoEol (l : Bytes) : Prop := ∀ ch ∈ l, ch ≠ cr ∧ ch ≠ lf

theorem noEol_of_all {l : Bytes} (h : (l.all fun ch => ch != cr && ch != lf) = true) : NoEol l := by
  intro ch hch
  have hboth := all_eq_true.mp h ch hch
  rw [Bool.and_eq_true, bne_iff_ne, bne_iff_ne] at hboth
  exact hboth

theorem noEol_cons {ch : Byte} {l : Bytes} :
    NoEol (ch :: l) ↔ (ch ≠ cr ∧ ch ≠ lf) ∧ NoEol l := by
  simp [NoEol]

section SkipsLine

open Machine

variable {σ ρ : Type}

/-- Two states of a machine skip to the end of a line: the first stays put on
every byte that is not part of a line end, the second follows a `CR` and
insists on the `LF`.  The states may remember the bytes skipped so far. -/
structure SkipsLine (step : σ → Byte → Step σ ρ) (skip almost target : Bytes → σ)
    (bad : ρ) : Prop where
  skip_cr : ∀ l, step (skip l) cr = .next (almost l)
  skip_lf : ∀ l, step (skip l) lf = .next (target l)
  skip_other : ∀ l ch, ch ≠ cr → ch ≠ lf → step (skip l) ch = .next (skip (l ++ [ch]))
  almost_lf : ∀ l, step (almost l) lf = .next (target l)
  almost_other : ∀ l ch, ch ≠ lf → step (almost l) ch = .halt bad

variable {step : σ → Byte → Step σ ρ} {skip almost target : Bytes → σ} {bad : ρ}

theorem SkipsLine.feed_eol (h : SkipsLine step skip almost target bad) (l : Bytes) {eol : Bytes}
    (heol : IsEol eol) (rest : Bytes) :
    feed step (skip l) (eol ++ rest) = feed step (target l) rest := by
  rcases heol with rfl | rfl
  · rw [cons_append, feed_cons_next (h.skip_cr l), cons_append,
      feed_cons_next (h.almost_lf l), nil_append]
  · rw [cons_append, feed_cons_next (h.skip_lf l), nil_append]

theorem SkipsLine.feed_line (h : SkipsLine step skip almost target bad) {line eol : Bytes}
    (hline : NoEol line) (heol : IsEol eol) (l rest : Bytes) :
    feed step (skip l) (line ++ (eol ++ rest)) = feed step (target (l ++ line)) rest := by
  induction line generalizing l with
  | nil => rw [nil_append, h.feed_eol l heol, append_nil]
  | cons ch line ih =>
    obtain ⟨⟨hcr, hlf⟩, hline⟩ := noEol_cons.mp hline
    rw [cons_append, feed_cons_next (h.skip_other l ch hcr hlf), ih hline,
      append_assoc, singleton_append]

theorem SkipsLine.exists_line (h : SkipsLine step skip almost target bad) {input rest : Bytes}
    {r : ρ} (hr : r ≠ bad) (l : Bytes) (hrun : feed step (skip l) input = .halted r rest) :
    ∃ line eol input', NoEol line ∧ IsEol eol ∧ input = line ++ (eol ++ input') ∧
      feed step (target (l ++ line)) input' = .halted r rest := by
  induction input generalizing l with
  | nil => exact absurd hrun (by simp)
  | cons ch input ih =>
    by_cases hlf : ch = lf
    · rw [hlf, feed_cons_next (h.skip_lf l)] at hrun
      refine ⟨[], [lf], input, by simp [NoEol], Or.inr rfl, by rw [hlf]; rfl, ?_⟩
      rwa [append_nil]
    by_cases hcr : ch = cr
    · rw [hcr, feed_cons_next (h.skip_cr l)] at hrun
      cases input with
      | nil => exact absurd hrun (by simp)
      | cons ch₂ input =>
        by_cases hlf₂ : ch₂ = lf
        · rw [hlf₂, feed_cons_next (h.almost_lf l)] at hrun
          refine ⟨[], [cr, lf], input, by simp [NoEol], Or.inl rfl, by rw [hcr, hlf₂]; rfl, ?_⟩
          rwa [append_nil]
        · rw [feed_cons_halt (h.almost_other l ch₂ hlf₂)] at hrun
          injection hrun with hbad _
          exact absurd hbad.symm hr
    · rw [feed_cons_next (h.skip_other l ch hcr hlf)] at hrun
      obtain ⟨line, eol, input', hline, heol, hsplit, hrest⟩ := ih (l ++ [ch]) hrun
      refine ⟨ch :: line, eol, input', noEol_cons.mpr ⟨⟨hcr, hlf⟩, hline⟩, heol,
        by rw [hsplit, cons_append], ?_⟩
      rwa [append_assoc, singleton_append] at hrest

end SkipsLine

end Nginx.Http.Parse
