/-
  Http/V2/HuffCode.lean --- the tables of the coder and of the decoder are about
  one prefix code.

  A state of the decoder stands for the beginning of a code.  That a transition
  of the table is what four bits do to such a beginning is checked for each of
  the 4096 transitions.
-/
import Mathlib.Tactic.IntervalCases
import Nginx.Foundation.Bits
import Nginx.Foundation.PrefixCode
import Nginx.Http.V2.Huff

set_option autoImplicit false

namespace Nginx.Http.V2

open Foundation

/-- The code of a byte. -/
def huffCode (b : Byte) : List Bool :=
  let c := tableEntry huffEncodeTable ⟨0, 0⟩ b.toNat
  natBits c.len c.code

/-- The bytes at the ends of their codes. -/
def huffTree : CodeTree Byte :=
  (List.range 256).foldl (fun t n => t.insert (huffCode (UInt8.ofNat n)) (UInt8.ofNat n)) .empty

/-- The codes that the states of the decoder have begun, a one before each. -/
def huffStateBits : List (List Nat) :=
  [ [ 0x1, 0x2, 0x4, 0x8, 0x10, 0x11, 0x9, 0x12,
      0x13, 0x5, 0xa, 0x14, 0x15, 0x2a, 0x2b, 0xb ],
    [ 0x16, 0x2c, 0x2d, 0x17, 0x2e, 0x2f, 0x3, 0x6,
      0xc, 0x18, 0x30, 0x31, 0x19, 0x32, 0x33, 0xd ],
    [ 0x1a, 0x34, 0x35, 0x1b, 0x36, 0x37, 0x6e, 0x6f,
      0x7, 0xe, 0x1c, 0x38, 0x70, 0x71, 0x39, 0x72 ],
    [ 0x73, 0x1d, 0x3a, 0x74, 0x75, 0x3b, 0x76, 0x77,
      0xf, 0x1e, 0x3c, 0x78, 0x79, 0x3d, 0x7a, 0x7b ],
    [ 0x1f, 0x3e, 0x7c, 0x7d, 0x3f, 0x7e, 0xfc, 0xfd,
      0x7f, 0xfe, 0xff, 0x1fe, 0x3fc, 0x3fd, 0x1ff, 0x3fe ],
    [ 0x7fd, 0x3ff, 0x7fe, 0xffd, 0x7ff, 0xffe, 0x1ffc, 0x1ffd,
      0xfff, 0x1ffe, 0x1fff, 0x3ffe, 0x3fff, 0x7ffe, 0x7fff, 0xffff ],
    [ 0x1fffe, 0x3fffc, 0x7fff8, 0x7fff9, 0xffff3, 0x3fffd, 0x7fffa, 0xffff4,
      0xffff5, 0x7fffb, 0xffff6, 0xffff7, 0x1fffee, 0x1fffef, 0x1ffff, 0x3fffe ],
    [ 0x7fffc, 0xffff8, 0x1ffff0, 0x1ffff1, 0xffff9, 0x1ffff2, 0x1ffff3, 0x7fffd,
      0xffffa, 0x1ffff4, 0x3fffe9, 0x1ffff5, 0x3fffea, 0x3fffeb, 0xffffb, 0x1ffff6 ],
    [ 0x3fffec, 0x3fffed, 0x1ffff7, 0x3fffee, 0x3fffef, 0x3ffff, 0x7fffe, 0xffffc,
      0x1ffff8, 0x3ffff0, 0x3ffff1, 0x1ffff9, 0x3ffff2, 0x3ffff3, 0xffffd, 0x1ffffa ],
    [ 0x3ffff4, 0x3ffff5, 0x1ffffb, 0x3ffff6, 0x7fffec, 0x7fffed, 0x3ffff7, 0x7fffee,
      0x7fffef, 0x7ffff, 0xffffe, 0x1ffffc, 0x3ffff8, 0x7ffff0, 0x7ffff1, 0x3ffff9 ],
    [ 0x7ffff2, 0x7ffff3, 0x1ffffd, 0x3ffffa, 0x7ffff4, 0x7ffff5, 0x3ffffb, 0x7ffff6,
      0x7ffff7, 0xfffff, 0x1ffffe, 0x3ffffc, 0x7ffff8, 0x7ffff9, 0x3ffffd, 0x7ffffa ],
    [ 0xfffff5, 0x7ffffb, 0xfffff6, 0xfffff7, 0x1fffff, 0x3ffffe, 0x7ffffc, 0xfffff8,
      0xfffff9, 0x7ffffd, 0xfffffa, 0xfffffb, 0x1fffff6, 0x1fffff7, 0x3fffff, 0x7ffffe ],
    [ 0xfffffc, 0x1fffff8, 0x3fffff0, 0x3fffff1, 0x1fffff9, 0x3fffff2, 0x3fffff3, 0xfffffd,
      0x1fffffa, 0x3fffff4, 0x3fffff5, 0x1fffffb, 0x3fffff6, 0x3fffff7, 0x7ffffef, 0x7fffff ],
    [ 0xfffffe, 0x1fffffc, 0x3fffff8, 0x7fffff0, 0x7fffff1, 0x3fffff9, 0x7fffff2, 0x7fffff3,
      0x1fffffd, 0x3fffffa, 0x7fffff4, 0x7fffff5, 0x3fffffb, 0x7fffff6, 0x7fffff7, 0xffffff ],
    [ 0x1fffffe, 0x3fffffc, 0x7fffff8, 0xffffff1, 0x7fffff9, 0xffffff2, 0xffffff3, 0x3fffffd,
      0x7fffffa, 0xffffff4, 0xffffff5, 0x7fffffb, 0xffffff6, 0xffffff7, 0x1ffffff, 0x3fffffe ],
    [ 0x7fffffc, 0xffffff8, 0xffffff9, 0x7fffffd, 0xffffffa, 0xffffffb, 0x3ffffff, 0x7fffffe,
      0xffffffc, 0xffffffd, 0x7ffffff, 0xffffffe, 0xfffffff, 0x1fffffff, 0x3ffffffe, 0x3fffffff ] ]

/-- The entry of a state in `huffStateBits`. -/
def huffStateNat (state : Byte) : Nat := tableEntry huffStateBits 1 state.toNat

/-- The states, as bits of a number, that have begun nothing but ones. -/
def huffEndings : Nat :=
  0xb4404000_80008000_40100200_02000020_00004000_d5124511_01000100_00400001

/-- The beginning of a code that a state stands for. -/
def huffPath (state : Byte) : List Bool := bitsBelow (huffStateNat state)

/-- What a transition of the table says, as the result of a walk. -/
def huffTransition (state : Byte) (bits : Nat) : Option (List Byte × List Bool) :=
  let code := huffDecodeCode state bits
  if code.next = state then none
  else some (if code.emit ≠ 0 then [code.sym] else [], huffPath code.next)

/-! ## The table of the decoder -/

/-- The walk of four bits from a state, on entries of `huffStateBits`. -/
def huffWalk (state : Byte) (bits : Nat) : Option (List Byte × Nat) :=
  huffTree.walkBy (fun n b => 2 * n + b.toNat) 1 (huffTree.descend (huffPath state))
    (huffStateNat state) (natBits 4 bits)

/-- A transition of the table is what the walk does, and marked as an ending where
nothing but ones have been begun. -/
def huffTransitionOk (state : Byte) (bits : Nat) : Bool :=
  let code := huffDecodeCode state bits
  match huffWalk state bits with
  | none => Nat.beq code.next.toNat state.toNat
  | some ([], n) =>
    !Nat.beq code.next.toNat state.toNat && Nat.beq code.emit.toNat 0 &&
      Nat.beq (huffStateNat code.next) n &&
      Nat.beq code.ending.toNat (huffEndings.testBit code.next.toNat).toNat
  | some ([sym], n) =>
    !Nat.beq code.next.toNat state.toNat && !Nat.beq code.emit.toNat 0 &&
      Nat.beq code.sym.toNat sym.toNat && Nat.beq (huffStateNat code.next) n &&
      Nat.beq code.ending.toNat (huffEndings.testBit code.next.toNat).toNat
  | some (_ :: _ :: _, _) => false

theorem huffTables_eval :
    (∀ n, n < 256 →
      huffTree.descend (huffCode (UInt8.ofNat n)) = .leaf (UInt8.ofNat n) ∧
        5 ≤ (huffCode (UInt8.ofNat n)).length ∧ false ∈ huffCode (UInt8.ofNat n)) ∧
    (∀ n, n < 256 →
      huffStateNat (UInt8.ofNat n) ≠ 0 ∧
        (huffTree.descend (huffPath (UInt8.ofNat n))).isNode ∧
        (huffEndings.testBit (UInt8.ofNat n).toNat = true ↔ false ∉ huffPath (UInt8.ofNat n)) ∧
        ∀ bits, bits < 16 → huffTransitionOk (UInt8.ofNat n) bits = true) ∧
    (∀ l ∈ huffTree.leaves [], l.2 = huffCode l.1) ∧ huffTree.isNode ∧ huffPath 0 = [] ∧
    (∀ k, k < 30 → (huffTree.descend (List.replicate k true)).isNode) ∧
    huffTree.descend (List.replicate 30 true) = .empty := by
  -- what the kernel has evaluated is dropped from one part to the next
  have hblocks : ∀ lo ∈ [0, 64, 128, 192], ∀ n, n < 64 → ∀ bits, bits < 16 →
      huffTransitionOk (UInt8.ofNat (lo + n)) bits = true := by
    simp only [List.forall_mem_cons, List.not_mem_nil, false_imp_iff, implies_true, and_true]
    refine ⟨?_, ?_, ?_, ?_⟩
    · decide +kernel
    · decide +kernel
    · decide +kernel
    · decide +kernel
  have hstates : ∀ n, n < 256 → huffStateNat (UInt8.ofNat n) ≠ 0 ∧
      (huffTree.descend (huffPath (UInt8.ofNat n))).isNode ∧
      (huffEndings.testBit (UInt8.ofNat n).toNat = true ↔ false ∉ huffPath (UInt8.ofNat n)) := by
    decide +kernel
  refine ⟨by decide +kernel, fun n hn =>
    ?_, by decide +kernel, by decide +kernel, by decide +kernel, by decide +kernel,
    by decide +kernel⟩
  obtain ⟨hne, hnode, hending⟩ := hstates n hn
  refine ⟨hne, hnode, hending, ?_⟩
  have hblock : n / 64 * 64 ∈ [0, 64, 128, 192] := by
    have hdiv : n / 64 < 4 := Nat.div_lt_of_lt_mul hn
    interval_cases n / 64 <;> decide
  have hn := hblocks _ hblock (n % 64) (Nat.mod_lt n (by decide))
  rwa [Nat.div_add_mod' n 64] at hn

theorem huffTree_holds : huffTree.Holds huffCode := by
  obtain ⟨hcodes, -, hleaves, -⟩ := huffTables_eval
  exact CodeTree.holds_of_leaves (forall_byte fun n hn => (hcodes n hn).1) hleaves

theorem huffTree_isNode : huffTree.isNode := by
  obtain ⟨-, -, -, hnode, -⟩ := huffTables_eval
  exact hnode

theorem five_le_length_huffCode : ∀ b, 5 ≤ (huffCode b).length :=
  forall_byte fun n hn => (huffTables_eval.1 n hn).2.1

theorem zero_mem_huffCode : ∀ b, false ∈ huffCode b :=
  forall_byte fun n hn => (huffTables_eval.1 n hn).2.2

theorem huffStateNat_ne_zero : ∀ state, huffStateNat state ≠ 0 :=
  forall_byte fun n hn => (huffTables_eval.2.1 n hn).1

theorem huffPath_isNode : ∀ state, (huffTree.descend (huffPath state)).isNode :=
  forall_byte fun n hn => (huffTables_eval.2.1 n hn).2.1

theorem huffPath_zero : huffPath 0 = [] := by
  obtain ⟨-, -, -, -, hzero, -⟩ := huffTables_eval
  exact hzero

theorem huffEndings_eq : ∀ state, huffEndings.testBit state.toNat = true ↔ false ∉ huffPath state :=
  forall_byte fun n hn => (huffTables_eval.2.1 n hn).2.2.1

variable {bits : Nat}

theorem huffTransitionOk_all (state : Byte) (h : bits < 16) :
    huffTransitionOk state bits = true :=
  @forall_byte (fun s => huffTransitionOk s bits = true)
    (fun n hn => (huffTables_eval.2.1 n hn).2.2.2 bits h) state

theorem huffWalk_eq (state : Byte) (bits : Nat) :
    huffTree.walk (huffTree.descend (huffPath state)) (huffPath state) (natBits 4 bits) =
      (huffWalk state bits).map fun r => (r.1, bitsBelow r.2) := by
  have hpush : ∀ (n : Nat) (b : Bool), n ≠ 0 →
      2 * n + b.toNat ≠ 0 ∧ bitsBelow (2 * n + b.toNat) = bitsBelow n ++ [b] :=
    fun n b hn => ⟨by omega, bitsBelow_push hn b⟩
  exact @CodeTree.walk_eq_walkBy Byte huffTree Nat _ 1 bitsBelow (· ≠ 0)
    ⟨one_ne_zero, bitsBelow_one⟩ hpush _ _ (huffStateNat_ne_zero state) _

theorem toNat_beq_eq_false {a b : Byte} (h : Nat.beq a.toNat b.toNat = false) : a ≠ b := by
  rintro rfl
  exact Nat.ne_of_beq_eq_false h rfl

theorem huffTransition_eq (state : Byte) (h : bits < 16) :
    huffTransition state bits =
        huffTree.walk (huffTree.descend (huffPath state)) (huffPath state) (natBits 4 bits) ∧
      ((huffDecodeCode state bits).next ≠ state →
        (huffDecodeCode state bits).ending.toNat =
          (huffEndings.testBit (huffDecodeCode state bits).next.toNat).toNat) := by
  have hok := huffTransitionOk_all state h
  rw [huffWalk_eq, huffTransition]
  simp only [huffTransitionOk] at hok
  split at hok
  next hwalk =>
    have hnext := UInt8.toNat_inj.mp (Nat.eq_of_beq_eq_true hok)
    rw [hwalk, if_pos hnext]
    exact ⟨rfl, fun hne => absurd hnext hne⟩
  next n hwalk =>
    simp only [Bool.and_eq_true, Bool.not_eq_true'] at hok
    obtain ⟨⟨⟨hnext, hemit⟩, hn⟩, hending⟩ := hok
    have hemit : (huffDecodeCode state bits).emit = 0 :=
      UInt8.toNat_inj.mp (Nat.eq_of_beq_eq_true hemit)
    rw [hwalk, if_neg (toNat_beq_eq_false hnext), if_neg (not_not.mpr hemit), huffPath,
      Nat.eq_of_beq_eq_true hn]
    exact ⟨rfl, fun _ => Nat.eq_of_beq_eq_true hending⟩
  next sym n hwalk =>
    simp only [Bool.and_eq_true, Bool.not_eq_true'] at hok
    obtain ⟨⟨⟨⟨hnext, hemit⟩, hsym⟩, hn⟩, hending⟩ := hok
    have hemit : (huffDecodeCode state bits).emit ≠ 0 := @toNat_beq_eq_false _ 0 hemit
    rw [hwalk, if_neg (toNat_beq_eq_false hnext), if_pos hemit, huffPath,
      Nat.eq_of_beq_eq_true hn, UInt8.toNat_inj.mp (Nat.eq_of_beq_eq_true hsym)]
    exact ⟨rfl, fun _ => Nat.eq_of_beq_eq_true hending⟩
  next => cases hok

theorem huffDecodeCode_ending (state : Byte) (h : bits < 16)
    (hnext : (huffDecodeCode state bits).next ≠ state) :
    (huffDecodeCode state bits).ending = 0 ↔ false ∈ huffPath (huffDecodeCode state bits).next := by
  have hending := (huffTransition_eq state h).2 hnext
  have hmask := huffEndings_eq (huffDecodeCode state bits).next
  rw [← UInt8.toNat_inj, hending]
  cases hbit : huffEndings.testBit (huffDecodeCode state bits).next.toNat with
  | true => simpa using hmask.mp hbit
  | false => simpa [hbit] using hmask

theorem isNode_ones (k : Nat) : (huffTree.descend (List.replicate k true)).isNode ↔ k < 30 := by
  obtain ⟨-, -, -, -, -, hlow, hgap⟩ := huffTables_eval
  constructor
  · intro h
    by_contra hge
    obtain ⟨m, rfl⟩ := Nat.exists_eq_add_of_le (not_lt.mp hge)
    rw [List.replicate_add, CodeTree.descend_append, hgap] at h
    cases m <;> cases h
  · exact hlow k

end Nginx.Http.V2
