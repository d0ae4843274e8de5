/-
  Http/V2/HuffStrings.lean --- what the decoder of HPACK strings accepts, in one piece or
  in many, and what the coder writes.

  The word of the coder holds the bits that make no full word yet at its high
  end; `Packed` says so, and every byte of the source keeps it.
-/
import Nginx.Core.Hash
import Nginx.Http.V2.HuffCode

set_option autoImplicit false

namespace Nginx.Http.V2

open List Foundation Option
open Nginx.Core (align strlow tolower)

/-- The codes of the bytes of a string, one behind the other. -/
def huffCodes (s : Bytes) : List Bool := (s.map huffCode).flatten

/-- What a decoder in some state reads some bits to. -/
def huffRead (state : Byte) (bits : List Bool) : Option (Bytes × List Bool) :=
  huffTree.walk (huffTree.descend (huffPath state)) (huffPath state) bits

/-- `d'` is `d` after some bits. -/
def HuffDecoder.Reads (d : HuffDecoder) (bits : List Bool) (d' : HuffDecoder) : Prop :=
  ∃ new, d'.dst = d.dst ++ new ∧ huffRead d.state bits = some (new, huffPath d'.state)

variable {d d' d'' : HuffDecoder} {bits bits' p : List Bool} {s : Bytes}
    {src : Bytes} {state : Byte}

theorem five_mul_length_le (s : Bytes) : 5 * s.length ≤ (huffCodes s).length := by
  induction s with
  | nil => exact Nat.zero_le _
  | cons b s ih =>
    have hb := five_le_length_huffCode b
    rw [huffCodes, map_cons, flatten_cons, length_append, ← huffCodes,
      length_cons]
    omega

theorem huffRead_eq_some_iff :
    huffRead state bits = some (s, p) ↔
      huffPath state ++ bits = huffCodes s ++ p ∧ (huffTree.descend p).isNode := by
  have hstart : huffTree.walk huffTree [] (huffPath state) = some ([], huffPath state) :=
    CodeTree.walk_node (huffPath_isNode state)
  have happend := CodeTree.walk_append huffTree [] (huffPath state) bits
    (CodeTree.descend_nil _) huffTree_isNode huffTree_isNode
  have hsame : huffTree.walk huffTree [] (huffPath state ++ bits) = huffRead state bits := by
    rw [happend, hstart, bind_some, ← huffRead]
    cases huffRead state bits <;> simp
  rw [← hsame]
  exact CodeTree.walk_eq_some_iff huffTree_isNode huffTree_holds

theorem huffRead_append (h : huffRead state bits = some (s, huffPath d.state)) (more : List Bool) :
    huffRead state (bits ++ more) = (huffRead d.state more).map fun r => (s ++ r.1, r.2) := by
  have happend :=
    CodeTree.walk_append (huffTree.descend (huffPath state)) (huffPath state) bits more
    rfl (huffPath_isNode state) huffTree_isNode
  rw [huffRead] at h
  rw [huffRead, happend, h, bind_some, huffRead]

theorem HuffDecoder.Reads.refl (d : HuffDecoder) : d.Reads [] d := by
  refine ⟨[], by simp, ?_⟩
  rw [huffRead_eq_some_iff]
  exact ⟨by simp [huffCodes], huffPath_isNode d.state⟩

theorem HuffDecoder.Reads.trans (h : d.Reads bits d') (h' : d'.Reads bits' d'') :
    d.Reads (bits ++ bits') d'' := by
  obtain ⟨new, hdst, hread⟩ := h
  obtain ⟨new', hdst', hread'⟩ := h'
  refine ⟨new ++ new', by rw [hdst', hdst, append_assoc], ?_⟩
  rw [huffRead_append hread, hread']
  rfl

theorem huffRead_append_none (h : d.Reads bits d') (hnone : huffRead d'.state bits' = none) :
    huffRead d.state (bits ++ bits') = none := by
  obtain ⟨new, -, hread⟩ := h
  rw [huffRead_append hread, hnone]
  rfl

theorem huffRead_none_append (h : huffRead state bits = none) (more : List Bool) :
    huffRead state (bits ++ more) = none := by
  have happend :=
    CodeTree.walk_append (huffTree.descend (huffPath state)) (huffPath state) bits more
    rfl (huffPath_isNode state) huffTree_isNode
  rw [huffRead] at h
  rw [huffRead, happend, h, bind_none]

theorem HuffDecoder.Reads.length_le (h : d.Reads bits d') :
    5 * d'.dst.length + (huffPath d'.state).length ≤
      5 * d.dst.length + (huffPath d.state).length + bits.length := by
  obtain ⟨new, hdst, hread⟩ := h
  have heq := congrArg List.length (huffRead_eq_some_iff.mp hread).1
  have hnew := five_mul_length_le new
  rw [length_append, length_append] at heq
  rw [hdst, length_append]
  omega

/-! ## One step and the loop -/

/-- `ending` is set where nothing but ones have been begun. -/
def HuffDecoder.Marked (d : HuffDecoder) : Prop := d.ending = 0 ↔ false ∈ huffPath d.state

theorem huffDecodeBits_ok {n : Nat} (hn : n < 16) (h : huffDecodeBits d n = .ok d') :
    d.Reads (natBits 4 n) d' ∧ d'.Marked := by
  obtain ⟨hwalk, -⟩ := huffTransition_eq d.state hn
  simp only [huffDecodeBits] at h
  split at h
  next => cases h
  next hnext =>
    cases h
    rw [huffTransition, if_neg hnext] at hwalk
    refine ⟨⟨_, ?_, hwalk.symm⟩, huffDecodeCode_ending d.state hn hnext⟩
    cases decEq (huffDecodeCode d.state n).emit 0 with
    | isTrue hemit => simp [hemit]
    | isFalse hemit => simp [hemit]

theorem huffDecodeBits_error {n : Nat} (hn : n < 16) (h : huffDecodeBits d n = .error d') :
    d' = d ∧ huffRead d.state (natBits 4 n) = none := by
  obtain ⟨hwalk, -⟩ := huffTransition_eq d.state hn
  simp only [huffDecodeBits] at h
  split at h
  next hnext =>
    cases h
    rw [huffTransition, if_pos hnext] at hwalk
    exact ⟨rfl, hwalk.symm⟩
  next => cases h

theorem nibbles_lt (ch : Byte) : (ch >>> 4).toNat < 16 ∧ (ch &&& 0xf).toNat < 16 := by
  have hlt := ch.toNat_lt
  constructor
  · rw [UInt8.toNat_shiftRight, Nat.shiftRight_eq_div_pow]
    exact Nat.div_lt_of_lt_mul hlt
  · rw [UInt8.toNat_and]
    exact Nat.lt_of_le_of_lt Nat.and_le_right (by decide)

theorem natBits_nibbles (ch : Byte) :
    natBits 8 ch.toNat = natBits 4 (ch >>> 4).toNat ++ natBits 4 (ch &&& 0xf).toNat := by
  have hlow : (ch &&& 0xf).toNat = ch.toNat % 2 ^ 4 := by
    rw [UInt8.toNat_and]
    exact Nat.and_two_pow_sub_one_eq_mod ch.toNat 4
  rw [hlow, natBits_mod (Nat.le_refl 4), UInt8.toNat_shiftRight]
  exact natBits_add 4 4 ch.toNat

theorem huffDecodeLoop_ok (h : huffDecodeLoop src d = .ok d') :
    d.Reads (bitsOf src) d' ∧ (src = [] ∧ d' = d ∨ d'.Marked) := by
  induction src generalizing d with
  | nil =>
    cases h
    exact ⟨HuffDecoder.Reads.refl d', .inl ⟨rfl, rfl⟩⟩
  | cons ch src ih =>
    obtain ⟨hhigh, hlow⟩ := nibbles_lt ch
    unfold huffDecodeLoop at h
    cases h₁ : huffDecodeBits d (ch >>> 4).toNat with
    | error e =>
      rw [h₁] at h
      cases h
    | ok d₁ =>
      rw [h₁] at h
      cases h₂ : huffDecodeBits d₁ (ch &&& 0xf).toNat with
      | error e =>
        rw [Except.bind, h₂] at h
        cases h
      | ok d₂ =>
        rw [Except.bind, h₂] at h
        obtain ⟨hread₁, -⟩ := huffDecodeBits_ok hhigh h₁
        obtain ⟨hread₂, hmarked⟩ := huffDecodeBits_ok hlow h₂
        obtain ⟨hread, hend⟩ := ih h
        rw [bitsOf_cons, natBits_nibbles]
        refine ⟨(hread₁.trans hread₂).trans hread, .inr ?_⟩
        obtain ⟨-, rfl⟩ | hend := hend
        · exact hmarked
        · exact hend

theorem huffDecodeLoop_error (h : huffDecodeLoop src d = .error d') :
    huffRead d.state (bitsOf src) = none ∧
      ∃ bits, bits.length ≤ 8 * src.length ∧ d.Reads bits d' := by
  induction src generalizing d with
  | nil => cases h
  | cons ch src ih =>
    obtain ⟨hhigh, hlow⟩ := nibbles_lt ch
    rw [bitsOf_cons, natBits_nibbles, length_cons]
    unfold huffDecodeLoop at h
    cases h₁ : huffDecodeBits d (ch >>> 4).toNat with
    | error e =>
      rw [h₁] at h
      cases h
      obtain ⟨rfl, hnone⟩ := huffDecodeBits_error hhigh h₁
      rw [append_assoc]
      exact ⟨huffRead_none_append hnone _, [], by simp, HuffDecoder.Reads.refl _⟩
    | ok d₁ =>
      obtain ⟨hread₁, -⟩ := huffDecodeBits_ok hhigh h₁
      rw [h₁] at h
      cases h₂ : huffDecodeBits d₁ (ch &&& 0xf).toNat with
      | error e =>
        rw [Except.bind, h₂] at h
        cases h
        obtain ⟨rfl, hnone⟩ := huffDecodeBits_error hlow h₂
        refine ⟨huffRead_none_append (huffRead_append_none hread₁ hnone) _, _, ?_, hread₁⟩
        rw [length_natBits]
        omega
      | ok d₂ =>
        rw [Except.bind, h₂] at h
        obtain ⟨hread₂, -⟩ := huffDecodeBits_ok hlow h₂
        obtain ⟨hnone, bits, hlen, hread⟩ := ih h
        refine ⟨huffRead_append_none (hread₁.trans hread₂) hnone, _, ?_,
          (hread₁.trans hread₂).trans hread⟩
        rw [length_append, length_append, length_natBits, length_natBits]
        omega

/-! ## A whole string -/

/-- The decoder at the beginning of a call. -/
def huffDecoderAt (state : Byte) (dst : Bytes) : HuffDecoder := ⟨state, 1, dst⟩

theorem huffDecode_more (state : Byte) (src dst : Bytes) :
    huffDecode state src dst false = huffDecodeLoop src (huffDecoderAt state dst) := by
  rw [huffDecode, ← huffDecoderAt]
  cases huffDecodeLoop src (huffDecoderAt state dst) <;> rfl

theorem eq_ones (hnode : (huffTree.descend p).isNode) (h : false ∉ p) :
    ∃ k, k < 30 ∧ p = List.replicate k true := by
  have hones : p = List.replicate p.length true :=
    eq_replicate_of_mem fun b hb => by
      cases b with
      | true => rfl
      | false => exact absurd hb h
  rw [hones] at hnode
  exact ⟨p.length, (isNode_ones _).mp hnode, hones⟩

theorem huffDecode_last_ok {dst : Bytes} (h : huffDecode state src dst true = .ok d') :
    ∃ d, (huffDecoderAt state dst).Reads (bitsOf src) d ∧ (src ≠ [] → false ∉ huffPath d.state) ∧
      d' = { d with state := 0 } := by
  rw [huffDecode, ← huffDecoderAt] at h
  cases hloop : huffDecodeLoop src (huffDecoderAt state dst) with
  | error e =>
    rw [hloop] at h
    cases h
  | ok d =>
    rw [hloop, Except.bind, if_pos rfl] at h
    obtain ⟨hread, hend⟩ := huffDecodeLoop_ok hloop
    split at h
    next => cases h
    next hne =>
      cases h
      refine ⟨d, hread, fun hsrc hmem => hne ?_, rfl⟩
      have hmarked : d.Marked := hend.resolve_left fun hnil => hsrc hnil.1
      exact hmarked.mpr hmem

theorem huffDecode_last_error {dst : Bytes} (h : huffDecode state src dst true = .error d') :
    (∃ bits, bits.length ≤ 8 * src.length ∧ (huffDecoderAt state dst).Reads bits d') ∧
      (huffRead state (bitsOf src) = none ∨
        (huffDecoderAt state dst).Reads (bitsOf src) d' ∧ false ∈ huffPath d'.state) := by
  rw [huffDecode, ← huffDecoderAt] at h
  cases hloop : huffDecodeLoop src (huffDecoderAt state dst) with
  | error e =>
    rw [hloop] at h
    cases h
    obtain ⟨hnone, hread⟩ := huffDecodeLoop_error hloop
    exact ⟨hread, .inl hnone⟩
  | ok d =>
    rw [hloop, Except.bind, if_pos rfl] at h
    obtain ⟨hread, hend⟩ := huffDecodeLoop_ok hloop
    split at h
    next hzero =>
      cases h
      refine ⟨⟨_, by rw [length_bitsOf], hread⟩, .inr ⟨hread, ?_⟩⟩
      obtain ⟨-, rfl⟩ | hmarked := hend
      · cases hzero
      · exact hmarked.mp hzero
    next => cases h

theorem huffDecodePieces_ok {pieces : List Bytes} {final dst : Bytes}
    (h : huffDecodePieces state pieces final dst = .ok d') :
    ∃ d, (huffDecoderAt state dst).Reads (bitsOf (pieces.flatten ++ final)) d ∧
      (final ≠ [] → false ∉ huffPath d.state) ∧ d' = { d with state := 0 } := by
  induction pieces generalizing state dst with
  | nil => exact huffDecode_last_ok h
  | cons piece pieces ih =>
    rw [huffDecodePieces, huffDecode_more] at h
    cases hloop : huffDecodeLoop piece (huffDecoderAt state dst) with
    | error e =>
      rw [hloop] at h
      cases h
    | ok d₁ =>
      rw [hloop] at h
      obtain ⟨d, hread, hones, rfl⟩ := ih h
      refine ⟨d, ?_, hones, rfl⟩
      rw [flatten_cons, append_assoc, bitsOf_append]
      exact (huffDecodeLoop_ok hloop).1.trans hread

theorem huffDecodePieces_error {pieces : List Bytes} {final dst : Bytes}
    (h : huffDecodePieces state pieces final dst = .error d') :
    (∃ bits, bits.length ≤ 8 * (pieces.flatten ++ final).length ∧
        (huffDecoderAt state dst).Reads bits d') ∧
      (huffRead state (bitsOf (pieces.flatten ++ final)) = none ∨
        (huffDecoderAt state dst).Reads (bitsOf (pieces.flatten ++ final)) d' ∧
          false ∈ huffPath d'.state) := by
  induction pieces generalizing state dst with
  | nil => exact huffDecode_last_error h
  | cons piece pieces ih =>
    rw [huffDecodePieces, huffDecode_more] at h
    rw [flatten_cons, append_assoc, bitsOf_append, length_append]
    cases hloop : huffDecodeLoop piece (huffDecoderAt state dst) with
    | error e =>
      rw [hloop] at h
      cases h
      obtain ⟨hnone, bits, hlen, hread⟩ := huffDecodeLoop_error hloop
      exact ⟨⟨bits, by omega, hread⟩, .inl (huffRead_none_append hnone _)⟩
    | ok d₁ =>
      rw [hloop] at h
      have hread₁ := (huffDecodeLoop_ok hloop).1
      obtain ⟨⟨bits, hlen, hread⟩, hcases⟩ := ih h
      refine ⟨⟨bitsOf piece ++ bits, ?_, hread₁.trans hread⟩, ?_⟩
      · rw [length_append, length_bitsOf]
        omega
      · obtain hnone | ⟨hall, hzero⟩ := hcases
        · exact .inl (huffRead_append_none hread₁ hnone)
        · exact .inr ⟨hread₁.trans hall, hzero⟩

theorem huffDecodePieces_codes {pieces : List Bytes} {final : Bytes} {k : Nat} (hk : k < 30)
    (h : bitsOf (pieces.flatten ++ final) = huffCodes s ++ List.replicate k true) :
    ∃ ending, huffDecodePieces 0 pieces final [] = .ok ⟨0, ending, s⟩ := by
  have hread : huffRead 0 (bitsOf (pieces.flatten ++ final)) = some (s, List.replicate k true) :=
    huffRead_eq_some_iff.mpr ⟨by rw [huffPath_zero, nil_append, h], (isNode_ones k).mpr hk⟩
  cases hrun : huffDecodePieces 0 pieces final [] with
  | ok d' =>
    obtain ⟨d, ⟨new, hdst, hnew⟩, -, rfl⟩ := huffDecodePieces_ok hrun
    obtain ⟨hs, -⟩ := Prod.mk.inj (some.inj (hread.symm.trans hnew))
    refine ⟨d.ending, ?_⟩
    rw [hdst, hs]
    rfl
  | error d' =>
    obtain ⟨-, hnone | ⟨⟨new, -, hnew⟩, hzero⟩⟩ := huffDecodePieces_error hrun
    · rw [hread] at hnone
      cases hnone
    · obtain ⟨-, hpath⟩ := Prod.mk.inj (some.inj (hread.symm.trans hnew))
      rw [← hpath] at hzero
      exact absurd (eq_of_mem_replicate hzero) Bool.false_ne_true

theorem codes_of_huffDecodePieces {pieces : List Bytes} {final : Bytes} (hfinal : final ≠ [])
    (h : huffDecodePieces 0 pieces final [] = .ok d') :
    ∃ k, k < 30 ∧
      bitsOf (pieces.flatten ++ final) = huffCodes d'.dst ++ List.replicate k true := by
  obtain ⟨d, ⟨new, hdst, hread⟩, hones, rfl⟩ := huffDecodePieces_ok h
  obtain ⟨hbits, hnode⟩ := huffRead_eq_some_iff.mp hread
  obtain ⟨k, hk, hpath⟩ := eq_ones hnode (hones hfinal)
  have hstart : huffPath (huffDecoderAt 0 []).state = [] := huffPath_zero
  have hnew : d.dst = new := hdst
  rw [hstart, nil_append, hpath, ← hnew] at hbits
  exact ⟨k, hk, hbits⟩

theorem huffDecode_iff (src s : Bytes) :
    (∃ d, huffDecode 0 src [] true = .ok d ∧ d.dst = s) ↔
      ∃ k, k < 30 ∧ bitsOf src = huffCodes s ++ List.replicate k true := by
  constructor
  · rintro ⟨d, h, rfl⟩
    cases src with
    | nil =>
      cases h
      exact ⟨0, by decide, rfl⟩
    | cons b src => exact @codes_of_huffDecodePieces _ [] _ (cons_ne_nil b src) h
  · rintro ⟨k, hk, h⟩
    obtain ⟨ending, hrun⟩ := @huffDecodePieces_codes s [] src k hk h
    exact ⟨_, hrun, rfl⟩

theorem huffDecodePieces_length (pieces : List Bytes) (final : Bytes) {d : HuffDecoder}
    (h : huffDecodePieces 0 pieces final [] = .ok d ∨
      huffDecodePieces 0 pieces final [] = .error d) :
    d.dst.length ≤ (pieces.flatten ++ final).length * 8 / 5 := by
  have hstart : (huffPath (huffDecoderAt 0 []).state).length = 0 := by
    rw [huffDecoderAt, huffPath_zero]
    rfl
  have hbound : ∀ {bits : List Bool} {e : HuffDecoder}, (huffDecoderAt 0 []).Reads bits e →
      5 * e.dst.length ≤ bits.length := fun hread => by
    have hlen := hread.length_le
    rw [hstart, show (huffDecoderAt 0 []).dst.length = 0 from rfl] at hlen
    omega
  cases h with
  | inl hok =>
    obtain ⟨d₁, hread, -, rfl⟩ := huffDecodePieces_ok hok
    have hlen := hbound hread
    rw [length_bitsOf] at hlen
    have hdst : ({ d₁ with state := 0 } : HuffDecoder).dst.length = d₁.dst.length := rfl
    omega
  | inr herr =>
    obtain ⟨⟨bits, hbits, hread⟩, -⟩ := huffDecodePieces_error herr
    have hlen := hbound hread
    omega

/-! ## Words -/

theorem or_high {P code m n : Nat} (hcode : code < 2 ^ n) :
    P * 2 ^ (n + m) ||| code * 2 ^ m = (P * 2 ^ n + code) * 2 ^ m := by
  have hlt : code * 2 ^ m < 2 ^ (n + m) := by
    rw [Nat.pow_add]
    exact Nat.mul_lt_mul_of_pos_right hcode (Nat.two_pow_pos m)
  rw [← Nat.shiftLeft_eq P, ← Nat.shiftLeft_add_eq_or_of_lt hlt, Nat.shiftLeft_eq, Nat.pow_add,
    Nat.add_mul, Nat.mul_assoc]

theorem bitsOf_huffEncodeBuf (w : Nat) : bitsOf (huffEncodeBuf w) = natBits 64 w := by
  have h64 : natBits 64 w = natBits 8 (w >>> 56) ++ natBits 56 w := natBits_add 8 56 w
  have h56 : natBits 56 w = natBits 8 (w >>> 48) ++ natBits 48 w := natBits_add 8 48 w
  have h48 : natBits 48 w = natBits 8 (w >>> 40) ++ natBits 40 w := natBits_add 8 40 w
  have h40 : natBits 40 w = natBits 8 (w >>> 32) ++ natBits 32 w := natBits_add 8 32 w
  have h32 : natBits 32 w = natBits 8 (w >>> 24) ++ natBits 24 w := natBits_add 8 24 w
  have h24 : natBits 24 w = natBits 8 (w >>> 16) ++ natBits 16 w := natBits_add 8 16 w
  have h16 : natBits 16 w = natBits 8 (w >>> 8) ++ natBits 8 w := natBits_add 8 8 w
  simp only [huffEncodeBuf, bitsOf_cons, bitsOf_nil, natBits_ofNat, append_nil]
  rw [h64, h56, h48, h40, h32, h24, h16]

theorem bitsOf_huffEncodeBytes (w n : Nat) : bitsOf (huffEncodeBytes w n) = natBits (8 * n) w := by
  induction n with
  | zero => rfl
  | succ n ih =>
    rw [huffEncodeBytes, bitsOf_cons, ih, natBits_ofNat, ← natBits_add, Nat.mul_succ, add_comm]

theorem length_huffEncodeBytes (w n : Nat) : (huffEncodeBytes w n).length = n := by
  induction n with
  | zero => rfl
  | succ n ih => rw [huffEncodeBytes, length_cons, ih]

/-! ## The tables -/

/-- The byte that the coder writes the code of. -/
def huffByte (lower : Bool) (ch : Byte) : Byte := if lower then tolower ch else ch

/-- The string that the coder writes the codes of. -/
def huffTarget (lower : Bool) (src : Bytes) : Bytes := if lower then strlow src else src

theorem huffTarget_cons (lower : Bool) (ch : Byte) (src : Bytes) :
    huffTarget lower (ch :: src) = huffByte lower ch :: huffTarget lower src := by
  cases lower <;> rfl

theorem length_huffTarget (lower : Bool) (src : Bytes) :
    (huffTarget lower src).length = src.length := by
  cases lower with
  | false => rfl
  | true => exact length_map _

theorem huffEncodeTables_eval :
    (∀ n, n < 256 → tableEntry huffEncodeTableLc ⟨0, 0⟩ (UInt8.ofNat n).toNat =
        tableEntry huffEncodeTable ⟨0, 0⟩ (tolower (UInt8.ofNat n)).toNat) ∧
      ∀ n, n < 256 → (tableEntry huffEncodeTable ⟨0, 0⟩ (UInt8.ofNat n).toNat).len ≤ 30 ∧
        (tableEntry huffEncodeTable ⟨0, 0⟩ (UInt8.ofNat n).toNat).code <
          2 ^ (tableEntry huffEncodeTable ⟨0, 0⟩ (UInt8.ofNat n).toNat).len := by
  decide +kernel

theorem tableEntry_huffTable (lower : Bool) (ch : Byte) :
    tableEntry (huffTable lower) ⟨0, 0⟩ ch.toNat =
      tableEntry huffEncodeTable ⟨0, 0⟩ (huffByte lower ch).toNat := by
  cases lower with
  | false => rfl
  | true =>
    revert ch
    exact forall_byte huffEncodeTables_eval.1

theorem huffEncodeTable_bounds : ∀ ch : Byte,
    (tableEntry huffEncodeTable ⟨0, 0⟩ ch.toNat).len ≤ 30 ∧
      (tableEntry huffEncodeTable ⟨0, 0⟩ ch.toNat).code <
        2 ^ (tableEntry huffEncodeTable ⟨0, 0⟩ ch.toNat).len :=
  forall_byte huffEncodeTables_eval.2

/-! ## The loop -/

/-- The bits that a coder has been given, in what it has written and in its word. -/
structure HuffEncoder.Packed (e : HuffEncoder) (bits : List Bool) (P : Nat) : Prop where
  pending : e.pending < 64
  lt : P < 2 ^ e.pending
  buf : e.buf = P * 2 ^ (64 - e.pending)
  bits : bits = bitsOf e.dst ++ natBits e.pending P
  dst : e.dst.length = e.hlen

variable {e e' : HuffEncoder} {bits : List Bool} {P len : Nat} {c : HuffCode}

theorem HuffEncoder.Packed.length (h : e.Packed bits P) :
    bits.length = 8 * e.hlen + e.pending := by
  rw [h.bits, length_append, length_bitsOf, length_natBits, h.dst]

theorem packed_push (h : e.Packed bits P) (hcode : c.code < 2 ^ c.len)
    (hroom : e.pending + c.len < 64) :
    HuffEncoder.Packed
      { e with buf := e.buf ||| (c.code <<< (64 - (e.pending + c.len))) % wordRange
               pending := e.pending + c.len }
      (bits ++ natBits c.len c.code) (P * 2 ^ c.len + c.code) := by
  have hlt := h.lt
  have hsplit : 64 - e.pending = c.len + (64 - (e.pending + c.len)) := by omega
  have hword : c.code * 2 ^ (64 - (e.pending + c.len)) < wordRange := by
    calc c.code * 2 ^ (64 - (e.pending + c.len))
        < 2 ^ c.len * 2 ^ (64 - (e.pending + c.len)) :=
          Nat.mul_lt_mul_of_pos_right hcode (Nat.two_pow_pos _)
      _ = 2 ^ (64 - e.pending) := by rw [hsplit, Nat.pow_add]
      _ ≤ 2 ^ 64 := Nat.pow_le_pow_right Nat.two_pos (Nat.sub_le _ _)
  constructor
  · exact hroom
  · calc P * 2 ^ c.len + c.code
        < P * 2 ^ c.len + 2 ^ c.len := Nat.add_lt_add_left hcode _
      _ = (P + 1) * 2 ^ c.len := by rw [Nat.add_mul, Nat.one_mul]
      _ ≤ 2 ^ e.pending * 2 ^ c.len := Nat.mul_le_mul_right _ hlt
      _ = 2 ^ (e.pending + c.len) := (Nat.pow_add ..).symm
  · rw [h.buf, Nat.shiftLeft_eq, Nat.mod_eq_of_lt hword]
    conv_lhs => rw [hsplit]
    exact or_high hcode
  · rw [h.bits, natBits_mul_add hcode, append_assoc]
  · exact h.dst

theorem natBits_fill (h : e.Packed bits P) (hcode : c.code < 2 ^ c.len)
    (hfull : 64 ≤ e.pending + c.len) :
    natBits 64 (e.buf ||| c.code >>> (e.pending + c.len - 64)) =
      natBits e.pending P ++ natBits (64 - e.pending) (c.code >>> (e.pending + c.len - 64)) := by
  have hpending := h.pending
  have hhigh : c.code >>> (e.pending + c.len - 64) < 2 ^ (64 - e.pending) := by
    rw [Nat.shiftRight_eq_div_pow]
    apply Nat.div_lt_of_lt_mul
    rw [← Nat.pow_add, show e.pending + c.len - 64 + (64 - e.pending) = c.len by omega]
    exact hcode
  rw [h.buf, ← Nat.shiftLeft_eq, ← Nat.shiftLeft_add_eq_or_of_lt hhigh, Nat.shiftLeft_eq,
    ← natBits_mul_add hhigh, show e.pending + (64 - e.pending) = 64 by omega]

/-- The coder behind a code that fills the word. -/
def HuffEncoder.flushed (e : HuffEncoder) (c : HuffCode) : HuffEncoder where
  hlen := e.hlen + 8
  buf := if e.pending + c.len - 64 ≠ 0 then
      (c.code <<< (64 - (e.pending + c.len - 64))) % wordRange else 0
  pending := e.pending + c.len - 64
  dst := e.dst ++ huffEncodeBuf (e.buf ||| c.code >>> (e.pending + c.len - 64))

theorem packed_flush (h : e.Packed bits P) (hcode : c.code < 2 ^ c.len) (hlen : c.len < 64)
    (hfull : 64 ≤ e.pending + c.len) :
    (e.flushed c).Packed (bits ++ natBits c.len c.code)
      (c.code % 2 ^ (e.pending + c.len - 64)) := by
  have hpending := h.pending
  have hfill := natBits_fill h hcode hfull
  set rest := e.pending + c.len - 64 with hrest
  have hlen' : c.len = (64 - e.pending) + rest := by omega
  constructor
  · show rest < 64
    omega
  · exact Nat.mod_lt _ (Nat.two_pow_pos _)
  · show (if rest ≠ 0 then _ else 0) = c.code % 2 ^ rest * 2 ^ (64 - rest)
    split
    next =>
      have hword : wordRange = 2 ^ rest * 2 ^ (64 - rest) := by
        rw [← Nat.pow_add, show rest + (64 - rest) = 64 by omega, wordRange]
      rw [Nat.shiftLeft_eq, hword, Nat.mul_mod_mul_right]
    next hzero =>
      rw [not_not.mp hzero, Nat.pow_zero, Nat.mod_one, Nat.zero_mul]
  · show bits ++ natBits c.len c.code =
      bitsOf (e.dst ++ huffEncodeBuf (e.buf ||| c.code >>> rest)) ++
        natBits rest (c.code % 2 ^ rest)
    rw [bitsOf_append, bitsOf_huffEncodeBuf, hfill, natBits_mod (Nat.le_refl rest), h.bits, hlen',
      natBits_add]
    simp only [append_assoc]
  · show (e.dst ++ huffEncodeBuf (e.buf ||| c.code >>> rest)).length = e.hlen + 8
    rw [length_append, h.dst]
    rfl

theorem huffEncodeLoop_cons (lower : Bool) (len : Nat) (ch : Byte) (src : Bytes) (e : HuffEncoder) :
    ∃ c : HuffCode, c.len ≤ 30 ∧ c.code < 2 ^ c.len ∧
      huffCode (huffByte lower ch) = natBits c.len c.code ∧
      huffEncodeLoop (huffTable lower) len (ch :: src) e =
        if e.pending + c.len < 64 then
          huffEncodeLoop (huffTable lower) len src
            { e with buf := e.buf ||| (c.code <<< (64 - (e.pending + c.len))) % wordRange
                     pending := e.pending + c.len }
        else if e.hlen + 8 ≥ len then .error e
        else huffEncodeLoop (huffTable lower) len src (e.flushed c) := by
  obtain ⟨hlen, hcode⟩ := huffEncodeTable_bounds (huffByte lower ch)
  refine ⟨_, hlen, hcode, rfl, ?_⟩
  rw [← tableEntry_huffTable]
  rfl

theorem huffEncodeLoop_ok {lower : Bool} {src : Bytes} (h : e.Packed bits P)
    (hlen : e.hlen = 0 ∨ e.hlen < len)
    (hrun : huffEncodeLoop (huffTable lower) len src e = .ok e') :
    (∃ P', e'.Packed (bits ++ huffCodes (huffTarget lower src)) P') ∧
      (e'.hlen = 0 ∨ e'.hlen < len) := by
  induction src generalizing e bits P with
  | nil =>
    cases hrun
    have hnil : huffCodes (huffTarget lower []) = [] := by cases lower <;> rfl
    rw [hnil, append_nil]
    exact ⟨⟨P, h⟩, hlen⟩
  | cons ch src ih =>
    obtain ⟨c, hbits, hcode, hbyte, hcons⟩ := huffEncodeLoop_cons lower len ch src e
    rw [huffTarget_cons, huffCodes, map_cons, flatten_cons, ← huffCodes,
      ← append_assoc, hbyte]
    rw [hcons] at hrun
    split at hrun
    next hroom => exact ih (packed_push h hcode hroom) hlen hrun
    next hfull =>
      split at hrun
      next => cases hrun
      next hshort =>
        have hpacked := packed_flush h hcode (by omega) (by omega)
        exact ih hpacked (.inr (not_le.mp hshort)) hrun

theorem huffEncodeLoop_error {lower : Bool} {src : Bytes} (h : e.Packed bits P)
    (hrun : huffEncodeLoop (huffTable lower) len src e = .error e') :
    8 * len ≤ (bits ++ huffCodes (huffTarget lower src)).length := by
  induction src generalizing e bits P with
  | nil => cases hrun
  | cons ch src ih =>
    obtain ⟨c, hbits, hcode, hbyte, hcons⟩ := huffEncodeLoop_cons lower len ch src e
    rw [huffTarget_cons, huffCodes, map_cons, flatten_cons, ← huffCodes,
      ← append_assoc, hbyte]
    rw [hcons] at hrun
    split at hrun
    next hroom => exact ih (packed_push h hcode hroom) hrun
    next hfull =>
      split at hrun
      next hlong =>
        have hlength := h.length
        rw [length_append, length_append, length_natBits]
        omega
      next => exact ih (packed_flush h hcode (by omega) (by omega)) hrun

/-! ## A whole string -/

theorem packed_start : HuffEncoder.Packed ⟨0, 0, 0, []⟩ [] 0 where
  pending := by decide
  lt := by decide
  buf := rfl
  bits := rfl
  dst := rfl

theorem ones_shiftRight (p m : Nat) : (2 ^ (p + m) - 1) >>> p = 2 ^ m - 1 := by
  have hp := Nat.two_pow_pos p
  have hm := Nat.two_pow_pos m
  have hsplit : 2 ^ (p + m) - 1 = 2 ^ p - 1 + 2 ^ p * (2 ^ m - 1) := by
    rw [Nat.pow_add, Nat.mul_sub, Nat.mul_one]
    have hle : 2 ^ p ≤ 2 ^ p * 2 ^ m := Nat.le_mul_of_pos_right _ hm
    omega
  rw [Nat.shiftRight_eq_div_pow, hsplit, Nat.add_mul_div_left _ _ hp, Nat.div_eq_of_lt (by omega),
    zero_add]

theorem natBits_padded (h : e.Packed bits P) {q : Nat} (hle : e.pending ≤ q) (hq : q ≤ 64) :
    natBits q ((e.buf ||| (wordRange - 1) >>> e.pending) >>> (64 - q)) =
      natBits e.pending P ++ List.replicate (q - e.pending) true := by
  have hpending := h.pending
  have hones : (wordRange - 1) >>> e.pending = 2 ^ (64 - e.pending) - 1 := by
    have hshift := ones_shiftRight e.pending (64 - e.pending)
    rw [show e.pending + (64 - e.pending) = 64 by omega] at hshift
    exact hshift
  have hlt : 2 ^ (64 - e.pending) - 1 < 2 ^ (64 - e.pending) :=
    Nat.sub_lt (Nat.two_pow_pos _) Nat.one_pos
  have hword : natBits 64 (e.buf ||| (wordRange - 1) >>> e.pending) =
      natBits e.pending P ++ List.replicate (q - e.pending) true ++
        List.replicate (64 - q) true := by
    rw [hones, h.buf, ← Nat.shiftLeft_eq, ← Nat.shiftLeft_add_eq_or_of_lt hlt, Nat.shiftLeft_eq,
      show 64 = e.pending + (64 - e.pending) by omega, Nat.add_sub_cancel_left,
      natBits_mul_add hlt, natBits_ones, append_assoc, replicate_append_replicate]
    congr 2
    omega
  have hsplit := natBits_add q (64 - q) (e.buf ||| (wordRange - 1) >>> e.pending)
  rw [show q + (64 - q) = 64 by omega, hword] at hsplit
  refine (append_inj hsplit ?_).1.symm
  rw [length_append, length_natBits, length_natBits, length_replicate]
  omega

theorem bitsOf_last (h : e.Packed bits P) :
    bitsOf (e.dst ++
        huffEncodeBytes
          ((e.buf ||| (wordRange - 1) >>> e.pending) >>> (64 - align e.pending 8))
          (align e.pending 8 / 8)) =
      bits ++ List.replicate (align e.pending 8 - e.pending) true := by
  have hpending := h.pending
  have hle : e.pending ≤ align e.pending 8 := Core.le_align (by decide) _
  have hq : align e.pending 8 ≤ 64 := Core.align_le_of_dvd (by decide) ⟨8, rfl⟩ (by omega)
  rw [bitsOf_append, bitsOf_huffEncodeBytes, Nat.mul_div_cancel' (Core.dvd_align _ _),
    natBits_padded h hle hq, h.bits, append_assoc]

/-- The number of bytes that the Huffman form of a string takes. -/
def huffLength (s : Bytes) : Nat := ((huffCodes s).length + 7) / 8

/-- The encoder writes the codes of the bytes, or nothing where that is no shorter. -/
theorem huffEncode_spec (src : Bytes) (lower : Bool) :
    ((huffEncode src lower).1 = 0 → src.length ≤ huffLength (huffTarget lower src)) ∧
      (0 < (huffEncode src lower).1 →
        (huffEncode src lower).1 < src.length ∧
          (huffEncode src lower).2.length = (huffEncode src lower).1 ∧
          ∃ k, k < 8 ∧
            bitsOf (huffEncode src lower).2 =
              huffCodes (huffTarget lower src) ++ List.replicate k true) := by
  simp only [huffEncode, huffWordSize, Nat.reduceMul]
  cases hrun : huffEncodeLoop (huffTable lower) src.length src ⟨0, 0, 0, []⟩ with
  | error e =>
    have hlong := huffEncodeLoop_error packed_start hrun
    rw [nil_append] at hlong
    refine ⟨fun _ => ?_, fun hpos => absurd hpos (lt_irrefl 0)⟩
    rw [huffLength]
    omega
  | ok e =>
    obtain ⟨⟨P, h⟩, hshort⟩ := huffEncodeLoop_ok packed_start (.inl rfl) hrun
    rw [nil_append] at h
    have hlength := h.length
    have hpending := h.pending
    simp only
    split
    next hzero =>
      refine ⟨fun hnone => ?_, fun hpos => ⟨by omega, h.dst, 0, by decide, ?_⟩⟩
      · have hcodes := five_mul_length_le (huffTarget lower src)
        rw [length_huffTarget] at hcodes
        have hlen : e.hlen = 0 := hnone
        omega
      · rw [replicate_zero, append_nil, h.bits, hzero]
        exact (append_nil _).symm
    next hsome =>
      have hle : e.pending ≤ align e.pending 8 := Core.le_align (by decide) _
      have hlt : align e.pending 8 < e.pending + 8 := Core.align_lt (by decide) _
      obtain ⟨m, hm⟩ : 8 ∣ align e.pending 8 := Core.dvd_align _ _
      split
      next hlong =>
        refine ⟨fun _ => ?_, fun hpos => absurd hpos (lt_irrefl 0)⟩
        rw [huffLength]
        omega
      next hfits =>
        refine ⟨fun hnone => ?_, fun _ => ⟨by omega, ?_, _, by omega, bitsOf_last h⟩⟩
        · have hpos : e.hlen + align e.pending 8 / 8 = 0 := hnone
          omega
        · rw [length_append, length_huffEncodeBytes, h.dst]

/-! ## Coder and decoder -/

/-- The coder answers 0 only if the codes are not shorter; else what it writes is
shorter than the source and is read back, in any pieces.  A string is accepted where it is
one of codes and fewer than 30 ones, and its output fits in 8/5 of its bytes. -/
theorem huffman_coding :
    (∀ (src : Bytes) (lower : Bool),
      ((huffEncode src lower).1 = 0 → src.length ≤ huffLength (huffTarget lower src)) ∧
      (0 < (huffEncode src lower).1 →
        (huffEncode src lower).1 < src.length ∧
        (huffEncode src lower).2.length = (huffEncode src lower).1 ∧
        ∀ (pieces : List Bytes) (final : Bytes),
          pieces.flatten ++ final = (huffEncode src lower).2 →
          ∃ ending, huffDecodePieces 0 pieces final [] = .ok ⟨0, ending, huffTarget lower src⟩)) ∧
    (∀ src s : Bytes,
      (∃ d, huffDecode 0 src [] true = .ok d ∧ d.dst = s) ↔
        ∃ k, k < 30 ∧ bitsOf src = huffCodes s ++ List.replicate k true) ∧
    (∀ (src : Bytes) (d : HuffDecoder),
      huffDecode 0 src [] true = .ok d ∨ huffDecode 0 src [] true = .error d →
        d.dst.length ≤ src.length * 8 / 5) := by
  refine ⟨fun src lower => ?_, huffDecode_iff, fun src d => huffDecodePieces_length [] src⟩
  obtain ⟨hnone, hsome⟩ := huffEncode_spec src lower
  refine ⟨hnone, fun hpos => ?_⟩
  obtain ⟨hlt, hlen, k, hk, hbits⟩ := hsome hpos
  refine ⟨hlt, hlen, fun pieces final hpieces => ?_⟩
  rw [← hpieces] at hbits
  exact huffDecodePieces_codes (by omega) hbits

theorem huffman_coding_eightA :
    (huffEncode (List.replicate 8 (chr 'A')) true).1 = 5 ∧
      ∃ ending, huffDecodePieces 0 [[0x18, 0xc6], [], [0x31]] [0x8c, 0x63] [] =
        .ok ⟨0, ending, List.replicate 8 (chr 'a')⟩ := by
  refine ⟨by decide, ?_⟩
  obtain ⟨-, hsome⟩ := huffman_coding.1 (List.replicate 8 (chr 'A')) true
  exact (hsome (by decide)).2.2 [[0x18, 0xc6], [], [0x31]] [0x8c, 0x63] (by decide)

/-- A byte of eight ones is accepted, with no output. -/
theorem huffDecode_eightOnes :
    (∃ d, huffDecode 0 [0xff] [] true = .ok d) ∧
      ¬ ∃ s k, k < 8 ∧ bitsOf [0xff] = huffCodes s ++ List.replicate k true := by
  constructor
  · exact ⟨⟨0, 1, []⟩, by decide⟩
  rintro ⟨s, k, hk, h⟩
  cases s with
  | nil =>
    have hlen := congrArg List.length h
    rw [length_bitsOf, huffCodes, map_nil, flatten_nil, nil_append,
      length_replicate, length_singleton] at hlen
    omega
  | cons b s =>
    have hzero : false ∈ bitsOf [0xff] := by
      rw [h, huffCodes, map_cons, flatten_cons]
      exact mem_append_left _ (mem_append_left _ (zero_mem_huffCode b))
    exact absurd hzero (by decide)

end Nginx.Http.V2
