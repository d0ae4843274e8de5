/-
  Core/Cidr.lean --- blocks of addresses: `ngx_ptocidr` and `ngx_cidr_match`
  (`src/core/ngx_inet.c`).
-/
import Nginx.Core.Base
import Nginx.Core.Inet
import Nginx.Foundation.Bits

set_option autoImplicit false

namespace Nginx.Core

open List Foundation

/-! ## The text of a block -/

/-- The loop over the bytes of an IPv6 address: the address and its mask, and whether `rc` is
`NGX_DONE`. -/
def maskLoop : Nat → Bytes → Bytes × Bytes × Bool
  | _, [] => ([], [], false)
  | shift, a :: addr =>
    let s := if shift > 8 then 8 else shift
    let mask := (0xff <<< (8 - s)).toUInt8
    let rest := maskLoop (shift - s) addr
    if a ≠ a &&& mask then ((a &&& mask) :: rest.1, mask :: rest.2.1, true)
      else (a :: rest.1, mask :: rest.2.1, rest.2.2)

attribute [local simp] maskLoop

/-- The mask of one byte. -/
def byteMask (shift : Nat) : Byte := (0xff <<< (8 - min shift 8)).toUInt8

theorem maskLoop_cons (shift : Nat) (a : Byte) (addr : Bytes) :
    maskLoop shift (a :: addr) =
      ((a &&& byteMask shift) :: (maskLoop (shift - min shift 8) addr).1,
        byteMask shift :: (maskLoop (shift - min shift 8) addr).2.1,
        decide (a ≠ a &&& byteMask shift) || (maskLoop (shift - min shift 8) addr).2.2) := by
  have hs : (if shift > 8 then 8 else shift) = min shift 8 := by
    split <;> omega
  rw [maskLoop, hs]
  change (if a ≠ a &&& byteMask shift then _ else _) = _
  by_cases ha : a ≠ a &&& byteMask shift
  · rw [if_pos ha, decide_eq_true ha]
    rfl
  · rw [if_neg ha, decide_eq_false ha, ← not_not.mp ha]
    rfl

theorem length_maskLoop (shift : Nat) (addr : Bytes) :
    (maskLoop shift addr).1.length = addr.length ∧
      (maskLoop shift addr).2.1.length = addr.length := by
  induction addr generalizing shift with
  | nil => exact ⟨rfl, rfl⟩
  | cons a addr ih =>
    rw [maskLoop_cons]
    exact ⟨congrArg (· + 1) (ih _).1, congrArg (· + 1) (ih _).2⟩

/-- `ngx_ptocidr`; none is `NGX_ERROR` -/
def ptocidr (text : Bytes) : Option (Rc × Cidr) :=
  let addr := text.takeWhile (· != chr '/')
  let slash := text.dropWhile (· != chr '/')
  if inetAddr addr ≠ inaddrNone then
    match slash with
    | [] => some (.ok, .inet (inetAddr addr) 0xffffffff)
    | _ :: mask =>
      match atoi mask with
      | none => none
      | some shift =>
        if shift > 32 then none
        else
          let mask : BitVec 32 := if shift ≠ 0 then (0xffffffff : BitVec 32) <<< (32 - shift) else 0
          if inetAddr addr = inetAddr addr &&& mask then some (.ok, .inet (inetAddr addr) mask)
          else some (.done, .inet (inetAddr addr &&& mask) mask)
  else
    match inet6Addr addr with
    | none => none
    | some addr =>
      match slash with
      | [] => some (.ok, .inet6 addr ⟨List.replicate 16 0xff, rfl⟩)
      | _ :: mask =>
        match atoi mask with
        | none => none
        | some shift =>
          if shift > 128 then none
          else
            let r := maskLoop shift addr.bytes
            some (if r.2.2 then .done else .ok,
              .inet6 ⟨r.1, (length_maskLoop shift addr.bytes).1.trans addr.length_eq⟩
                ⟨r.2.1, (length_maskLoop shift addr.bytes).2.trans addr.length_eq⟩)

/-! ## Blocks -/

/-- The bits of an address, the highest one first. -/
def SockAddr.bits : SockAddr → List Bool
  | inet a _ => natBits 32 a.toNat
  | inet6 a _ => bitsOf a.bytes
  | unix => []

/-- Two addresses of one family. -/
def SockAddr.SameFamily : SockAddr → SockAddr → Prop
  | inet .., inet .. => True
  | inet6 .., inet6 .. => True
  | unix, unix => True
  | _, _ => False

/-- The contiguous mask of `len` bits, and the address with all other bits cleared. -/
structure Cleared (bits : List Bool) (len : Nat) (addr mask : List Bool) : Prop where
  len_le : len ≤ bits.length
  mask : mask = List.replicate len true ++ List.replicate (bits.length - len) false
  addr : addr = bits.take len ++ List.replicate (bits.length - len) false

/-- What is stored for the block of an address and a prefix length. -/
def Stored (base : SockAddr) (len : Nat) : Cidr → Prop
  | .inet addr mask =>
    (∃ a port, base = .inet a port) ∧
      Cleared base.bits len (natBits 32 addr.toNat) (natBits 32 mask.toNat)
  | .inet6 addr mask =>
    (∃ a port, base = .inet6 a port) ∧ Cleared base.bits len (bitsOf addr.bytes) (bitsOf mask.bytes)
  | .unix => base = .unix

/-- A block with the cidr that is stored for it. -/
structure CidrBlock where
  base : SockAddr
  len : Nat
  cidr : Cidr
  stored : Stored base len cidr

/-- The address is of the family of the block and begins with its bits. -/
def CidrBlock.Contains (b : CidrBlock) (sa : SockAddr) :
    Prop := b.base.SameFamily sa ∧ sa.bits.take b.len = b.base.bits.take b.len

/-- What a text of a block is taken for: its address, its prefix length or the full one, and whether
a bit was cleared. -/
def TakenFor (text : Bytes) (rc : Rc) (cidr : Cidr) : Prop :=
  ∃ base len, parseAddr (text.takeWhile (· != chr '/')) = some base ∧
    (match text.dropWhile (· != chr '/') with
      | [] => len = base.bits.length
      | _ :: digits => atoi digits = some len) ∧
    Stored base len cidr ∧
      (rc = .done ↔ base.bits.take len ++ List.replicate (base.bits.length - len) false ≠ base.bits)

variable {x y : List Bool} {len : Nat}

/-! ## Bits -/

theorem natBits_and (k m n : Nat) :
    natBits k (m &&& n) = List.zipWith (· && ·) (natBits k m) (natBits k n) := by
  induction k with
  | zero => rfl
  | succ k ih => rw [natBits, natBits, natBits, Nat.testBit_and, ih, zipWith_cons_cons]

theorem bitsOf_zipWith {a b : Bytes} (h : a.length = b.length) :
    bitsOf (List.zipWith (· &&& ·) a b) = List.zipWith (· && ·) (bitsOf a) (bitsOf b) := by
  induction a generalizing b with
  | nil => rfl
  | cons c a ih =>
    cases b with
    | nil => exact absurd h (Nat.succ_ne_zero _)
    | cons d b =>
      have hbyte := natBits_and 8 c.toNat d.toNat
      rw [zipWith_cons_cons, bitsOf_cons, bitsOf_cons, bitsOf_cons,
        ih (Nat.succ.inj h), UInt8.toNat_and, hbyte,
        zipWith_append (by rw [length_natBits, length_natBits])]

theorem natBits_inj {k m n : Nat} (hm : m < 2 ^ k) (hn : n < 2 ^ k)
    (h : natBits k m = natBits k n) : m = n := by
  have hall : ∀ j, j ≤ k → natBits j m = natBits j n → ∀ i, i < j → m.testBit i = n.testBit i := by
    intro j hj
    induction j with
    | zero => exact fun _ i hi => absurd hi (Nat.not_lt_zero i)
    | succ j ih =>
      intro heq i hi
      obtain ⟨hhead, htail⟩ := cons.inj heq
      rcases Nat.lt_or_eq_of_le (Nat.le_of_lt_succ hi) with hlt | rfl
      · exact ih (Nat.le_of_succ_le hj) htail i hlt
      · exact hhead
  refine Nat.eq_of_testBit_eq fun i => ?_
  rcases Nat.lt_or_ge i k with hi | hi
  · exact hall k (Nat.le_refl k) h i hi
  · have hpow := Nat.pow_le_pow_right (show 2 > 0 by decide) hi
    rw [Nat.testBit_lt_two_pow (Nat.lt_of_lt_of_le hm hpow),
      Nat.testBit_lt_two_pow (Nat.lt_of_lt_of_le hn hpow)]

theorem bitsOf_inj {a b : Bytes} (h : bitsOf a = bitsOf b) : a = b := by
  have hlength : a.length = b.length := by
    have := congrArg List.length h
    rw [length_bitsOf, length_bitsOf] at this
    omega
  induction a generalizing b with
  | nil => exact (eq_nil_of_length_eq_zero hlength.symm).symm
  | cons c a ih =>
    cases b with
    | nil => exact absurd hlength (Nat.succ_ne_zero _)
    | cons d b =>
      rw [bitsOf_cons, bitsOf_cons] at h
      obtain ⟨hhead, htail⟩ := append_inj h (by rw [length_natBits, length_natBits])
      rw [UInt8.toNat_inj.mp (natBits_inj c.toNat_lt d.toNat_lt hhead),
        ih htail (Nat.succ.inj hlength)]

theorem zipWith_mask (h : len ≤ x.length) :
    List.zipWith (· && ·) x (List.replicate len true ++ List.replicate (x.length - len) false) =
      x.take len ++ List.replicate (x.length - len) false := by
  induction x generalizing len with
  | nil =>
    obtain rfl := Nat.le_zero.mp h
    rfl
  | cons b x ih =>
    cases len with
    | zero =>
      have hrest := ih (Nat.zero_le x.length)
      simp only [replicate_zero, nil_append, Nat.sub_zero, take_zero, length_cons, replicate_succ,
        zipWith_cons_cons, Bool.and_false] at hrest ⊢
      rw [hrest]
    | succ len =>
      have hrest := ih (Nat.le_of_succ_le_succ h)
      rw [replicate_succ, cons_append, length_cons, Nat.succ_sub_succ,
        zipWith_cons_cons, hrest, Bool.and_true]
      rfl

theorem zipWith_mask_eq_iff {addr mask : List Bool} (h : Cleared y len addr mask)
    (hxy : x.length = y.length) :
    List.zipWith (· && ·) x mask = addr ↔ x.take len = y.take len := by
  rw [h.mask, h.addr, ← hxy, zipWith_mask (hxy ▸ h.len_le)]
  exact ⟨fun heq => append_cancel_right heq, fun heq => by rw [heq]⟩

/-! ## Matching -/

theorem SockAddr.length_bits (sa sb : SockAddr) (h : sa.SameFamily sb) :
    sa.bits.length = sb.bits.length := by
  cases sa <;> cases sb <;> first | exact h.elim | rfl | skip
  · rw [bits, bits, length_bitsOf, length_bitsOf, In6Addr.length_eq, In6Addr.length_eq]

/-- `ngx_cidr_match` on the bytes is membership in the block, bit by bit. -/
theorem matches_iff (b : CidrBlock) (sa : SockAddr) : b.cidr.matches sa = true ↔ b.Contains sa := by
  obtain ⟨base, len, cidr, hstored⟩ := b
  cases cidr with
  | inet addr mask =>
    obtain ⟨⟨a, port, rfl⟩, hcleared⟩ := hstored
    cases sa with
    | inet c p =>
      have hbits : c &&& mask = addr ↔
        List.zipWith (· && ·) (natBits 32 c.toNat) (natBits 32 mask.toNat) =
        natBits 32 addr.toNat := by
        rw [← natBits_and, ← BitVec.toNat_and]
        exact ⟨fun h => by rw [h], fun h =>
          BitVec.eq_of_toNat_eq (natBits_inj (c &&& mask).isLt addr.isLt h)⟩
      refine beq_iff_eq.trans
        (hbits.trans ((zipWith_mask_eq_iff hcleared ?_).trans (and_iff_right trivial).symm))
      rw [SockAddr.bits, length_natBits, length_natBits]
    | inet6 c p => exact iff_of_false Bool.false_ne_true fun h => h.1
    | unix => exact iff_of_false Bool.false_ne_true fun h => h.1
  | inet6 addr mask =>
    obtain ⟨⟨a, port, rfl⟩, hcleared⟩ := hstored
    cases sa with
    | inet c p => exact iff_of_false Bool.false_ne_true fun h => h.1
    | inet6 c p =>
      have hbits : List.zipWith (· &&& ·) c.bytes mask.bytes = addr.bytes ↔
          List.zipWith (· && ·) (bitsOf c.bytes) (bitsOf mask.bytes) = bitsOf addr.bytes := by
        rw [← bitsOf_zipWith (c.length_eq.trans mask.length_eq.symm)]
        exact ⟨fun h => by rw [h], bitsOf_inj⟩
      refine beq_iff_eq.trans
        (hbits.trans ((zipWith_mask_eq_iff hcleared ?_).trans (and_iff_right trivial).symm))
      exact SockAddr.length_bits (.inet6 c p) (.inet6 a port) trivial
    | unix => exact iff_of_false Bool.false_ne_true fun h => h.1
  | unix =>
    obtain rfl : base = .unix := hstored
    cases sa with
    | inet c p => exact iff_of_false Bool.false_ne_true fun h => h.1
    | inet6 c p => exact iff_of_false Bool.false_ne_true fun h => h.1
    | unix => exact iff_of_true rfl ⟨trivial, rfl⟩

/-! ## Texts -/

theorem natBits_mask32 : ∀ s :
    Fin 33, natBits 32 (if s.1 ≠ 0 then (0xffffffff : BitVec 32) <<< (32 - s.1) else 0).toNat =
    List.replicate s true ++ List.replicate (32 - s) false := by
  decide

theorem natBits_mask8 : ∀ s : Fin 9, natBits 8 (0xff <<< (8 - s.1)).toUInt8.toNat =
    List.replicate s true ++ List.replicate (8 - s) false := by
  decide

/-- The mask of the bytes that are left, and whether a byte was changed. -/
theorem maskLoop_spec {shift : Nat} {addr : Bytes} (h : shift ≤ 8 * addr.length) :
    bitsOf (maskLoop shift addr).2.1 = List.replicate shift true ++
      List.replicate (8 * addr.length - shift) false ∧
      (maskLoop shift addr).1 = List.zipWith (· &&& ·) addr (maskLoop shift addr).2.1 ∧
      ((maskLoop shift addr).2.2 = true ↔ (maskLoop shift addr).1 ≠ addr) := by
  induction addr generalizing shift with
  | nil =>
    obtain rfl : shift = 0 := Nat.le_zero.mp h
    exact ⟨rfl, rfl, iff_of_false Bool.false_ne_true fun hne => hne rfl⟩
  | cons a addr ih =>
    obtain ⟨hmask, haddr, hdone⟩ := @ih (shift - min shift 8) (by rw [length_cons] at h; omega)
    have hbyte : natBits 8 (byteMask shift).toNat = List.replicate (min shift 8) true ++
      List.replicate (8 - min shift 8) false :=
      natBits_mask8 ⟨min shift 8, by omega⟩
    rw [maskLoop_cons]
    refine ⟨?_, ?_, ?_⟩
    · rw [bitsOf_cons, hbyte, hmask, length_cons]
      rcases Nat.lt_or_ge shift 8 with hlt | hge
      · have hmin : min shift 8 = shift := by omega
        have hall : 8 * (addr.length + 1) - shift = (8 - shift) + 8 * addr.length := by omega
        rw [hmin, Nat.sub_self, Nat.sub_zero, replicate_zero, nil_append,
          hall, replicate_add, append_assoc]
      have hmin : min shift 8 = 8 := by omega
      have hall : List.replicate shift true = List.replicate 8 true ++
        List.replicate (shift - 8) true := by
        rw [← replicate_add]
        congr 1
        omega
      have hrest : 8 * (addr.length + 1) - shift = 8 * addr.length - (shift - 8) := by omega
      simp only [hmin, hall, hrest, Nat.sub_self, replicate_zero, append_nil, append_assoc]
    · rw [zipWith_cons_cons, ← haddr]
    · have hor : (decide (a ≠ a &&& byteMask shift) || (maskLoop (shift - min shift 8) addr).2.2) =
        true ↔
          a &&& byteMask shift ≠ a ∨ (maskLoop (shift - min shift 8) addr).1 ≠ addr := by
        rw [Bool.or_eq_true, decide_eq_true_iff, hdone, ne_comm]
      exact hor.trans (by rw [ne_eq, ne_eq, ne_eq, cons_eq_cons, not_and_or])

theorem stored_inet {len : Nat} (hlen : len ≤ 32) (a mask : BitVec 32)
    (hmask : natBits 32 mask.toNat = List.replicate len true ++ List.replicate (32 - len) false) :
    Cleared (SockAddr.inet a 0).bits len (natBits 32 (a &&& mask).toNat)
      (natBits 32 mask.toNat) := by
  have hlength : (SockAddr.inet a 0).bits.length = 32 := length_natBits 32 _
  refine ⟨hlength ▸ hlen, by rw [hmask, hlength], ?_⟩
  have hand := @zipWith_mask (natBits 32 a.toNat) len (by rw [length_natBits]; exact hlen)
  rw [length_natBits] at hand
  rw [BitVec.toNat_and, natBits_and, hmask, hlength]
  exact hand

theorem stored_inet6 {len : Nat} (hlen : len ≤ 128) (a addr mask : In6Addr)
    (hmask : bitsOf mask.bytes = List.replicate len true ++ List.replicate (128 - len) false)
    (haddr : addr.bytes = List.zipWith (· &&& ·) a.bytes mask.bytes) :
    Cleared (SockAddr.inet6 a 0).bits len (bitsOf addr.bytes) (bitsOf mask.bytes) := by
  have hlength : (SockAddr.inet6 a 0).bits.length = 128 := by
    rw [SockAddr.bits, length_bitsOf, a.length_eq]
  refine ⟨hlength ▸ hlen, by rw [hmask, hlength], ?_⟩
  have hand := @zipWith_mask (bitsOf a.bytes) len (by rw [length_bitsOf, a.length_eq]; exact hlen)
  rw [length_bitsOf, a.length_eq] at hand
  rw [haddr, bitsOf_zipWith (a.length_eq.trans mask.length_eq.symm), hmask, hlength]
  exact hand

theorem zipWith_ones (s : Bytes) : List.zipWith (· &&& ·) s (List.replicate s.length 0xff) = s := by
  induction s with
  | nil => rfl
  | cons b s ih =>
    have hb : b &&& 0xff = b := UInt8.and_neg_one
    rw [length_cons, replicate_succ, zipWith_cons_cons, ih, hb]

theorem takenFor_inet {text : Bytes} {a mask : BitVec 32} {rc : Rc}
    (hbase : parseAddr (text.takeWhile (· != chr '/')) = some (.inet a 0))
    (hslash : match text.dropWhile
      (· != chr '/') with | [] => len = 32 | _ :: digits => atoi digits = some len)
      (hlen : len ≤ 32)
    (hmask : natBits 32 mask.toNat = List.replicate len true ++ List.replicate (32 - len) false)
    (hrc : rc = .done ↔ a ≠ a &&& mask) :
    TakenFor text rc (.inet (a &&& mask) mask) := by
  have hcleared := stored_inet hlen a mask hmask
  refine ⟨_, len, hbase, ?_, ⟨⟨a, 0, rfl⟩, hcleared⟩, hrc.trans ?_⟩
  · have hlength : (SockAddr.inet a 0).bits.length = 32 := length_natBits 32 _
    rw [hlength]
    exact hslash
  · rw [← hcleared.addr]
    refine not_congr ⟨fun h => by rw [← h]; rfl, fun h => ?_⟩
    exact BitVec.eq_of_toNat_eq (natBits_inj a.isLt (a &&& mask).isLt h.symm)

theorem takenFor_inet6 {text : Bytes} {a addr mask : In6Addr} {rc : Rc}
    (hbase : parseAddr (text.takeWhile (· != chr '/')) = some (.inet6 a 0))
    (hslash : match text.dropWhile
      (· != chr '/') with | [] => len = 128 | _ :: digits => atoi digits = some len)
      (hlen : len ≤ 128)
    (hmask : bitsOf mask.bytes = List.replicate len true ++ List.replicate (128 - len) false)
    (haddr : addr.bytes = List.zipWith (· &&& ·) a.bytes mask.bytes)
    (hrc : rc = .done ↔ addr.bytes ≠ a.bytes) :
    TakenFor text rc (.inet6 addr mask) := by
  have hcleared := stored_inet6 hlen a addr mask hmask haddr
  refine ⟨_, len, hbase, ?_, ⟨⟨a, 0, rfl⟩, hcleared⟩, hrc.trans ?_⟩
  · have hlength : (SockAddr.inet6 a 0).bits.length = 128 := by
      rw [SockAddr.bits, length_bitsOf, a.length_eq]
    rw [hlength]
    exact hslash
  · rw [← hcleared.addr]
    exact not_congr ⟨fun h => by rw [h]; rfl, bitsOf_inj⟩

/-- What `ngx_ptocidr` accepts it takes for the block that the text says. -/
theorem ptocidr_takenFor {text : Bytes} {rc : Rc} {cidr : Cidr}
    (h : ptocidr text = some (rc, cidr)) : TakenFor text rc cidr := by
  rw [ptocidr] at h
  simp only at h
  by_cases hinet : inetAddr (text.takeWhile (· != chr '/')) ≠ inaddrNone
  · rw [if_pos hinet] at h
    have hbase : parseAddr (text.takeWhile (· != chr '/')) =
      some (.inet (inetAddr (text.takeWhile (· != chr '/'))) 0) := if_pos hinet
    generalize inetAddr (text.takeWhile (· != chr '/')) = a at h hbase
    split at h
    · next hslash =>
      obtain ⟨rfl, rfl⟩ := Prod.mk.inj (Option.some.inj h)
      have hand : a &&& 0xffffffff = a := BitVec.and_allOnes
      have htaken := @takenFor_inet 32 text a 0xffffffff .ok hbase (by rw [hslash])
          (le_rfl) (by decide)
        (iff_of_false (by decide) (not_not.mpr hand.symm))
      rwa [hand] at htaken
    · next hslash =>
      split at h
      · exact absurd h.symm (Option.some_ne_none _)
      next shift hshift =>
      split at h
      · exact absurd h.symm (Option.some_ne_none _)
      next hle =>
      have hmask := natBits_mask32 ⟨shift, Nat.lt_succ_of_le (not_lt.mp hle)⟩
      dsimp only at hmask
      generalize (if shift ≠ 0 then (0xffffffff : BitVec 32) <<< (32 - shift) else 0) =
        mask at h hmask
      have htaken := fun rc : Rc =>
        @takenFor_inet shift text a mask rc hbase (by rw [hslash]; exact hshift)
          (not_lt.mp hle) hmask
      split at h
      · next heq =>
        obtain ⟨rfl, rfl⟩ := Prod.mk.inj (Option.some.inj h)
        have hok := htaken .ok (iff_of_false (by decide) (not_not.mpr heq))
        rwa [← heq] at hok
      · next hne =>
        obtain ⟨rfl, rfl⟩ := Prod.mk.inj (Option.some.inj h)
        exact htaken .done (iff_of_true rfl hne)
  · rw [if_neg hinet] at h
    split at h
    · exact absurd h.symm (Option.some_ne_none _)
    next a ha =>
    have hbase : parseAddr (text.takeWhile (· != chr '/')) = some (.inet6 a 0) := by
      rw [parseAddr, if_neg hinet, ha]
      rfl
    split at h
    · next hslash =>
      obtain ⟨rfl, rfl⟩ := Prod.mk.inj (Option.some.inj h)
      have hand : a.bytes = List.zipWith (· &&& ·) a.bytes (List.replicate 16 0xff) := by
        rw [← a.length_eq, zipWith_ones]
      exact takenFor_inet6 hbase (by rw [hslash]) (le_rfl)
        (by decide) hand (iff_of_false (by decide) (not_not.mpr rfl))
    next hslash =>
    split at h
    · exact absurd h.symm (Option.some_ne_none _)
    next shift hshift =>
    split at h
    · exact absurd h.symm (Option.some_ne_none _)
    next hle =>
    obtain ⟨rfl, rfl⟩ := Prod.mk.inj (Option.some.inj h)
    have hlength : 8 * a.bytes.length = 128 := by rw [a.length_eq]
    obtain ⟨hmask, haddr, hdone⟩ := @maskLoop_spec shift a.bytes (by omega)
    rw [hlength] at hmask
    refine takenFor_inet6 hbase (by rw [hslash]; exact hshift)
      (not_lt.mp hle) hmask haddr (Iff.trans ?_ hdone)
    cases (maskLoop shift a.bytes).2.2 <;> decide

theorem ptocidr_and_cidrMatch :
    (∀ text rc cidr, ptocidr text = some (rc, cidr) → TakenFor text rc cidr) ∧
      ∀ (blocks : List CidrBlock) (sa : SockAddr), cidrMatch sa (blocks.map CidrBlock.cidr) = true ↔
        ∃ b ∈ blocks, b.Contains sa.family := by
  refine ⟨fun text rc cidr h => ptocidr_takenFor h, fun blocks sa => ?_⟩
  rw [cidrMatch, any_map, any_eq_true]
  exact exists_congr fun b => and_congr_right fun _ => matches_iff b sa.family

theorem ptocidr_and_cidrMatch_unit :
    TakenFor (ascii "10.1.2.3/8") .done (.inet 0x0a000000 0xff000000) :=
  ptocidr_and_cidrMatch.1 _ _ _ (by decide)

end Nginx.Core
