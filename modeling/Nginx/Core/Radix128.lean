/-
  Core/Radix128.lean --- the functions of `src/core/ngx_radix_tree.c` for IPv6
  addresses, and the walks they make.

  A key and a mask are read at the index `i`, by a `bit` of one byte; what lies
  behind the 16 bytes of either is not the function's to read.  The tree is the
  one of the IPv4 functions, and the ends of insertion and deletion are theirs.
  A walk that has gone along `d` bits reads byte `d / 8` by the bit `d % 8` of
  it.  Insertion and deletion stop behind bit 127; the lookup goes on from any
  node, and reads behind the key at the node of a full-length prefix.
-/
import Nginx.Core.RadixHeap

set_option autoImplicit false

namespace Nginx.Core

open List Foundation Option Function

/-- What goes wrong in a function of the IPv6 tree. -/
inductive WalkFault where
  /-- a key or a mask is read behind its end -/
  | pastEnd
  /-- what goes wrong in the IPv4 tree, too -/
  | fault (f : Fault)
  deriving DecidableEq

/-- `key[i]` or `mask[i]` -/
def byteAt (a : Nat → Byte) (i : Nat) : Except WalkFault Byte :=
    if i < 16 then .ok (a i) else .error .pastEnd

/-- `x & bit` as a condition. -/
def byteBit (x bit : Byte) : Bool := (x &&& bit) != 0

namespace RadixTree

/-! ## Insertion -/

/-- The first loop of `ngx_radix128tree_insert`, with `bit`, `i`, `node` and `next`. -/
def insertDescend128 (nodes : Nat → RadixNode) (key mask : Nat → Byte) :
    Nat → Byte → Nat → Nat → Nat → Except WalkFault (Byte × Nat × Nat × Nat)
  | 0, _, _, _, _ => .error (.fault .outOfFuel)
  | n + 1, bit, i, node, next => do
      let m ← byteAt mask i
      if byteBit m bit then
        let k ← byteAt key i
        let next := (nodes node).child (byteBit k bit)
        if next = 0 then .ok (bit, i, node, next)
        else if bit >>> 1 = 0 then
          if i + 1 = 16 then .ok (bit >>> 1, i + 1, next, next)
          else insertDescend128 nodes key mask n 0x80 (i + 1) next next
        else insertDescend128 nodes key mask n (bit >>> 1) i next next
      else .ok (bit, i, node, next)

/-- The second loop of `ngx_radix128tree_insert`. -/
def grow128 (page : PageSize) (key mask : Nat → Byte) :
    Nat → Byte → Nat → RadixTree → Nat → Except WalkFault (Nat × RadixTree)
  | 0, _, _, _, _ => .error (.fault .outOfFuel)
  | n + 1, bit, i, t, node => do
      let m ← byteAt mask i
      if byteBit m bit then
        let k ← byteAt key i
        let (next, t) := t.attach page node (byteBit k bit)
        if bit >>> 1 = 0 then
          if i + 1 = 16 then .ok (next, t)
          else grow128 page key mask n 0x80 (i + 1) t next
        else grow128 page key mask n (bit >>> 1) i t next
      else .ok (node, t)

/-- `ngx_radix128tree_insert` -/
def insert128 (page : PageSize) (t : RadixTree) (key mask : Nat → Byte) (value : Word) :
    Except WalkFault (Rc × RadixTree) := do
  let (bit, i, node, next) ← insertDescend128 t.nodes key mask 129 0x80 0 t.root t.root
  if next ≠ 0 then
    if (t.nodes node).value ≠ radixNoValue then .ok (.busy, t) else .ok (.ok, t.setValue node value)
  else
    let (node, t) ← grow128 page key mask 129 bit i t node
    .ok (.ok, t.setValue node value)

/-! ## Deletion -/

/-- The loop of `ngx_radix128tree_delete` that looks for the node. -/
def deleteDescend128 (nodes : Nat → RadixNode) (key mask : Nat → Byte) :
    Nat → Byte → Nat → Nat → Except WalkFault Nat
  | 0, _, _, _ => .error (.fault .outOfFuel)
  | n + 1, bit, i, node =>
      if node = 0 then .ok node
      else do
        let m ← byteAt mask i
        if byteBit m bit then
          let k ← byteAt key i
          let node := (nodes node).child (byteBit k bit)
          if bit >>> 1 = 0 then
            if i + 1 = 16 then .ok node
            else deleteDescend128 nodes key mask n 0x80 (i + 1) node
          else deleteDescend128 nodes key mask n (bit >>> 1) i node
        else .ok node

/-- `ngx_radix128tree_delete` -/
def delete128 (t : RadixTree) (key mask : Nat → Byte) : Except WalkFault (Rc × RadixTree) := do
  let node ← deleteDescend128 t.nodes key mask 129 0x80 0 t.root
  if node = 0 then .ok (.error, t)
  else if (t.nodes node).right ≠ 0 ∨ (t.nodes node).left ≠ 0 then
    if (t.nodes node).value ≠ radixNoValue then .ok (.ok, t.setValue node radixNoValue)
    else .ok (.error, t)
  else
    match prune 128 t node with
    | .ok t => .ok (.ok, t)
    | .error fault => .error (.fault fault)

/-! ## Lookup -/

/-- The loop of `ngx_radix128tree_find`.  The index is not compared with 16. -/
def findLoop128 (nodes : Nat → RadixNode) (key : Nat → Byte) :
    Nat → Byte → Nat → Nat → Word → Except WalkFault Word
  | 0, _, _, _, _ => .error (.fault .outOfFuel)
  | n + 1, bit, i, node, value =>
      if node = 0 then .ok value
      else do
        let value := if (nodes node).value ≠ radixNoValue then (nodes node).value else value
        let k ← byteAt key i
        let node := (nodes node).child (byteBit k bit)
        if bit >>> 1 = 0 then findLoop128 nodes key n 0x80 (i + 1) node value
        else findLoop128 nodes key n (bit >>> 1) i node value

/-- `ngx_radix128tree_find` -/
def find128 (t : RadixTree) (key : Nat → Byte) : Except WalkFault Word :=
  findLoop128 t.nodes key 130 0x80 0 t.root radixNoValue

end RadixTree

/-! ## Keys and masks -/

/-- The bits of an address, the most significant one first. -/
def keyBits128 (key : Nat → Byte) : List Bool := (List.range 128).map fun d =>
    (key (d / 8)).toBitVec.getMsbD (d % 8)

/-- The mask of the first `len` bits. -/
def netmask128 (len i : Nat) : Byte := UInt8.ofNat (256 - 2 ^ (8 - min 8 (len - 8 * i)))

/-- The prefix of `len` bits of an address. -/
def prefixBits128 (key : Nat → Byte) (len : Nat) : List Bool := (keyBits128 key).take len

/-- `bit` behind so many bits. -/
def bitAt (d : Nat) : Byte := 0x80 >>> UInt8.ofNat (d % 8)

@[simp] theorem length_keyBits128 (key : Nat → Byte) : (keyBits128 key).length = 128 := by
  rw [keyBits128, length_map, length_range]

theorem length_prefixBits128 (key : Nat → Byte) (len : Nat) :
    (prefixBits128 key len).length = min len 128 := by
  rw [prefixBits128, length_take, length_keyBits128]

theorem forall_mod_eight {P : Nat → Prop} (h : ∀ r, r < 8 → P r) (d : Nat) :
    P (d % 8) := h _ (Nat.mod_lt d (by decide))

theorem bitAt_shift_eq_zero_iff (d : Nat) : bitAt d >>> 1 = 0 ↔ d % 8 = 7 :=
  forall_mod_eight (P := fun r => (0x80 : Byte) >>> UInt8.ofNat r >>> 1 = 0 ↔ r = 7) (by decide) d

theorem bitAt_shift (d : Nat) (h : d % 8 ≠ 7) : bitAt d >>> 1 = bitAt (d + 1) := by
  have hsucc : (d + 1) % 8 = d % 8 + 1 := by omega
  rw [bitAt, bitAt, hsucc]
  exact forall_mod_eight (P := fun r =>
    r ≠ 7 → (0x80 : Byte) >>> UInt8.ofNat r >>> 1 = 0x80 >>> UInt8.ofNat (r + 1))
    (by decide) d h

theorem toBitVec_bitAt (d : Nat) : (bitAt d).toBitVec = BitVec.twoPow 8 (7 - d % 8) :=
  forall_mod_eight (P := fun r =>
    ((0x80 : Byte) >>> UInt8.ofNat r).toBitVec = BitVec.twoPow 8 (7 - r)) (by decide) d

theorem byteBit_bitAt (x : Byte) (d : Nat) : byteBit x (bitAt d) = x.toBitVec.getMsbD (d % 8) := by
  have hr : d % 8 < 8 := Nat.mod_lt d (by decide)
  have hand : (x &&& bitAt d).toBitVec =
    if x.toBitVec.getLsbD (7 - d % 8) then BitVec.twoPow 8 (7 - d % 8) else 0#8 := by
    rw [UInt8.toBitVec_and, toBitVec_bitAt, BitVec.and_twoPow]
  have hne : BitVec.twoPow 8 (7 - d % 8) ≠ 0#8 :=
    forall_mod_eight (P := fun r => BitVec.twoPow 8 (7 - r) ≠ 0#8) (by decide) d
  have hmsb : x.toBitVec.getMsbD (d % 8) = x.toBitVec.getLsbD (7 - d % 8) := by
    rw [BitVec.getMsbD, decide_eq_true hr, Bool.true_and]
  rw [byteBit, hmsb]
  by_cases hbit : x.toBitVec.getLsbD (7 - d % 8) = true
  · rw [if_pos hbit] at hand
    rw [hbit, bne_iff_ne]
    intro hzero
    rw [hzero] at hand
    exact hne hand.symm
  · rw [if_neg hbit] at hand
    rw [eq_false_of_ne_true hbit, bne_eq_false_iff_eq]
    exact UInt8.toBitVec_inj.mp hand

theorem byteBit_netmask128 (len d : Nat) :
    byteBit (netmask128 len (d / 8)) (bitAt d) = decide (d < len) := by
  have hall : ∀ m, m < 9 → ∀ r, r < 8 →
    byteBit (UInt8.ofNat (256 - 2 ^ (8 - m))) (0x80 >>> UInt8.ofNat r) = decide (r < m) := by
    decide
  have hm : min 8 (len - 8 * (d / 8)) < 9 := by omega
  have hr : d % 8 < 8 := Nat.mod_lt d (by decide)
  rw [netmask128, bitAt, hall _ hm _ hr, decide_eq_decide]
  omega

theorem bits_of_prefixBits128_eq_append {key : Nat → Byte} {len : Nat}
    {p rest : List Bool} {b : Bool}
    (h : prefixBits128 key len = p ++ b :: rest) :
    p.length < 128 ∧ byteBit (netmask128 len (p.length / 8)) (bitAt p.length) = true ∧
      byteBit (key (p.length / 8)) (bitAt p.length) = b := by
  have hlen : p.length < len ∧ p.length < 128 := by
    have hlength := length_prefixBits128 key len
    rw [h, length_append, length_cons] at hlength
    omega
  refine ⟨hlen.2, ?_, ?_⟩
  · rw [byteBit_netmask128]
    exact decide_eq_true hlen.1
  have hget : (prefixBits128 key len)[p.length]? = some b := by
    rw [h, getElem?_append_right (le_rfl), Nat.sub_self, getElem?_cons_zero]
  rw [prefixBits128, getElem?_take_of_lt hlen.1, keyBits128, getElem?_map, getElem?_range hlen.2]
    at hget
  rw [byteBit_bitAt]
  exact some.inj hget

theorem mask_of_prefixBits128_eq {key : Nat → Byte} {len : Nat} {p : List Bool}
    (h : prefixBits128 key len = p)
    (hp : p.length < 128) : byteBit (netmask128 len (p.length / 8)) (bitAt p.length) = false := by
  have hlength := length_prefixBits128 key len
  rw [h] at hlength
  rw [byteBit_netmask128]
  exact decide_eq_false (by omega)

/-! ## The cursor -/

section Cursor

variable {α : Type} {d : Nat}

theorem byteAt_of_lt (a : Nat → Byte) (hd : d < 128) :
    byteAt a (d / 8) = .ok (a (d / 8)) := if_pos (by omega)

theorem advance (loop : Byte → Nat → α) :
    (if bitAt d >>> 1 = 0 then loop 0x80 (d / 8 + 1) else loop (bitAt d >>> 1) (d / 8)) =
      loop (bitAt (d + 1)) ((d + 1) / 8) := by
  by_cases hlast : d % 8 = 7
  · have hbit : bitAt (d + 1) = 0x80 := by
      have hmod : (d + 1) % 8 = 0 := by omega
      rw [bitAt, hmod]
      rfl
    have hdiv : (d + 1) / 8 = d / 8 + 1 := by omega
    rw [if_pos ((bitAt_shift_eq_zero_iff d).mpr hlast), hbit, hdiv]
  · have hdiv : (d + 1) / 8 = d / 8 := by omega
    rw [if_neg (mt (bitAt_shift_eq_zero_iff d).mp hlast), bitAt_shift d hlast, hdiv]

theorem advance_or_end (loop : Byte → Nat → α) (done : α) :
    (if bitAt d >>> 1 = 0 then if d / 8 + 1 =
      16 then done else loop 0x80 (d / 8 + 1) else loop (bitAt d >>> 1) (d / 8)) =
      if d + 1 = 128 then done else loop (bitAt (d + 1)) ((d + 1) / 8) := by
  by_cases hend : d + 1 = 128
  · have hmod : d % 8 = 7 := by omega
    have hdiv : d / 8 + 1 = 16 := by omega
    rw [if_pos hend, if_pos ((bitAt_shift_eq_zero_iff d).mpr hmod), if_pos hdiv]
  rw [if_neg hend, ← advance loop]
  by_cases hlast : d % 8 = 7
  · have hdiv : d / 8 + 1 ≠ 16 := by omega
    rw [if_pos ((bitAt_shift_eq_zero_iff d).mpr hlast), if_neg hdiv,
      if_pos ((bitAt_shift_eq_zero_iff d).mpr hlast)]
  · have hne := mt (bitAt_shift_eq_zero_iff d).mp hlast
    rw [if_neg hne, if_neg hne]

end Cursor

namespace RadixTree

/-! ## One turn of each loop -/

section Turn

variable {nodes : Nat → RadixNode} {key mask : Nat → Byte} {d : Nat}

theorem insertDescend128_stop (hd : d < 128) (hmask : byteBit (mask (d / 8)) (bitAt d) = false)
    (fuel node next : Nat) :
    insertDescend128 nodes key mask (fuel + 1) (bitAt d) (d / 8) node next =
      .ok (bitAt d, d / 8, node, next) := by
  rw [insertDescend128, byteAt_of_lt mask hd]
  change (if byteBit (mask (d / 8)) (bitAt d) = true then _ else _) = _
  rw [hmask]
  rfl

theorem insertDescend128_turn (hd : d < 128) (hmask : byteBit (mask (d / 8)) (bitAt d) = true)
    (fuel : Nat)
    {node child : Nat} (hchild : (nodes node).child (byteBit (key (d / 8)) (bitAt d)) = child)
    (next : Nat) :
    insertDescend128 nodes key mask (fuel + 1) (bitAt d) (d / 8) node next =
      if child = 0 then .ok (bitAt d, d / 8, node, child)
      else if d + 1 = 128 then .ok (bitAt d >>> 1, d / 8 + 1, child, child)
      else insertDescend128 nodes key mask fuel (bitAt (d + 1)) ((d + 1) / 8) child child := by
  subst hchild
  rw [insertDescend128, byteAt_of_lt mask hd, byteAt_of_lt key hd,
    ← advance_or_end fun bit i => insertDescend128 nodes key mask fuel bit i _ _]
  change (if byteBit (mask (d / 8)) (bitAt d) = true then _ else _) = _
  rw [if_pos hmask]
  rfl

theorem grow128_stop (page : PageSize) (hd : d < 128)
    (hmask : byteBit (mask (d / 8)) (bitAt d) = false) (fuel : Nat)
    (t : RadixTree) (node : Nat) :
    grow128 page key mask (fuel + 1) (bitAt d) (d / 8) t node = .ok (node, t) := by
  rw [grow128, byteAt_of_lt mask hd]
  change (if byteBit (mask (d / 8)) (bitAt d) = true then _ else _) = _
  rw [hmask]
  rfl

theorem grow128_turn (page : PageSize) (hd : d < 128)
    (hmask : byteBit (mask (d / 8)) (bitAt d) = true) (fuel : Nat)
    (t : RadixTree) (node : Nat) {made : Nat × RadixTree}
    (hmade : t.attach page node (byteBit (key (d / 8)) (bitAt d)) = made) :
    grow128 page key mask (fuel + 1) (bitAt d) (d / 8) t node =
      if d + 1 =
        128 then .ok made else grow128 page key mask fuel (bitAt (d + 1))
        ((d + 1) / 8) made.2 made.1 := by
  subst hmade
  rw [grow128, byteAt_of_lt mask hd, byteAt_of_lt key hd, ← advance_or_end fun bit i =>
    grow128 page key mask fuel bit i _ _]
  change (if byteBit (mask (d / 8)) (bitAt d) = true then _ else _) = _
  rw [if_pos hmask]
  rfl

theorem deleteDescend128_stop (hd : d < 128) (hmask : byteBit (mask (d / 8)) (bitAt d) = false)
    (fuel node : Nat) :
    deleteDescend128 nodes key mask (fuel + 1) (bitAt d) (d / 8) node = .ok node := by
  rw [deleteDescend128, byteAt_of_lt mask hd]
  by_cases hnode : node = 0
  · rw [if_pos hnode]
  · rw [if_neg hnode]
    change (if byteBit (mask (d / 8)) (bitAt d) = true then _ else _) = _
    rw [hmask]
    rfl

theorem deleteDescend128_turn (hd : d < 128) (hmask : byteBit (mask (d / 8)) (bitAt d) = true)
    (fuel : Nat)
    {node child : Nat} (hnode : node ≠ 0)
    (hchild : (nodes node).child (byteBit (key (d / 8)) (bitAt d)) = child) :
    deleteDescend128 nodes key mask (fuel + 1) (bitAt d) (d / 8) node =
      if d + 1 =
        128 then .ok child else deleteDescend128 nodes key mask fuel (bitAt (d + 1))
        ((d + 1) / 8) child := by
  subst hchild
  rw [deleteDescend128, if_neg hnode, byteAt_of_lt mask hd, byteAt_of_lt key hd,
    ← advance_or_end fun bit i => deleteDescend128 nodes key mask fuel bit i _]
  change (if byteBit (mask (d / 8)) (bitAt d) = true then _ else _) = _
  rw [if_pos hmask]
  rfl

theorem findLoop128_turn (hd : d < 128) (fuel : Nat) {node : Nat}
    (hnode : node ≠ 0) (value : Word) :
    findLoop128 nodes key (fuel + 1) (bitAt d) (d / 8) node value =
      findLoop128 nodes key fuel (bitAt (d + 1)) ((d + 1) / 8)
        ((nodes node).child (byteBit (key (d / 8)) (bitAt d)))
        (if (nodes node).value ≠ radixNoValue then (nodes node).value else value) := by
  rw [findLoop128, if_neg hnode, byteAt_of_lt key hd, ← advance fun bit i =>
    findLoop128 nodes key fuel bit i _ _]
  rfl

theorem findLoop128_past (fuel : Nat) {node : Nat} (hnode : node ≠ 0) (value : Word) :
    findLoop128 nodes key (fuel + 1) (bitAt 128) (128 / 8) node value = .error .pastEnd := by
  rw [findLoop128, if_neg hnode]
  rfl

end Turn

/-! ## The walks -/

section Walk

variable {page : PageSize} {t : RadixTree} {f : List Bool → Nat}
    {free : List Nat} {σ : PrefixMap Bool Word}
  {key : Nat → Byte} {len : Nat}

theorem length_le_of_prefixBits128 {p rest : List Bool} (hkey : prefixBits128 key len = p ++ rest) :
    p.length + rest.length ≤ 128 := by
  have hlength := length_prefixBits128 key len
  rw [hkey, length_append] at hlength
  omega

theorem eq_nil_of_full {p rest : List Bool} {b : Bool}
    (hkey : prefixBits128 key len = p ++ b :: rest)
    (hfull : p.length + 1 = 128) : rest = [] := by
  have hlength := length_le_of_prefixBits128 hkey
  rw [length_cons] at hlength
  exact eq_nil_of_length_eq_zero (by omega)

/-- The first loop goes down as far as there are nodes. -/
theorem insertDescend128_eq (h : Within 128 page t f free) (fuel : Nat)
    (p rest : List Bool) (next : Nat)
    (hkey : prefixBits128 key len = p ++ rest) (hlt : p.length < 128)
    (hfuel : rest.length < fuel) (hp : f p ≠ 0)
    (hnext : next ≠ 0) :
    (∃ bit i next', next' ≠ 0 ∧ f (p ++ rest) ≠ 0 ∧
      insertDescend128 t.nodes key (netmask128 len) fuel (bitAt p.length)
        (p.length / 8) (f p) next =
        .ok (bit, i, f (p ++ rest), next')) ∨
    ∃ q b rest', p ++ rest = q ++ b :: rest' ∧ f q ≠ 0 ∧ f (q ++ [b]) = 0 ∧
      insertDescend128 t.nodes key (netmask128 len) fuel (bitAt p.length)
        (p.length / 8) (f p) next =
        .ok (bitAt q.length, q.length / 8, f q, 0) := by
  induction rest generalizing fuel p next with
  | nil =>
    rw [append_nil] at hkey ⊢
    obtain ⟨fuel, rfl⟩ : ∃ n, fuel = n + 1 := ⟨fuel - 1, by omega⟩
    have hmask := mask_of_prefixBits128_eq hkey hlt
    exact Or.inl ⟨_, _, next, hnext, hp, insertDescend128_stop hlt hmask fuel (f p) next⟩
  | cons b rest ih =>
    obtain ⟨-, hmask, hbit⟩ := bits_of_prefixBits128_eq_append hkey
    obtain ⟨fuel, rfl⟩ : ∃ n, fuel = n + 1 := ⟨fuel - 1, by omega⟩
    have hsplit := append_cons p b rest
    have hlen : p.length + 1 = (p ++ [b]).length := by simp
    have hchild := (congrArg (t.nodes (f p)).child hbit).trans (h.child p b hp)
    rw [insertDescend128_turn hlt hmask fuel hchild]
    by_cases habsent : f (p ++ [b]) = 0
    · rw [if_pos habsent, habsent]
      exact Or.inr ⟨p, b, rest, rfl, hp, habsent, rfl⟩
    rw [if_neg habsent]
    by_cases hfull : p.length + 1 = 128
    · obtain rfl := eq_nil_of_full hkey hfull
      rw [if_pos hfull]
      exact Or.inl ⟨_, _, f (p ++ [b]), habsent, habsent, rfl⟩
    rw [if_neg hfull, hlen, hsplit]
    refine ih fuel (p ++ [b]) (f (p ++ [b])) (hsplit ▸ hkey) ?_ ?_ habsent habsent
    · omega
    · rw [length_cons] at hfuel
      omega

/-- The second loop of the insertion adds the nodes of the prefix that are missing. -/
theorem grow128_eq (fuel : Nat) (p rest : List Bool) (t : RadixTree)
    (f : List Bool → Nat) (free : List Nat)
    (h : Stores 128 page t f free σ) (hkey : prefixBits128 key len = p ++ rest)
    (hlt : p.length < 128)
    (hfuel : rest.length < fuel) (hp : f p ≠ 0) (hempty : ∀ b ∈ rest.head?, f (p ++ [b]) = 0) :
    ∃ t' f' free', Stores 128 page t' f' free' σ ∧ f' (p ++ rest) ≠ 0 ∧
      (∀ q, f' q ≠ 0 → f q ≠ 0 ∨ q.length < 128 ∨ q = p ++ rest) ∧
      grow128 page key (netmask128 len) fuel (bitAt p.length) (p.length / 8) t (f p) =
        .ok (f' (p ++ rest), t') := by
  induction rest generalizing fuel p t f free with
  | nil =>
    rw [append_nil] at hkey ⊢
    obtain ⟨fuel, rfl⟩ : ∃ n, fuel = n + 1 := ⟨fuel - 1, by omega⟩
    have hmask := mask_of_prefixBits128_eq hkey hlt
    exact ⟨t, f, free, h, hp, fun q hq => Or.inl hq, grow128_stop page hlt hmask fuel t (f p)⟩
  | cons b rest ih =>
    obtain ⟨-, hmask, hbit⟩ := bits_of_prefixBits128_eq_append hkey
    obtain ⟨fuel, rfl⟩ : ∃ n, fuel = n + 1 := ⟨fuel - 1, by omega⟩
    have hsplit := append_cons p b rest
    have hlen : p.length + 1 = (p ++ [b]).length := by simp
    have hchild : f (p ++ [b]) = 0 := hempty b rfl
    obtain ⟨hne, free', hstores⟩ := h.attach hp hchild hlt
    have hself : update f (p ++ [b]) (t.attach page (f p) b).1 (p ++ [b]) =
      (t.attach page (f p) b).1 :=
      update_self ..
    have hold : ∀ q, update f (p ++ [b]) (t.attach page (f p) b).1 q ≠ 0 →
      f q ≠ 0 ∨ q = p ++ [b] := by
      intro q hq
      by_cases hqp : q = p ++ [b]
      · exact Or.inr hqp
      · rw [update_of_ne hqp] at hq
        exact Or.inl hq
    rw [grow128_turn page hlt hmask fuel t (f p) (congrArg (t.attach page (f p)) hbit)]
    by_cases hfull : p.length + 1 = 128
    · obtain rfl := eq_nil_of_full hkey hfull
      rw [if_pos hfull]
      refine ⟨_, _, free', hstores, by rwa [hself], fun q hq => ?_, by rw [hself]⟩
      exact (hold q hq).imp_right Or.inr
    have hlt' : (p ++ [b]).length < 128 := by omega
    obtain ⟨t', f', free'', hstores', hne', hmade, hgrow⟩ :=
      ih fuel (p ++ [b]) (t.attach page (f p) b).2 _ free' hstores (hsplit ▸ hkey) hlt'
        (by rw [length_cons] at hfuel; omega) (by rwa [hself]) (by
          intro c hc
          rw [update_of_ne (by simp)]
          exact h.absent _ c hchild)
    rw [hself] at hgrow
    rw [if_neg hfull, hlen, hsplit]
    refine ⟨t', f', free'', hstores', hne', fun q hq => ?_, hgrow⟩
    rcases hmade q hq with hq' | hq'
    · rcases hold q hq' with hq'' | rfl
      · exact Or.inl hq''
      · exact Or.inr (Or.inl hlt')
    · exact Or.inr hq'

theorem deleteDescend128_eq (h : Within 128 page t f free) (fuel : Nat) (p rest : List Bool)
    (hkey : prefixBits128 key len = p ++ rest) (hlt : p.length < 128) (hfuel : rest.length < fuel) :
    deleteDescend128 t.nodes key (netmask128 len) fuel (bitAt p.length) (p.length / 8) (f p) =
      .ok (f (p ++ rest)) := by
  induction rest generalizing fuel p with
  | nil =>
    rw [append_nil] at hkey ⊢
    obtain ⟨fuel, rfl⟩ : ∃ n, fuel = n + 1 := ⟨fuel - 1, by omega⟩
    exact deleteDescend128_stop hlt (mask_of_prefixBits128_eq hkey hlt) fuel (f p)
  | cons b rest ih =>
    obtain ⟨-, hmask, hbit⟩ := bits_of_prefixBits128_eq_append hkey
    obtain ⟨fuel, rfl⟩ : ∃ n, fuel = n + 1 := ⟨fuel - 1, by omega⟩
    have hsplit := append_cons p b rest
    have hlen : p.length + 1 = (p ++ [b]).length := by simp
    by_cases hp : f p = 0
    · rw [deleteDescend128, if_pos hp, hp, h.absent_append hp]
    have hchild := (congrArg (t.nodes (f p)).child hbit).trans (h.child p b hp)
    rw [deleteDescend128_turn hlt hmask fuel hp hchild]
    by_cases hfull : p.length + 1 = 128
    · obtain rfl := eq_nil_of_full hkey hfull
      rw [if_pos hfull]
    rw [if_neg hfull, hlen, hsplit]
    refine ih fuel (p ++ [b]) (hsplit ▸ hkey) ?_ ?_
    · omega
    · rw [length_cons] at hfuel
      omega

theorem findLoop128_visit (h : Stores 128 page t f free σ) {p rest : List Bool}
    {b : Bool} (hp : f p ≠ 0)
    (hkey : keyBits128 key = p ++ b :: rest) (fuel : Nat) :
    findLoop128 t.nodes key (fuel + 1) (bitAt p.length) (p.length / 8) (f p)
        ((σ.bestBelow (keyBits128 key) p.length).getD radixNoValue) =
      findLoop128 t.nodes key fuel (bitAt (p.length + 1)) ((p.length + 1) / 8) (f (p ++ [b]))
        ((σ.bestBelow (keyBits128 key) (p.length + 1)).getD radixNoValue) := by
  have hwhole : prefixBits128 key 128 = p ++ b :: rest := by
    rw [prefixBits128, take_of_length_le (by simp), hkey]
  obtain ⟨hlt, -, hbit⟩ := bits_of_prefixBits128_eq_append hwhole
  have htake : (keyBits128 key).take p.length = p := by rw [hkey, take_left]
  rw [findLoop128_turn hlt fuel hp, h.visit hp htake, hbit, h.child p b hp]

theorem findLoop128_absent (h : Stores 128 page t f free σ) {p rest : List Bool} (hp : f p = 0)
    (hkey : keyBits128 key = p ++ rest) (fuel : Nat) (bit : Byte) (i : Nat) :
    findLoop128 t.nodes key (fuel + 1) bit i (f p)
      ((σ.bestBelow (keyBits128 key) p.length).getD radixNoValue) =
      .ok ((σ.longestMatch (keyBits128 key)).getD radixNoValue) := by
  rw [h.longestMatch_of_absent hp hkey, findLoop128, if_pos hp]

theorem findLoop128_eq (h : Stores 128 page t f free σ) (fuel : Nat) (p rest : List Bool)
    (hkey : keyBits128 key = p ++ rest) (hfuel : rest.length < fuel) :
    findLoop128 t.nodes key fuel (bitAt p.length) (p.length / 8) (f p)
        ((σ.bestBelow (keyBits128 key) p.length).getD radixNoValue) =
      if f (keyBits128 key) =
        0 then .ok ((σ.longestMatch (keyBits128 key)).getD radixNoValue) else .error .pastEnd := by
  induction rest generalizing fuel p with
  | nil =>
    obtain ⟨fuel, rfl⟩ : ∃ n, fuel = n + 1 := ⟨fuel - 1, by omega⟩
    obtain rfl : keyBits128 key = p := by rw [hkey, append_nil]
    by_cases hp : f (keyBits128 key) = 0
    · rw [if_pos hp]
      exact findLoop128_absent h hp hkey fuel _ _
    · rw [if_neg hp, length_keyBits128]
      exact findLoop128_past fuel hp _
  | cons b rest ih =>
    obtain ⟨fuel, rfl⟩ : ∃ n, fuel = n + 1 := ⟨fuel - 1, by omega⟩
    by_cases hp : f p = 0
    · have habsent : f (keyBits128 key) = 0 := by
        rw [hkey]
        exact h.absent_append hp _
      rw [if_pos habsent]
      exact findLoop128_absent h hp hkey fuel _ _
    · have hlen : p.length + 1 = (p ++ [b]).length := by simp
      rw [findLoop128_visit h hp hkey fuel, hlen]
      refine ih fuel (p ++ [b]) (by simp [hkey]) ?_
      rw [length_cons] at hfuel
      omega

end Walk

end RadixTree

end Nginx.Core
