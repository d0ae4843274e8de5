/-
  Foundation/Writes.lean --- numbers in memory, many writes to ranges that
  have no cell in common, and writers that stop at a bound.

  A sequence of writes that keep apart can be read back write by write, in
  whatever order they were made.  Writers that append to a buffer up to its end
  write the first part of what they write without an end.
-/
import Nginx.Foundation.Memory

set_option autoImplicit false

namespace Nginx.Foundation

open List Option

/-! ## Little-endian numbers -/

/-- The `n` bytes of a number, the least significant one first. -/
def leBytes : Nat → Nat → Bytes
  | 0, _ => []
  | n + 1, v => UInt8.ofNat v :: leBytes n (v / 256)

/-- The number that bytes stand for. -/
def leNat : Bytes → Nat
  | [] => 0
  | b :: bs => b.toNat + 256 * leNat bs

@[simp] theorem length_leBytes (n v : Nat) : (leBytes n v).length = n := by
  induction n generalizing v with
  | zero => rfl
  | succ n ih => rw [leBytes, length_cons, ih]

theorem leNat_leBytes (n v : Nat) : leNat (leBytes n v) = v % 256 ^ n := by
  induction n generalizing v with
  | zero => simp [leBytes, leNat, Nat.mod_one]
  | succ n ih =>
    have hbyte : (UInt8.ofNat v).toNat = v % 256 := by simp
    rw [leBytes, leNat, ih, hbyte, Nat.pow_succ, mul_comm (256 ^ n), Nat.mod_mul]

/-! ## Ranges -/

/-- The `m` cells from `a` on and the `n` cells from `b` on have none in
common. -/
def Apart (a m b n : Nat) : Prop := a + m ≤ b ∨ b + n ≤ a

theorem Apart.symm {a m b n : Nat} (h : Apart a m b n) : Apart b n a m := Or.symm h

theorem Apart.mono {a m b n a' m' b' n' : Nat} (h : Apart a m b n) (ha : a ≤ a')
    (hm : a' + m' ≤ a + m) (hb : b ≤ b') (hn : b' + n' ≤ b + n) : Apart a' m' b' n' := by
  rcases h with h | h
  · exact Or.inl (by omega)
  · exact Or.inr (by omega)

section

variable {α : Type}

variable {mem : Nat → α}

theorem load_memcpy_of_apart {dst a len : Nat} {src : List α}
    (h : Apart dst src.length a len) : load (memcpy mem dst src) a len = load mem a len := by
  apply map_congr_left
  intro j hj
  rw [mem_range] at hj
  rcases h with h | h
  · exact memcpy_apply_of_ge (by omega)
  · exact memcpy_apply_of_lt (by omega)

theorem memcpy_append (mem : Nat → α) (dst : Nat) (xs ys : List α) :
    memcpy (memcpy mem dst xs) (dst + xs.length) ys = memcpy mem dst (xs ++ ys) := by
  funext i
  rcases Nat.lt_or_ge i dst with hlt | hge
  · rw [memcpy_apply_of_lt (by omega), memcpy_apply_of_lt hlt, memcpy_apply_of_lt hlt]
  obtain ⟨j, rfl⟩ := Nat.exists_eq_add_of_le hge
  rcases Nat.lt_or_ge j xs.length with hx | hx
  · rw [memcpy_apply_of_lt (by omega), memcpy_apply_add hx,
      memcpy_apply_add (by rw [length_append]; omega), getElem_append_left hx]
  rcases Nat.lt_or_ge j (xs.length + ys.length) with hy | hy
  · obtain ⟨k, rfl⟩ := Nat.exists_eq_add_of_le hx
    have hk : k < ys.length := by omega
    rw [← add_assoc, memcpy_apply_add hk, add_assoc,
      memcpy_apply_add (by rw [length_append]; omega),
      getElem_append_right (Nat.le_add_right _ _)]
    simp
  · rw [memcpy_apply_of_ge (by omega), memcpy_apply_of_ge (by omega),
      memcpy_apply_of_ge (by rw [length_append]; omega)]

/-- One write after the other. -/
def writeAll (mem : Nat → α) (ws : List (Nat × List α)) : Nat → α :=
  ws.foldl (fun mem w => memcpy mem w.1 w.2) mem

theorem writeAll_cons (mem : Nat → α) (w : Nat × List α) (ws : List (Nat × List α)) :
    writeAll mem (w :: ws) = writeAll (memcpy mem w.1 w.2) ws := rfl

theorem writeAll_append (mem : Nat → α) (ws vs : List (Nat × List α)) :
    writeAll mem (ws ++ vs) = writeAll (writeAll mem ws) vs := foldl_append

theorem load_writeAll_of_apart {ws : List (Nat × List α)} {a len : Nat}
    (h : ∀ w ∈ ws, Apart w.1 w.2.length a len) : load (writeAll mem ws) a len = load mem a len := by
  induction ws generalizing mem with
  | nil => rfl
  | cons w ws ih =>
    rw [writeAll_cons, ih fun v hv => h v (mem_cons_of_mem _ hv),
      load_memcpy_of_apart (h w (mem_cons_self ..))]

theorem load_writeAll_of_mem {ws : List (Nat × List α)} {w : Nat × List α}
    (hws : ws.Pairwise fun v w => Apart v.1 v.2.length w.1 w.2.length) (hw : w ∈ ws) :
    load (writeAll mem ws) w.1 w.2.length = w.2 := by
  induction ws generalizing mem with
  | nil => exact absurd hw not_mem_nil
  | cons v ws ih =>
    obtain ⟨hv, hrest⟩ := pairwise_cons.mp hws
    rw [writeAll_cons]
    rcases mem_cons.mp hw with rfl | hw
    · rw [load_writeAll_of_apart fun u hu => (hv u hu).symm, load_memcpy_self]
    · exact ih hrest hw

end

/-! ## Writes up to a bound -/

section bounded

variable {α : Type}

/-- `buf < last`, for what has been written and how much may be; nothing stops a writer
without a bound. -/
def before (last : Option Nat) (buf : List α) : Bool :=
  match last with
  | none => true
  | some c => buf.length < c

theorem before_none (buf : List α) : before none buf = true := rfl

/-- `min(last - buf, len)` -/
def fitting (last : Option Nat) (buf : List α) (len : Nat) : Nat :=
  match last with
  | none => len
  | some c => min (c - buf.length) len

/-- A writer appends `piece`, unless it fails; with room for `room` more it appends with a
bound as much of it as there is room for. -/
structure Clips (room : Nat) (write : Option Nat → List α → Option (List α))
    (piece : Option (List α)) : Prop where
  whole : ∀ buf, write none buf = piece.map (buf ++ ·)
  part : ∀ c buf p, piece = some p → buf.length + room ≤ c →
    write (some c) buf = some ((buf ++ p).take c)

variable {room room' : Nat} {write write' : Option Nat → List α → Option (List α)}
    {piece piece' : Option (List α)}

namespace Clips

theorem mono (h : Clips room write piece) (hle : room ≤ room') : Clips room' write piece :=
  ⟨h.whole, fun c buf p hp hc => h.part c buf p hp (by omega)⟩

theorem fail : Clips room (fun _ _ => (none : Option (List α))) none := ⟨fun _ => rfl, nofun⟩

theorem nothing : Clips 0 (fun _ (buf : List α) => some buf) (some []) where
  whole := fun buf => by simp
  part := fun c buf p hp hc => by
    obtain rfl := some.inj hp
    rw [append_nil, take_of_length_le hc]

theorem put (x : α) : Clips 1 (fun _ buf => some (buf ++ [x])) (some [x]) where
  whole := fun _ => rfl
  part := fun c buf p hp hc => by
    obtain rfl := some.inj hp
    rw [take_of_length_le (by rwa [length_append])]

theorem copy (data : List α) :
    Clips 0 (fun last buf => some (buf ++ data.take (fitting last buf data.length)))
      (some data) where
  whole := fun buf => by simp [fitting]
  part := fun c buf p hp hc => by
    obtain rfl := some.inj hp
    rw [fitting, take_append, take_of_length_le hc]
    congr 2
    rw [take_eq_take_iff]
    omega

theorem andThen (h : Clips room write piece) (h' : Clips 0 write' piece') :
    Clips room (fun last buf => (write last buf).bind (write' last))
      (piece.bind fun p => piece'.map (p ++ ·)) where
  whole := fun buf => by
    simp only [h.whole]
    cases piece with
    | none => rfl
    | some p =>
      simp only [Option.map_some, Option.bind_some, h'.whole, Option.map_map]
      congr 1
      funext q
      exact append_assoc buf p q
  part := fun c buf q hq hc => by
    obtain ⟨p, rfl, hq⟩ := Option.bind_eq_some_iff.mp hq
    obtain ⟨p', rfl, rfl⟩ := map_eq_some_iff.mp hq
    have hlength : ((buf ++ p).take c).length + 0 ≤ c := length_take_le c _
    simp only [h.part c buf p rfl hc, Option.bind_some, h'.part c _ p' rfl hlength]
    have hsplit : (buf ++ p ++ p').take c = (buf ++ p).take c ++ p'.take (c - (buf ++ p).length) :=
      take_append
    rw [← append_assoc, hsplit, take_append, take_take, min_self, length_take]
    congr 3
    omega

theorem guard (h : Clips 1 write piece) :
    Clips 0 (fun last buf => if before last buf then write last buf else some buf) piece where
  whole := fun buf => by
    rw [← h.whole]
    rfl
  part := fun c buf p hp hc => by
    by_cases hlt : buf.length < c
    · have hbefore : before (some c) buf = true := decide_eq_true hlt
      rw [if_pos hbefore]
      exact h.part c buf p hp hlt
    · have hbefore : ¬ before (some c) buf = true := by simpa [before] using hlt
      rw [if_neg hbefore, take_append_of_le_length (by omega), take_of_length_le hc]

end Clips

end bounded

end Nginx.Foundation
