/-
  Foundation/Ring.lean --- byte rings over flat memory.

  A ring of `cap` cells is a flat memory whose addresses are read modulo `cap`.
  A cursor may rest at `cap` itself, one past the last cell: such a cursor is
  the same ring position as `0`, and a string that starts there is stored
  wholly at the front.  The two facts a program needs are that a write of at
  most the free room keeps every live string, and that the two-part read of a
  wrapped string returns the string.
-/
import Nginx.Foundation.Memory

set_option autoImplicit false

namespace Nginx.Foundation.Ring

open List

variable {α : Type}

/-- The string `l` lies in the ring from position `pos` on. -/
def Holds (cap : Nat) (mem : Nat → α) (pos : Nat) (l : List α) : Prop :=
  ∀ j (h : j < l.length), mem ((pos + j) % cap) = l[j]

theorem holds_nil (cap : Nat) (mem : Nat → α) (pos : Nat) : Holds cap mem pos [] :=
  fun _ h => absurd h (Nat.not_lt_zero _)

theorem Holds.congr_pos {cap pos pos' : Nat} {mem : Nat → α} {l : List α}
    (h : Holds cap mem pos l) (hpos : pos' % cap = pos % cap) : Holds cap mem pos' l := by
  intro j hj
  rw [Nat.add_mod, hpos, ← Nat.add_mod]
  exact h j hj

theorem holds_append {cap pos : Nat} {mem : Nat → α} {l₁ l₂ : List α} :
    Holds cap mem pos (l₁ ++ l₂) ↔
      Holds cap mem pos l₁ ∧ Holds cap mem (pos + l₁.length) l₂ := by
  constructor
  · intro h
    refine ⟨fun j hj => ?_, fun j hj => ?_⟩
    · have hj' : j < (l₁ ++ l₂).length := by rw [length_append]; omega
      rw [h j hj', getElem_append_left hj]
    · have hj' : l₁.length + j < (l₁ ++ l₂).length := by rw [length_append]; omega
      have hget := h (l₁.length + j) hj'
      rw [getElem_append_right (Nat.le_add_right _ _)] at hget
      simpa [add_assoc] using hget
  · rintro ⟨h₁, h₂⟩ j hj
    by_cases hlt : j < l₁.length
    · rw [getElem_append_left hlt]
      exact h₁ j hlt
    have hge : l₁.length ≤ j := not_lt.mp hlt
    rw [length_append] at hj
    rw [getElem_append_right hge, ← h₂ (j - l₁.length) (by omega)]
    congr 2
    omega

theorem mod_ne_of_lt {cap a b : Nat} (hlt : a < b) (hturn : b - a < cap) :
    a % cap ≠ b % cap := by
  intro heq
  have hdvd : cap ∣ b - a :=
    Nat.dvd_of_mod_eq_zero (Nat.sub_mod_eq_zero_of_mod_eq heq.symm)
  exact absurd (Nat.le_of_dvd (by omega) hdvd) (by omega)

/-! ## Writing -/

/-- Write `src` at the cursor `pos`, continuing at the front of the ring after
`avail` cells.  Returns the memory and the new cursor. -/
def writeAvail (avail : Nat) (mem : Nat → α) (pos : Nat) (src : List α) : (Nat → α) × Nat :=
  if src.length ≤ avail then
    (memcpy mem pos src, pos + src.length)
  else
    (memcpy (memcpy mem pos (src.take avail)) 0 (src.drop avail), src.length - avail)

/-- The ring write proper: what is available is what is left up to the end. -/
def write (cap : Nat) (mem : Nat → α) (pos : Nat) (src : List α) : (Nat → α) × Nat :=
  writeAvail (cap - pos) mem pos src

theorem writeAvail_eq_write {cap avail pos : Nat} {mem : Nat → α} {src : List α}
    (hfit : src.length ≤ avail) (hroom : pos + src.length ≤ cap) :
    writeAvail avail mem pos src = write cap mem pos src := by
  have hfit' : src.length ≤ cap - pos := by omega
  simp only [write, writeAvail, hfit, hfit', if_true]

section Write

variable {cap pos : Nat} {mem : Nat → α} {src : List α}

theorem write_cursor_le (hpos : pos ≤ cap) (hlen : src.length ≤ cap) :
    (write cap mem pos src).2 ≤ cap := by
  simp only [write, writeAvail]
  split
  · show pos + src.length ≤ cap
    omega
  · show src.length - (cap - pos) ≤ cap
    omega

theorem write_cursor_mod (hpos : pos ≤ cap) :
    (write cap mem pos src).2 % cap = (pos + src.length) % cap := by
  simp only [write, writeAvail]
  split
  · rfl
  · rename_i hlong
    show (src.length - (cap - pos)) % cap = (pos + src.length) % cap
    have hsplit : pos + src.length = (src.length - (cap - pos)) + cap := by omega
    rw [hsplit, Nat.add_mod_right]

theorem write_holds (hpos : pos ≤ cap) (hlen : src.length ≤ cap) :
    Holds cap (write cap mem pos src).1 pos src := by
  intro j hj
  simp only [write, writeAvail]
  split
  · rename_i hfit
    show memcpy mem pos src ((pos + j) % cap) = src[j]
    rw [Nat.mod_eq_of_lt (by omega), memcpy_apply_add hj]
  rename_i hlong
  show memcpy (memcpy mem pos (src.take (cap - pos))) 0 (src.drop (cap - pos))
    ((pos + j) % cap) = src[j]
  by_cases htail : j < cap - pos
  · have hback : 0 + (src.drop (cap - pos)).length ≤ pos + j := by
      rw [length_drop]
      omega
    have htake : j < (src.take (cap - pos)).length := by
      rw [length_take]
      omega
    rw [Nat.mod_eq_of_lt (by omega), memcpy_apply_of_ge hback, memcpy_apply_add htake,
      getElem_take]
  · have hfront : (pos + j) % cap = 0 + (j - (cap - pos)) := by
      have hsum : pos + j = (j - (cap - pos)) + cap := by omega
      rw [hsum, Nat.add_mod_right, Nat.mod_eq_of_lt (by omega), zero_add]
    have hdrop : j - (cap - pos) < (src.drop (cap - pos)).length := by
      rw [length_drop]
      omega
    rw [hfront, memcpy_apply_add hdrop, getElem_drop]
    congr 1
    omega

theorem write_apply_of_ne (hpos : pos ≤ cap) {i : Nat}
    (hi : i < cap) (hne : ∀ j, j < src.length → (pos + j) % cap ≠ i) :
    (write cap mem pos src).1 i = mem i := by
  simp only [write, writeAvail]
  split
  · rename_i hfit
    by_cases hlt : i < pos
    · exact memcpy_apply_of_lt hlt
    · refine memcpy_apply_of_ge (not_lt.mp fun hin => ?_)
      refine hne (i - pos) (by omega) ?_
      rw [Nat.mod_eq_of_lt (by omega)]
      omega
  · rename_i hlong
    show memcpy (memcpy mem pos (src.take (cap - pos))) 0 (src.drop (cap - pos)) i = mem i
    have hfront : 0 + (src.drop (cap - pos)).length ≤ i := by
      rw [length_drop]
      refine not_lt.mp fun hin => ?_
      refine hne (i + (cap - pos)) (by omega) ?_
      rw [show pos + (i + (cap - pos)) = i + cap by omega, Nat.add_mod_right,
        Nat.mod_eq_of_lt hi]
    have htail : i < pos := by
      refine not_le.mp fun hin => ?_
      refine hne (i - pos) (by omega) ?_
      rw [Nat.mod_eq_of_lt (by omega)]
      omega
    rw [memcpy_apply_of_ge hfront, memcpy_apply_of_lt htail]

theorem write_holds_append {start : Nat} {live : List α} (hcap : 0 < cap) (hpos : pos ≤ cap)
    (hend : (start + live.length) % cap = pos % cap)
    (hroom : live.length + src.length ≤ cap) (hlive : Holds cap mem start live) :
    Holds cap (write cap mem pos src).1 start (live ++ src) := by
  refine holds_append.mpr ⟨fun j hj => ?_, ?_⟩
  · rw [write_apply_of_ne hpos (Nat.mod_lt _ hcap), hlive j hj]
    intro k hk
    have hcell : (pos + k) % cap = (start + live.length + k) % cap := by
      rw [Nat.add_mod, ← hend, ← Nat.add_mod]
    rw [hcell]
    exact (mod_ne_of_lt (by omega) (by omega)).symm
  · exact (write_holds hpos (by omega)).congr_pos hend

end Write

/-! ## Reading -/

/-- Read `len` cells from `pos`, the part past the end from the front. -/
def read (cap : Nat) (mem : Nat → α) (pos len : Nat) : List α :=
  let rest := cap - pos
  if rest < len then load mem pos rest ++ load mem 0 (len - rest) else load mem pos len

theorem read_of_holds {cap pos : Nat} {mem : Nat → α} {l : List α} (hpos : pos ≤ cap)
    (hlen : l.length ≤ cap) (h : Holds cap mem pos l) : read cap mem pos l.length = l := by
  simp only [read]
  split
  · rename_i hwrap
    have htake : (l.take (cap - pos)).length = cap - pos := by
      rw [length_take]
      omega
    have hdrop : (l.drop (cap - pos)).length = l.length - (cap - pos) := length_drop
    have hfirst : load mem pos (l.take (cap - pos)).length = l.take (cap - pos) := by
      refine load_eq_of_forall fun j hj => ?_
      rw [htake] at hj
      rw [getElem_take, ← h j (by omega), Nat.mod_eq_of_lt (by omega)]
    have hsecond : load mem 0 (l.drop (cap - pos)).length = l.drop (cap - pos) := by
      refine load_eq_of_forall fun j hj => ?_
      rw [hdrop] at hj
      rw [getElem_drop, ← h (cap - pos + j) (by omega)]
      rw [show pos + (cap - pos + j) = j + cap by omega, Nat.add_mod_right,
        Nat.mod_eq_of_lt (by omega), zero_add]
    rw [htake] at hfirst
    rw [hdrop] at hsecond
    rw [hfirst, hsecond, take_append_drop]
  · rename_i hfit
    refine load_eq_of_forall fun j hj => ?_
    rw [← h j hj, Nat.mod_eq_of_lt (by omega)]

end Nginx.Foundation.Ring
