/-
  Core/Base.lean --- the return codes that the whole program shares
  (`src/core/ngx_core.h`), alignment (`src/core/ngx_config.h`), the page size of
  the system, and the ways in which a call can fail to return at all.
-/
import Nginx.Foundation.Memory

set_option autoImplicit false

namespace Nginx.Core

/-- The return codes of `ngx_core.h`. -/
inductive Rc where
  /-- `NGX_OK` -/
  | ok
  /-- `NGX_ERROR` -/
  | error
  /-- `NGX_AGAIN` -/
  | again
  /-- `NGX_BUSY` -/
  | busy
  /-- `NGX_DONE` -/
  | done
  /-- `NGX_DECLINED` -/
  | declined
  /-- `NGX_ABORT` -/
  | abort
  deriving DecidableEq, Inhabited

/-- How a call can fail to return. -/
inductive Fault where
  /-- a null pointer is followed -/
  | nullPointer
  /-- an integer is divided by zero -/
  | divisionByZero
  /-- a loop goes on longer than the bound that its model has -/
  | outOfFuel
  deriving DecidableEq

/-- `ngx_pagesize` and `ngx_pagesize_shift`, pages being of 4 to 64 kilobytes. -/
structure PageSize where
  shift : Nat
  min_shift : 12 ≤ shift
  shift_max : shift ≤ 16
  deriving DecidableEq

/-- `ngx_pagesize` -/
def PageSize.bytes (page : PageSize) : Nat := 2 ^ page.shift

/-- `ngx_align(d, a)` for a power of two `a` -/
def align (d a : Nat) : Nat := (d + (a - 1)) / a * a

theorem le_align {a : Nat} (ha : 0 < a) (d : Nat) : d ≤ align d a := by
  have hdiv := Nat.div_add_mod (d + (a - 1)) a
  have hmod := Nat.mod_lt (d + (a - 1)) ha
  rw [align, mul_comm]
  omega

theorem dvd_align (d a : Nat) : a ∣ align d a := dvd_mul_left ..

theorem align_lt {a : Nat} (ha : 0 < a) (d : Nat) : align d a < d + a := by
  have hle := Nat.div_mul_le_self (d + (a - 1)) a
  rw [align]
  omega

theorem align_le_of_dvd {a d e : Nat} (ha : 0 < a) (he : a ∣ e) (hle : d ≤ e) :
    align d a ≤ e := by
  obtain ⟨k, rfl⟩ := he
  have hlt : (d + (a - 1)) / a < k + 1 := by
    rw [Nat.div_lt_iff_lt_mul ha, Nat.add_mul, Nat.one_mul, mul_comm k]
    omega
  rw [align, mul_comm a]
  exact Nat.mul_le_mul_right a (by omega)

theorem align_eq_self {a d : Nat} (ha : 0 < a) (hd : a ∣ d) : align d a = d :=
  le_antisymm (align_le_of_dvd ha hd (le_refl d)) (le_align ha d)

theorem PageSize.le_bytes (page : PageSize) : 4096 ≤ page.bytes :=
  Nat.pow_le_pow_right Nat.two_pos page.min_shift

end Nginx.Core
