/-
  Core/HttpTime.lean --- numbers and dates in header lines (`ngx_atoi` of
  `src/core/ngx_string.c`, `src/core/ngx_parse_time.c`), for a 64-bit `ngx_int_t` and
  `time_t`.

  A pointer into a value is what is left of the value there.  No byte behind the end is
  read: the lengths are checked before.
-/
import Nginx.Foundation.Memory

set_option autoImplicit false

namespace Nginx.Core

open Foundation

/-- A number as 64 bits with a sign have it. -/
def toInt64 (n : Int) : Int := n.bmod (2 ^ 64)

/-- `*p >= '0' && *p <= '9'` -/
def isDecimal (ch : Byte) : Bool := chr '0' ≤ ch && ch ≤ chr '9'

/-- `*p - '0'` -/
def decimalValue (ch : Byte) : Nat := (ch - chr '0').toNat

/-- `NGX_MAX_INT_T_VALUE` -/
def ngxMaxIntTValue : Nat := 2 ^ 63 - 1

/-- The loop of `ngx_atoi`; `none` is `NGX_ERROR`. -/
def atoiLoop : Nat → Bytes → Option Nat
  | value, [] => some value
  | value, ch :: line =>
    if ¬isDecimal ch then none
    else if value ≥ ngxMaxIntTValue / 10 ∧
      (value > ngxMaxIntTValue / 10 ∨ decimalValue ch > ngxMaxIntTValue % 10) then none
    else atoiLoop (value * 10 + decimalValue ch) line

/-- `ngx_atoi` -/
def atoi (line : Bytes) : Option Nat := if line = [] then none else atoiLoop 0 line

/-! ## Dates -/

/-- `rfc822`, `rfc850` and `isoc` -/
inductive TimeFormat where
  | rfc822
  | rfc850
  | isoc
  deriving DecidableEq

/-- `mday[]` -/
def mday : List Nat := [31, 28, 31, 30, 31, 30, 31, 31, 30, 31, 30, 31]

/-- Two digits. -/
def twoDigits (p : Bytes) : Option Nat :=
  if isDecimal (p.getD 0 0) && isDecimal (p.getD 1 0) then
    some (decimalValue (p.getD 0 0) * 10 + decimalValue (p.getD 1 0))
  else none

/-- Four digits. -/
def fourDigits (p : Bytes) : Option Nat :=
  match twoDigits p, twoDigits (p.drop 2) with
  | some high, some low => some (high * 100 + low)
  | _, _ => none

/-- `switch (*p)` -/
def monthOf (p : Bytes) : Option Nat :=
  let c1 := p.getD 1 0
  let c2 := p.getD 2 0
  let c := p.getD 0 0
  if c = chr 'J' then some (if c1 = chr 'a' then 0 else if c2 = chr 'n' then 5 else 6)
  else if c = chr 'F' then some 1
  else if c = chr 'M' then some (if c2 = chr 'r' then 2 else 4)
  else if c = chr 'A' then some (if c1 = chr 'p' then 3 else 7)
  else if c = chr 'S' then some 8
  else if c = chr 'O' then some 9
  else if c = chr 'N' then some 10
  else if c = chr 'D' then some 11
  else none

/-- The first two loops: whether the name of the day ends in a space, and what comes after it. -/
def skipDayName (value : Bytes) : Bool × Bytes :=
  let p := value.dropWhile fun ch => ch ≠ chr ',' && ch ≠ chr ' '
  (p.head? = some (chr ' '), (p.drop 1).dropWhile fun ch => ch = chr ' ')

/-- The day in front of the month. -/
def dayBeforeMonth (p : Bytes) : Option (TimeFormat × Nat × Bytes) := do
  let day ← twoDigits p
  let p := p.drop 2
  if p.getD 0 0 = chr ' ' then
    if p.length < 18 then none else some (.rfc822, day, p.drop 1)
  else if p.getD 0 0 = chr '-' then some (.rfc850, day, p.drop 1)
  else none

/-- The day behind the month. -/
def dayAfterMonth (p : Bytes) : Option (Nat × Bytes) := do
  let p := if p.getD 0 0 = chr ' ' then p.drop 1 else p
  if ¬isDecimal (p.getD 0 0) then none
  let day := decimalValue (p.getD 0 0)
  let p := p.drop 1
  let (day, p) ←
    if p.getD 0 0 = chr ' ' then some (day, p)
    else if isDecimal (p.getD 0 0) then some (day * 10 + decimalValue (p.getD 0 0), p.drop 1)
    else none
  if p.length < 14 then none else some (day, p)

/-- `hh:mm:ss` after a space, and what is left from the seconds on. -/
def clockTime (p : Bytes) : Option (Nat × Nat × Nat × Bytes) := do
  if p.getD 0 0 ≠ chr ' ' then none
  let hour ← twoDigits (p.drop 1)
  if p.getD 3 0 ≠ chr ':' then none
  let min ← twoDigits (p.drop 4)
  if p.getD 6 0 ≠ chr ':' then none
  let sec ← twoDigits (p.drop 7)
  some (hour, min, sec, p.drop 7)

/-- Gauss' formula, in unsigned numbers of 64 bits. -/
def gaussTime (year month day hour min sec : Nat) : Int :=
  let (month, year) :=
    if month ≤ 1 then (month + 11, (year + 2 ^ 64 - 1) % 2 ^ 64) else (month - 1, year)
  let days : Int :=
    365 * year + (year / 4 : Nat) - (year / 100 : Nat) + (year / 400 : Nat) +
      (367 * month / 12 : Nat) - 30 +
    day - 1 - 719527 + 31 + 28
  toInt64 (days * 86400 + hour * 3600 + min * 60 + sec)

/-- `ngx_parse_http_time`; `none` is `NGX_ERROR`. -/
def parseHttpTime (value : Bytes) : Option Int := do
  let (spaced, p) := skipDayName value
  if p.length < 18 then none
  let (fmt, day, p) ← if spaced then some (TimeFormat.isoc, 0, p) else dayBeforeMonth p
  let month ← monthOf p
  let p := p.drop 3
  if (fmt = .rfc822 && p.getD 0 0 ≠ chr ' ') || (fmt = .rfc850 && p.getD 0 0 ≠ chr '-') then none
  let p := p.drop 1
  let (year, p) ←
    match fmt with
    | .rfc822 => (fourDigits p).map fun year => (year, p.drop 4)
    | .rfc850 => (twoDigits p).map fun year => (year + (if year < 70 then 2000 else 1900), p.drop 2)
    | .isoc => some (0, p)
  let (day, p) ← if fmt = .isoc then dayAfterMonth p else some (day, p)
  let (hour, min, sec, p) ← clockTime p
  let year ←
    if fmt =
      .isoc then (if p.getD 2 0 ≠ chr ' ' then none else fourDigits (p.drop 3)) else some year
  if hour > 23 ∨ min > 59 ∨ sec > 59 then none
  if day = 29 ∧ month = 1 then
    if year % 4 ≠ 0 ∨ (year % 100 = 0 ∧ year % 400 ≠ 0) then none
  else if day > mday.getD month 0 then none
  some (gaussTime year month day hour min sec)

/-! ## The calendar -/

/-- The 29th of February. -/
def leapDays (year : Nat) : Nat := if year % 4 = 0 ∧ (year % 100 ≠ 0 ∨ year % 400 = 0) then 1 else 0

/-- The days of the years from 0 on that are before a year. -/
def daysBefore : Nat → Nat
  | 0 => 0
  | year + 1 => daysBefore year + 365 + leapDays year

/-- The number of a day; months are counted from 0. -/
def dayNumber (year month day : Nat) : Nat :=
  daysBefore year + (mday.take month).sum + (if 1 < month then leapDays year else 0) + day

theorem daysBefore_succ (year : Nat) :
    daysBefore (year + 1) + year / 100 = 365 * (year + 1) + year / 4 + year / 400 + 1 := by
  induction year with
  | zero => rfl
  | succ year ih =>
    rw [daysBefore, leapDays]
    split <;> omega

/-- **Dates.**  The formula counts the days of the calendar; the first of January 1970 is day
719529. -/
theorem gaussTime_calendar {year month : Nat} (hyear : 0 < year)
    (hmax : year ≤ 9999) (hmonth : month < 12)
    (day hour min sec : Nat) : gaussTime year month day hour min sec =
      toInt64 (((dayNumber year month day : Int) - 719529) * 86400 + hour *
        3600 + min * 60 + sec) := by
  have hmonths : ∀ month < 12,
    if month ≤ 1 then 367 * (month + 11) / 12 = (mday.take month).sum + 336
      else 367 * (month - 1) / 12 + 29 = (mday.take month).sum := by decide
  replace hmonths := hmonths month hmonth
  obtain ⟨k, rfl⟩ : ∃ k, year = k + 1 := ⟨year - 1, (Nat.sub_add_cancel hyear).symm⟩
  unfold gaussTime dayNumber
  rcases Nat.lt_or_ge 1 month with hm | hm
  · have hmar := daysBefore_succ (k + 1)
    rw [daysBefore] at hmar
    rw [if_neg (not_le.mpr hm)] at hmonths ⊢
    rw [if_pos hm]
    refine congrArg toInt64 ?_
    omega
  -- January and February belong to the year before
  have hjan := daysBefore_succ k
  have hwrap : (k + 1 + 2 ^ 64 - 1) % 2 ^ 64 = k := by
    rw [Nat.add_right_comm, Nat.add_sub_cancel, Nat.add_mod_right]
    exact Nat.mod_eq_of_lt (by omega)
  rw [if_pos hm] at hmonths ⊢
  rw [if_neg (not_lt.mpr hm), hwrap]
  clear hwrap
  refine congrArg toInt64 ?_
  omega

theorem gaussTime_calendar_leap :
    gaussTime 2016 1 29 1 2 3 =
      toInt64 (((dayNumber 2016 1 29 : Int) - 719529) * 86400 + 1 * 3600 + 2 * 60 + 3) :=
  gaussTime_calendar (by decide) (by decide) (by decide) 29 1 2 3

end Nginx.Core
