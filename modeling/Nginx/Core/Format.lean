/-
  Core/Format.lean --- formatted output (`ngx_vslprintf` and `ngx_sprintf_num` in
  `src/core/ngx_string.c`).

  A format is what can be read from `fmt` on, its `\0` included, and the arguments
  are a list; the types of C are as wide as on 64-bit systems, and `win32` chooses
  between the two texts of `#if (NGX_WIN32)`.  `none` is a format that runs over its
  end, an argument of another type, or `%f`, which is left out.  `last` is how much
  may be written, or `none` for `(void *) -1`.
-/
import Mathlib.Data.Nat.Digits.Defs
import Nginx.Foundation.Writes

set_option autoImplicit false

namespace Nginx.Core

open List Foundation Option

/-! ## `ngx_sprintf_num` -/

/-- `(u_char) (ui32 % 10 + '0')` -/
def decText (digit : Nat) : Byte := chr '0' + UInt8.ofNat digit

/-- `hex[]` -/
def hexText (digit : Nat) : Byte := (ascii "0123456789abcdef").getD digit 0

/-- `HEX[]` -/
def bigHexText (digit : Nat) : Byte := (ascii "0123456789ABCDEF").getD digit 0

/-- A loop that writes digits at the end of `temp`, in which there are so many places left. -/
def digitLoop (text : Nat → Byte) (base : Nat) : Nat → Nat → Bytes → Option Bytes
  | 0, _, _ => none
  | places + 1, n, p =>
    let p := text (n % base) :: p
    if n / base = 0 then some p else digitLoop text base places (n / base) p

/-- `NGX_INT64_LEN` -/
def int64Len : Nat := 20

/-- The digits in `temp`. -/
def numText (ui64 hexadecimal : Nat) : Option Bytes :=
  if hexadecimal = 0 then
    if ui64 ≤ 0xffffffff then digitLoop decText 10 int64Len (ui64 % 2 ^ 32) []
    else digitLoop decText 10 int64Len ui64 []
  else if hexadecimal = 1 then digitLoop hexText 16 int64Len ui64 []
  else digitLoop bigHexText 16 int64Len ui64 []

/-- `while (len++ < width && buf < last)`, for what is missing from the width. -/
def padLoop (last : Option Nat) (zero : Byte) : Nat → Bytes → Bytes
  | 0, buf => buf
  | missing + 1, buf => if before last buf then padLoop last zero missing (buf ++ [zero]) else buf

/-- `ngx_sprintf_num` -/
def sprintfNum (last : Option Nat) (buf : Bytes) (ui64 : Nat) (zero : Byte)
    (hexadecimal width : Nat) : Option Bytes :=
  match numText ui64 hexadecimal with
  | none => none
  | some p =>
    let buf := padLoop last zero (width - p.length) buf
    some (buf ++ p.take (fitting last buf p.length))

/-! ## Directives -/

/-- An argument. -/
inductive FormatArg where
  /-- `size_t`, `off_t`, `time_t`, `ngx_msec_t`, `ngx_int_t`, `ngx_uint_t`, `long`, `int64_t`,
  `rlim_t`, `void *` and so on -/
  | word (w : BitVec 64)
  /-- `int`, `u_int`, `int32_t`, `uint32_t`, `ngx_pid_t` -/
  | half (w : BitVec 32)
  /-- `ngx_str_t *` -/
  | str (data : Bytes)
  /-- `ngx_variable_value_t *` -/
  | value (data : Bytes)
  /-- `u_char *`: what can be read there -/
  | chars (memory : Bytes)
  deriving DecidableEq

/-- What stands between `%` and the letter of a conversion. -/
structure FormatSpec where
  zero : Byte
  width : Nat
  sign : Bool
  hex : Nat
  maxWidth : Bool
  slen : Nat
  deriving DecidableEq

/-- What a conversion writes. -/
inductive FormatAction where
  /-- one byte -/
  | put (ch : Byte)
  /-- `CR` and `LF` -/
  | newline
  /-- a copy of this -/
  | copy (data : Bytes)
  /-- the bytes up to `\0` -/
  | text (p : Bytes)
  /-- `i64` or `ui64` -/
  | number (sign : Bool) (value : BitVec 64) (zero : Byte) (hex width : Nat)
  deriving DecidableEq

/-- `*fmt >= '0' && *fmt <= '9'` -/
def isDigit (ch : Byte) : Bool := chr '0' ≤ ch && ch ≤ chr '9'

/-- `width = width * 10 + (*fmt++ - '0')` -/
def widthLoop : Nat → Bytes → Nat × Bytes
  | width, [] => (width, [])
  | width, ch :: fmt =>
    if isDigit ch then widthLoop ((width * 10 + (ch - chr '0').toNat) % wordRange) fmt
      else (width, ch :: fmt)

/-- The loop over the letters before the one of the conversion; the digits after a dot are for
`%f` only. -/
def flagLoop : Bytes → FormatSpec → List FormatArg → Option (FormatSpec × Bytes × List FormatArg)
  | [], _, _ => none
  | ch :: fmt, s, args =>
    if ch = chr 'u' then flagLoop fmt { s with sign := false } args
    else if ch = chr 'm' then flagLoop fmt { s with maxWidth := true } args
    else if ch = chr 'X' then flagLoop fmt { s with hex := 2, sign := false } args
    else if ch = chr 'x' then flagLoop fmt { s with hex := 1, sign := false } args
    else if ch = chr '.' then some (s, (widthLoop 0 fmt).2, args)
    else if ch = chr '*' then
      match args with
      | .word w :: args => flagLoop fmt { s with slen := w.toNat } args
      | _ => none
    else some (s, ch :: fmt, args)

/-- `va_arg` for 64 bits. -/
def vaWord (next : BitVec 64 → FormatAction) :
    List FormatArg → Option (FormatAction × List FormatArg)
  | .word w :: args => some (next w, args)
  | _ => none

/-- `va_arg` for 32 bits. -/
def vaHalf (next : BitVec 32 → FormatAction) :
    List FormatArg → Option (FormatAction × List FormatArg)
  | .half w :: args => some (next w, args)
  | _ => none

namespace FormatSpec

variable (s : FormatSpec)

/-- `i64` or `ui64` as it is in the argument. -/
def wide (width : Nat) (w : BitVec 64) : FormatAction := .number s.sign w s.zero s.hex width

/-- An `int` or an `u_int`. -/
def narrow (w : BitVec 32) : FormatAction :=
  .number s.sign (if s.sign then w.signExtend 64 else w.setWidth 64) s.zero s.hex s.width

/-- `%M` -/
def msec (ms : BitVec 64) : FormatAction :=
  if ms = BitVec.allOnes 64 then .number true (BitVec.allOnes 64) s.zero s.hex s.width
  else .number false ms s.zero s.hex s.width

/-- `%s` and `%*s` -/
def chars (p : Bytes) : Option FormatAction :=
  if s.slen = wordRange - 1 then some (.text p)
  else if s.slen ≤ p.length then some (.copy (p.take s.slen))
  else none

end FormatSpec

/-- `switch (*fmt)` -/
def conversion (win32 : Bool) (s : FormatSpec) (ch : Byte) (args : List FormatArg) :
    Option (FormatAction × List FormatArg) :=
  if ch = chr 'V' then
    match args with
    | .str data :: args => some (.copy data, args)
    | _ => none
  else if ch = chr 'v' then
    match args with
    | .value data :: args => some (.copy data, args)
    | _ => none
  else if ch = chr 's' then
    match args with
    | .chars p :: args => (s.chars p).map fun action => (action, args)
    | _ => none
  else if ch = chr 'O' then vaWord ({ s with sign := true }.wide s.width) args
  else if ch = chr 'P' then vaHalf { s with sign := true }.narrow args
  else if ch = chr 'T' then vaWord ({ s with sign := true }.wide s.width) args
  else if ch = chr 'M' then vaWord s.msec args
  else if ch = chr 'z' then vaWord (s.wide s.width) args
  else if ch = chr 'i' then vaWord (s.wide (if s.maxWidth then int64Len else s.width)) args
  else if ch = chr 'd' then vaHalf s.narrow args
  else if ch = chr 'l' then vaWord (s.wide s.width) args
  else if ch = chr 'D' then vaHalf s.narrow args
  else if ch = chr 'L' then vaWord (s.wide s.width) args
  else if ch = chr 'A' then vaWord (s.wide (if s.maxWidth then int64Len else s.width)) args
  else if ch = chr 'f' then none
  else if ch = chr 'r' ∧ ¬ win32 then vaWord ({ s with sign := true }.wide s.width) args
  else if ch =
    chr 'p' then vaWord ({ s with hex := 2, sign := false, zero := chr '0' }.wide 16) args
  else if ch = chr 'c' then vaHalf (fun d => .put (UInt8.ofNat (d.toNat &&& 0xff))) args
  else if ch = chr 'Z' then some (.put 0, args)
  else if ch = chr 'N' then some (if win32 then .newline else .put 10, args)
  else if ch = chr '%' then some (.put (chr '%'), args)
  else some (.put ch, args)

/-- What comes after a `%`: the flags, the conversion, and the rest of the format. -/
def directive (win32 : Bool) (fmt : Bytes) (args : List FormatArg) :
    Option (FormatAction × Bytes × List FormatArg) :=
  let zero := if fmt.head? = some (chr '0') then chr '0' else chr ' '
  let (width, fmt) := widthLoop 0 fmt
  match flagLoop fmt ⟨zero, width, true, 0, false, wordRange - 1⟩ args with
  | some (s, ch :: fmt, args) => (conversion win32 s ch args).map fun p => (p.1, fmt, p.2)
  | _ => none

/-! ## `ngx_vslprintf` -/

/-- `while (*p && buf < last)` -/
def textLoop (last : Option Nat) : Bytes → Bytes → Option Bytes
  | [], _ => none
  | ch :: p, buf =>
    if ch = 0 then some buf else if before last buf then textLoop last p (buf ++ [ch]) else some buf

namespace FormatAction

/-- What is written at `buf`, where there is room for one byte. -/
def write : FormatAction → Option Nat → Bytes → Option Bytes
  | put ch, _, buf => some (buf ++ [ch])
  | newline, last, buf =>
    let buf := buf ++ [13]
    if before last buf then some (buf ++ [10]) else some buf
  | copy data, last, buf => some (buf ++ data.take (fitting last buf data.length))
  | text p, last, buf => textLoop last p buf
  | number sign value zero hex width, last, buf =>
    if sign ∧ value.slt 0 then sprintfNum last (buf ++ [chr '-']) (-value).toNat zero hex width
    else sprintfNum last buf value.toNat zero hex width

end FormatAction

theorem length_widthLoop (width : Nat) (fmt : Bytes) :
    (widthLoop width fmt).2.length ≤ fmt.length := by
  induction fmt generalizing width with
  | nil => exact le_rfl
  | cons ch fmt ih =>
    rw [widthLoop]
    split
    · exact (ih _).trans (Nat.le_succ _)
    · exact le_rfl

variable {fmt' : Bytes} {args' : List FormatArg}

theorem length_flagLoop (fmt : Bytes) (s : FormatSpec) (args : List FormatArg) {s' : FormatSpec} :
    flagLoop fmt s args = some (s', fmt', args') → fmt'.length ≤ fmt.length := by
  fun_induction flagLoop fmt s args with
  | case1 => nofun
  | case2 fmt s args ih => exact fun h => (ih h).trans (Nat.le_succ _)
  | case3 fmt s args hu ih => exact fun h => (ih h).trans (Nat.le_succ _)
  | case4 fmt s args hu hm ih => exact fun h => (ih h).trans (Nat.le_succ _)
  | case5 fmt s args hu hm hX ih => exact fun h => (ih h).trans (Nat.le_succ _)
  | case6 fmt s args hu hm hX hx =>
    intro h
    cases h
    exact (length_widthLoop 0 fmt).trans (Nat.le_succ _)
  | case7 fmt s w args hu hm hX hx hdot ih => exact fun h => (ih h).trans (Nat.le_succ _)
  | case8 => nofun
  | case9 =>
    intro h
    cases h
    exact le_rfl

theorem length_directive {win32 : Bool} {fmt : Bytes} {args : List FormatArg}
    {action : FormatAction}
    (h : directive win32 fmt args = some (action, fmt', args')) : fmt'.length < fmt.length := by
  rw [directive] at h
  simp only at h
  split at h
  next s ch rest args₁ hflags =>
    have hlength := (length_flagLoop _ _ _ hflags).trans (length_widthLoop 0 fmt)
    obtain ⟨p, -, heq⟩ := map_eq_some_iff.mp h
    obtain rfl : rest = fmt' := congrArg (fun p => p.2.1) heq
    exact hlength
  next => cases h

/-- The loop of `ngx_vslprintf`. -/
def formatLoop (win32 : Bool) (last : Option Nat) (fmt : Bytes)
    (args : List FormatArg) (buf : Bytes) : Option Bytes :=
  match fmt with
  | [] => none
  | ch :: fmt =>
    if ch = 0 then some buf
    else if before last buf then
      if ch = chr '%' then
        match _h : directive win32 fmt args with
        | none => none
        | some (action, fmt', args') =>
          (action.write last buf).bind fun buf => formatLoop win32 last fmt' args' buf
      else formatLoop win32 last fmt args (buf ++ [ch])
    else some buf
  termination_by fmt.length
  decreasing_by
    · exact (length_directive _h).trans (Nat.lt_succ_self _)
    · exact Nat.lt_succ_self _

/-- What `ngx_vslprintf` writes at `buf`. -/
def vslprintf (win32 : Bool) (last : Option Nat) (fmt : Bytes) (args : List FormatArg) :
    Option Bytes :=
  formatLoop win32 last fmt args []

/-! ## What is cut off -/

variable {win32 : Bool} {fmt : Bytes} {args : List FormatArg}

theorem clips_padLoop (zero : Byte) (missing : Nat) :
    Clips 0 (fun last buf => some (padLoop last zero missing buf))
      (some (List.replicate missing zero)) := by
  induction missing with
  | zero => exact .nothing
  | succ missing ih =>
    have hwrite : (fun last buf => some (padLoop last zero (missing + 1) buf)) = fun last buf =>
        if before last buf then (some (buf ++ [zero])).bind fun buf =>
          some (padLoop last zero missing buf)
        else some buf := by
      funext last buf
      rw [padLoop]
      split <;> rfl
    rw [hwrite]
    exact ((Clips.put zero).andThen ih).guard

theorem clips_sprintfNum (ui64 : Nat) (zero : Byte) (hexadecimal width : Nat) :
    Clips 0 (fun last buf => sprintfNum last buf ui64 zero hexadecimal width)
      ((numText ui64 hexadecimal).map fun p => List.replicate (width - p.length) zero ++ p) := by
  cases htext : numText ui64 hexadecimal with
  | none =>
    simp only [sprintfNum, htext]
    exact .fail
  | some p =>
    simp only [sprintfNum, htext]
    exact (clips_padLoop zero (width - p.length)).andThen (Clips.copy p)

theorem clips_textLoop (p : Bytes) :
    ∃ piece, Clips 0 (fun last buf => textLoop last p buf) piece := by
  induction p with
  | nil => exact ⟨none, .fail⟩
  | cons ch p ih =>
    obtain ⟨piece, ih⟩ := ih
    by_cases hend : ch = 0
    · simp only [textLoop, if_pos hend]
      exact ⟨some [], .nothing⟩
    · simp only [textLoop, if_neg hend]
      exact ⟨_, ((Clips.put ch).andThen ih).guard⟩

theorem clips_write (action : FormatAction) : ∃ piece, Clips 1 action.write piece := by
  cases action with
  | put ch => exact ⟨_, .put ch⟩
  | newline => exact ⟨_, (Clips.put 13).andThen (Clips.put 10).guard⟩
  | copy data => exact ⟨_, (Clips.copy data).mono (Nat.zero_le 1)⟩
  | text p =>
    obtain ⟨piece, h⟩ := clips_textLoop p
    exact ⟨piece, h.mono (Nat.zero_le 1)⟩
  | number sign value zero hex width =>
    by_cases hminus : sign ∧ value.slt 0
    · have hwrite : (FormatAction.number sign value zero hex width).write = fun last buf =>
          (some (buf ++ [chr '-'])).bind fun buf =>
            sprintfNum last buf (-value).toNat zero hex width := by
        funext last buf
        rw [FormatAction.write, if_pos hminus]
        rfl
      rw [hwrite]
      exact ⟨_, (Clips.put (chr '-')).andThen (clips_sprintfNum (-value).toNat zero hex width)⟩
    · have hwrite : (FormatAction.number sign value zero hex width).write = fun last buf =>
          sprintfNum last buf value.toNat zero hex width := by
        funext last buf
        rw [FormatAction.write, if_neg hminus]
      rw [hwrite]
      exact ⟨_, (clips_sprintfNum value.toNat zero hex width).mono (Nat.zero_le 1)⟩

theorem formatLoop_percent {action : FormatAction}
    (h : directive win32 fmt args = some (action, fmt', args')) (last : Option Nat) (buf : Bytes) :
    formatLoop win32 last (chr '%' :: fmt) args buf = if before last buf then
      (action.write last buf).bind fun buf =>
        formatLoop win32 last fmt' args' buf else some buf := by
  rw [formatLoop, if_neg (by decide), if_pos rfl]
  split
  next =>
    split
    next hnone =>
      rw [h] at hnone
      cases hnone
    next hsome =>
      rw [h] at hsome
      cases hsome
      rfl
  next => rfl

theorem formatLoop_percent_none (h : directive win32 fmt args = none)
    (last : Option Nat) (buf : Bytes) :
    formatLoop win32 last (chr '%' :: fmt) args buf =
      if before last buf then none else some buf := by
  rw [formatLoop, if_neg (by decide), if_pos rfl]
  split
  next =>
    split
    next => rfl
    next hsome =>
      rw [h] at hsome
      cases hsome
  next => rfl

theorem clips_formatLoop (win32 : Bool) (fmt : Bytes) (args : List FormatArg) :
    ∃ piece, Clips 0 (fun last buf => formatLoop win32 last fmt args buf) piece := by
  induction hlength : fmt.length using Nat.strong_induction_on generalizing fmt args with
  | _ length ih =>
    cases fmt with
    | nil =>
      refine ⟨none, ?_⟩
      simp only [formatLoop]
      exact .fail
    | cons ch fmt =>
      by_cases hend : ch = 0
      · refine ⟨some [], ?_⟩
        simp only [formatLoop, if_pos hend]
        exact .nothing
      by_cases hpercent : ch = chr '%'
      · rw [hpercent]
        cases hdirective : directive win32 fmt args with
        | none =>
          simp only [formatLoop_percent_none hdirective]
          exact ⟨none, Clips.fail.guard⟩
        | some step =>
          obtain ⟨action, fmt', args'⟩ := step
          have hshort := length_directive hdirective
          obtain ⟨first, hfirst⟩ := clips_write action
          obtain ⟨rest, hrest⟩ :=
            ih fmt'.length (by rw [← hlength]; exact Nat.lt_succ_of_lt hshort) fmt' args' rfl
          simp only [formatLoop_percent hdirective]
          exact ⟨_, (hfirst.andThen hrest).guard⟩
      · obtain ⟨rest, hrest⟩ :=
          ih fmt.length (by rw [← hlength]; exact Nat.lt_succ_self _) fmt args rfl
        simp only [formatLoop, if_neg hend, if_neg hpercent]
        exact ⟨_, ((Clips.put ch).andThen hrest).guard⟩

/-! ## What the digits are -/

/-- The numeral of a number: no digit too many at its beginning. -/
def numeral (text : Nat → Byte) (base n : Nat) : Bytes :=
  if n = 0 then [text 0] else (Nat.digits base n).reverse.map text

/-- The numeral that a conversion is for. -/
def numeralOf (hex n : Nat) : Bytes :=
  if hex = 0 then numeral decText 10 n
  else if hex = 1 then numeral hexText 16 n
  else numeral bigHexText 16 n

section numerals

variable {text : Nat → Byte} {base n : Nat}

theorem numeral_digit (hbase : 1 < base) (h : n / base = 0) :
    numeral text base n = [text (n % base)] := by
  have hlt : n < base := by
    rw [Nat.div_eq_zero_iff] at h
    omega
  rw [numeral, Nat.mod_eq_of_lt hlt]
  split
  next hzero => rw [hzero]
  next hne => rw [Nat.digits_of_lt base n hne hlt]; rfl

theorem numeral_step (hbase : 1 < base) (h : n / base ≠ 0) :
    numeral text base n = numeral text base (n / base) ++ [text (n % base)] := by
  have hne : n ≠ 0 := by
    rintro rfl
    exact h (Nat.zero_div base)
  rw [numeral, if_neg hne, numeral, if_neg h, Nat.digits_def' hbase (Nat.pos_of_ne_zero hne),
    reverse_cons,
    map_append, map_singleton]

theorem digitLoop_eq (hbase : 1 < base) (places : Nat) (hn : n < base ^ (places + 1)) (p : Bytes) :
    digitLoop text base (places + 1) n p = some (numeral text base n ++ p) := by
  induction places generalizing n p with
  | zero =>
    have hzero : n / base = 0 := Nat.div_eq_of_lt (by rwa [zero_add, Nat.pow_one] at hn)
    rw [digitLoop]
    simp only [if_pos hzero, numeral_digit hbase hzero, singleton_append]
  | succ places ih =>
    rw [digitLoop]
    by_cases hzero : n / base = 0
    · simp only [if_pos hzero, numeral_digit hbase hzero, singleton_append]
    · have hless : n / base < base ^ (places + 1) := Nat.div_lt_of_lt_mul (by rwa [← Nat.pow_succ'])
      simp only [if_neg hzero]
      rw [ih hless, numeral_step hbase hzero, append_assoc, singleton_append]

end numerals

theorem numText_eq (w : BitVec 64) (hex : Nat) :
    numText w.toNat hex = some (numeralOf hex w.toNat) := by
  have hlt : w.toNat < 2 ^ 64 := w.isLt
  have hdec : w.toNat < 10 ^ (19 + 1) := hlt.trans (by decide)
  have hhex : w.toNat < 16 ^ (19 + 1) := hlt.trans (by decide)
  rw [numText, numeralOf, int64Len]
  split
  next =>
    split
    next hsmall =>
      rw [Nat.mod_eq_of_lt (by omega), digitLoop_eq (by decide) 19 hdec, append_nil]
    next => rw [digitLoop_eq (by decide) 19 hdec, append_nil]
  next =>
    split
    next => rw [digitLoop_eq (by decide) 19 hhex, append_nil]
    next => rw [digitLoop_eq (by decide) 19 hhex, append_nil]

/-- Padded to a width. -/
def padded (zero : Byte) (width : Nat) (digits : Bytes) : Bytes :=
  List.replicate (width - digits.length) zero ++ digits

theorem sprintfNum_whole (buf : Bytes) (w : BitVec 64) (zero : Byte) (hex width : Nat) :
    sprintfNum none buf w.toNat zero hex width =
      some (buf ++ padded zero width (numeralOf hex w.toNat)) := by
  rw [(clips_sprintfNum w.toNat zero hex width).whole buf, numText_eq]
  rfl

/-- The text of a number: its sign, then the padded numeral. -/
def integerText (zero : Byte) (hex width : Nat) (z : Int) : Bytes :=
  (if z < 0 then [chr '-'] else []) ++ padded zero width (numeralOf hex z.natAbs)

theorem write_number (sign : Bool) (value : BitVec 64) (zero : Byte) (hex width : Nat)
    (buf : Bytes) : (FormatAction.number sign value zero hex width).write none buf =
      some (buf ++ integerText zero hex width (if sign then value.toInt else value.toNat)) := by
  have hslt : value.slt 0 = decide (value.toInt < 0) := rfl
  have hint := value.toInt_eq_toNat_cond
  have hlt := value.isLt
  rw [FormatAction.write, integerText]
  simp only [hslt, decide_eq_true_eq]
  split
  next hminus =>
    have hneg : (-value).toNat = value.toInt.natAbs := by
      rw [BitVec.toNat_neg]
      split at hint <;> omega
    rw [if_pos hminus.1, if_pos hminus.2, sprintfNum_whole, hneg, append_assoc]
  next hplus =>
    rw [sprintfNum_whole]
    by_cases hsign : sign = true
    · have hpos : ¬ value.toInt < 0 := fun hminus => hplus ⟨hsign, hminus⟩
      have habs : value.toNat = value.toInt.natAbs := by
        split at hint <;> omega
      rw [if_pos hsign, if_neg hpos, ← habs]
      rfl
    · rw [if_neg hsign, if_neg (by omega)]
      rfl

/-! ## Conversions of numbers -/

/-- The letters in front of the one of a conversion; `*` takes an argument. -/
inductive FormatFlag where
  | u | m | X | x
  | star (slen : BitVec 64)
  deriving DecidableEq

namespace FormatFlag

def letter : FormatFlag → Byte
  | u => chr 'u'
  | m => chr 'm'
  | X => chr 'X'
  | x => chr 'x'
  | star _ => chr '*'

def taken : FormatFlag → List FormatArg
  | star slen => [.word slen]
  | _ => []

def isUnsigned : FormatFlag → Bool
  | u | X | x => true
  | _ => false

def isMax : FormatFlag → Bool
  | m => true
  | _ => false

/-- The base after this letter: decimal (0), hexadecimal (1) or big hexadecimal (2). -/
def hex (before : Nat) : FormatFlag → Nat
  | X => 2
  | x => 1
  | _ => before

def slen (before : Nat) : FormatFlag → Nat
  | star slen => slen.toNat
  | _ => before

end FormatFlag

/-- The conversions of numbers. -/
inductive NumberConversion where
  | O | P | T | M | z | i | d | l | D | L | A | r | p
  deriving DecidableEq

namespace NumberConversion

def letter : NumberConversion → Byte
  | O => chr 'O'
  | P => chr 'P'
  | T => chr 'T'
  | M => chr 'M'
  | z => chr 'z'
  | i => chr 'i'
  | d => chr 'd'
  | l => chr 'l'
  | D => chr 'D'
  | L => chr 'L'
  | A => chr 'A'
  | r => chr 'r'
  | p => chr 'p'

/-- The number that an argument of the type of the conversion is. -/
def value (unsigned : Bool) : NumberConversion → FormatArg → Option Int
  | O, .word w | T, .word w | r, .word w => some w.toInt
  | P, .half w => some w.toInt
  | M, .word w => some (if w = BitVec.allOnes 64 then -1 else w.toNat)
  | p, .word w => some w.toNat
  | z, .word w | i, .word w | l, .word w | L, .word w | A, .word w =>
    some (if unsigned then w.toNat else w.toInt)
  | d, .half w | D, .half w => some (if unsigned then w.toNat else w.toInt)
  | _, _ => none

/-- A pointer has 16 big hexadecimal digits, whatever the format says. -/
def pad (zero : Byte) : NumberConversion → Byte
  | p => chr '0'
  | _ => zero

def base (hex : Nat) : NumberConversion → Nat
  | p => 2
  | _ => hex

def width (isMax : Bool) (width : Nat) : NumberConversion → Nat
  | p => 16
  | i | A => if isMax then int64Len else width
  | _ => width

end NumberConversion

/-- The value of decimal digits. -/
def widthValue (ds : Bytes) : Nat := ds.foldl (fun width d => width * 10 + (d - chr '0').toNat) 0

/-- The byte of the padding: there is a `0` at the beginning or not. -/
def padByte (ds : Bytes) : Byte := if ds.head? = some (chr '0') then chr '0' else chr ' '

/-- A conversion of a number with all that may stand in front of its letter: a width, flags, and a
dot with digits, which say nothing here. -/
structure NumberDirective where
  digits : Bytes
  flags : List FormatFlag
  dot : Option Bytes
  conversion : NumberConversion
  isDigit_digits : digits.all isDigit = true
  isDigit_dot : ∀ ds, dot = some ds → ds.all isDigit = true

namespace NumberDirective

variable (n : NumberDirective)

/-- Its text in the format. -/
def format : Bytes :=
  chr '%' :: (n.digits ++ (n.flags.map FormatFlag.letter ++
    ((n.dot.map (chr '.' :: ·)).getD [] ++ [n.conversion.letter])))

/-- The number that an argument is. -/
def value (arg : FormatArg) : Option Int :=
  n.conversion.value (n.flags.any FormatFlag.isUnsigned) arg

/-- What it writes for a number. -/
def text (z : Int) : Bytes :=
  integerText (n.conversion.pad (padByte n.digits))
    (n.conversion.base (n.flags.foldl FormatFlag.hex 0))
    (n.conversion.width (n.flags.any FormatFlag.isMax) (widthValue n.digits % wordRange)) z

end NumberDirective

/-- No digit is read from here. -/
def NoDigit (fmt : Bytes) : Prop := ∀ ch ∈ fmt.head?, isDigit ch = false

theorem widthLoop_append {ds rest : Bytes} (hds : ds.all isDigit = true) (hrest : NoDigit rest)
    (width : Nat) : widthLoop (width % wordRange) (ds ++ rest) =
      ((ds.foldl (fun width d => width * 10 + (d - chr '0').toNat) width) % wordRange, rest) := by
  induction ds generalizing width with
  | nil =>
    cases rest with
    | nil => rfl
    | cons ch rest => simp [widthLoop, hrest ch rfl]
  | cons d ds ih =>
    rw [all_cons, Bool.and_eq_true] at hds
    rw [cons_append, widthLoop, if_pos hds.1, foldl_cons, ← ih hds.2]
    congr 1
    rw [Nat.add_mod, Nat.mul_mod, Nat.mod_mod, ← Nat.mul_mod, ← Nat.add_mod]

theorem head?_eq_zero {ds rest : Bytes} (hrest : NoDigit rest) :
    (ds ++ rest).head? = some (chr '0') ↔ ds.head? = some (chr '0') := by
  cases ds with
  | nil => exact iff_of_false (fun h => absurd (hrest _ h) (by decide)) nofun
  | cons d ds => rfl

theorem flagLoop_flags (flags : List FormatFlag) (s : FormatSpec) (rest : Bytes)
    (args : List FormatArg) :
    flagLoop (flags.map FormatFlag.letter ++ rest) s (flags.flatMap FormatFlag.taken ++ args) =
      flagLoop rest { s with
        sign := s.sign && !flags.any FormatFlag.isUnsigned
        hex := flags.foldl FormatFlag.hex s.hex
        maxWidth := s.maxWidth || flags.any FormatFlag.isMax
        slen := flags.foldl FormatFlag.slen s.slen } args := by
  induction flags generalizing s with
  | nil => simp
  | cons flag flags ih =>
    have hstep : flagLoop (flag.letter :: (flags.map FormatFlag.letter ++ rest)) s
        (flag.taken ++ (flags.flatMap FormatFlag.taken ++ args)) =
      flagLoop (flags.map FormatFlag.letter ++ rest) { s with
        sign := s.sign && !flag.isUnsigned
        hex := flag.hex s.hex
        maxWidth := s.maxWidth || flag.isMax
        slen := flag.slen s.slen } (flags.flatMap FormatFlag.taken ++ args) := by
      cases flag <;> simp [flagLoop, FormatFlag.letter, FormatFlag.taken, FormatFlag.isUnsigned,
        FormatFlag.isMax, FormatFlag.hex, FormatFlag.slen, chr]
    rw [map_cons, cons_append, flatMap_cons, append_assoc, hstep, ih]
    simp [Bool.and_assoc, Bool.or_assoc]

theorem noDigit_letter (c : NumberConversion) (fmt : Bytes) : NoDigit (c.letter :: fmt) := by
  rintro ch ⟨⟩
  cases c <;> rfl

theorem noDigit_flags (n : NumberDirective) (fmt : Bytes) :
    NoDigit (n.flags.map FormatFlag.letter ++
      ((n.dot.map (chr '.' :: ·)).getD [] ++ n.conversion.letter :: fmt)) := by
  cases n.flags with
  | nil =>
    cases n.dot with
    | none => exact noDigit_letter n.conversion fmt
    | some ds =>
      rintro ch ⟨⟩
      rfl
  | cons flag flags =>
    rintro ch ⟨⟩
    cases flag <;> rfl

theorem flagLoop_letter (n : NumberDirective) (s : FormatSpec) (fmt : Bytes)
    (args : List FormatArg) :
    flagLoop ((n.dot.map (chr '.' :: ·)).getD [] ++ n.conversion.letter :: fmt) s args =
      some (s, n.conversion.letter :: fmt, args) := by
  cases hdot : n.dot with
  | none => cases n.conversion <;> rfl
  | some ds =>
    have hread := widthLoop_append (n.isDigit_dot ds hdot) (noDigit_letter n.conversion fmt) 0
    rw [Nat.zero_mod] at hread
    rw [map_some, getD_some, cons_append]
    simp only [flagLoop, hread]
    rfl

/-- What a conversion takes and writes: one argument, as the number that it is. -/
theorem conversion_number (s : FormatSpec) {c : NumberConversion} (hr : c = .r → win32 = false)
    {arg : FormatArg} {z : Int} (h : c.value (!s.sign) arg = some z) (args : List FormatArg) :
    ∃ sign w, (if sign then BitVec.toInt w else w.toNat) = z ∧
      conversion win32 s c.letter (arg :: args) =
        some (.number sign w (c.pad s.zero) (c.base s.hex) (c.width s.maxWidth s.width), args) := by
  have hword : ∀ w : BitVec 64, (if s.sign = true then w.toInt else w.toNat) =
      if (!s.sign) = true then (w.toNat : Int) else w.toInt := fun w => by
    cases s.sign <;> rfl
  have hhalf : ∀ w : BitVec 32, (if s.sign = true then
      BitVec.toInt (if s.sign = true then w.signExtend 64 else w.setWidth 64) else
        (if s.sign = true then w.signExtend 64 else w.setWidth 64).toNat) =
      if (!s.sign) = true then (w.toNat : Int) else w.toInt := fun w => by
    cases s.sign with
    | true => exact BitVec.toInt_signExtend_of_le (by decide)
    | false => exact congrArg Nat.cast (BitVec.toNat_setWidth_of_le (by decide))
  rcases arg with w | w | data | data | memory <;> cases c <;> cases h
  case half.P => exact ⟨true, w.signExtend 64, BitVec.toInt_signExtend_of_le (by decide), rfl⟩
  case half.d => exact ⟨s.sign, _, hhalf w, rfl⟩
  case half.D => exact ⟨s.sign, _, hhalf w, rfl⟩
  case word.O => exact ⟨true, w, rfl, rfl⟩
  case word.T => exact ⟨true, w, rfl, rfl⟩
  case word.M =>
    have hconversion : conversion win32 s (chr 'M') (.word w :: args) = some (s.msec w, args) := rfl
    rw [show NumberConversion.M.letter = chr 'M' from rfl, hconversion, FormatSpec.msec]
    by_cases hms : w = BitVec.allOnes 64
    · rw [if_pos hms, if_pos hms]
      exact ⟨true, _, by decide, rfl⟩
    · rw [if_neg hms, if_neg hms]
      exact ⟨false, w, rfl, rfl⟩
  case word.z => exact ⟨s.sign, w, hword w, rfl⟩
  case word.i => exact ⟨s.sign, w, hword w, rfl⟩
  case word.l => exact ⟨s.sign, w, hword w, rfl⟩
  case word.L => exact ⟨s.sign, w, hword w, rfl⟩
  case word.A => exact ⟨s.sign, w, hword w, rfl⟩
  case word.r =>
    obtain rfl := hr rfl
    exact ⟨true, w, rfl, rfl⟩
  case word.p => exact ⟨false, w, rfl, rfl⟩

theorem directive_number (n : NumberDirective) (hr : n.conversion = .r → win32 = false)
    {arg : FormatArg} {z : Int} (h : n.value arg = some z) (fmt : Bytes) (args : List FormatArg) :
    ∃ action fmt', n.format ++ fmt = chr '%' :: fmt' ∧
      directive win32 fmt' (n.flags.flatMap FormatFlag.taken ++ arg :: args) =
        some (action, fmt, args) ∧
      ∀ buf, action.write none buf = some (buf ++ n.text z) := by
  have hbehind := noDigit_flags n fmt
  have hwidth := widthLoop_append n.isDigit_digits hbehind 0
  rw [Nat.zero_mod] at hwidth
  obtain ⟨sign, w, rfl, hconversion⟩ := @conversion_number win32
    ⟨padByte n.digits, widthValue n.digits % wordRange, !n.flags.any FormatFlag.isUnsigned,
      n.flags.foldl FormatFlag.hex 0, n.flags.any FormatFlag.isMax,
      n.flags.foldl FormatFlag.slen (wordRange - 1)⟩ n.conversion hr arg z
    (by rw [Bool.not_not]; exact h) args
  refine ⟨_, n.digits ++ (n.flags.map FormatFlag.letter ++
    ((n.dot.map (chr '.' :: ·)).getD [] ++ n.conversion.letter :: fmt)), ?_, ?_,
    write_number sign w _ _ _⟩
  · simp only [NumberDirective.format, cons_append, append_assoc, nil_append]
  · rw [directive, hwidth]
    simp only [head?_eq_zero hbehind, flagLoop_flags, flagLoop_letter, Bool.true_and,
      Bool.false_or]
    exact congrArg (Option.map fun p => (p.1, fmt, p.2)) hconversion

/-- A conversion of a number writes the numeral of its argument, padded, after the sign. -/
theorem vslprintf_number (n : NumberDirective) (hr : n.conversion = .r → win32 = false)
    {arg : FormatArg} {z : Int} (h : n.value arg = some z) (fmt : Bytes) (args : List FormatArg) :
    vslprintf win32 none (n.format ++ fmt) (n.flags.flatMap FormatFlag.taken ++ arg :: args) =
      (vslprintf win32 none fmt args).map (n.text z ++ ·) := by
  obtain ⟨action, fmt', hformat, hdirective, hwrite⟩ := directive_number n hr h fmt args
  obtain ⟨piece, hclips⟩ := clips_formatLoop win32 fmt args
  rw [vslprintf, hformat, formatLoop_percent hdirective, if_pos (before_none []), hwrite,
    Option.bind_some, hclips.whole, vslprintf, hclips.whole, Option.map_map]
  rfl

/-- A bound cuts the output off; and each conversion of a number, whatever its width and flags and
whatever follows it, writes the numeral of its argument, padded, after the sign. -/
theorem vslprintf_truncates :
    (∀ win32 fmt args out, vslprintf win32 none fmt args = some out →
      ∀ c, vslprintf win32 (some c) fmt args = some (out.take c)) ∧
    ∀ win32 (n : NumberDirective), (n.conversion = .r → win32 = false) →
      ∀ arg z, n.value arg = some z → ∀ fmt args,
        vslprintf win32 none (n.format ++ fmt) (n.flags.flatMap FormatFlag.taken ++ arg :: args) =
          (vslprintf win32 none fmt args).map (n.text z ++ ·) := by
  refine ⟨fun win32 fmt args out hout c => ?_,
    fun win32 n hr arg z h fmt args => vslprintf_number n hr h fmt args⟩
  obtain ⟨piece, hclips⟩ := clips_formatLoop win32 fmt args
  have hpiece := hclips.whole []
  rw [vslprintf] at hout
  rw [hout] at hpiece
  obtain ⟨p, rfl, rfl⟩ := map_eq_some_iff.mp hpiece.symm
  exact hclips.part c [] p rfl (Nat.zero_le c)

/-- A number and a text, for which there are six bytes; and every conversion of a number. -/
theorem vslprintf_truncates_six :
    vslprintf false (some 6) (ascii "%5uL%s" ++ [0]) [.word 42, .chars (ascii "ab" ++ [0])] =
        some (ascii "   42a") ∧
      vslprintf false none (ascii "%03d" ++ [0]) [.half (-7)] = some (ascii "-007") ∧
      vslprintf false none (ascii "%uD" ++ [0]) [.half (-1)] = some (ascii "4294967295") ∧
      vslprintf false none (ascii "%P" ++ [0]) [.half (-1)] = some (ascii "-1") ∧
      vslprintf false none (ascii "%M" ++ [0]) [.word (-1)] = some (ascii "-1") ∧
      vslprintf false none (ascii "%3O" ++ [0]) [.word 42] = some (ascii " 42") ∧
      vslprintf false none (ascii "%xT" ++ [0]) [.word (-255)] = some (ascii "-ff") ∧
      vslprintf false none (ascii "%*z" ++ [0]) [.word 1, .word 0] = some (ascii "0") ∧
      vslprintf false none (ascii "%mui" ++ [0]) [.word 42] =
        some (ascii "                  42") ∧
      vslprintf false none (ascii "%.2l" ++ [0]) [.word 5000000000] = some (ascii "5000000000") ∧
      vslprintf false none (ascii "%08xL" ++ [0]) [.word 0xbeef] = some (ascii "0000beef") ∧
      vslprintf false none (ascii "%XA" ++ [0]) [.word 0xbeef] = some (ascii "BEEF") ∧
      vslprintf false none (ascii "%r" ++ [0]) [.word 7] = some (ascii "7") ∧
      vslprintf false none (ascii "%p" ++ [0]) [.word 0xbeef] =
        some (ascii "000000000000BEEF") := by
  obtain ⟨hbound, hnumber⟩ := vslprintf_truncates
  have hone (n : NumberDirective) {arg : FormatArg} (z : Int) {fmt out : Bytes}
      (h : n.value arg = some z) (hout : n.text z = out) (hfmt : n.format ++ [0] = fmt) :
      vslprintf false none fmt (n.flags.flatMap FormatFlag.taken ++ [arg]) = some out := by
    rw [← hfmt, hnumber false n (fun _ => rfl) arg z h [0] [], ← hout]
    rw [vslprintf, formatLoop, if_pos rfl]
    exact congrArg some (append_nil _)
  have hwhole : vslprintf false none (ascii "%5uL%s" ++ [0])
      [.word 42, .chars (ascii "ab" ++ [0])] = some (ascii "   42ab") := by
    refine (hnumber false ⟨ascii "5", [.u], none, .L, by decide, nofun⟩ nofun (.word 42) 42
      (by decide) (ascii "%s" ++ [0]) [.chars (ascii "ab" ++ [0])]).trans ?_
    have htext : directive false (ascii "s" ++ [0]) [.chars (ascii "ab" ++ [0])] =
        some (.text (ascii "ab" ++ [0]), [0], []) := by rfl
    rw [vslprintf, show ascii "%s" ++ [0] = chr '%' :: (ascii "s" ++ [0]) from rfl,
      formatLoop_percent htext, if_pos (before_none _),
      show (FormatAction.text (ascii "ab" ++ [0])).write none [] = some (ascii "ab") by decide,
      Option.bind_some, formatLoop, if_pos rfl]
    decide
  exact ⟨(hbound false _ _ _ hwhole 6).trans (by decide),
    hone ⟨ascii "03", [], none, .d, by decide, nofun⟩ (-7) (by decide) (by decide) (by decide),
    hone ⟨[], [.u], none, .D, by decide, nofun⟩ 4294967295 (by decide) (by decide) (by decide),
    hone ⟨[], [], none, .P, by decide, nofun⟩ (-1) (by decide) (by decide) (by decide),
    hone ⟨[], [], none, .M, by decide, nofun⟩ (-1) (by decide) (by decide) (by decide),
    hone ⟨ascii "3", [], none, .O, by decide, nofun⟩ 42 (by decide) (by decide) (by decide),
    hone ⟨[], [.x], none, .T, by decide, nofun⟩ (-255) (by decide) (by decide) (by decide),
    hone ⟨[], [.star 1], none, .z, by decide, nofun⟩ 0 (by decide) (by decide) (by decide),
    hone ⟨[], [.m, .u], none, .i, by decide, nofun⟩ 42 (by decide) (by decide) (by decide),
    hone ⟨[], [], some (ascii "2"), .l, by decide, by decide⟩ 5000000000 (by decide) (by decide)
      (by decide),
    hone ⟨ascii "08", [.x], none, .L, by decide, nofun⟩ 0xbeef (by decide) (by decide) (by decide),
    hone ⟨[], [.X], none, .A, by decide, nofun⟩ 0xbeef (by decide) (by decide) (by decide),
    hone ⟨[], [], none, .r, by decide, nofun⟩ 7 (by decide) (by decide) (by decide),
    hone ⟨[], [], none, .p, by decide, nofun⟩ 0xbeef (by decide) (by decide) (by decide)⟩

end Nginx.Core
