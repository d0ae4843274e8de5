/-
  Http/FastUri.lean --- `ngx_http_parse_uri` and `ngx_http_process_request_uri`, and
  that a URI that no parser has flagged is in normal form.

  A URI of a request may not come in a request line; the caller takes the values from
  the pointers.  `ngx_http_parse_request_line` and `ngx_http_parse_uri` leave
  `complex_uri` and `quoted_uri` at 0 only while `ngx_http_parse_complex_uri`, with
  slashes merged, would copy what they read: `Copies` follows that machine next to
  theirs, and `UriGood` is what it gives for a whole URI.  The invariants of the two
  scanning machines carry this from byte to byte, up to the flags.
-/
import Nginx.Http.Parse.ComplexUri
import Nginx.Http.Parse.RequestLine

set_option autoImplicit false

namespace Nginx.Http

open List Foundation
open Parse
open Foundation.Machine

/-- The states of `ngx_http_parse_uri`. -/
inductive UriScan where
  | start
  | afterSlashInUri
  | checkUri
  | uri
  deriving DecidableEq

/-- The `switch (state)` of `ngx_http_parse_uri` on one byte, by its assignments
and the next state; `none` is `NGX_ERROR`. -/
def uriScanAction (state : UriScan) (ch : Byte) : Option (List Assign × UriScan) :=
  match state with
  | .start => if ch ≠ chr '/' then none else some ([], .afterSlashInUri)
  | .afterSlashInUri =>
      if isUsual ch then some ([], .checkUri)
      else if ch = chr ' ' then some ([.spaceInUri], .checkUri)
      else if ch = chr '.' then some ([.complexUri], .uri)
      else if ch = chr '%' then some ([.quotedUri], .uri)
      else if ch = chr '/' then some ([.complexUri], .uri)
      else if ch = chr '?' then some ([.argsStart], .uri)
      else if ch = chr '#' then some ([.complexUri], .uri)
      else if ch = chr '+' then some ([.plusInUri], .afterSlashInUri)
      else some ([], .checkUri)
  | .checkUri =>
      if isUsual ch then some ([], .checkUri)
      else if ch = chr '/' then some ([.uriExtNull], .afterSlashInUri)
      else if ch = chr '.' then some ([.uriExt], .checkUri)
      else if ch = chr ' ' then some ([.spaceInUri], .checkUri)
      else if ch = chr '%' then some ([.quotedUri], .uri)
      else if ch = chr '?' then some ([.argsStart], .uri)
      else if ch = chr '#' then some ([.complexUri], .uri)
      else if ch = chr '+' then some ([.plusInUri], .checkUri)
      else some ([], .checkUri)
  | .uri =>
      if isUsual ch then some ([], .uri)
      else if ch = chr ' ' then some ([.spaceInUri], .uri)
      else if ch = chr '#' then some ([.complexUri], .uri)
      else some ([], .uri)

/-- `for (p = r->uri_start; p != r->uri_end; p++)`, with the number of bytes
left. -/
def uriScanLoop (mem : Nat → Byte) : Nat → UriScan → Request → Nat → Option Request
  | 0, _, r, _ => some r
  | n + 1, state, r, p =>
      match uriScanAction state (mem p) with
      | none => none
      | some (assigns, state) =>
          match runAssigns mem p (mem p) r assigns with
          | .ok r => uriScanLoop mem n state r (p + 1)
          | .error _ => none

/-- `ngx_http_parse_uri`; `none` is `NGX_ERROR`. -/
def parseUri (mem : Nat → Byte) (r : Request) : Option Request :=
  uriScanLoop mem (r.uriEnd - r.uriStart) .start r r.uriStart

/-- The strings that `ngx_http_process_request_uri` sets. -/
structure UriValues where
  uri : Bytes
  unparsedUri : Bytes
  exten : Bytes
  args : Bytes
  validUnparsedUri : Bool
  deriving DecidableEq

/-- Where the path ends: before the `?`, or with the URI. -/
def Request.pathEnd (r : Request) : Nat := if r.argsStart ≠ 0 then r.argsStart - 1 else r.uriEnd

/-- `ngx_http_process_request_uri` on a fresh request, `r->exten` and `r->args`
being empty; `none` is `NGX_ERROR`. -/
def processRequestUri (mergeSlashes : Bool) (mem : Nat → Byte) (r : Request) : Option UriValues :=
  if r.complexUri ∨ r.quotedUri then
    match parseComplexUri mergeSlashes (slice mem r.uriStart r.uriEnd) with
    | none => none
    | some c =>
        -- `r->uri_ext` is NULL now, and `r->args_start` is what the call left there
        some
          { uri := c.uri
            unparsedUri := slice mem r.uriStart r.uriEnd
            exten := c.exten.getD []
            args := match c.argsStart with
              | some off =>
                  if r.uriEnd > r.uriStart + off then slice mem (r.uriStart + off) r.uriEnd
                  else c.args.getD []
              | none => c.args.getD []
            validUnparsedUri := !r.spaceInUri }
  else
    some
      { uri := slice mem r.uriStart r.pathEnd
        unparsedUri := slice mem r.uriStart r.uriEnd
        exten := if r.uriExt ≠ 0 then slice mem r.uriExt r.pathEnd else []
        args := if r.argsStart ≠ 0 ∧ r.uriEnd > r.argsStart then slice mem r.argsStart r.uriEnd
          else []
        validUnparsedUri := !r.spaceInUri }

/-! ## Slices -/

theorem slice_self (mem : Nat → Byte) (a : Nat) : slice mem a a = [] := by
  simp [slice, load]

theorem length_slice (mem : Nat → Byte) (a b : Nat) : (slice mem a b).length = b - a :=
  length_load mem a (b - a)

theorem slice_append {mem : Nat → Byte} {a b c : Nat} (hab : a ≤ b) (hbc : b ≤ c) :
    slice mem a c = slice mem a b ++ slice mem b c := by
  obtain ⟨m, rfl⟩ := Nat.exists_eq_add_of_le hab
  obtain ⟨n, rfl⟩ := Nat.exists_eq_add_of_le hbc
  simp only [slice, load, Nat.add_sub_cancel_left, show a + m + n - a = m + n by omega,
    range_add, map_append, map_map]
  congr 1
  apply map_congr_left
  intro j _
  rw [Function.comp_apply, add_assoc]

theorem slice_succ {mem : Nat → Byte} {a b : Nat} (hab : a ≤ b) :
    slice mem a (b + 1) = slice mem a b ++ [mem b] := by
  rw [slice_append hab (Nat.le_succ b)]
  simp [slice, load]

theorem slice_cons {mem : Nat → Byte} {a b : Nat} (hab : a < b) :
    slice mem a b = mem a :: slice mem (a + 1) b := by
  rw [slice_append (Nat.le_succ a) hab]
  simp [slice, load]

theorem drop_slice {mem : Nat → Byte} {a b c : Nat} (hab : a ≤ b) (hbc : b ≤ c) :
    (slice mem a c).drop (b - a) = slice mem b c := by
  rw [slice_append hab hbc, ← length_slice mem a b, drop_left]

/-! ## What the slow path copies -/

/-- The machine of `ngx_http_parse_complex_uri` has copied the path and is in
this state, with this extension. -/
def Copies (path : Bytes) (state : PathState) (ext : Option Nat) : Prop :=
  ∃ plus, feed (complexStep true) .start path = .running ⟨.path state, path, ext, plus, false⟩

/-- A byte that is copied without further notice behind a slash and elsewhere. -/
def IsPlain (ch : Byte) : Prop :=
  ch ≠ chr '/' ∧ ch ≠ chr '.' ∧ ch ≠ chr '%' ∧ ch ≠ chr '?' ∧ ch ≠ chr '#'

variable {ch : Byte}

theorem isPlain_of_isUsual (h : isUsual ch = true) : IsPlain ch := by
  have hiff := not_congr (isUsual_eq_false_iff ch)
  rw [h] at hiff
  simp only [Bool.true_eq_false, not_false_eq_true, true_iff, not_or] at hiff
  exact ⟨by tauto, by tauto, by tauto, by tauto, by tauto⟩

theorem Copies.step {path : Bytes} {state state' : PathState} {ext ext' : Option Nat} {ch : Byte}
    (h : Copies path state ext)
    (hstep : ∀ plus, ∃ plus', pathStep true state ⟨.path state, path, ext, plus, false⟩ ch =
      .next ⟨.path state', path ++ [ch], ext', plus', false⟩) :
    Copies (path ++ [ch]) state' ext' := by
  obtain ⟨plus, hrun⟩ := h
  obtain ⟨plus', hstep⟩ := hstep plus
  refine ⟨plus', ?_⟩
  rw [feed_append, hrun]
  exact feed_cons_next hstep []

theorem copies_slash : Copies [chr '/'] .slash none := ⟨false, by decide⟩

variable {path : Bytes} {ext : Option Nat}

variable {state : PathState}

theorem Copies.plain
    (h : Copies path state ext) (hstate : state = .slash ∨ state = .usual) (hch : IsPlain ch) :
    Copies (path ++ [ch]) .usual ext := by
  obtain ⟨hslash, hdot, hpercent, hquery, hhash⟩ := hch
  refine h.step fun plus => ?_
  by_cases husual : isUsual ch = true
  · exact ⟨plus, by simp only [pathStep, husual, if_true, ComplexUri.put]⟩
  by_cases hplus : ch = chr '+'
  · subst hplus
    exact ⟨true, by rcases hstate with rfl | rfl <;> rfl⟩
  · refine ⟨plus, ?_⟩
    rcases hstate with rfl | rfl <;>
      simp only [pathStep, husual, hslash, hdot, otherByte, hpercent, hquery, hhash, hplus,
        if_false, Bool.false_eq_true, ComplexUri.put]

theorem Copies.slash (h : Copies path .usual ext) :
    Copies (path ++ [chr '/']) .slash none :=
  h.step fun plus => ⟨plus, rfl⟩

theorem Copies.dot (h : Copies path .usual ext) :
    Copies (path ++ [chr '.']) .usual (some (path.length + 1)) :=
  h.step fun plus => ⟨plus, rfl⟩

theorem Copies.parse
    (h : Copies path state ext) : ∃ plus, parseComplexUri true path =
      some ⟨path, ext.map path.drop, none, none, plus, false⟩ := by
  obtain ⟨plus, hrun⟩ := h
  exact ⟨plus, by rw [parseComplexUri, hrun]; rfl⟩

theorem Copies.parse_args {args : Bytes}
    (h : Copies path state ext) (hargs : chr '#' ∉ args) :
    ∃ plus, parseComplexUri true (path ++ chr '?' :: args) =
      some ⟨path, ext.map path.drop, none, some (path.length + 1), plus, false⟩ := by
  obtain ⟨plus, hrun⟩ := h
  have hhalt : complexStep true ⟨.path state, path, ext, plus, false⟩ (chr '?') =
      .halt (.args ⟨.path state, path, ext, plus, false⟩) := by
    cases state <;> rfl
  refine ⟨plus, ?_⟩
  rw [parseComplexUri, feed_append, hrun, Outcome.more, feed_cons_halt hhalt]
  simp only [ComplexUri.finishArgs, hargs, if_false, ComplexUri.finish, length_append,
    length_cons]
  rw [show path.length + (args.length + 1) - args.length = path.length + 1 by omega]

/-! ## URIs the caller can take as they are -/

/-- The pointers that delimit the parts of the URI. -/
structure UriPtrs where
  start : Nat
  ext : Nat
  args : Nat

def Request.uriPtrs (r : Request) : UriPtrs := ⟨r.uriStart, r.uriExt, r.argsStart⟩

@[simp] theorem uriPtrs_start (r : Request) : r.uriPtrs.start = r.uriStart := rfl

@[simp] theorem uriPtrs_ext (r : Request) : r.uriPtrs.ext = r.uriExt := rfl

@[simp] theorem uriPtrs_args (r : Request) : r.uriPtrs.args = r.argsStart := rfl

/-- `r->uri_ext` as an offset into the URI. -/
def UriPtrs.extOffset (u : UriPtrs) : Option Nat :=
  if u.ext = 0 then none else some (u.ext - u.start)

/-- The path up to `q` is copied as it is. -/
structure PathGood (mem : Nat → Byte) (u : UriPtrs) (states : List PathState) (q : Nat) :
    Prop where
  start_le : u.start ≤ q
  no_args : u.args = 0
  ext_mem : u.ext ≠ 0 → u.start ≤ u.ext ∧ u.ext ≤ q
  copies : ∃ state ∈ states, Copies (slice mem u.start q) state u.extOffset

/-- The path up to the `?` is copied as it is, and no `#` is behind it up to
`q`. -/
structure ArgsGood (mem : Nat → Byte) (u : UriPtrs) (q : Nat) : Prop where
  start_lt : u.start < u.args
  args_le : u.args ≤ q
  query : mem (u.args - 1) = chr '?'
  no_hash : chr '#' ∉ slice mem u.args q
  ext_mem : u.ext ≠ 0 → u.start ≤ u.ext ∧ u.ext ≤ u.args - 1
  copies : ∃ state, Copies (slice mem u.start (u.args - 1)) state u.extOffset

/-- A whole URI that ends at `q`. -/
def UriGood (mem : Nat → Byte) (u : UriPtrs) (q : Nat) : Prop :=
  PathGood mem u [.slash, .usual] q ∨ ArgsGood mem u q

/-- What the caller takes from the pointers is what the slow path gives. -/
def FastUri (mem : Nat → Byte) (r : Request) : Prop :=
  ∃ values, processRequestUri true mem r = some values ∧
    processRequestUri true mem { r with complexUri := true } = some values

theorem extOffset_map_drop (mem : Nat → Byte) {u : UriPtrs} {q : Nat}
    (hext : u.ext ≠ 0 → u.start ≤ u.ext ∧ u.ext ≤ q) :
    (u.extOffset.map (slice mem u.start q).drop).getD [] =
      if u.ext ≠ 0 then slice mem u.ext q else [] := by
  by_cases hnull : u.ext = 0
  · simp [UriPtrs.extOffset, hnull]
  · obtain ⟨hle, hle'⟩ := hext hnull
    simp [UriPtrs.extOffset, hnull, drop_slice hle hle']

theorem fastUri_of_uriGood {mem : Nat → Byte} {r : Request} (hcomplex : r.complexUri = false)
    (hquoted : r.quotedUri = false) (h : UriGood mem r.uriPtrs r.uriEnd) : FastUri mem r := by
  have hdirect : ¬ (r.complexUri = true ∨ r.quotedUri = true) := by simp [hcomplex, hquoted]
  refine ⟨_, if_neg hdirect, ?_⟩
  rcases h
    with ⟨-, hargs, hext, state, -, hcopies⟩ | ⟨hlt, hle, hquery, hhash, hext, state, hcopies⟩
  · obtain ⟨plus, hparse⟩ := hcopies.parse
    have hexten := extOffset_map_drop mem hext
    simp only [uriPtrs_start, uriPtrs_args, uriPtrs_ext] at hargs hparse hexten
    simp only [processRequestUri, true_or, if_true, hparse, hexten, Request.pathEnd, hargs, ne_eq,
      not_true_eq_false, if_false, false_and, Option.getD_none]
    rfl
  obtain ⟨plus, hparse⟩ := hcopies.parse_args hhash
  have hexten := extOffset_map_drop mem hext
  simp only [uriPtrs_start, uriPtrs_args, uriPtrs_ext] at hlt hle hquery hparse hexten
  have hpos : r.argsStart ≠ 0 := by omega
  have hbehind : slice mem (r.argsStart - 1) r.uriEnd =
      chr '?' :: slice mem r.argsStart r.uriEnd := by
    rw [slice_cons (by omega), hquery, Nat.sub_add_cancel (Nat.pos_of_ne_zero hpos)]
  rw [← hbehind, ← slice_append (by omega) (by omega), length_slice] at hparse
  have hoff : r.uriStart + (r.argsStart - 1 - r.uriStart + 1) = r.argsStart := by omega
  simp only [processRequestUri, true_or, if_true, hparse, hexten, Request.pathEnd, hpos, ne_eq,
    not_false_eq_true, true_and, hoff, Option.getD_none]
  rfl

/-! ## One more byte -/

section Step

variable {mem : Nat → Byte} {u : UriPtrs} {states : List PathState} {p : Nat}

theorem PathGood.mono {states' : List PathState} (h : PathGood mem u states p)
    (hsub : states ⊆ states') : PathGood mem u states' p :=
  { h with copies := h.copies.imp fun _ hs => ⟨hsub hs.1, hs.2⟩ }

theorem PathGood.empty (hstart : u.start = p) (hargs : u.args = 0) (hext : u.ext = 0) :
    PathGood mem u [.slash, .usual] p where
  start_le := le_of_eq hstart
  no_args := hargs
  ext_mem hne := absurd hext hne
  copies := by
    refine ⟨.usual, by simp, ?_⟩
    rw [hstart, slice_self, UriPtrs.extOffset, if_pos hext]
    exact ⟨false, rfl⟩

theorem PathGood.first (hstart : u.start = p) (hslash : mem p = chr '/') (hargs : u.args = 0)
    (hext : u.ext = 0) : PathGood mem u [.slash, .usual] (p + 1) where
  start_le := by omega
  no_args := hargs
  ext_mem hne := absurd hext hne
  copies := by
    refine ⟨.slash, mem_cons_self, ?_⟩
    rw [hstart, slice_succ (Nat.le_refl p), slice_self, hslash, UriPtrs.extOffset, if_pos hext]
    exact copies_slash

theorem PathGood.plain (h : PathGood mem u states p) (hstates : states ⊆ [.slash, .usual])
    (hch : IsPlain (mem p)) : PathGood mem u [.usual] (p + 1) := by
  obtain ⟨state, hmem, hcopies⟩ := h.copies
  have hstate : state = .slash ∨ state = .usual := by simpa using hstates hmem
  exact
  { start_le := Nat.le_succ_of_le h.start_le
    no_args := h.no_args
    ext_mem := fun hne => ⟨(h.ext_mem hne).1, Nat.le_succ_of_le (h.ext_mem hne).2⟩
    copies := by
      refine ⟨.usual, mem_singleton_self _, ?_⟩
      rw [slice_succ h.start_le]
      exact hcopies.plain hstate hch }

theorem PathGood.slash (h : PathGood mem u [.usual] p) (hch : mem p = chr '/') :
    PathGood mem { u with ext := 0 } [.slash, .usual] (p + 1) := by
  obtain ⟨state, hmem, hcopies⟩ := h.copies
  rw [mem_singleton.mp hmem] at hcopies
  exact
  { start_le := Nat.le_succ_of_le h.start_le
    no_args := h.no_args
    ext_mem := fun hne => absurd rfl hne
    copies := by
      refine ⟨.slash, mem_cons_self, ?_⟩
      rw [slice_succ h.start_le, hch]
      exact hcopies.slash }

theorem PathGood.dot (h : PathGood mem u [.usual] p) (hch : mem p = chr '.') :
    PathGood mem { u with ext := p + 1 } [.usual] (p + 1) := by
  obtain ⟨state, hmem, hcopies⟩ := h.copies
  rw [mem_singleton.mp hmem] at hcopies
  have hle := h.start_le
  exact
  { start_le := Nat.le_succ_of_le hle
    no_args := h.no_args
    ext_mem := fun _ => ⟨Nat.le_succ_of_le hle, le_rfl⟩
    copies := by
      refine ⟨.usual, mem_singleton_self _, ?_⟩
      have hoff : p + 1 - u.start = (slice mem u.start p).length + 1 := by
        rw [length_slice]
        omega
      rw [slice_succ hle, hch, UriPtrs.extOffset, if_neg (Nat.succ_ne_zero p), hoff]
      exact hcopies.dot }

theorem PathGood.query (h : PathGood mem u states p) (hch : mem p = chr '?') :
    ArgsGood mem { u with args := p + 1 } (p + 1) where
  start_lt := Nat.lt_succ_of_le h.start_le
  args_le := le_rfl
  query := hch
  no_hash := by
    rw [slice_self]
    exact not_mem_nil
  ext_mem := h.ext_mem
  copies := h.copies.imp fun _ hs => hs.2

theorem ArgsGood.other (h : ArgsGood mem u p) (hch : mem p ≠ chr '#') : ArgsGood mem u (p + 1) :=
  { h with
    args_le := Nat.le_succ_of_le h.args_le
    no_hash := by
      rw [slice_succ h.args_le, mem_append, mem_singleton, not_or]
      exact ⟨h.no_hash, fun heq => hch heq.symm⟩ }

end Step

/-! ## Flags -/

/-- The URI has been flagged for the slow path. -/
def Flagged (r : Request) : Prop := r.complexUri = true ∨ r.quotedUri = true

theorem run_flagged {mem : Nat → Byte} {p : Nat} {r r' : Request} {a : Assign}
    (h : Flagged r) (hrun : a.run mem p ch r = .ok r') : Flagged r' := by
  cases a
  case complexUri =>
    cases hrun
    exact Or.inl rfl
  case quotedUri =>
    cases hrun
    exact Or.inr rfl
  case firstMajorDigit =>
    simp only [Assign.run] at hrun
    split at hrun <;> cases hrun
    exact h
  case majorDigit =>
    simp only [Assign.run] at hrun
    split at hrun <;> cases hrun
    exact h
  case minorDigit =>
    simp only [Assign.run] at hrun
    split at hrun <;> cases hrun
    exact h
  all_goals
    cases hrun
    exact h

theorem runAssigns_flagged {mem : Nat → Byte} {p : Nat} {assigns : List Assign} :
    ∀ {r r' : Request}, Flagged r → runAssigns mem p ch r assigns = .ok r' → Flagged r' := by
  induction assigns with
  | nil =>
    intro r r' h hrun
    cases hrun
    exact h
  | cons a assigns ih =>
    intro r r' h hrun
    rw [runAssigns, foldlM_cons] at hrun
    cases ha : a.run mem p ch r with
    | error rc =>
      rw [ha] at hrun
      cases hrun
    | ok r₁ =>
      rw [ha] at hrun
      exact ih (run_flagged h ha) hrun

theorem isPlain_space : IsPlain (chr ' ') := by
  unfold IsPlain
  decide

theorem isPlain_plus : IsPlain (chr '+') := by
  unfold IsPlain
  decide

/-! ## `ngx_http_parse_uri` -/

/-- What `ngx_http_parse_uri` maintains, as long as it flags nothing. -/
def UriScanInv (mem : Nat → Byte) (last : Nat) (state : UriScan) (r : Request) (p : Nat) : Prop :=
  Flagged r ∨ r.uriEnd = last ∧
  match state with
  | .start => r.uriStart = p ∧ r.argsStart = 0 ∧ r.uriExt = 0
  | .afterSlashInUri => PathGood mem r.uriPtrs [.slash, .usual] p
  | .checkUri => PathGood mem r.uriPtrs [.usual] p
  | .uri => ArgsGood mem r.uriPtrs p

section UriScan

variable {mem : Nat → Byte} {last : Nat} {r : Request} {p : Nat}

/-- The action keeps the invariant. -/
def KeepsUriScan (mem : Nat → Byte) (last p : Nat) (r : Request)
    (action : Option (List Assign × UriScan)) : Prop :=
  ∀ assigns state r', action = some (assigns, state) →
    runAssigns mem p (mem p) r assigns = .ok r' → UriScanInv mem last state r' (p + 1)

theorem keepsUriScan_next {assigns : List Assign} {state : UriScan} {r' : Request}
    (hrun : runAssigns mem p (mem p) r assigns = .ok r')
    (h : UriScanInv mem last state r' (p + 1)) :
    KeepsUriScan mem last p r (some (assigns, state)) := by
  intro assigns₁ state₁ r₁ hact hrun₁
  cases hact
  rw [hrun] at hrun₁
  exact Except.ok.inj hrun₁ ▸ h

theorem KeepsUriScan.ite {c : Prop} [Decidable c] {a b : Option (List Assign × UriScan)}
    (ha : c → KeepsUriScan mem last p r a) (hb : ¬ c → KeepsUriScan mem last p r b) :
    KeepsUriScan mem last p r (if c then a else b) :=
  iteInduction (motive := KeepsUriScan mem last p r) ha hb

/-- Every state of the scan keeps its invariant. -/
theorem keepsUriScan_step (state : UriScan) (hinv : UriScanInv mem last state r p) :
    KeepsUriScan mem last p r (uriScanAction state (mem p)) := by
  rcases hinv with hflag | ⟨hend, h⟩
  · exact fun assigns state r' _ hrun => Or.inl (runAssigns_flagged hflag hrun)
  cases state with
  | start =>
    refine .ite (fun _ _ _ _ hact => by cases hact) fun hslash => ?_
    rw [ne_eq, not_not] at hslash
    exact keepsUriScan_next rfl (Or.inr ⟨hend, PathGood.first h.1 hslash h.2.1 h.2.2⟩)
  | afterSlashInUri =>
    have hall : [PathState.slash, .usual] ⊆ [.slash, .usual] := fun _ hs => hs
    refine .ite (fun husual => ?_) fun _ => .ite (fun hspace => ?_) fun _ => .ite (fun _ => ?_)
      fun hdot => .ite (fun _ => ?_) fun hpercent => .ite (fun _ => ?_) fun hslash =>
      .ite (fun hquery => ?_) fun hquery => .ite (fun _ => ?_) fun hhash =>
      .ite (fun hplus => ?_) fun _ => ?_
    · exact keepsUriScan_next rfl (Or.inr ⟨hend, h.plain hall (isPlain_of_isUsual husual)⟩)
    · exact keepsUriScan_next rfl (Or.inr ⟨hend, h.plain hall (hspace ▸ isPlain_space)⟩)
    · exact keepsUriScan_next rfl (Or.inl (Or.inl rfl))
    · exact keepsUriScan_next rfl (Or.inl (Or.inr rfl))
    · exact keepsUriScan_next rfl (Or.inl (Or.inl rfl))
    · exact keepsUriScan_next rfl (Or.inr ⟨hend, h.query hquery⟩)
    · exact keepsUriScan_next rfl (Or.inl (Or.inl rfl))
    · have hplain := h.plain hall (hplus ▸ isPlain_plus)
      exact keepsUriScan_next rfl (Or.inr ⟨hend, hplain.mono (by simp)⟩)
    · have hplain := h.plain hall ⟨hslash, hdot, hpercent, hquery, hhash⟩
      exact keepsUriScan_next rfl (Or.inr ⟨hend, hplain⟩)
  | checkUri =>
    have hall : [PathState.usual] ⊆ [.slash, .usual] := by simp
    refine .ite (fun husual => ?_) fun _ => .ite (fun hslash => ?_) fun hslash =>
      .ite (fun hdot => ?_) fun hdot => .ite (fun hspace => ?_) fun _ => .ite (fun _ => ?_)
      fun hpercent => .ite (fun hquery => ?_) fun hquery => .ite (fun _ => ?_) fun hhash =>
      .ite (fun hplus => ?_) fun _ => ?_
    · exact keepsUriScan_next rfl (Or.inr ⟨hend, h.plain hall (isPlain_of_isUsual husual)⟩)
    · exact keepsUriScan_next rfl (Or.inr ⟨hend, h.slash hslash⟩)
    · exact keepsUriScan_next rfl (Or.inr ⟨hend, h.dot hdot⟩)
    · exact keepsUriScan_next rfl (Or.inr ⟨hend, h.plain hall (hspace ▸ isPlain_space)⟩)
    · exact keepsUriScan_next rfl (Or.inl (Or.inr rfl))
    · exact keepsUriScan_next rfl (Or.inr ⟨hend, h.query hquery⟩)
    · exact keepsUriScan_next rfl (Or.inl (Or.inl rfl))
    · exact keepsUriScan_next rfl (Or.inr ⟨hend, h.plain hall (hplus ▸ isPlain_plus)⟩)
    · have hplain := h.plain hall ⟨hslash, hdot, hpercent, hquery, hhash⟩
      exact keepsUriScan_next rfl (Or.inr ⟨hend, hplain⟩)
  | uri =>
    refine .ite (fun husual => ?_) fun _ => .ite (fun hspace => ?_) fun _ => .ite (fun _ => ?_)
      fun hhash => ?_
    · have hother := h.other (isPlain_of_isUsual husual).2.2.2.2
      exact keepsUriScan_next rfl (Or.inr ⟨hend, hother⟩)
    · exact keepsUriScan_next rfl (Or.inr ⟨hend, h.other (hspace ▸ isPlain_space.2.2.2.2)⟩)
    · exact keepsUriScan_next rfl (Or.inl (Or.inl rfl))
    · exact keepsUriScan_next rfl (Or.inr ⟨hend, h.other hhash⟩)

theorem uriScanInv_loop : ∀ (n : Nat) {state : UriScan} {r r' : Request} {p : Nat},
    UriScanInv mem last state r p → uriScanLoop mem n state r p = some r' →
    ∃ state', UriScanInv mem last state' r' (p + n) := by
  intro n
  induction n with
  | zero =>
    intro state r r' p hinv hloop
    cases hloop
    exact ⟨state, hinv⟩
  | succ n ih =>
    intro state r r' p hinv hloop
    rw [uriScanLoop] at hloop
    cases hact : uriScanAction state (mem p) with
    | none =>
      rw [hact] at hloop
      cases hloop
    | some result =>
      obtain ⟨assigns, state₁⟩ := result
      simp only [hact] at hloop
      cases hrun : runAssigns mem p (mem p) r assigns with
      | error rc =>
        rw [hrun] at hloop
        cases hloop
      | ok r₁ =>
        rw [hrun] at hloop
        obtain ⟨state', hfinal⟩ :=
          ih (keepsUriScan_step state hinv assigns state₁ r₁ hact hrun) hloop
        exact ⟨state', by rwa [add_assoc, add_comm 1] at hfinal⟩

theorem uriGood_of_parseUri {uriStart uriEnd : Nat} (hle : uriStart ≤ uriEnd)
    (hparse : parseUri mem
      { Request.created with uriStart := uriStart, uriEnd := uriEnd } = some r) :
    Flagged r ∨ UriGood mem r.uriPtrs r.uriEnd := by
  obtain ⟨state, hflag | ⟨hend, h⟩⟩ := uriScanInv_loop (uriEnd - uriStart)
    (show UriScanInv mem uriEnd .start _ _ from Or.inr ⟨rfl, rfl, rfl, rfl⟩) hparse
  · exact Or.inl hflag
  rw [Nat.add_sub_cancel' hle, ← hend] at h
  cases state with
  | start => exact Or.inr (Or.inl (PathGood.empty h.1 h.2.1 h.2.2))
  | afterSlashInUri => exact Or.inr (Or.inl h)
  | checkUri => exact Or.inr (Or.inl (h.mono (by simp)))
  | uri => exact Or.inr (Or.inr h)

end UriScan

end Nginx.Http
