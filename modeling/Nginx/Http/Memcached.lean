/-
  Http/Memcached.lean --- the body of a memcached response and the trailer behind it
  (`ngx_http_memcached_filter_init` and `ngx_http_memcached_filter` in
  `src/http/modules/ngx_http_memcached_module.c`).

  What is read is at `b->last`: the filter moves `b->last` over what it passes on, and the
  next bytes come right behind.
-/
import Mathlib.Data.List.Infix
import Nginx.Core.Base

set_option autoImplicit false

namespace Nginx.Http.Memcached

open List Foundation Option
open Nginx.Core (Rc)

/-! ## The filter -/

/-- `CRLF "END" CRLF` -/
def trailer : Bytes := [13, 10, 69, 78, 68, 13, 10]

/-- `ngx_http_memcached_end`, a string with a NUL byte behind it. -/
def memcachedEnd : Bytes := trailer ++ [0]

/-- `NGX_HTTP_MEMCACHED_END` -/
def memcachedEndLen : Nat := memcachedEnd.length - 1

/-- What a variable of type `off_t` or `ssize_t` holds when `x` is stored in it. -/
def signed (x : Int) : Int := x.bmod (2 ^ 64)

/-- What a variable of type `size_t` holds. -/
def unsigned (x : Int) : Nat := (x % 2 ^ 64).toNat

/-- What is read and written of `ngx_http_upstream_t`, with `ctx->rest`; a buffer of `u->out_bufs`
is the bytes from its `pos` to its `last`. -/
structure Upstream where
  length : Int
  rest : Nat
  keepalive : Bool := false
  outBufs : List Bytes := []
  deriving DecidableEq

/-- `ngx_http_memcached_filter_init` -/
def filterInit (statusN : Nat) (contentLengthN : Nat) (u : Upstream) : Upstream :=
  if statusN ≠ 404 then
    { u with length := signed (contentLengthN + memcachedEndLen), rest := memcachedEndLen }
  else { u with length := 0 }

/-- `ngx_strncmp(s1, s2, n) == 0` of `n` bytes and those of a constant, none where one behind the
constant is compared. -/
def strncmp : Bytes → Bytes → Option Bool
  | [], _ => some true
  | _ :: _, [] => none
  | a :: s1, c :: s2 => if a ≠ c then some false else if c = 0 then some true else strncmp s1 s2

/-- `ngx_http_memcached_end + NGX_HTTP_MEMCACHED_END - rest` -/
def endFrom (rest : Nat) : Bytes := memcachedEnd.drop (unsigned (memcachedEndLen - rest))

/-- `memcached sent invalid trailer` -/
def Upstream.invalid (u : Upstream) : Upstream := { u with length := 0, rest := 0 }

/-- `if (u->length == 0) { u->keepalive = 1; }` -/
def Upstream.complete (u : Upstream) :
    Upstream := if u.length = 0 then { u with keepalive := true } else u

/-- `ngx_http_memcached_filter` of the bytes at `b->last`, none where bytes are compared that are
not in the constant or not read; `memory` is whether there is any for a buffer. -/
def filter (memory : Bool) (u : Upstream) (bytes : Bytes) : Option (Rc × Upstream) :=
  if u.length = signed u.rest then
    (strncmp bytes (endFrom u.rest)).map fun same =>
      if same then
        (.ok, { u with
          length := signed (u.length - bytes.length),
          rest := unsigned (u.rest - bytes.length) }.complete)
      else (.ok, u.invalid)
  else if memory then
    let left := signed (u.length - memcachedEndLen)
    if bytes.length ≤ left then
      some (.ok,
        { u with length := signed (u.length - bytes.length), outBufs := u.outBufs ++ [bytes] })
    else if left < 0 then none
    else
      let last := bytes.drop left.toNat
      let u := { u with outBufs := u.outBufs ++ [bytes.take left.toNat] }
      (strncmp last memcachedEnd).map fun same =>
        if same then
          let rest := unsigned (u.rest - last.length)
          (.ok, { u with rest := rest, length := signed rest }.complete)
        else (.ok, u.invalid)
  else some (.error, u)

/-- What `recv` returns: at least one byte, and as many as an `ssize_t` counts. -/
structure Received where
  bytes : Bytes
  nonempty : bytes ≠ []
  lt : bytes.length < 2 ^ 63

/-- The bytes of these reads. -/
def streamOf (reads : List Received) : Bytes := reads.flatMap Received.bytes

/-- One call for each of these reads. -/
def filterAll : Upstream → List Received → Option Upstream
  | u, [] => some u
  | u, read :: reads =>
    match filter true u read.bytes with
    | some (.ok, u) => filterAll u reads
    | _ => none

attribute [local simp] strncmp filterAll

/-! ## What is asked of it -/

/-- The upstream as it is before any byte of the body. -/
def initial (n : Nat) : Upstream := filterInit 200 n ⟨0, 0, false, []⟩

/-- What is asked of the filter when the bytes behind the header are these. -/
structure Exact (n : Nat) (stream : Bytes) (u : Upstream) : Prop where
  passed : u.outBufs.flatten = stream.take n
  length : 0 ≤ u.length ∧ u.length ≤ n + memcachedEndLen
  rest : u.rest ≤ memcachedEndLen
  keepalive : u.keepalive = true → ∃ data : Bytes, data.length = n ∧ stream = data ++ trailer

/-- No byte behind the constant is compared, and what is asked holds behind each read. -/
def ExactOver (n : Nat) (reads : List Received) : Prop :=
  ∀ init rest, reads = init ++ rest → ∃ u, filterAll (initial n) init = some u ∧
    Exact n (streamOf init) u

/-- A read that is none of these: behind one that completes the trailer, with a complete trailer and
a NUL byte behind it, and behind an invalid trailer with a NUL byte in front. -/
structure Harmless (n : Nat) (stream bytes : Bytes) : Prop where
  complete : stream.drop n ≠ trailer
  nul : stream.drop n <+: trailer → ¬trailer ++ [0] <+: (stream ++ bytes).drop n
  invalid : ¬stream.drop n <+: trailer → bytes.head? ≠ some 0

variable {n : Nat} {u : Upstream} {s t bytes stream : Bytes}

theorem memcachedEndLen_eq : memcachedEndLen = 7 := rfl

theorem length_trailer : trailer.length = 7 := rfl

/-! ## The comparison -/

theorem strncmp_eq (s : Bytes) (ht : 0 ∉ t) :
    strncmp s (t ++ [0]) = some (decide (s <+: t ∨ t ++ [0] <+: s)) := by
  induction s generalizing t with
  | nil => simp
  | cons a s ih =>
    cases t with
    | nil =>
      by_cases ha : a = 0
      · subst ha
        simp
      · simp [ha, Ne.symm ha]
    | cons c t =>
      obtain ⟨hc, ht⟩ := not_or.mp (mt mem_cons.mpr ht)
      by_cases ha : a = c
      · subst ha
        have hrest := ih (fun hmem => ht (mem_cons_of_mem a hmem))
        simp [Ne.symm hc, hrest]
      · simp [ha, Ne.symm ha]

theorem endFrom_eq {k : Nat} (hk : k ≤ memcachedEndLen) :
    endFrom (memcachedEndLen - k) = trailer.drop k ++ [0] := by
  have hindex : unsigned (memcachedEndLen - (memcachedEndLen - k : Nat)) = k := by
    rw [memcachedEndLen_eq] at hk ⊢
    rw [unsigned]
    omega
  rw [endFrom, hindex, memcachedEnd, drop_append_of_le_length hk]

theorem signed_of_lt {x : Int} (h0 : -2 ^ 63 ≤ x) (h1 : x < 2 ^ 63) : signed x = x := by
  rw [signed, Int.bmod_eq_of_le] <;> omega

theorem unsigned_of_lt {x : Int} (h0 : 0 ≤ x) (h1 : x < 2 ^ 64) : (unsigned x : Int) = x := by
  rw [unsigned]
  omega


/-! ## One read -/

/-- The upstream is what these bytes alone determine, however they were cut. -/
structure Tracks (n : Nat) (stream : Bytes) (u : Upstream) : Prop where
  out : u.outBufs.flatten = stream.take n
  length : u.length =
    if stream.drop n <+: trailer then ((n + memcachedEndLen - stream.length : Nat) : Int) else 0
  rest : u.rest =
    if stream.drop n <+: trailer then min memcachedEndLen
    (n + memcachedEndLen - stream.length) else 0
  keepalive : u.keepalive = decide (stream.drop n = trailer)

theorem exists_data_iff :
    (∃ data : Bytes, data.length = n ∧ stream = data ++ trailer) ↔ stream.drop n = trailer := by
  constructor
  · rintro ⟨data, rfl, rfl⟩
    exact drop_left
  intro hdrop
  refine ⟨stream.take n, ?_, ?_⟩
  · have hlength := congrArg List.length hdrop
    rw [length_drop, length_trailer] at hlength
    rw [length_take]
    omega
  · rw [← hdrop, take_append_drop]

theorem Tracks.exact (h : Tracks n stream u) : Exact n stream u where
  passed := h.out
  length := by
    rw [h.length]
    split <;> omega
  rest := by
    rw [h.rest]
    split <;> omega
  keepalive hkeep := exists_data_iff.mpr (of_decide_eq_true (h.keepalive.symm.trans hkeep))

theorem filter_trailer {k : Nat} (hk : k ≤ memcachedEndLen) (hlength : u.length = u.rest)
    (hrest : u.rest = memcachedEndLen - k) :
    filter true u bytes =
      if bytes <+: trailer.drop k ∨ trailer.drop k ++ [0] <+: bytes then
        some (.ok, { u with
          length := signed (u.length - bytes.length), rest := unsigned (u.rest - bytes.length)
            }.complete)
      else some (.ok, u.invalid) := by
  have hsmall : u.length = signed u.rest := by
    rw [memcachedEndLen_eq] at hrest hk
    rw [hlength, signed_of_lt] <;> omega
  have hnul : (0 : Byte) ∉ trailer.drop k := fun hmem => absurd (mem_of_mem_drop hmem) (by decide)
  have hend : endFrom u.rest = trailer.drop k ++ [0] := by rw [hrest, endFrom_eq hk]
  rw [filter, if_pos hsmall, hend, strncmp_eq bytes hnul, map_some]
  by_cases hsame : bytes <+: trailer.drop k ∨ trailer.drop k ++ [0] <+: bytes
  · rw [if_pos hsame, if_pos (decide_eq_true hsame)]
  · rw [if_neg hsame, if_neg (by simpa using hsame)]

theorem filter_data (hn : n + memcachedEndLen < 2 ^ 63)
    (hlength : u.length = n + memcachedEndLen - s.length)
    (hrest : u.rest = memcachedEndLen) (hs : s.length < n) (hbytes : s.length + bytes.length ≤ n) :
    filter true u bytes = some (.ok, { u with
      length := u.length - bytes.length, outBufs := u.outBufs ++ [bytes] }) := by
  rw [memcachedEndLen_eq] at *
  have hdiffer : u.length ≠ signed u.rest := by
    rw [hrest, signed_of_lt] <;> omega
  have hleft : signed (u.length - (7 : Nat)) = u.length - 7 := signed_of_lt (by omega) (by omega)
  rw [filter, if_neg hdiffer, if_pos rfl, memcachedEndLen_eq, hleft,
    if_pos (by omega), signed_of_lt (by omega) (by omega)]

theorem filter_cut (hn : n + memcachedEndLen < 2 ^ 63)
    (hlength : u.length = n + memcachedEndLen - s.length)
    (hrest : u.rest = memcachedEndLen) (hs : s.length < n) (hbytes : n < s.length + bytes.length) :
    filter true u bytes =
      if (s ++ bytes).drop n <+: trailer ∨ trailer ++ [0] <+: (s ++ bytes).drop n then
        some (.ok, { u with
          rest := unsigned (u.rest - ((s ++ bytes).drop n).length)
          length := signed (unsigned (u.rest - ((s ++ bytes).drop n).length))
          outBufs := u.outBufs ++ [bytes.take (n - s.length)] }.complete)
      else some (.ok, { u with outBufs := u.outBufs ++ [bytes.take (n - s.length)] }.invalid) := by
  have hdrop : (s ++ bytes).drop n = bytes.drop (n - s.length) := by
    rw [drop_append, drop_of_length_le (le_of_lt hs), nil_append]
  rw [memcachedEndLen_eq] at *
  have hdiffer : u.length ≠ signed u.rest := by
    rw [hrest, signed_of_lt] <;> omega
  have hleft : signed (u.length - (7 : Nat)) = (n - s.length : Nat) := by
    rw [signed_of_lt] <;> omega
  have hnul : (0 : Byte) ∉ trailer := by decide
  rw [filter, if_neg hdiffer, if_pos rfl, memcachedEndLen_eq, hleft,
    if_neg (by omega), if_neg (by omega), Int.toNat_natCast,
    hdrop]
  simp only [memcachedEnd]
  rw [strncmp_eq _ hnul, map_some]
  by_cases hsame : bytes.drop (n - s.length) <+: trailer ∨
    trailer ++ [0] <+: bytes.drop (n - s.length)
  · rw [if_pos hsame, if_pos (decide_eq_true hsame)]
  · rw [if_neg hsame, if_neg (by simpa using hsame)]

/-! ## What a read leaves behind -/

theorem counter_neg {k : Nat} (hk : 7 < k) (hlt : k < 2 ^ 63) :
    signed (unsigned ((7 : Nat) - (k : Int))) < 0 := by
  have hunsigned : (unsigned ((7 : Nat) - (k : Int)) : Int) = (7 - k) + (2 ^ 64 : Nat) := by
    rw [unsigned]
    omega
  rw [hunsigned, signed, Int.add_bmod_right]
  exact (signed_of_lt (by omega) (by omega)).trans_lt (by omega)

theorem not_exact_of_neg (hneg : u.length < 0) : ¬Exact n stream u.complete := by
  intro h
  have hlength := h.length.1
  rw [Upstream.complete, if_neg (Int.ne_of_lt hneg)] at hlength
  omega

theorem tracks_invalid (hout : u.outBufs.flatten = stream.take n) (hkeep : u.keepalive = false)
    (hp : ¬stream.drop n <+: trailer) : Tracks n stream u.invalid where
  out := hout
  length := (if_neg hp).symm
  rest := (if_neg hp).symm
  keepalive := by
    have hne : stream.drop n ≠ trailer := fun heq => hp (heq ▸ prefix_rfl)
    exact hkeep.trans (decide_eq_false hne).symm

theorem tracks_complete (hout : u.outBufs.flatten = stream.take n) (hkeep : u.keepalive = false)
    (hp : stream.drop n <+: trailer) (hlength : u.length = 7 - (stream.drop n).length)
    (hrest : (u.rest : Int) = 7 - (stream.drop n).length) (hn : n ≤ stream.length) :
    Tracks n stream u.complete := by
  have hle := hp.length_le
  have hall : stream.drop n = trailer ↔ u.length = 0 := by
    constructor
    · intro heq
      rw [hlength, heq]
      rfl
    · intro hzero
      exact hp.eq_of_length (by rw [length_trailer]; omega)
  rw [length_drop] at *
  rw [length_trailer] at hle
  have htracks : ∀ keepalive : Bool, keepalive = decide (stream.drop n = trailer) →
      Tracks n stream { u with keepalive := keepalive } := fun keepalive hkeepalive =>
    { out := hout
      length := by
        rw [if_pos hp, memcachedEndLen_eq, hlength]
        omega
      rest := by
        rw [if_pos hp, memcachedEndLen_eq]
        change u.rest = _
        omega
      keepalive := hkeepalive }
  rw [Upstream.complete]
  by_cases hzero : u.length = 0
  · rw [if_pos hzero]
    exact htracks true (decide_eq_true (hall.mpr hzero)).symm
  · rw [if_neg hzero]
    exact htracks u.keepalive (hkeep.trans (decide_eq_false (mt hall.mp hzero)).symm)

theorem keepalive_complete (hkeep : u.keepalive = true) : u.complete.keepalive = true := by
  rw [Upstream.complete]
  split
  · rfl
  · exact hkeep

theorem Tracks.keepalive_eq_false (h : Tracks n s u) (hs : s.drop n ≠ trailer) :
    u.keepalive = false :=
  h.keepalive.trans (decide_eq_false hs)

/-- The outcome of a read: what `Harmless` excludes is what breaks the rules. -/
structure StepOf (n : Nat) (s bytes : Bytes) (u : Upstream) : Prop where
  harmless : Harmless n s bytes → ∃ u', filter true u bytes = some (.ok, u') ∧
    Tracks n (s ++ bytes) u'
  harmful : ¬Harmless n s bytes → ∀ u', filter true u bytes = some (.ok, u') →
    ¬Exact n (s ++ bytes) u'

/-- A read whose bytes are data of the body only, or that begins with such bytes. -/
theorem step_body (hn : n + memcachedEndLen < 2 ^ 63) (h : Tracks n s u)
    (hs : s.length < n) (hlt : bytes.length < 2 ^ 63) :
    StepOf n s bytes u := by
  have hempty : s.drop n = [] := drop_of_length_le (le_of_lt hs)
  have hp : s.drop n <+: trailer := hempty ▸ nil_prefix
  have hne : s.drop n ≠ trailer := by
    rw [hempty]
    decide
  have hkeep := h.keepalive_eq_false hne
  have hlength : u.length = n + memcachedEndLen - s.length := by
    rw [h.length, if_pos hp]
    omega
  have hrest : u.rest = memcachedEndLen := by
    rw [h.rest, if_pos hp]
    omega
  have hout : u.outBufs.flatten = s := h.out.trans (take_of_length_le (le_of_lt hs))
  rcases lt_or_ge n (s.length + bytes.length) with hcut | hdata
  · have hfilter := filter_cut hn hlength hrest hs hcut
    have hlast : (u.outBufs ++ [bytes.take (n - s.length)]).flatten = (s ++ bytes).take n := by
      rw [flatten_concat, hout, take_append, take_of_length_le (le_of_lt hs)]
    have hall : n ≤ (s ++ bytes).length := by
      rw [length_append]
      omega
    constructor
    · intro hharmless
      rw [hfilter]
      by_cases hended : (s ++ bytes).drop n <+: trailer
      · have hle := hended.length_le
        rw [length_trailer] at hle
        rw [if_pos (.inl hended), hrest, memcachedEndLen_eq]
        have hcounter : (unsigned ((7 : Nat) - (((s ++ bytes).drop n).length : Int)) : Int) =
          7 - ((s ++ bytes).drop n).length :=
          unsigned_of_lt (by omega) (by omega)
        exact ⟨_, rfl, tracks_complete hlast hkeep hended
          (by rw [hcounter, signed_of_lt] <;> omega) hcounter hall⟩
      · rw [if_neg (not_or.mpr ⟨hended, hharmless.nul hp⟩)]
        exact ⟨_, rfl, tracks_invalid hlast hkeep hended⟩
    · intro hharmful u' hu'
      have hnul : trailer ++ [0] <+: (s ++ bytes).drop n := by
        by_contra hnot
        exact hharmful ⟨hne, fun _ => hnot, fun hinvalid => absurd hp hinvalid⟩
      have hle := hnul.length_le
      rw [length_append, length_trailer, length_singleton] at hle
      rw [hfilter, if_pos (.inr hnul)] at hu'
      obtain ⟨-, rfl⟩ := Prod.mk.inj (some.inj hu')
      have hmany : ((s ++ bytes).drop n).length < 2 ^ 63 := by
        rw [length_drop, length_append]
        omega
      refine not_exact_of_neg ?_
      dsimp only
      rw [hrest, memcachedEndLen_eq]
      exact counter_neg hle hmany
  · have hfilter := filter_data hn hlength hrest hs hdata
    have hshort : (s ++ bytes).length ≤ n := by
      rw [length_append]
      omega
    have hnone : (s ++ bytes).drop n = [] := drop_of_length_le hshort
    have hharmless : Harmless n s bytes :=
      { complete := hne
        nul := fun _ hnul => absurd (hnone ▸ hnul) (by decide)
        invalid := fun hinvalid => absurd hp hinvalid }
    refine ⟨fun _ => ⟨_, hfilter, ?_⟩, fun hharmful => absurd hharmless hharmful⟩
    have hended : (s ++ bytes).drop n <+: trailer := hnone ▸ nil_prefix
    constructor
    · rw [flatten_concat, hout, take_of_length_le hshort]
    · rw [if_pos hended, hlength, length_append, memcachedEndLen_eq]
      change (n : Int) + (7 : Nat) - s.length - bytes.length = _
      omega
    · have hleft : memcachedEndLen ≤ n + memcachedEndLen - (s ++ bytes).length := by omega
      rw [if_pos hended, Nat.min_eq_left hleft]
      exact hrest
    · rw [hnone]
      exact hkeep

/-- A read behind the data, where the trailer has been right so far. -/
theorem step_trailer (h : Tracks n s u) (hs : n ≤ s.length) (hp : s.drop n <+: trailer)
    (hne : bytes ≠ []) (hlt : bytes.length < 2 ^ 63) : StepOf n s bytes u := by
  obtain ⟨t, ht⟩ := hp
  have hdrop : (s ++ bytes).drop n = s.drop n ++ bytes := drop_append_of_le_length hs
  have hle : (s.drop n).length ≤ 7 := by
    rw [← length_trailer, ← ht, length_append]
    omega
  have hp : s.drop n <+: trailer := ⟨t, ht⟩
  have htrailer : trailer.drop (s.drop n).length = t := by rw [← ht, drop_left]
  have hright : bytes <+: t ↔ (s ++ bytes).drop n <+: trailer := by
    rw [hdrop, ← ht, prefix_append_right_inj]
  have hnul : t ++ [0] <+: bytes ↔ trailer ++ [0] <+: (s ++ bytes).drop n := by
    rw [hdrop, ← ht, append_assoc, prefix_append_right_inj]
  have hcount : (s.drop n).length = s.length - n := length_drop
  have hrest : u.rest = memcachedEndLen - (s.drop n).length := by
    rw [h.rest, if_pos hp, memcachedEndLen_eq]
    omega
  have hlength : u.length = u.rest := by
    rw [h.length, if_pos hp, hrest, memcachedEndLen_eq]
    omega
  have hout : u.outBufs.flatten = (s ++ bytes).take n :=
    h.out.trans (take_append_of_le_length hs).symm
  have hmore : ((s ++ bytes).drop n).length = (s.drop n).length + bytes.length := by
    rw [hdrop, length_append]
  have hfilter := @filter_trailer u bytes _ (memcachedEndLen_eq ▸ hle) hlength hrest
  rw [htrailer] at hfilter
  simp only [hright, hnul] at hfilter
  rw [hrest] at hlength
  rw [memcachedEndLen_eq] at *
  constructor
  · intro hharmless
    have hkeep := h.keepalive_eq_false hharmless.complete
    rw [hfilter]
    by_cases hended : (s ++ bytes).drop n <+: trailer
    · have hall := hended.length_le
      rw [length_trailer] at hall
      rw [if_pos (.inl hended)]
      have hcounter : (unsigned (u.rest - (bytes.length : Int)) : Int) = u.rest - bytes.length :=
        unsigned_of_lt (by omega) (by omega)
      refine ⟨_, rfl, tracks_complete hout hkeep hended ?_ ?_ (by rw [length_append]; omega)⟩
      · change signed (u.length - bytes.length) = _
        rw [signed_of_lt] <;> omega
      · change (unsigned (u.rest - (bytes.length : Int)) : Int) = _
        omega
    · rw [if_neg (not_or.mpr ⟨hended, hharmless.nul hp⟩)]
      exact ⟨_, rfl, tracks_invalid hout hkeep hended⟩
  · intro hharmful u' hu'
    by_cases hdone : s.drop n = trailer
    · intro hexact
      have hkeep : u.keepalive = true := h.keepalive.trans (decide_eq_true hdone)
      have hset : u'.keepalive = true := by
        rw [hfilter] at hu'
        split at hu'
        · obtain ⟨-, rfl⟩ := Prod.mk.inj (some.inj hu')
          exact keepalive_complete hkeep
        · obtain ⟨-, rfl⟩ := Prod.mk.inj (some.inj hu')
          exact hkeep
      have hall := exists_data_iff.mp (hexact.keepalive hset)
      have hpos := length_pos_of_ne_nil hne
      rw [hall, hdone] at hmore
      omega
    · have hnul' : trailer ++ [0] <+: (s ++ bytes).drop n := by
        by_contra hnot
        exact hharmful ⟨hdone, fun _ => hnot, fun hinvalid => absurd hp hinvalid⟩
      have hmany := hnul'.length_le
      rw [length_append, length_trailer, length_singleton] at hmany
      rw [hfilter, if_pos (.inr hnul')] at hu'
      obtain ⟨-, rfl⟩ := Prod.mk.inj (some.inj hu')
      refine not_exact_of_neg ?_
      dsimp only
      rw [signed_of_lt] <;> omega

theorem step_invalid (h : Tracks n s u) (hp : ¬s.drop n <+: trailer)
    (hne : bytes ≠ []) (hlt : bytes.length < 2 ^ 63) :
    StepOf n s bytes u := by
  have hs : n ≤ s.length := by
    by_contra hlt
    exact hp (drop_of_length_le (Nat.le_of_not_le hlt) ▸ nil_prefix)
  have hrest : u.rest = memcachedEndLen - 7 := h.rest.trans (if_neg hp)
  have hzero : u.length = 0 := h.length.trans (if_neg hp)
  have hlength : u.length = u.rest := by
    rw [hzero, hrest, memcachedEndLen_eq]
    rfl
  have hfilter := @filter_trailer u bytes 7 (le_of_eq memcachedEndLen_eq.symm) hlength hrest
  have hcomplete : s.drop n ≠ trailer := fun heq => hp (heq ▸ prefix_rfl)
  have hkeep := h.keepalive_eq_false hcomplete
  have hout : u.outBufs.flatten = (s ++ bytes).take n :=
    h.out.trans (take_append_of_le_length hs).symm
  have hended : ¬(s ++ bytes).drop n <+: trailer := by
    rw [drop_append_of_le_length hs]
    exact fun hpre => hp ((prefix_append _ _).trans hpre)
  obtain ⟨b, rest, rfl⟩ := exists_cons_of_ne_nil hne
  have hnone : ¬b :: rest <+: trailer.drop 7 := fun hpre =>
    absurd (prefix_nil.mp hpre) (cons_ne_nil _ _)
  have hfirst : trailer.drop 7 ++ [0] <+: b :: rest ↔ b = 0 := by
    refine (cons_prefix_cons (b := b)).trans ?_
    simp [eq_comm]
  constructor
  · intro hharmless
    have hb : b ≠ 0 := fun heq => hharmless.invalid hp (heq ▸ rfl)
    rw [hfilter, if_neg (not_or.mpr ⟨hnone, mt hfirst.mp hb⟩)]
    exact ⟨_, rfl, tracks_invalid hout hkeep hended⟩
  intro hharmful u' hu'
  have hb : b = 0 := by
    by_contra hb
    exact hharmful ⟨hcomplete, fun hpre => absurd hpre hp, fun _ hhead => hb (some.inj hhead)⟩
  rw [hfilter, if_pos (.inr (hfirst.mpr hb))] at hu'
  obtain ⟨-, rfl⟩ := Prod.mk.inj (some.inj hu')
  refine not_exact_of_neg ?_
  dsimp only
  rw [hzero, signed_of_lt] <;> simp only [length_cons] at * <;> omega

theorem step (hn : n + memcachedEndLen < 2 ^ 63) (h : Tracks n s u) (read : Received) :
    StepOf n s read.bytes u := by
  by_cases hp : s.drop n <+: trailer
  · rcases lt_or_ge s.length n with hs | hs
    · exact step_body hn h hs read.lt
    · exact step_trailer h hs hp read.nonempty read.lt
  · exact step_invalid h hp read.nonempty read.lt

/-! ## All reads -/

theorem streamOf_cons (read : Received) (reads : List Received) :
    streamOf (read :: reads) = read.bytes ++ streamOf reads :=
  flatMap_cons

/-- Exact for all reads to come, by induction on them. -/
theorem exact_iff_of_tracks (hn : n + memcachedEndLen < 2 ^ 63)
    (reads : List Received) (h : Tracks n s u) :
    (∀ init rest, reads = init ++ rest → ∃ u', filterAll u init = some u' ∧
      Exact n (s ++ streamOf init) u') ↔
      ∀ init read rest, reads = init ++ read :: rest →
        Harmless n (s ++ streamOf init) read.bytes := by
  induction reads generalizing s u with
  | nil =>
    constructor
    · intro _ init read rest heq
      exact absurd heq.symm (append_ne_nil_of_right_ne_nil _ (cons_ne_nil _ _))
    · intro _ init rest heq
      obtain ⟨rfl, rfl⟩ := append_eq_nil_iff.mp heq.symm
      exact ⟨u, rfl, (append_nil s).symm ▸ h.exact⟩
  | cons first reads ih =>
    by_cases hfirst : Harmless n s first.bytes
    · obtain ⟨u₁, hfilter, htracks⟩ := (step hn h first).harmless hfirst
      have hrun : ∀ init, filterAll u (first :: init) = filterAll u₁ init :=
        fun init => by simp only [filterAll, hfilter]
      have hstream : ∀ init, s ++ streamOf (first :: init) = s ++ first.bytes ++ streamOf init :=
        fun init => by
        rw [streamOf_cons, append_assoc]
      constructor
      · intro hexact init read rest heq
        rcases cons_eq_append_iff.mp heq with ⟨rfl, hcons⟩ | ⟨init, rfl, hreads⟩
        · obtain ⟨rfl, -⟩ := cons.inj hcons
          exact (append_nil s).symm ▸ hfirst
        rw [hstream]
        refine (ih htracks).mp ?_ init read rest hreads
        intro init rest heq
        have hlater := hexact (first :: init) rest (congrArg _ heq)
        rwa [hrun, hstream] at hlater
      · intro hharmless init rest heq
        rcases cons_eq_append_iff.mp heq with ⟨rfl, -⟩ | ⟨init, rfl, hreads⟩
        · exact ⟨u, rfl, (append_nil s).symm ▸ h.exact⟩
        rw [hrun, hstream]
        refine (ih htracks).mpr ?_ init rest hreads
        intro init read rest heq
        have hlater := hharmless (first :: init) read rest (congrArg _ heq)
        rwa [hstream] at hlater
    · constructor
      · intro hexact
        obtain ⟨u', hrun, hexact⟩ := hexact [first] reads rfl
        have hfilter : filter true u first.bytes = some (.ok, u') := by
          simp only [filterAll] at hrun
          split at hrun
          · next heq => rw [heq, some.inj hrun]
          · exact absurd hrun.symm (some_ne_none u')
        rw [streamOf_cons, ← append_assoc] at hexact
        have hall : s ++ first.bytes ++ streamOf [] = s ++ first.bytes := append_nil _
        exact absurd (hall ▸ hexact) ((step hn h first).harmful hfirst u' hfilter)
      · intro hharmless
        have hnow := hharmless [] first reads rfl
        exact absurd ((append_nil s) ▸ hnow) hfirst

theorem tracks_initial (hn : n + memcachedEndLen < 2 ^ 63) : Tracks n [] (initial n) := by
  have hp : ([] : Bytes).drop n <+: trailer := by
    rw [drop_nil]
    exact nil_prefix
  have hinitial : initial n = ⟨n + memcachedEndLen, memcachedEndLen, false, []⟩ := by
    rw [initial, filterInit, if_pos (by decide), signed_of_lt (by omega) (by omega)]
  rw [hinitial]
  constructor
  · rw [take_nil]
    rfl
  · rw [if_pos hp]
    rfl
  · rw [if_pos hp, length_nil]
    exact (Nat.min_eq_left (Nat.le_add_left ..)).symm
  · rw [drop_nil]
    rfl

/-- However the bytes are cut, all is as it should be unless the length does not fit or a read is
not harmless. -/
theorem memcachedFilter_exact_iff (n : Nat) (hn : n < 2 ^ 63) (reads : List Received) :
    ExactOver n reads ↔
      n + memcachedEndLen < 2 ^ 63 ∧
        ∀ init read rest, reads = init ++ read :: rest → Harmless n (streamOf init) read.bytes := by
  by_cases hfits : n + memcachedEndLen < 2 ^ 63
  · exact (exact_iff_of_tracks hfits reads (tracks_initial hfits)).trans
      (iff_and_self.mpr fun _ => hfits)
  refine iff_of_false ?_ fun h => hfits h.1
  intro hexact
  obtain ⟨u, hrun, h⟩ := hexact [] reads rfl
  obtain rfl := some.inj hrun
  have hlength := h.length.1
  have hinitial : (initial n).length = signed (n + memcachedEndLen) := by
    rw [initial, filterInit, if_pos (by decide)]
  have hwrapped : signed (n + memcachedEndLen) = n + memcachedEndLen - (2 ^ 64 : Nat) := by
    have hseven := memcachedEndLen_eq
    have hback := @Int.add_bmod_right (n + memcachedEndLen - (2 ^ 64 : Nat)) (2 ^ 64)
    rw [Int.sub_add_cancel] at hback
    exact hback.trans (signed_of_lt (by omega) (by omega))
  rw [hinitial, hwrapped, memcachedEndLen_eq] at hlength
  omega

/-- Two bytes and the trailer, cut in the trailer. -/
theorem memcachedFilter_exact_cut :
    ExactOver 2 [⟨ascii "ab" ++ [13], by decide, by decide⟩,
      ⟨[10] ++ ascii "END" ++ [13, 10], by decide, by decide⟩] := by
  refine (memcachedFilter_exact_iff 2 (by decide) _).mpr ⟨by decide, ?_⟩
  intro init read rest heq
  rcases cons_eq_append_iff.mp heq with ⟨rfl, hfirst⟩ | ⟨init, rfl, hsecond⟩
  · obtain ⟨rfl, -⟩ := cons.inj hfirst
    exact ⟨by decide, fun _ => by decide, fun _ => by decide⟩
  · rcases cons_eq_append_iff.mp hsecond with ⟨rfl, hsecond⟩ | ⟨init, rfl, hnone⟩
    · obtain ⟨rfl, -⟩ := cons.inj hsecond
      exact ⟨by decide, fun _ => by decide, fun _ => by decide⟩
    · exact absurd hnone.symm (append_ne_nil_of_right_ne_nil _ (cons_ne_nil _ _))

/-- A NUL byte behind the trailer is taken for the end of the constant. -/
theorem memcachedFilter_nul :
    ¬ExactOver 1 [⟨ascii "a" ++ trailer ++ [0], by decide, by decide⟩] := by
  intro hexact
  obtain ⟨u, hrun, h⟩ := hexact _ [] (append_nil _).symm
  have hlength : (filterAll (initial 1)
    [⟨ascii "a" ++ trailer ++ [0], by decide, by decide⟩]).map Upstream.length = some (-1) := by
    decide
  rw [hrun] at hlength
  exact absurd (some.inj hlength ▸ h.length.1) (by decide)

end Nginx.Http.Memcached
