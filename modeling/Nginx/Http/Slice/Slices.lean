/-
  Http/Slice/Slices.lean --- what slices are for: the bytes that a request asks for, and the
  slices that have them, one after the other; and what the range filter passes on of a chain.
-/
import Mathlib.Data.List.Infix
import Nginx.Http.RangeSet
import Nginx.Http.Slice.Filter

set_option autoImplicit false

namespace Nginx.Http.Slice

open List Foundation

/-- What the upstream has; it does not change. -/
structure Resource where
  bytes : Bytes
  etag : Option Bytes
  lastModified : Option Int
  some : 0 < bytes.length
  fits : (bytes.length : Int) ≤ maxOffT

/-- `bytes first-last/length` -/
def ContentRangeText (text : Bytes) (first last length : Nat) : Prop :=
  ∃ a b c, Number a ∧ Number b ∧ Number c ∧ decimal a = first ∧
    decimal b = last ∧ decimal c = length ∧
    text = ascii "bytes " ++ (a ++ chr '-' :: (b ++ chr '/' :: c))

/-- A right answer to a request for the bytes `first` to `last`. -/
structure Answers (resource : Resource) (first last : Nat) (a : Answer) : Prop where
  inside : first < resource.bytes.length ∧ first ≤ last
  status : a.status = 206
  etag : a.etag = resource.etag
  lastModified : a.lastModified = resource.lastModified
  contentRange : ∃ text, a.contentRange = some text ∧
    ContentRangeText text first (min last (resource.bytes.length - 1)) resource.bytes.length
  body : a.body = (resource.bytes.take (last + 1)).drop first

/-- What a request asks for: the whole resource, or a range. -/
inductive Asks (req : Request) (resource : Resource) : Option (Nat × Nat) → Prop where
  | whole (h : req.range.bind bytesRange = none) : Asks req resource none
  | changed
    (h : ifRangeHolds req resource.etag resource.lastModified = false) : Asks req resource none
  | range {text : Bytes} {specs : List ByteRange} {first stop : Nat}
    (h : req.range.bind bytesRange = some text)
      (hasks : AsksFor text specs)
        (hone : satisfiable resource.bytes.length specs = [⟨first, stop⟩])
      (hholds : ifRangeHolds req resource.etag resource.lastModified = true) : Asks req resource
        (some (first, stop))

/-- The first byte that is asked for, and the end. -/
def bounds (resource : Resource) (asked : Option (Nat × Nat)) :
    Nat × Nat := asked.getD (0, resource.bytes.length)

/-- The bytes that are asked for. -/
def wanted (resource : Resource) (asked : Option (Nat × Nat)) : Bytes :=
  (resource.bytes.take (bounds resource asked).2).drop (bounds resource asked).1

/-- The slices that have bytes from `a` up to `b`, by their starts. -/
def slicesOf (size a b : Nat) :
    List Nat := (List.range' (a / size) ((b - 1) / size + 1 - a / size)).map (size * ·)

/-- The first slice that is requested, where nothing is known of the resource. -/
def firstSlice (conf : Conf) (req : Request) :
    Nat := conf.size * (((getStart req).getD 0).toNat / conf.size)

/-- The slices that are asked for, behind the first one where that is not one of them. -/
def requested (conf : Conf) (req : Request) (resource : Resource) (asked : Option (Nat × Nat)) :
    List Nat :=
  let slices := slicesOf conf.size (bounds resource asked).1 (bounds resource asked).2
  if firstSlice conf req ∈ slices then slices else firstSlice conf req :: slices

/-- The numbers that are computed are values of `off_t`. -/
structure Fits (conf : Conf) (req : Request) (resource : Resource) (asked : Option (Nat × Nat)) :
    Prop where
  slices : ∀ t ∈ requested conf req resource asked, ((t + conf.size : Nat) : Int) ≤ maxOffT
  next : asked ≠ none →
    ((min (firstSlice conf req + conf.size) resource.bytes.length + conf.size : Nat) : Int) ≤
    maxOffT

/-- `bytes=first-last` of a slice -/
def sliceBounds (conf : Conf) (t : Nat) : Int × Int := ((t : Int), (t : Int) + conf.size - 1)

/-- The answers that come are right. -/
def Right (resource : Resource) (s : Session) (event : Event) : Prop :=
  ∀ a, event = .header a →
    ∀ range ∈ s.requests.getLast?, Answers resource range.1.toNat range.2.toNat a

/-- The states that a request comes to. -/
inductive Run (conf : Conf) (req : Request) (resource : Resource) : Session → Prop where
  | start {s : Session} (h : Session.start conf req = some s) : Run conf req resource s
  | step {s s' : Session} (h : Run conf req resource s) (event : Event)
    (hright : Right resource s event)
      (hstep : s.step conf req event = some s') : Run conf req resource s'

/-- The bytes of buffers. -/
def data (bufs : List Buf) : Bytes := bufs.flatMap Buf.bytes

/-- What there is to do still, of `total` slices. -/
def rank (conf : Conf) (total : Nat) (s : Session) : Nat :=
  match s.ctx with
  | none => 0
  | some ctx =>
    (total - s.requests.length) * (conf.size + 5) +
      match s.feed with
      | .awaits _ => conf.size + 4
      | .reads _ left => left.length + 3
      | .nothing => if ctx.sr = some false then 2 else 1

/-- The slices from `next` on that begin before `b`. -/
def slicesFrom (size next b : Nat) : List Nat :=
  if 0 < size ∧ next < b then next :: slicesFrom size (next + size) b else []
termination_by b - next

theorem slicesFrom_of_lt {size next b : Nat} (hsize : 0 < size) (h : next < b) :
    slicesFrom size next b = next :: slicesFrom size (next + size) b := by
  rw [slicesFrom, if_pos ⟨hsize, h⟩]

theorem slicesFrom_of_le {size next b : Nat} (h : b ≤ next) : slicesFrom size next b = [] := by
  rw [slicesFrom, if_neg fun hlt => not_lt.mpr h hlt.2]

theorem slicesFrom_min {size next b length : Nat} (hle : b ≤ length) :
    slicesFrom size (min next length) b = slicesFrom size next b := by
  rcases le_total next length with h | h
  · rw [min_eq_left h]
  · rw [Nat.min_eq_right h, slicesFrom_of_le hle, slicesFrom_of_le (le_trans hle h)]

theorem slicesFrom_eq {size k b : Nat} (hsize : 0 < size) :
    slicesFrom size (size * k) b = (List.range' k ((b + size - 1) / size - k)).map (size * ·) := by
  by_cases h : size * k < b
  · have hcount : k + 1 ≤ (b + size - 1) / size := by
      rw [Nat.le_div_iff_mul_le hsize, Nat.add_mul, Nat.one_mul, mul_comm]
      omega
    have hsucc : (b + size - 1) / size - k = ((b + size - 1) / size - (k + 1)) + 1 := by omega
    rw [slicesFrom_of_lt hsize h, hsucc, List.range'_succ, map_cons,
      ← Nat.mul_succ, slicesFrom_eq hsize]
  · have hcount : (b + size - 1) / size ≤ k := by
      rw [← Nat.lt_add_one_iff, Nat.div_lt_iff_lt_mul hsize, Nat.add_mul, Nat.one_mul, mul_comm]
      omega
    rw [slicesFrom_of_le (not_lt.mp h), Nat.sub_eq_zero_of_le hcount]
    rfl
termination_by b - size * k
decreasing_by
  have hle : size * k.succ = size * k + size := Nat.mul_succ size k
  omega

theorem slicesOf_eq {size a b : Nat} (hsize : 0 < size) (hb : 0 < b) :
    slicesOf size a b = slicesFrom size (size * (a / size)) b := by
  have hcount : (b + size - 1) / size = (b - 1) / size + 1 := by
    have hsum : b + size - 1 = (b - 1) + size := by omega
    rw [hsum, Nat.add_div_right _ hsize]
  rw [slicesFrom_eq hsize, slicesOf, hcount]

theorem mem_slicesOf {size a b k : Nat} (hsize : 0 < size) :
    size * k ∈ slicesOf size a b ↔ a / size ≤ k ∧
      k < a / size + ((b - 1) / size + 1 - a / size) := by
  rw [slicesOf, mem_map]
  constructor
  · rintro ⟨j, hj, heq⟩
    obtain rfl := Nat.eq_of_mul_eq_mul_left hsize heq
    exact mem_range'_1.mp hj
  · exact fun hk => ⟨k, mem_range'_1.mpr hk, rfl⟩

/-- The slices requested are those that the range meets, the first one apart. -/
theorem requested_eq {size g a b length : Nat} (hsize : 0 < size) (hg : g ≤ a)
    (hab : a < b) (hb : b ≤ length) {next : Nat}
    (hnext : next = if min (size * (g / size) + size) length + size ≤ a then size * (a / size)
      else min (size * (g / size) + size) length) :
    (if size * (g / size) ∈ slicesOf size a b then slicesOf size a b else size *
      (g / size) :: slicesOf size a b) =
      size * (g / size) :: slicesFrom size next b := by
  have hle : g / size ≤ a / size := Nat.div_le_div_right hg
  have hlow : size * (a / size) ≤ a := Nat.mul_div_le a size
  have hhigh : a < size * (a / size) + size := by
    have hmod := Nat.div_add_mod a size
    have hlt := Nat.mod_lt a hsize
    omega
  have hone : a / size ≤ (b - 1) / size := Nat.div_le_div_right (by omega)
  rcases Nat.lt_or_ge (g / size) (a / size) with hlt | hge
  · -- the first slice is before what is asked for
    have hstep : size * (g / size) + size ≤ size * (a / size) := by
      rw [← Nat.mul_succ]
      exact Nat.mul_le_mul_left _ hlt
    have hmem : size * (g / size) ∉ slicesOf size a b := fun hmem => by
      have hk := (mem_slicesOf hsize).mp hmem
      omega
    have hmin : min (size * (g / size) + size) length = size * (g / size) + size :=
      min_eq_left (by omega)
    have hsame : next = size * (a / size) := by
      rw [hnext, hmin]
      split
      · rfl
      next hnot =>
      rcases Nat.lt_or_ge (g / size + 1) (a / size) with hmore | hle'
      · have hstep' : size * (g / size) + size + size ≤ size * (a / size) := by
          have hmul : size * (g / size + 1 + 1) ≤ size * (a / size) := Nat.mul_le_mul_left _ hmore
          rw [Nat.mul_succ, Nat.mul_succ] at hmul
          exact hmul
        omega
      · have heq : g / size + 1 = a / size := by omega
        rw [← heq, Nat.mul_succ]
    rw [if_neg hmem, hsame, slicesOf_eq hsize (by omega)]
  · have heq : g / size = a / size := by omega
    have hmem : size * (g / size) ∈ slicesOf size a b := (mem_slicesOf hsize).mpr (by omega)
    rw [heq] at hmem hnext ⊢
    have hnot : ¬ min (size * (a / size) + size) length + size ≤ a := by omega
    rw [if_pos hmem, slicesOf_eq hsize (by omega), slicesFrom_of_lt hsize (by omega),
      hnext, if_neg hnot, slicesFrom_min hb]

theorem data_nil : data [] = [] := rfl

theorem data_cons (b : Buf) (bufs : List Buf) :
    data (b :: bufs) = b.bytes ++ data bufs := flatMap_cons

theorem data_append (bufs more : List Buf) :
    data (bufs ++ more) = data bufs ++ data more := flatMap_append

/-- Buffers that the range filter is handed: none is the last one, and those without data are empty.
-/
structure Plain (b : Buf) : Prop where
  notLast : b.lastBuf = false
  empty : b.data = false → b.bytes = []

theorem Plain.special {b : Buf} (h : Plain b) (hspecial : b.special = true) : b.bytes = [] := by
  refine h.empty ?_
  rw [Buf.special, Bool.and_eq_true, Bool.not_eq_true'] at hspecial
  exact hspecial.2

/-- The bytes from `a` up to `b` of those before `pos`. -/
def upTo (bytes : Bytes) (a b pos : Nat) : Bytes := (bytes.take (min pos b)).drop a

theorem upTo_add {bytes : Bytes} {a b pos : Nat} (n : Nat) (hpos : pos ≤ bytes.length) :
    upTo bytes a b pos ++ (((((bytes.drop pos).take n)).take (b - pos)).drop (a - pos)) =
      upTo bytes a b (pos + n) := by
  rw [upTo, upTo, take_take]
  rcases le_total pos b with hle | hle
  · have hsum : min (pos + n) b = pos + min (b - pos) n := by omega
    rw [min_eq_left hle, hsum, take_add, drop_append, length_take, min_eq_left hpos]
  · have hsum : min (pos + n) b = b := by omega
    rw [Nat.min_eq_right hle, hsum, Nat.sub_eq_zero_of_le hle, Nat.zero_min,
      take_zero, drop_nil, append_nil]

variable {bytes : Bytes}

theorem upTo_full {a b pos : Nat} (h : b ≤ pos) : upTo bytes a b pos = (bytes.take b).drop a := by
  rw [upTo, Nat.min_eq_right h]

theorem upTo_of_le {a b pos : Nat} (h : pos ≤ a) : upTo bytes a b pos = [] := by
  rw [upTo, drop_eq_nil_iff, length_take]
  omega

theorem upTo_prefix {a b : Nat} (pos : Nat) : upTo bytes a b pos <+: (bytes.take b).drop a := by
  rcases le_total b pos with hle | hle
  · rw [upTo_full hle]
  rw [upTo, min_eq_left hle]
  have hsplit : bytes.take b = bytes.take pos ++ (bytes.drop pos).take (b - pos) := by
    rw [← take_add, Nat.add_sub_cancel' hle]
  rw [hsplit, drop_append]
  exact prefix_append _ _

/-! ## One range -/

/-- A buffer that ends the range may be marked. -/
def Marks (main : Bool) (ends : Prop) (b : Buf) :
    Prop := b.lastBuf = true → b.data = true ∧ main = true ∧ ends

theorem Plain.marks {b : Buf} (h : Plain b) {main : Bool} {ends : Prop} :
    Marks main ends b := fun hlast => by
  rw [h.notLast] at hlast
  cases hlast

theorem offT_nat {n : Nat} (h : (n : Int) ≤ maxOffT) : offT n = some (n : Int) :=
  offT_eq (by rw [maxOffT]; omega) h

section Cut

variable {a b offset : Nat} {front rest : Bytes}

theorem cut_before (h : b ≤ offset) (l : Bytes) (k : Nat) : (l.take (b - offset)).drop k = [] := by
  rw [Nat.sub_eq_zero_of_le h, take_zero, drop_nil]

theorem cut_over (hb : offset + front.length < b) :
    ((front ++ rest).take (b - offset)).drop (a - offset) =
      front.drop (a - offset) ++
        (rest.take (b - (offset + front.length))).drop (a - (offset + front.length)) := by
  have hpast : front.length ≤ b - offset := by omega
  have hstop : b - offset - front.length = b - (offset + front.length) := Nat.sub_sub _ _ _
  have hstart : a - offset - front.length = a - (offset + front.length) := Nat.sub_sub _ _ _
  rw [take_append, take_of_length_le hpast, drop_append, hstop, hstart]

theorem cut_after (h : offset + front.length ≤ a) (hab : a < b) :
    ((front ++ rest).take (b - offset)).drop (a - offset) =
    (rest.take (b - (offset + front.length))).drop (a - (offset + front.length)) := by
  rw [cut_over (by omega), drop_eq_nil_of_le (by omega), nil_append]

theorem cut_within (h : b ≤ offset + front.length) (k : Nat) :
    ((front ++ rest).take (b - offset)).drop k = (front.take (b - offset)).drop k := by
  rw [take_append_of_le_length (by omega)]

end Cut

/-- The body filter of one range on buffers of a slice. -/
theorem singlepartBody_spec (main : Bool) {a b : Nat} (hab : a < b) :
    ∀ {bufs : List Buf} {offset : Nat},
    (∀ x ∈ bufs, Plain x) → ((offset + (data bufs).length : Nat) : Int) ≤ maxOffT →
    ∃ (passed : List Buf) (offset' : Nat),
      singlepartBody main ⟨a, b⟩ offset bufs = some (passed, (offset' : Int)) ∧
      data passed = ((data bufs).take (b - offset)).drop (a - offset) ∧
      offset' ≤ offset + (data bufs).length ∧
        (offset' = offset + (data bufs).length ∨ b ≤ offset') ∧
      ∀ x ∈ passed, Marks main (b ≤ offset + (data bufs).length) x := by
  intro bufs
  induction bufs with
  | nil =>
    intro offset _ _
    exact ⟨[], offset, rfl, by rw [data_nil, take_nil, drop_nil], Nat.le_add_right _ _, .inl rfl,
      fun x hx => absurd hx not_mem_nil⟩
  | cons x rest ih =>
    intro offset hplain hmax
    have hx := hplain x mem_cons_self
    rw [data_cons, length_append] at hmax ⊢
    obtain ⟨passed, offset', hrest, hdata, hle, hend, hmarks⟩ := @ih (offset + x.bytes.length)
      (fun y hy => hplain y (mem_cons_of_mem _ hy)) (by rw [add_assoc]; exact hmax)
    rw [add_assoc] at hle hend hmarks
    have hlast : offT ((offset : Int) + x.bytes.length) =
      some ((offset + x.bytes.length : Nat) : Int) := by
      rw [← Nat.cast_add]
      exact offT_nat (by omega)
    rw [singlepartBody, hlast]
    simp only [hrest, Option.map_some]
    split
    · next hspecial =>
      have hempty := hx.special hspecial
      rw [hempty, length_nil, add_zero] at hdata
      refine ⟨x :: passed, offset', rfl, ?_, hle, hend, fun y hy => ?_⟩
      · rw [data_cons, hempty, nil_append, nil_append, hdata]
      · rcases mem_cons.mp hy with rfl | hy
        · exact hx.marks
        · exact hmarks y hy
    · split
      · next hskip =>
        refine ⟨passed, offset', rfl, ?_, hle, hend, hmarks⟩
        rw [hdata]
        rcases hskip with hbefore | hafter
        · have hb : b ≤ offset := by exact_mod_cast hbefore
          rw [cut_before hb, cut_before (by omega)]
        · have ha : offset + x.bytes.length ≤ a := by exact_mod_cast hafter
          rw [cut_after ha hab]
      · next hmeet =>
        have hb : offset < b := by
          have hnot := (not_or.mp hmeet).1
          omega
        have ha : a < offset + x.bytes.length := by
          have hnot := (not_or.mp hmeet).2
          omega
        have hfront : (if (a : Int) > offset then ((a : Int) - offset).toNat else 0) =
          a - offset := by
          split <;> omega
        rw [hfront]
        split
        · next hends =>
          have hstop : b ≤ offset + x.bytes.length := by exact_mod_cast hends
          have hkept : x.bytes.length -
            (((offset + x.bytes.length : Nat) : Int) - (b : Int)).toNat = b - offset := by omega
          have hdata : x.data = true := by
            by_contra hnone
            have hempty := congrArg List.length (hx.empty (Bool.eq_false_iff.mpr hnone))
            rw [length_nil] at hempty
            omega
          rw [hkept]
          refine ⟨_, offset + x.bytes.length, rfl, ?_, by omega, .inr hstop, fun y hy => ?_⟩
          · rw [data_cons, data_nil, append_nil, cut_within hstop]
          · rw [mem_singleton.mp hy]
            exact fun hmain => ⟨hdata, hmain, by omega⟩
        · next hmore =>
          have hstop : offset + x.bytes.length < b := by
            have hnot := hmore
            omega
          refine ⟨{ x with bytes := x.bytes.drop (a - offset) } :: passed,
            offset', rfl, ?_, hle, hend, fun y hy => ?_⟩
          · rw [data_cons, hdata, cut_over hstop]
          · rcases mem_cons.mp hy with rfl | hy
            · exact hx.marks
            · exact hmarks y hy

/-! ## The range filter -/

/-- Where the range filter is: at `pos`, or past its range. -/
def RangeAt (ctx : Option RangeCtx) (asked : Option (Nat × Nat)) (pos : Nat) : Prop :=
  match asked with
  | none => ctx = none
  | some (a, b) =>
    ∃ offset : Nat, ctx = some { ranges := [⟨a, b⟩], offset := offset } ∧
      offset ≤ pos ∧ (offset = pos ∨ b ≤ offset)

theorem rangeBodyFilter_spec {main : Bool} {ctx : Option RangeCtx}
    {asked : Option (Nat × Nat)} {resource : Resource}
    {pos n : Nat} {bufs : List Buf} (hctx : RangeAt ctx asked pos)
    (hasked : (bounds resource asked).1 < (bounds resource asked).2) (hplain : ∀ x ∈ bufs, Plain x)
    (hdata : data bufs = (resource.bytes.drop pos).take n)
    (hpos : pos + n ≤ resource.bytes.length) :
    ∃ passed ctx', rangeBodyFilter main ctx bufs = some (passed, ctx') ∧
      RangeAt ctx' asked (pos + n) ∧
      upTo resource.bytes (bounds resource asked).1 (bounds resource asked).2 pos ++ data passed =
        upTo resource.bytes (bounds resource asked).1 (bounds resource asked).2 (pos + n) ∧
      ∀ x ∈ passed, Marks main (asked ≠ none ∧ (bounds resource asked).2 ≤ pos + n) x := by
  have hlength : (data bufs).length = n := by
    rw [hdata, length_take, length_drop]
    omega
  cases asked with
  | none =>
    have hnone : ctx = none := hctx
    subst hnone
    refine ⟨bufs, none, rfl, rfl, ?_, fun x hx => (hplain x hx).marks⟩
    have hadd := @upTo_add resource.bytes 0 resource.bytes.length pos n (by omega)
    rw [take_take, Nat.zero_sub, drop_zero, Nat.min_eq_right (by omega)] at hadd
    rw [hdata]
    exact hadd
  | some asked =>
    obtain ⟨a, b⟩ := asked
    obtain ⟨offset, rfl, hle, hat⟩ := hctx
    have hfits := resource.fits
    obtain ⟨passed, offset', hrun, hpassed, hle', hend, hmarks⟩ :=
      @singlepartBody_spec main a b hasked bufs offset hplain (by omega)
    rw [hlength] at hle' hend hmarks
    refine ⟨passed, _, by
      rw [rangeBodyFilter, hrun]; rfl, ⟨offset', rfl, by omega, by omega⟩, ?_, fun x hx hlast => ?_⟩
    · have hadd := @upTo_add resource.bytes a b pos n (by omega)
      rw [← hdata] at hadd
      rw [hpassed]
      rcases hat with rfl | hpast
      · exact hadd
      · rw [cut_before hpast]
        rw [cut_before (le_trans hpast hle)] at hadd
        exact hadd
    · obtain ⟨hdata', hmain, hends⟩ := hmarks x hx hlast
      exact ⟨hdata', hmain, Option.some_ne_none _, le_trans hends (by omega)⟩

/-! ## Buffers of an answer -/

theorem cut_spec : ∀ (cuts : List Nat) (left : Bytes),
    data (cut cuts left).1 ++ (cut cuts left).2 = left ∧
      ∀ x ∈ (cut cuts left).1, x.lastBuf = false ∧ x.data = true := by
  intro cuts
  induction cuts with
  | nil => exact fun left => ⟨rfl, fun x hx => absurd hx not_mem_nil⟩
  | cons n cuts ih =>
    intro left
    obtain ⟨hsplit, hplain⟩ := ih (left.drop n)
    refine ⟨?_, fun x hx => ?_⟩
    · rw [cut, data_cons, append_assoc, hsplit]
      exact take_append_drop n left
    · rcases mem_cons.mp hx with rfl | hx
      · exact ⟨rfl, rfl⟩
      · exact hplain x hx

theorem data_chain (main : Bool) (ending : Ending) (bufs : List Buf) :
    data (chain main ending bufs) = data bufs := by
  cases ending with
  | more => rfl
  | special => exact (data_append _ _).trans (append_nil _)
  | marked =>
    rw [chain]
    cases hlast : bufs.getLast? with
    | none => rfl
    | some b =>
      have hsplit := dropLast_append_getLast? b hlast
      simp only
      rw [data_append, ← congrArg data hsplit, data_append]
      rfl

/-- The buffers of a chain: with data, or empty; one may be the last one of a main request. -/
theorem chain_spec {main : Bool} {ending : Ending} {bufs : List Buf}
    (hbufs : ∀ x ∈ bufs, x.lastBuf = false ∧ x.data = true) :
    ∀ x ∈ chain main ending bufs, (x.lastBuf = true → main = true) ∧
      (x.data = false → x.bytes = []) := by
  have hplain : ∀ x ∈ bufs, (x.lastBuf = true → main = true) ∧ (x.data = false → x.bytes = []) := by
    intro x hx
    obtain ⟨hlast, hdata⟩ := hbufs x hx
    refine ⟨fun h => ?_, fun h => ?_⟩
    · rw [hlast] at h
      cases h
    · rw [hdata] at h
      cases h
  cases ending with
  | more => exact hplain
  | special =>
    intro x hx
    rcases mem_append.mp hx with hx | hx
    · exact hplain x hx
    · rw [mem_singleton.mp hx]
      exact ⟨fun h => h, fun _ => rfl⟩
  | marked =>
    rw [chain]
    cases hlast : bufs.getLast? with
    | none => exact hplain
    | some b =>
      intro x hx
      rcases mem_append.mp hx with hx | hx
      · exact hplain x (mem_of_mem_dropLast hx)
      · have hb := hplain b (mem_of_getLast? hlast)
        rw [mem_singleton.mp hx]
        exact ⟨fun h => h, hb.2⟩

theorem any_chain {ending : Ending} {bufs : List Buf}
    (hbufs : ∀ x ∈ bufs, x.lastBuf = false ∧ x.data = true)
    (hsome : ending = .marked → bufs ≠ []) :
    (chain true ending bufs).any Buf.lastBuf = decide (ending ≠ .more) := by
  cases ending with
  | more =>
    have hnone : bufs.any Buf.lastBuf = false := any_eq_false.mpr fun x hx => by
      rw [(hbufs x hx).1]
      exact Bool.false_ne_true
    exact hnone
  | special =>
    rw [chain, any_append]
    exact Bool.or_true _
  | marked =>
    have hlast : bufs.getLast? = some (bufs.getLast (hsome rfl)) :=
      getLast?_eq_some_getLast (hsome rfl)
    rw [chain, hlast]
    simp only [any_append]
    exact Bool.or_true _

theorem data_takeLast (bufs : List Buf) : data (bufs.map takeLast) = data bufs := by
  rw [data, data, flatMap_map]
  refine flatMap_congr fun x _ => ?_
  rw [takeLast]
  split <;> rfl

theorem plain_takeLast {x : Buf} (h : x.data = false → x.bytes = []) : Plain (takeLast x) := by
  rw [takeLast]
  split
  · exact ⟨rfl, h⟩
  · next hnot => exact ⟨Bool.eq_false_iff.mpr hnot, h⟩

end Nginx.Http.Slice
