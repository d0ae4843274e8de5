/-
  Http/Parse/ChunkedGrammar.lean --- which streams the chunked parser accepts.

  The grammar of a chunked body is

      *(hex-size [ext] eol data eol) zero-size [ext] eol *(line eol) eol

  with `eol` a `CR LF` or a lone `LF`, and exactly as many bytes of data as the
  size says.  A `Message` is a derivation of a wider grammar, which allows
  junk, bytes other than `CR` and `LF`, between the data of a chunk and the
  line end behind them: the state `sw_after_data` has no transition for such a
  byte and stays.  A derivation without junk is one of the grammar proper.
-/
import Nginx.Http.Parse.ChunkedStream

set_option autoImplicit false

namespace Nginx.Http.Parse

open List Foundation Option
open Foundation.Machine

/-! ## The grammar -/

/-- The number that hexadecimal digits continue. -/
def hexValue (n : Nat) (digits : Bytes) : Nat :=
  digits.foldl (fun n ch => n * 16 + (hexDigit? ch).getD 0) n

/-- Hexadecimal digits only. -/
def AllHex (digits : Bytes) : Prop := ∀ ch ∈ digits, (hexDigit? ch).isSome = true

/-- A chunk size: at least one hexadecimal digit. -/
def IsSize (digits : Bytes) : Prop := digits ≠ [] ∧ AllHex digits

/-- A chunk extension: nothing, or a semicolon or blank and the rest of the
line. -/
def IsExt (ext : Bytes) : Prop :=
  ext = [] ∨ ∃ ch line, ext = ch :: line ∧ (ch = chr ';' ∨ ch = chr ' ' ∨ ch = chr '\t') ∧
    NoEol line

/-- The text of one chunk. -/
structure Chunk where
  size : Bytes
  ext : Bytes
  eol : Bytes
  data : Bytes
  junk : Bytes
  dataEol : Bytes

def Chunk.text (c : Chunk) : Bytes :=
  c.size ++ (c.ext ++ (c.eol ++ (c.data ++ (c.junk ++ c.dataEol))))

structure Chunk.Wf (c : Chunk) : Prop where
  size : IsSize c.size
  value : hexValue 0 c.size = c.data.length
  data : c.data ≠ []
  ext : IsExt c.ext
  eol : IsEol c.eol
  junk : NoEol c.junk
  dataEol : IsEol c.dataEol

/-- A trailer line. -/
structure TrailerLine where
  line : Bytes
  eol : Bytes

def TrailerLine.text (t : TrailerLine) : Bytes := t.line ++ t.eol

structure TrailerLine.Wf (t : TrailerLine) : Prop where
  ne_nil : t.line ≠ []
  line : NoEol t.line
  eol : IsEol t.eol

/-- The text of a whole body. -/
structure Message where
  chunks : List Chunk
  zero : Bytes
  ext : Bytes
  eol : Bytes
  trailers : List TrailerLine
  lastEol : Bytes

namespace Message

/-- The text behind the last chunk's size line. -/
def trailerText (m : Message) : Bytes := m.trailers.flatMap TrailerLine.text ++ m.lastEol

def text (m : Message) : Bytes :=
  m.chunks.flatMap Chunk.text ++ (m.zero ++ (m.ext ++ (m.eol ++ m.trailerText)))

/-- The concatenated chunk bodies. -/
def data (m : Message) : Bytes := m.chunks.flatMap Chunk.data

/-- The concatenated junk. -/
def junk (m : Message) : Bytes := m.chunks.flatMap Chunk.junk

structure Wf (m : Message) : Prop where
  chunks : ∀ c ∈ m.chunks, c.Wf
  zero : IsSize m.zero
  value : hexValue 0 m.zero = 0
  ext : IsExt m.ext
  eol : IsEol m.eol
  trailers : ∀ t ∈ m.trailers, t.Wf
  lastEol : IsEol m.lastEol

/-- Some chunk is larger than the parser's overflow guard allows. -/
def Oversize (m : Message) : Prop := ∃ c ∈ m.chunks, ngxMaxOffTValue / 16 < c.data.length

end Message

/-! ## Sizes -/

theorem hexValue_cons (n : Nat) (ch : Byte) (digits : Bytes) :
    hexValue n (ch :: digits) = hexValue (n * 16 + (hexDigit? ch).getD 0) digits := rfl

theorem le_hexValue (digits : Bytes) : ∀ n, n ≤ hexValue n digits := by
  induction digits with
  | nil => exact fun n => le_refl n
  | cons ch digits ih =>
    intro n
    have hnext := ih (n * 16 + (hexDigit? ch).getD 0)
    rw [hexValue_cons]
    omega

variable {digits : Bytes}

variable {ch : Byte}

theorem allHex_cons :
    AllHex (ch :: digits) ↔ (hexDigit? ch).isSome = true ∧ AllHex digits := by
  simp [AllHex]

variable {data junk : Bytes}

variable {size : Nat}

theorem byteStep_digit {v : Nat} (hsize : size ≤ ngxMaxOffTValue / 16)
    (hv : hexDigit? ch = some v) :
    byteStep ⟨.chunkSize, size, data, junk⟩ ch = .next ⟨.chunkSize, size * 16 + v, data, junk⟩ := by
  rw [byteStep_of_ne ChunkState.noConfusion]
  simp only [chunkStep, gt_iff_lt, Nat.not_lt_of_le hsize, if_false, hv, reduceCtorEq,
    false_and]

theorem byteStep_large (hsize : ngxMaxOffTValue / 16 < size) (ch : Byte) :
    byteStep ⟨.chunkSize, size, data, junk⟩ ch = .halt .invalid := by
  rw [byteStep_of_ne ChunkState.noConfusion]
  simp only [chunkStep, gt_iff_lt, hsize, if_true]

theorem feed_digits (hhex : AllHex digits) : ∀ (size : Nat) (rest : Bytes),
    hexValue size digits ≤ ngxMaxOffTValue / 16 →
    feed byteStep ⟨.chunkSize, size, data, junk⟩ (digits ++ rest) =
      feed byteStep ⟨.chunkSize, hexValue size digits, data, junk⟩ rest := by
  induction digits with
  | nil => exact fun _ _ _ => rfl
  | cons ch digits ih =>
    intro size rest hvalue
    obtain ⟨hch, hhex⟩ := allHex_cons.mp hhex
    obtain ⟨v, hv⟩ := isSome_iff_exists.mp hch
    rw [hexValue_cons, hv, getD_some] at hvalue ⊢
    have hle := le_hexValue digits (size * 16 + v)
    rw [cons_append, feed_cons_next (byteStep_digit (by omega) hv), ih hhex _ _ hvalue]

theorem feed_digits_large (hhex : AllHex digits) :
    ∀ (size : Nat) (ch : Byte) (rest : Bytes), ngxMaxOffTValue / 16 < hexValue size digits →
    ∃ rest', feed byteStep ⟨.chunkSize, size, data, junk⟩ (digits ++ ch :: rest) =
      .halted .invalid rest' := by
  induction digits with
  | nil => exact fun size ch rest hlarge => ⟨rest, feed_cons_halt (byteStep_large hlarge ch) rest⟩
  | cons d digits ih =>
    intro size ch rest hlarge
    obtain ⟨hd, hhex⟩ := allHex_cons.mp hhex
    obtain ⟨v, hv⟩ := isSome_iff_exists.mp hd
    by_cases hsize : size ≤ ngxMaxOffTValue / 16
    · rw [hexValue_cons, hv, getD_some] at hlarge
      rw [cons_append, feed_cons_next (byteStep_digit hsize hv)]
      exact ih hhex _ ch rest hlarge
    · rw [cons_append]
      exact ⟨_, feed_cons_halt (byteStep_large (not_le.mp hsize) d) _⟩

theorem byteStep_chunkStart {v : Nat} (hv : hexDigit? ch = some v) :
    byteStep ⟨.chunkStart, size, data, junk⟩ ch = .next ⟨.chunkSize, v, data, junk⟩ := by
  rw [byteStep_of_ne ChunkState.noConfusion]
  simp only [chunkStep, hv, reduceCtorEq, false_and, if_false]

/-! ## Line ends -/

/-- A pair of states that skips to a line end and collects nothing. -/
theorem skipsLine_of_chunkStep {skip almost target : ChunkState}
    (hskip : ∀ ch, chunkStep skip size ch = if ch = cr then .next almost size
      else if ch = lf then .next target size else .next skip size)
    (halmost : ∀ ch, chunkStep almost size ch = if ch = lf then .next target size else .invalid)
    (hne : skip ≠ .chunkData ∧ skip ≠ .afterData ∧ almost ≠ .chunkData ∧ almost ≠ .afterData)
    (data junk : Bytes) :
    SkipsLine byteStep (fun _ => ⟨skip, size, data, junk⟩) (fun _ => ⟨almost, size, data, junk⟩)
      (fun _ => ⟨target, size, data, junk⟩) .invalid := by
  obtain ⟨hskip₁, hskip₂, halmost₁, halmost₂⟩ := hne
  exact
  { skip_cr := fun _ => by
      rw [byteStep_of_ne hskip₁, hskip]
      simp [hskip₂]
    skip_lf := fun _ => by
      rw [byteStep_of_ne hskip₁, hskip]
      simp [hskip₂, cr, lf]
    skip_other := fun _ ch hcr hlf => by
      rw [byteStep_of_ne hskip₁, hskip]
      simp [hskip₂, hcr, hlf]
    almost_lf := fun _ => by
      rw [byteStep_of_ne halmost₁, halmost]
      simp [halmost₂]
    almost_other := fun _ ch hlf => by
      rw [byteStep_of_ne halmost₁, halmost]
      simp [hlf] }

theorem skips_extension (size : Nat) (data junk : Bytes) :
    SkipsLine byteStep (fun _ => ⟨.chunkExtension, size, data, junk⟩)
      (fun _ => ⟨.chunkExtensionAlmostDone, size, data, junk⟩)
      (fun _ => ⟨.chunkData, size, data, junk⟩) .invalid :=
  skipsLine_of_chunkStep (fun _ => rfl) (fun _ => rfl) (by decide) data junk

theorem skips_lastExtension (size : Nat) (data junk : Bytes) :
    SkipsLine byteStep (fun _ => ⟨.lastChunkExtension, size, data, junk⟩)
      (fun _ => ⟨.lastChunkExtensionAlmostDone, size, data, junk⟩)
      (fun _ => ⟨.trailer, size, data, junk⟩) .invalid :=
  skipsLine_of_chunkStep (fun _ => rfl) (fun _ => rfl) (by decide) data junk

theorem skips_trailerHeader (size : Nat) (data junk : Bytes) :
    SkipsLine byteStep (fun _ => ⟨.trailerHeader, size, data, junk⟩)
      (fun _ => ⟨.trailerHeaderAlmostDone, size, data, junk⟩)
      (fun _ => ⟨.trailer, size, data, junk⟩) .invalid :=
  skipsLine_of_chunkStep (fun _ => rfl) (fun _ => rfl) (by decide) data junk

theorem skips_afterData (size : Nat) (data junk : Bytes) :
    SkipsLine byteStep (fun l => ⟨.afterData, size, data, junk ++ l⟩)
      (fun l => ⟨.afterDataAlmostDone, size, data, junk ++ l⟩)
      (fun l => ⟨.chunkStart, size, data, junk ++ l⟩) .invalid where
  skip_cr _ := rfl
  skip_lf _ := rfl
  skip_other l ch hcr hlf := by
    rw [byteStep_of_ne ChunkState.noConfusion]
    simp [chunkStep, hcr, hlf]
  almost_lf _ := rfl
  almost_other l ch hlf := by
    rw [byteStep_of_ne ChunkState.noConfusion]
    simp [chunkStep, hlf]

/-- The rest of a size line, behind the digits: the last chunk, of size zero,
is told from the others here. -/
def afterSizeLine (size : Nat) (data junk : Bytes) : ByteState :=
  ⟨if size = 0 then .trailer else .chunkData, size, data, junk⟩

theorem skips_sizeLine (size : Nat) (data junk : Bytes) :
    SkipsLine byteStep
      (fun _ => ⟨if size = 0 then .lastChunkExtension else .chunkExtension, size, data, junk⟩)
      (fun _ => ⟨if size = 0 then .lastChunkExtensionAlmostDone else .chunkExtensionAlmostDone,
        size, data, junk⟩)
      (fun _ => afterSizeLine size data junk) .invalid := by
  by_cases hzero : size = 0
  · simp only [hzero, if_true, afterSizeLine]
    exact skips_lastExtension 0 data junk
  · simp only [hzero, if_false, afterSizeLine]
    exact skips_extension size data junk

theorem byteStep_behind_digits (data junk : Bytes) (hsize : size ≤ ngxMaxOffTValue / 16)
    (hch : hexDigit? ch = none) :
    byteStep ⟨.chunkSize, size, data, junk⟩ ch =
      if ch = cr then
        .next ⟨if size = 0 then .lastChunkExtensionAlmostDone else .chunkExtensionAlmostDone,
          size, data, junk⟩
      else if ch = lf then .next (afterSizeLine size data junk)
      else if ch = chr ';' ∨ ch = chr ' ' ∨ ch = chr '\t' then
        .next ⟨if size = 0 then .lastChunkExtension else .chunkExtension, size, data, junk⟩
      else .halt .invalid := by
  rw [byteStep_of_ne ChunkState.noConfusion]
  simp only [chunkStep, gt_iff_lt, Nat.not_lt_of_le hsize, if_false, hch, afterSizeLine]
  by_cases hzero : size = 0
  · simp only [hzero, if_true]
    repeat' split
    all_goals simp_all
  · simp only [hzero, if_false]
    repeat' split
    all_goals simp_all

theorem feed_ext_eol {ext eol : Bytes} (hsize : size ≤ ngxMaxOffTValue / 16)
    (hext : IsExt ext) (heol : IsEol eol) (rest : Bytes) :
    feed byteStep ⟨.chunkSize, size, data, junk⟩ (ext ++ (eol ++ rest)) =
      feed byteStep (afterSizeLine size data junk) rest := by
  rcases hext with rfl | ⟨ch, line, rfl, hch, hline⟩
  · rw [nil_append]
    rcases heol with rfl | rfl
    · have hcr := byteStep_behind_digits data junk hsize hexDigit?_cr
      rw [if_pos rfl] at hcr
      rw [cons_append, feed_cons_next hcr, cons_append, nil_append]
      exact feed_cons_next ((skips_sizeLine size data junk).almost_lf []) rest
    · have hlf := byteStep_behind_digits data junk hsize hexDigit?_lf
      rw [if_neg (by decide), if_pos rfl] at hlf
      rw [cons_append, feed_cons_next hlf, nil_append]
  · have hnone : hexDigit? ch = none ∧ ch ≠ cr ∧ ch ≠ lf := by
      rcases hch with rfl | rfl | rfl <;> decide
    have hstep := byteStep_behind_digits data junk hsize hnone.1
    rw [if_neg hnone.2.1, if_neg hnone.2.2, if_pos hch] at hstep
    rw [cons_append, feed_cons_next hstep]
    exact (skips_sizeLine size data junk).feed_line hline heol [] rest

/-! ## Derivations are accepted -/

theorem feed_chunkData (junk : Bytes) {l : Bytes} (hlen : size = l.length)
    (hne : l ≠ []) (rest : Bytes) :
    feed byteStep ⟨.chunkData, size, data, junk⟩ (l ++ rest) =
      feed byteStep ⟨.afterData, 0, data ++ l, junk⟩ rest := by
  have hsize : size ≠ 0 := hlen ▸ ne_of_gt (length_pos_of_ne_nil hne)
  rw [feed_data data junk rest l size (Nat.le_of_eq hlen.symm) hsize hne, if_pos hlen.symm,
    hlen, Nat.sub_self]

theorem feed_size (hsize : IsSize digits)
    (hvalue : hexValue 0 digits ≤ ngxMaxOffTValue / 16) (size : Nat) (rest : Bytes) :
    feed byteStep ⟨.chunkStart, size, data, junk⟩ (digits ++ rest) =
      feed byteStep ⟨.chunkSize, hexValue 0 digits, data, junk⟩ rest := by
  obtain ⟨hne, hhex⟩ := hsize
  cases digits with
  | nil => exact absurd rfl hne
  | cons ch digits =>
    obtain ⟨hch, hhex⟩ := allHex_cons.mp hhex
    obtain ⟨v, hv⟩ := isSome_iff_exists.mp hch
    rw [hexValue_cons, hv, getD_some, zero_mul, zero_add] at hvalue ⊢
    rw [cons_append, feed_cons_next (byteStep_chunkStart hv), feed_digits hhex _ _ hvalue]

theorem feed_chunk {c : Chunk} (hc : c.Wf) (hfit : c.data.length ≤ ngxMaxOffTValue / 16)
    (size : Nat) (rest : Bytes) :
    feed byteStep ⟨.chunkStart, size, data, junk⟩ (c.text ++ rest) =
      feed byteStep ⟨.chunkStart, 0, data ++ c.data, junk ++ c.junk⟩ rest := by
  have hvalue : hexValue 0 c.size ≤ ngxMaxOffTValue / 16 := hc.value.symm ▸ hfit
  have hpos : hexValue 0 c.size ≠ 0 := by
    rw [hc.value]
    exact ne_of_gt (length_pos_of_ne_nil hc.data)
  simp only [Chunk.text, append_assoc]
  rw [feed_size hc.size hvalue, feed_ext_eol hvalue hc.ext hc.eol, afterSizeLine, if_neg hpos,
    feed_chunkData junk hc.value hc.data]
  have hline := (skips_afterData 0 (data ++ c.data) junk).feed_line hc.junk hc.dataEol [] rest
  simpa using hline

theorem feed_chunk_large {c : Chunk} (hc : c.Wf) (hlarge : ngxMaxOffTValue / 16 < c.data.length)
    (size : Nat) (rest : Bytes) :
    ∃ rest', feed byteStep ⟨.chunkStart, size, data, junk⟩ (c.text ++ rest) =
      .halted .invalid rest' := by
  obtain ⟨⟨hne, hhex⟩, hvalue, -, -, heol, -, -⟩ := hc
  rw [← hvalue] at hlarge
  -- there is a byte behind the digits, of the extension or of the line end
  obtain ⟨ch, tail, htail⟩ : ∃ ch tail,
      c.ext ++ (c.eol ++ (c.data ++ (c.junk ++ (c.dataEol ++ rest)))) = ch :: tail := by
    cases hext : c.ext with
    | cons ch ext => exact ⟨ch, _, rfl⟩
    | nil => rcases heol with heol | heol <;> rw [heol] <;> exact ⟨_, _, rfl⟩
  simp only [Chunk.text, append_assoc, htail]
  cases hdigits : c.size with
  | nil => exact absurd hdigits hne
  | cons d digits =>
    rw [hdigits] at hhex hlarge
    obtain ⟨hd, hhex⟩ := allHex_cons.mp hhex
    obtain ⟨v, hv⟩ := isSome_iff_exists.mp hd
    rw [hexValue_cons, hv, getD_some, zero_mul, zero_add] at hlarge
    rw [cons_append, feed_cons_next (byteStep_chunkStart hv)]
    exact feed_digits_large hhex v ch tail hlarge

theorem feed_chunks {chunks : List Chunk} (hchunks : ∀ c ∈ chunks, c.Wf)
    (hfit : ∀ c ∈ chunks, c.data.length ≤ ngxMaxOffTValue / 16) (data junk rest : Bytes) :
    feed byteStep ⟨.chunkStart, 0, data, junk⟩ (chunks.flatMap Chunk.text ++ rest) =
      feed byteStep ⟨.chunkStart, 0, data ++ chunks.flatMap Chunk.data,
        junk ++ chunks.flatMap Chunk.junk⟩ rest := by
  induction chunks generalizing data junk with
  | nil => simp
  | cons c chunks ih =>
    obtain ⟨hc, hchunks⟩ := forall_mem_cons.mp hchunks
    obtain ⟨hcfit, hfit⟩ := forall_mem_cons.mp hfit
    rw [flatMap_cons, append_assoc, feed_chunk hc hcfit, ih hchunks hfit]
    simp only [flatMap_cons, append_assoc]

theorem feed_chunks_large {chunks : List Chunk} (hchunks : ∀ c ∈ chunks, c.Wf)
    (hlarge : ∃ c ∈ chunks, ngxMaxOffTValue / 16 < c.data.length) (data junk rest : Bytes) :
    ∃ rest', feed byteStep ⟨.chunkStart, 0, data, junk⟩ (chunks.flatMap Chunk.text ++ rest) =
      .halted .invalid rest' := by
  induction chunks generalizing data junk with
  | nil =>
    obtain ⟨c, hc, -⟩ := hlarge
    exact absurd hc not_mem_nil
  | cons c chunks ih =>
    obtain ⟨hc, hchunks⟩ := forall_mem_cons.mp hchunks
    rw [flatMap_cons, append_assoc]
    by_cases hfit : c.data.length ≤ ngxMaxOffTValue / 16
    · rw [feed_chunk hc hfit]
      obtain ⟨c', hc', hlarge⟩ := hlarge
      rcases mem_cons.mp hc' with rfl | hmem
      · exact absurd hfit (Nat.not_le_of_lt hlarge)
      · exact ih hchunks ⟨c', hmem, hlarge⟩ _ _
    · exact feed_chunk_large hc (not_le.mp hfit) 0 _

theorem feed_zero {zero ext eol : Bytes} (hzero : IsSize zero)
    (hvalue : hexValue 0 zero = 0) (hext : IsExt ext)
    (heol : IsEol eol) (data junk rest : Bytes) :
    feed byteStep ⟨.chunkStart, 0, data, junk⟩ (zero ++ (ext ++ (eol ++ rest))) =
      feed byteStep ⟨.trailer, 0, data, junk⟩ rest := by
  have hguard : hexValue 0 zero ≤ ngxMaxOffTValue / 16 := by
    rw [hvalue]
    exact Nat.zero_le _
  rw [feed_size hzero hguard, feed_ext_eol hguard hext heol, hvalue, afterSizeLine, if_pos rfl]

theorem feed_trailer {t : TrailerLine} (ht : t.Wf) (size : Nat) (rest : Bytes) :
    feed byteStep ⟨.trailer, size, data, junk⟩ (t.text ++ rest) =
      feed byteStep ⟨.trailer, size, data, junk⟩ rest := by
  obtain ⟨line, eol⟩ := t
  obtain ⟨hne, hline, heol⟩ := ht
  cases line with
  | nil => exact absurd rfl hne
  | cons ch line =>
    obtain ⟨⟨hcr, hlf⟩, hline⟩ := noEol_cons.mp hline
    have hstep : byteStep ⟨.trailer, size, data, junk⟩ ch =
        .next ⟨.trailerHeader, size, data, junk⟩ := by
      rw [byteStep_of_ne ChunkState.noConfusion]
      simp [chunkStep, hcr, hlf]
    simp only [TrailerLine.text, append_assoc]
    rw [cons_append, feed_cons_next hstep]
    exact (skips_trailerHeader size data junk).feed_line hline heol [] rest

theorem feed_lastEol {eol : Bytes} (heol : IsEol eol) (size : Nat) (rest : Bytes) :
    feed byteStep ⟨.trailer, size, data, junk⟩ (eol ++ rest) = .halted (.done data junk) rest := by
  rcases heol with rfl | rfl <;> rfl

theorem feed_trailers {ts : List TrailerLine} (hts : ∀ t ∈ ts, t.Wf) {eol : Bytes}
    (heol : IsEol eol) (size : Nat) (rest : Bytes) :
    feed byteStep ⟨.trailer, size, data, junk⟩ (ts.flatMap TrailerLine.text ++ (eol ++ rest)) =
      .halted (.done data junk) rest := by
  induction ts with
  | nil => exact feed_lastEol heol size rest
  | cons t ts ih =>
    rw [flatMap_cons, append_assoc, feed_trailer (hts t mem_cons_self)]
    exact ih fun t' ht' => hts t' (mem_cons_of_mem t ht')

theorem feed_message {m : Message} (hm : m.Wf) (hfit : ¬ m.Oversize) (rest : Bytes) :
    feed byteStep ⟨.chunkStart, 0, [], []⟩ (m.text ++ rest) =
      .halted (.done m.data m.junk) rest := by
  have hfits : ∀ c ∈ m.chunks, c.data.length ≤ ngxMaxOffTValue / 16 := fun c hc =>
    not_lt.mp fun hlarge => hfit ⟨c, hc, hlarge⟩
  simp only [Message.text, Message.trailerText, append_assoc]
  rw [feed_chunks hm.chunks hfits, feed_zero hm.zero hm.value hm.ext hm.eol,
    feed_trailers hm.trailers hm.lastEol]
  rfl

theorem feed_message_large {m : Message} (hm : m.Wf) (hlarge : m.Oversize) (rest : Bytes) :
    ∃ rest', feed byteStep ⟨.chunkStart, 0, [], []⟩ (m.text ++ rest) =
      .halted .invalid rest' := by
  rw [Message.text, append_assoc]
  exact feed_chunks_large hm.chunks hlarge [] [] _

/-! ## Accepted streams have a derivation -/

theorem exists_size {input : Bytes} {data' junk' rest : Bytes}
    (hrun : feed byteStep ⟨.chunkSize, size, data, junk⟩ input = .halted (.done data' junk') rest) :
    ∃ digits ext eol input', AllHex digits ∧ IsExt ext ∧ IsEol eol ∧
      input = digits ++ (ext ++ (eol ++ input')) ∧
      hexValue size digits ≤ ngxMaxOffTValue / 16 ∧
      feed byteStep (afterSizeLine (hexValue size digits) data junk) input' =
        .halted (.done data' junk') rest := by
  induction input generalizing size with
  | nil => exact absurd hrun (by simp)
  | cons ch input ih =>
    by_cases hsize : size ≤ ngxMaxOffTValue / 16
    case neg =>
      rw [feed_cons_halt (byteStep_large (not_le.mp hsize) ch)] at hrun
      cases hrun
    cases hch : hexDigit? ch with
    | some v =>
      rw [feed_cons_next (byteStep_digit hsize hch)] at hrun
      obtain ⟨digits, ext, eol, input', hhex, hext, heol, rfl, hvalue, hrest⟩ := ih hrun
      refine ⟨ch :: digits, ext, eol, input', ?_, hext, heol, rfl, ?_, ?_⟩
      · exact allHex_cons.mpr ⟨by rw [hch]; rfl, hhex⟩
      · rwa [hexValue_cons, hch, getD_some]
      · rwa [hexValue_cons, hch, getD_some]
    | none =>
      have hstep := byteStep_behind_digits data junk hsize hch
      by_cases hcr : ch = cr
      · rw [if_pos hcr] at hstep
        rw [feed_cons_next hstep] at hrun
        cases input with
        | nil => exact absurd hrun (by simp)
        | cons ch₂ input =>
          by_cases hlf₂ : ch₂ = lf
          · refine ⟨[], [], [cr, lf], input, by simp [AllHex], Or.inl rfl, Or.inl rfl,
              by rw [hcr, hlf₂]; rfl, hsize, ?_⟩
            rw [hlf₂, feed_cons_next ((skips_sizeLine size data junk).almost_lf [])] at hrun
            exact hrun
          · rw [feed_cons_halt ((skips_sizeLine size data junk).almost_other [] ch₂ hlf₂)] at hrun
            cases hrun
      · rw [if_neg hcr] at hstep
        by_cases hlf : ch = lf
        · rw [if_pos hlf] at hstep
          rw [feed_cons_next hstep] at hrun
          exact ⟨[], [], [lf], input, by simp [AllHex], Or.inl rfl, Or.inr rfl,
            by rw [hlf]; rfl, hsize, hrun⟩
        rw [if_neg hlf] at hstep
        by_cases hblank : ch = chr ';' ∨ ch = chr ' ' ∨ ch = chr '\t'
        · rw [if_pos hblank] at hstep
          rw [feed_cons_next hstep] at hrun
          obtain ⟨line, eol, input', hline, heol, rfl, hrest⟩ :=
            (skips_sizeLine size data junk).exists_line (by simp) [] hrun
          exact ⟨[], ch :: line, eol, input', by simp [AllHex],
            Or.inr ⟨ch, line, rfl, hblank, hline⟩, heol, rfl, hsize, hrest⟩
        · rw [if_neg hblank] at hstep
          rw [feed_cons_halt hstep] at hrun
          cases hrun

end Nginx.Http.Parse
