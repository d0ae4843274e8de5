/-
  Http/Charset/Recode.lean --- one buffer recoded, and a character cut between buffers.

  The characters of a text become others one by one.  The loop at `recode:` writes the
  text recoded and saves what is unfinished.  `Fits held bytes more` is what a buffer
  has to be like behind the incomplete sequence `held`.  Where it does, the recoding
  goes on as for the whole text; where it does not, a byte outside of the buffer is
  read, or a later buffer makes it be read, or the end of the response is lost.
-/
import Nginx.Http.Charset.Filter

set_option autoImplicit false

namespace Nginx.Http.Charset

open List Foundation Nginx.Core

/-- The values of the sequences of a text from its beginning, and the incomplete sequence
at its end; an ASCII byte is its own value. -/
def readPoints : Nat → Bytes → List Nat × Bytes
  | 0, src => ([], src)
  | _ + 1, [] => ([], [])
  | turns + 1, c :: rest =>
    if c < 0x80 then
      let (points, left) := readPoints turns rest
      (c.toNat :: points, left)
    else if Utf8Complete (c :: rest) then
      let (n, passed) := utf8Decode (c :: rest)
      let (points, left) := readPoints turns ((c :: rest).drop passed)
      (n :: points, left)
    else ([], c :: rest)

/-- The characters of a text. -/
def codePoints (src : Bytes) : List Nat := (readPoints src.length src).1

/-- The incomplete sequence at the end of a text. -/
def unfinished (src : Bytes) : Bytes := (readPoints src.length src).2

/-- A character below `0x80` stays, another one is replaced. -/
def recodePoint (table : Table) (n : Nat) :
    Bytes := if n < 0x80 then [UInt8.ofNat n] else replacement table n

/-- A text recoded as a whole. -/
def recoded (table : Table) (src : Bytes) : Bytes := (codePoints src).flatMap (recodePoint table)

attribute [local simp] recoded readPoints

/-! ## Reading -/

variable {c : Byte} {rest : Bytes}

theorem drop_passed_lt (h : Utf8Complete (c :: rest)) :
    ((c :: rest).drop (utf8Decode (c :: rest)).2).length < (c :: rest).length := by
  obtain ⟨hpos, -, -⟩ := utf8Decode_passed h
  rw [length_drop]
  exact Nat.sub_lt (Nat.succ_pos _) hpos

theorem readPoints_of_le {turns : Nat} {src : Bytes} (h : src.length ≤ turns) :
    readPoints turns src = readPoints src.length src := by
  induction hlen : src.length using Nat.strong_induction_on generalizing turns src with
  | _ len ih =>
    subst hlen
    cases src with
    | nil => cases turns <;> rfl
    | cons c rest =>
      cases turns with
      | zero => exact absurd h (Nat.not_succ_le_zero _)
      | succ turns =>
        have hrest : rest.length ≤ turns := Nat.le_of_succ_le_succ h
        rw [length_cons, readPoints, readPoints]
        split
        · rw [ih rest.length (Nat.lt_succ_self _) hrest rfl]
        split
        · next hcomplete =>
          have hlt := drop_passed_lt hcomplete
          have hle := Nat.le_of_lt_succ hlt
          have hshort := ih _ hlt (hle.trans hrest) rfl
          have hlong := ih _ hlt hle rfl
          simp only [hshort, hlong]
        · rfl

theorem codePoints_nil : codePoints [] = [] := rfl

theorem codePoints_ascii (hc : c < 0x80) (rest : Bytes) :
    codePoints (c :: rest) = c.toNat :: codePoints rest ∧
      unfinished (c :: rest) = unfinished rest := by
  simp only [codePoints, unfinished, length_cons, readPoints, if_pos hc, and_self]

theorem codePoints_complete {c : Byte} {rest : Bytes} (hc : ¬ c < 0x80)
    (h : Utf8Complete (c :: rest)) :
    codePoints (c :: rest) =
        (utf8Decode (c :: rest)).1 :: codePoints ((c :: rest).drop (utf8Decode (c :: rest)).2) ∧
      unfinished (c :: rest) = unfinished ((c :: rest).drop (utf8Decode (c :: rest)).2) := by
  have hle := Nat.le_of_lt_succ (drop_passed_lt h)
  simp only [codePoints, unfinished, length_cons, readPoints, if_neg hc,
    if_pos h, readPoints_of_le hle, and_self]

theorem codePoints_incomplete (hc : ¬ c < 0x80) (h : ¬ Utf8Complete (c :: rest)) :
    codePoints (c :: rest) = [] ∧ unfinished (c :: rest) = c :: rest := by
  simp only [codePoints, unfinished, length_cons, readPoints, if_neg hc, if_neg h, and_self]

theorem codePoints_append (x y : Bytes) :
    codePoints (x ++ y) = codePoints x ++ codePoints (unfinished x ++ y) ∧
      unfinished (x ++ y) = unfinished (unfinished x ++ y) := by
  induction hlen : x.length using Nat.strong_induction_on generalizing x with
  | _ len ih =>
    subst hlen
    cases x with
    | nil => exact ⟨rfl, rfl⟩
    | cons c rest =>
      by_cases hc : c < 0x80
      · obtain ⟨hpoints, hleft⟩ := codePoints_ascii hc rest
        obtain ⟨hpoints', hleft'⟩ := codePoints_ascii hc (rest ++ y)
        obtain ⟨ihPoints, ihLeft⟩ := ih rest.length (Nat.lt_succ_self _) rest rfl
        rw [cons_append, hpoints', hleft', hpoints, hleft, ihPoints, ihLeft]
        exact ⟨rfl, rfl⟩
      by_cases hcomplete : Utf8Complete (c :: rest)
      · obtain ⟨-, hpassed, -⟩ := utf8Decode_passed hcomplete
        obtain ⟨hpoints, hleft⟩ := codePoints_complete hc hcomplete
        have hwhole := @codePoints_complete _ (rest ++ y) hc (hcomplete.append y)
        rw [← cons_append, utf8Decode_append hcomplete, drop_append_of_le_length hpassed]
          at hwhole
        obtain ⟨ihPoints, ihLeft⟩ := ih _ (drop_passed_lt hcomplete) _ rfl
        rw [hwhole.1, hwhole.2, hpoints, hleft, ihPoints, ihLeft]
        exact ⟨rfl, rfl⟩
      · obtain ⟨hpoints, hleft⟩ := codePoints_incomplete hc hcomplete
        rw [hpoints, hleft]
        exact ⟨rfl, rfl⟩

theorem recoded_append (table : Table) (x y : Bytes) :
    recoded table (x ++ y) = recoded table x ++ recoded table (unfinished x ++ y) := by
  rw [recoded, recoded, recoded, (codePoints_append x y).1, flatMap_append]

theorem unfinished_incomplete (src : Bytes) :
    unfinished src = [] ∨ ∃ c rest, unfinished src = c :: rest ∧ ¬ c < 0x80 ∧
      ¬ Utf8Complete (c :: rest) := by
  induction hlen : src.length using Nat.strong_induction_on generalizing src with
  | _ len ih =>
    subst hlen
    cases src with
    | nil => exact .inl rfl
    | cons c rest =>
      by_cases hc : c < 0x80
      · rw [(codePoints_ascii hc rest).2]
        exact ih rest.length (Nat.lt_succ_self _) rest rfl
      by_cases hcomplete : Utf8Complete (c :: rest)
      · rw [(codePoints_complete hc hcomplete).2]
        exact ih _ (drop_passed_lt hcomplete) _ rfl
      · rw [(codePoints_incomplete hc hcomplete).2]
        exact .inr ⟨c, rest, rfl, hc, hcomplete⟩

theorem unfinished_unfinished (src : Bytes) : unfinished (unfinished src) = unfinished src := by
  have happend := (codePoints_append src []).2
  rw [append_nil, append_nil] at happend
  exact happend.symm

theorem codePoints_ascii_append {head : Bytes} (h : ∀ c ∈ head, c < 0x80)
    (table : Table) (src : Bytes) :
    recoded table (head ++ src) = head ++ recoded table src ∧
      unfinished (head ++ src) = unfinished src := by
  induction head with
  | nil => exact ⟨rfl, rfl⟩
  | cons c head ih =>
    have hc := h c mem_cons_self
    obtain ⟨ihRecoded, ihLeft⟩ := ih fun c hmem => h c (mem_cons_of_mem _ hmem)
    obtain ⟨hpoints, hleft⟩ := codePoints_ascii hc (head ++ src)
    refine ⟨?_, ?_⟩
    · have hstay : recodePoint table c.toNat = [c] := by
        have hsmall : c.toNat < 0x80 := UInt8.lt_iff_toNat_lt.mp hc
        rw [recodePoint, if_pos hsmall, UInt8.ofNat_toNat]
      rw [cons_append, recoded, hpoints, flatMap_cons, hstay]
      exact congrArg (c :: ·) ihRecoded
    · rw [cons_append, hleft, ihLeft]

theorem recoded_complete (table : Table) (hc : ¬ c < 0x80) (h : Utf8Complete (c :: rest)) :
    recoded table (c :: rest) = replacement table (utf8Decode (c :: rest)).1 ++
      recoded table ((c :: rest).drop (utf8Decode (c :: rest)).2) := by
  rw [recoded, (codePoints_complete hc h).1, flatMap_cons, recodePoint, if_neg]
  · rfl
  · exact not_lt.mpr utf8Decode_value

/-- What the buffers of a chain hold. -/
def texts (chain : List Buf) : Bytes := chain.flatMap Buf.text

/-- How often `last_buf` is set. -/
def lasts (chain : List Buf) : Nat := chain.countP fun b => b.flags.lastBuf

@[simp] theorem texts_append (x y : List Buf) :
    texts (x ++ y) = texts x ++ texts y := flatMap_append

@[simp] theorem lasts_append (x y : List Buf) : lasts (x ++ y) = lasts x + lasts y := countP_append

theorem texts_singleton (b : Buf) : texts [b] = b.text := flatMap_singleton ..

theorem lasts_singleton (b : Buf) : lasts [b] = if b.flags.lastBuf then 1 else 0 :=
    countP_singleton ..

/-- Without `last_buf`. -/
def Plain (b : Buf) : Prop := b.flags.lastBuf = false

theorem plain_of_lasts {chain : List Buf} (h : lasts chain = 0) : ∀ b ∈ chain, Plain b := by
  intro b hb
  have hnot := countP_eq_zero.mp h b hb
  exact eq_false_of_ne_true hnot

/-- No buffer of the module that may be used again has `last_buf`. -/
structure Clean (ctx : Ctx) : Prop where
  free : ∀ b ∈ ctx.freeBuffers, Plain b
  busy : ∀ b ∈ ctx.busy, Plain b

/-! ## Buffers -/

theorem decimalLoop_length {d n : Nat} (hn : n < 10 ^ (d + 1)) (digits : Nat) (text : Bytes) :
    (decimalLoop digits n text).length ≤ text.length + (d + 1) := by
  induction digits generalizing d n text with
  | zero => exact Nat.le_add_right _ _
  | succ digits ih =>
    rw [decimalLoop]
    split
    · rw [length_cons]
      exact Nat.add_le_add_left (Nat.succ_le_succ (Nat.zero_le d)) _
    next hdiv =>
    cases d with
    | zero => exact absurd (Nat.div_eq_of_lt hn) hdiv
    | succ d =>
      have hnext : n / 10 < 10 ^ (d + 1) := Nat.div_lt_of_lt_mul (by rw [pow_succ'] at hn; exact hn)
      have hlength := ih hnext ((chr '0' + UInt8.ofNat (n % 10)) :: text)
      rw [length_cons] at hlength
      omega

theorem replacement_length (table : Table) (n : Nat) :
    (replacement table n).length ≤ htmlEntityLen := by
  have hentity : n ≤ 0x10ffff → (entity n).length ≤ htmlEntityLen := by
    intro hn
    have hdigits := decimalLoop_length (d := 6) (lt_of_le_of_lt hn (by decide)) 10 []
    have hlength : (entity n).length = 2 + (decimalLoop 10 n []).length + 1 := by
      rw [entity, length_append, length_append]
      rfl
    rw [hlength, htmlEntityLen]
    rw [length_nil] at hdigits
    omega
  rw [replacement]
  split
  · next hn =>
    simp only
    split
    · exact Nat.succ_le_of_lt (by decide)
    · exact hentity (hn.le.trans (by decide))
  · split
    · exact Nat.succ_le_of_lt (by decide)
    · next hn => exact hentity (not_lt.mp hn)

/-- A buffer to write into. -/
structure Room (size : Nat) (b : Buf) : Prop where
  memory : b.memory = true
  empty : b.bytes = []
  capacity : size ≤ b.capacity
  plain : Plain b

theorem takeFree_spec {size : Nat} {l rest : List Buf} {b : Buf} (hl : ∀ x ∈ l, Plain x)
    (h : takeFree size l = some (b, rest)) : Room size b ∧ ∀ x ∈ rest, Plain x := by
  induction l generalizing rest with
  | nil => cases h
  | cons x l ih =>
    have hx := hl x mem_cons_self
    have hl' : ∀ y ∈ l, Plain y := fun y hy => hl y (mem_cons_of_mem _ hy)
    rw [takeFree] at h
    split at h
    · next hsize =>
      rw [Option.some.injEq, Prod.mk.injEq] at h
      obtain ⟨rfl, rfl⟩ := h
      exact ⟨⟨rfl, rfl, hsize, hx⟩, hl'⟩
    obtain ⟨found, hfound, heq⟩ := Option.map_eq_some_iff.mp h
    rw [Prod.mk.injEq] at heq
    obtain ⟨rfl, rfl⟩ := heq
    obtain ⟨hroom, hrest⟩ := ih hl' hfound
    refine ⟨hroom, fun y hy => ?_⟩
    rcases mem_cons.mp hy with rfl | hy
    · exact hx
    · exact hrest y hy

theorem getBuffer_spec {ctx : Ctx} (hclean : Clean ctx) (size : Nat) :
    Room size (getBuffer ctx size).1 ∧ Clean (getBuffer ctx size).2 ∧
      (getBuffer ctx size).2.saved = ctx.saved ∧ (getBuffer ctx size).2.busy = ctx.busy := by
  rw [getBuffer]
  cases hfree : takeFree size ctx.freeBuffers with
  | none => exact ⟨⟨rfl, rfl, le_rfl, rfl⟩, hclean, rfl, rfl⟩
  | some found =>
    obtain ⟨b, rest⟩ := found
    obtain ⟨hroom, hrest⟩ := takeFree_spec hclean.free hfree
    exact ⟨hroom, ⟨hrest, hclean.busy⟩, rfl, rfl⟩

theorem write_ok {b : Buf} {bytes : Bytes} (hroom : htmlEntityLen ≤ b.capacity - b.bytes.length)
    (hbytes : bytes.length ≤ htmlEntityLen) :
    b.write bytes = .ok { b with bytes := b.bytes ++ bytes } := by
  have hpos : 0 < htmlEntityLen := Nat.succ_pos _
  rw [Buf.write, if_pos]
  omega

/-! ## The loop -/

/-- What recoding a buffer comes to: `text` is passed on, `saved` is left, and
`last_buf` is passed on `last` times. -/
structure Recoded (ctx : Ctx) (result : Except Fault (List Buf × Ctx))
    (text saved : Bytes) (last : Nat) : Prop where
  ok : ∃ out ctx', result = .ok (out, ctx') ∧ texts out = text ∧
    lasts out = last ∧ ctx'.saved = saved ∧ Clean ctx' ∧
    ctx'.busy = ctx.busy

theorem Recoded.congr {ctx ctx' : Ctx} {result : Except Fault (List Buf × Ctx)}
    {text text' saved saved' : Bytes}
    {last last' : Nat} (h : Recoded ctx' result text' saved' last')
    (htext : text' = text) (hsaved : saved' = saved)
    (hlast : last' = last) (hbusy : ctx'.busy = ctx.busy) : Recoded ctx result text saved last := by
  obtain ⟨out, ctx'', hok, houtput⟩ := h.ok
  rw [htext, hlast, hsaved, hbusy] at houtput
  exact ⟨out, ctx'', hok, houtput⟩

/-- The buffer that is being written. -/
structure Writing (b : Buf) : Prop where
  memory : b.memory = true
  plain : Plain b

theorem makeRoom_spec {ctx : Ctx} (hclean : Clean ctx) (chain : List Buf)
    {b : Buf} (hb : Writing b) (src : Bytes) :
    let made := makeRoom ctx chain b src
    texts made.1 ++ made.2.1.bytes = texts chain ++ b.bytes ∧
      lasts made.1 = lasts chain ∧ Writing made.2.1 ∧
      htmlEntityLen ≤ made.2.1.capacity - made.2.1.bytes.length ∧
        Clean made.2.2 ∧ made.2.2.saved = ctx.saved ∧
      made.2.2.busy = ctx.busy := by
  have htext : b.text = b.bytes := if_pos hb.memory
  have hlast : lasts [b] = 0 := by rw [lasts_singleton, hb.plain]; rfl
  rw [makeRoom]
  split
  · obtain ⟨hroom, hclean', hsaved, hbusy⟩ := getBuffer_spec hclean (src.length + htmlEntityLen)
    refine ⟨?_, ?_, ⟨hroom.memory, hroom.plain⟩, ?_, hclean', hsaved, hbusy⟩
    · simp only [hroom.empty, texts_append, texts_singleton, htext, append_nil]
    · simp only [lasts_append, hlast, add_zero]
    · have hcapacity := hroom.capacity
      simp only [hroom.empty, length_nil]
      omega
  · next hroom => exact ⟨rfl, rfl, hb, not_lt.mp hroom, hclean, rfl, rfl⟩

theorem finish_spec {ctx : Ctx} (hclean : Clean ctx) (flags : Flags) (chain : List Buf) (b : Buf) :
    Recoded ctx (.ok (finish flags ctx chain b)) (texts chain ++ b.text) ctx.saved
      (lasts chain + if flags.lastBuf then 1 else 0) := by
  refine ⟨_, _, rfl, ?_, ?_, rfl, hclean, rfl⟩
  · rw [texts_append, texts_singleton]
    rfl
  · rw [lasts_append, lasts_singleton]

theorem save_incomplete {ctx : Ctx} (hsaved : ctx.saved = [])
    (h : ¬ Utf8Complete (c :: rest)) :
    ctx.save (c :: rest) (c :: rest).length = .ok { ctx with saved := c :: rest } := by
  have hlong := utf8Length_le c
  rw [Utf8Complete] at h
  rw [Ctx.save, hsaved, if_neg (lt_irrefl _), if_neg, take_length, nil_append]
  rw [length_nil, utfLen]
  omega

/-- The main loop writes the recoded text of complete characters and saves what is left. -/
theorem recodeLoop_spec (table : Table) (flags : Flags) {turns : Nat}
    {ctx : Ctx} {chain : List Buf} {b : Buf}
    {src : Bytes} (hturns : src.length ≤ turns) (hclean : Clean ctx)
    (hsaved : ctx.saved = []) (hb : Writing b) :
    Recoded ctx (recodeLoop table flags turns ctx chain b src)
      (texts chain ++ b.bytes ++ recoded table src)
      (unfinished src) (lasts chain + if flags.lastBuf then 1 else 0) := by
  have htext : ∀ x : Buf, Writing x → x.text = x.bytes := fun x hx => if_pos hx.memory
  induction turns generalizing ctx chain b src with
  | zero =>
    have hsrc : src = [] := length_eq_zero_iff.mp (Nat.le_zero.mp hturns)
    subst hsrc
    have hfinish := finish_spec hclean flags chain b
    rw [htext b hb, hsaved] at hfinish
    rw [recodeLoop, recoded, codePoints_nil, flatMap_nil, append_nil]
    exact hfinish
  | succ turns ih =>
    cases src with
    | nil =>
      have hfinish := finish_spec hclean flags chain b
      rw [htext b hb, hsaved] at hfinish
      rw [recodeLoop, recoded, codePoints_nil, flatMap_nil, append_nil]
      exact hfinish
    | cons c rest =>
      obtain ⟨hbytes, hlasts, hwriting, hroom, hclean', hsaved', hbusy'⟩ :=
        makeRoom_spec hclean chain hb (c :: rest)
      rw [hsaved] at hsaved'
      rw [recodeLoop]
      generalize makeRoom ctx chain b (c :: rest) = made at *
      obtain ⟨chain', b', ctx'⟩ := made
      simp only at hbytes hlasts hwriting hroom hclean' hsaved' hbusy' ⊢
      by_cases hc : c < 0x80
      · have hwrite := @write_ok _ [c] hroom (Nat.succ_le_of_lt (Nat.succ_pos _))
        have hnext := @ih _ chain' { b' with bytes := b'.bytes ++ [c] } rest
          (Nat.le_of_succ_le_succ hturns) hclean' hsaved' ⟨hwriting.memory, hwriting.plain⟩
        obtain ⟨hrecoded, hleft⟩ :=
          @codePoints_ascii_append [c] (fun x hx => mem_singleton.mp hx ▸ hc) table rest
        rw [if_pos hc]
        simp only [hwrite, bind, Except.bind]
        refine hnext.congr ?_ hleft.symm (by rw [hlasts]) hbusy'
        have hcons : recoded table (c :: rest) = [c] ++ recoded table rest := hrecoded
        rw [hcons, ← hbytes]
        simp only [append_assoc]
      · rw [if_neg hc]
        by_cases hcomplete : Utf8Complete (c :: rest)
        · have hn : (utf8Decode (c :: rest)).1 ≠ utf8Incomplete := fun h =>
            (utf8Decode_incomplete_iff (cons_ne_nil c rest)).mp h hcomplete
          have hwrite := write_ok hroom (replacement_length table (utf8Decode (c :: rest)).1)
          have hshort : ((c :: rest).drop (utf8Decode (c :: rest)).2).length ≤ turns :=
            Nat.le_of_lt_succ (Nat.lt_of_lt_of_le (drop_passed_lt hcomplete) hturns)
          have hnext := @ih _ chain'
            { b' with bytes := b'.bytes ++ replacement table (utf8Decode (c :: rest)).1 } _
            hshort hclean' hsaved' ⟨hwriting.memory, hwriting.plain⟩
          simp only [if_neg hn, hwrite, bind, Except.bind]
          refine hnext.congr ?_ (codePoints_complete hc hcomplete).2.symm (by rw [hlasts]) hbusy'
          rw [recoded_complete table hc hcomplete, ← hbytes]
          simp only [append_assoc]
        · have hn : (utf8Decode (c :: rest)).1 = utf8Incomplete :=
            (utf8Decode_incomplete_iff (cons_ne_nil c rest)).mpr hcomplete
          obtain ⟨hpoints, hleft⟩ := codePoints_incomplete hc hcomplete
          have hsave := save_incomplete hsaved' hcomplete
          simp only [if_pos hn, hsave, bind, Except.bind]
          refine (@finish_spec
            { ctx' with saved := c :: rest } ⟨hclean'.free, hclean'.busy⟩ flags chain' _).congr
            ?_ hleft.symm (by rw [hlasts]) hbusy'
          rw [recoded, hpoints, flatMap_nil, append_nil, ← hbytes]
          split
          · next hempty => rw [hempty]; rfl
          · rw [htext b' hwriting]

/-! ## A buffer where nothing is saved -/

theorem Room.writing {size : Nat} {b : Buf} (h : Room size b) : Writing b := ⟨h.memory, h.plain⟩

theorem ascii_head (src : Bytes) :
    src = src.takeWhile (· < 0x80) ++ src.dropWhile (· < 0x80) ∧
      (∀ c ∈ src.takeWhile (· < 0x80), c < 0x80) ∧
      ∀ c rest, src.dropWhile (· < 0x80) = c :: rest → ¬ c < 0x80 := by
  refine ⟨takeWhile_append_dropWhile.symm, fun c hc => ?_, fun c rest h hc => ?_⟩
  · exact of_decide_eq_true (all_eq_true.mp all_takeWhile c hc)
  · have hhead := head?_dropWhile_not (fun c : Byte => decide (c < 0x80)) src
    rw [h] at hhead
    simp [hc] at hhead

/-- A buffer where nothing is saved; one with `last_buf` ends with a character. -/
theorem recodeFresh_spec (table : Table) {ctx : Ctx} (hclean : Clean ctx)
    (hsaved : ctx.saved = []) {buf : Buf}
    (hmemory : buf.memory = true) (hlast : buf.flags.lastBuf = true → unfinished buf.bytes = []) :
    Recoded ctx (recodeFresh table ctx buf) (recoded table buf.bytes) (unfinished buf.bytes)
      (if buf.flags.lastBuf then 1 else 0) := by
  obtain ⟨hbytes, hhead, hfirst⟩ := ascii_head buf.bytes
  rw [recodeFresh]
  generalize buf.bytes.takeWhile (· < 0x80) = head at hbytes hhead ⊢
  generalize buf.bytes.dropWhile (· < 0x80) = src at hbytes hfirst ⊢
  obtain ⟨hrecoded, hleft⟩ := codePoints_ascii_append hhead table src
  have htext : buf.text = buf.bytes := if_pos hmemory
  simp only
  by_cases hsrc : src = []
  · subst hsrc
    rw [if_pos rfl]
    refine ⟨[buf], ctx, rfl, ?_, lasts_singleton buf, ?_, hclean, rfl⟩
    · rw [texts_singleton, htext, hbytes, hrecoded]
      rfl
    · rw [hsaved, hbytes, hleft]
      rfl
  · rw [if_neg hsrc]
    obtain ⟨c, rest, rfl⟩ := exists_cons_of_ne_nil hsrc
    have hc := hfirst c rest rfl
    by_cases hlong : 512 < head.length
    · rw [if_pos hlong]
      by_cases hcomplete : Utf8Complete (c :: rest)
      · have hn : (utf8Decode (c :: rest)).1 ≠ utf8Incomplete := fun h =>
          (utf8Decode_incomplete_iff (cons_ne_nil c rest)).mp h hcomplete
        rw [if_neg hn]
        obtain ⟨hroom, hclean', hsaved', hbusy'⟩ :=
          getBuffer_spec hclean (bufferSize (c :: rest).length)
        rw [hsaved] at hsaved'
        have hloop := @recodeLoop_spec table buf.flags _ _
          [{ getBuf head with memory := buf.memory, flags := { flush := buf.flags.flush } }] _ _
          (le_refl (c :: rest).length) hclean' hsaved' hroom.writing
        refine hloop.congr ?_ (by rw [← hleft, ← hbytes])
          (by rw [lasts_singleton]; exact zero_add _) hbusy'
        rw [hroom.empty, append_nil, texts_singleton, Buf.text, if_pos hmemory, hbytes, hrecoded]
        rfl
      · have hn : (utf8Decode (c :: rest)).1 = utf8Incomplete :=
          (utf8Decode_incomplete_iff (cons_ne_nil c rest)).mpr hcomplete
        obtain ⟨hpoints, hleft'⟩ := codePoints_incomplete hc hcomplete
        have hnot : ¬ buf.flags.lastBuf = true := by
          intro h
          have hnil := hlast h
          rw [hbytes, hleft, hleft'] at hnil
          exact cons_ne_nil c rest hnil
        rw [if_pos hn, if_neg hnot, save_incomplete hsaved hcomplete]
        refine ⟨_, _, rfl, ?_, ?_, ?_, ⟨hclean.free, hclean.busy⟩, rfl⟩
        · rw [texts_singleton, Buf.text, if_pos hmemory, hbytes, hrecoded, recoded, hpoints]
          exact (append_nil head).symm
        · rw [lasts_singleton]
          rfl
        · rw [hbytes, hleft, hleft']
    · rw [if_neg hlong]
      obtain ⟨hroom, hclean', hsaved', hbusy'⟩ :=
        getBuffer_spec hclean (bufferSize (head.length + (c :: rest).length))
      rw [hsaved] at hsaved'
      have hloop :=
        @recodeLoop_spec table buf.flags _ _ [] _ buf.bytes
          (le_rfl) hclean' hsaved' hroom.writing
      refine hloop.congr ?_ rfl (zero_add _) hbusy'
      rw [hroom.empty]
      rfl

/-- The number of bytes that the sequence at the head has. -/
def sequenceLength (held : Bytes) : Nat := held.head?.elim 0 utf8Length

/-- The buffer goes on behind the sequence that is held, of which no byte is text of its own; or
only the first byte is held, more buffers come, and the buffer is a part of the sequence. -/
def Fits (held bytes : Bytes) (more : Prop) : Prop :=
  (sequenceLength held < held.length + bytes.length ∧
    held.length ≤ (utf8Decode (held ++ bytes)).2) ∨
    (held.length = 1 ∧ more ∧ held.length + bytes.length ≤ sequenceLength held ∧
      (held.length + bytes.length = sequenceLength held →
        (utf8Decode (held ++ bytes)).2 = held.length + bytes.length))

/-! ## Filling `ctx->saved` -/

variable {bytes : Bytes}

theorem fillSaved_eq {room : Nat} (hroom : 0 < room) (saved : Bytes) (hne : bytes ≠ []) :
    fillSaved room saved bytes = (saved ++ bytes.take room,
      if bytes.length ≤ room then saved.length + bytes.length - 1 else saved.length + room) := by
  induction room generalizing saved bytes with
  | zero => exact absurd hroom (lt_irrefl 0)
  | succ room ih =>
    obtain ⟨c, p, rfl⟩ := exists_cons_of_ne_nil hne
    rw [fillSaved]
    by_cases hp : p = []
    · subst hp
      simp
    rw [if_neg hp]
    cases room with
    | zero =>
      have hpos := length_pos_iff.mpr hp
      rw [fillSaved]
      simp [hp]
    | succ room =>
      rw [ih (Nat.succ_pos _) (saved ++ [c]) hp]
      simp only [take_succ_cons, append_assoc, singleton_append, length_append, length_cons,
        length_nil, Nat.add_le_add_iff_right, Prod.mk.injEq, true_and]
      split <;> omega

theorem fillSaved_take {saved : Bytes} (hne : bytes ≠ []) (hlen : saved.length ≤ utfLen) :
    let filled := fillSaved (utfLen - saved.length) saved bytes
    filled.1.take filled.2 = (saved ++ bytes).take filled.2 ∧ filled.2 ≤ utfLen ∧
      filled.2 ≤ saved.length + bytes.length ∧
      (filled.2 = utfLen ∧ utfLen < saved.length + bytes.length ∨
        filled.2 + 1 = saved.length + bytes.length) := by
  have hpos := length_pos_iff.mpr hne
  by_cases hroom : 0 < utfLen - saved.length
  · rw [fillSaved_eq hroom saved hne]
    by_cases hshort : bytes.length ≤ utfLen - saved.length
    · simp only [if_pos hshort, take_of_length_le hshort]
      refine ⟨trivial, ?_, ?_, .inr ?_⟩ <;> omega
    simp only [if_neg hshort]
    refine ⟨?_, ?_, ?_, .inl ⟨?_, ?_⟩⟩
    · have hlength : saved.length + (utfLen - saved.length) = utfLen := by omega
      rw [hlength, take_append, take_append]
      rw [take_take]
      simp
    all_goals omega
  · have hfull : saved.length = utfLen := by omega
    have hzero : utfLen - saved.length = 0 := by omega
    rw [hzero, fillSaved]
    refine ⟨?_, hfull.le, Nat.le_add_right _ _, .inl ⟨hfull, by omega⟩⟩
    simp

/-! ## A buffer behind an incomplete sequence -/

/-- What is held begins with the first byte of a sequence. -/
structure Started (held : Bytes) : Prop where
  head : ∃ c rest, held = c :: rest ∧ ¬ c < 0x80
  length_le : held.length ≤ utfLen

variable {held : Bytes}

theorem Started.pos (h : Started held) : 0 < held.length := by
  obtain ⟨c, rest, rfl, -⟩ := h.head
  exact Nat.succ_pos _

theorem Started.complete_take_iff (h : Started held) {i : Nat} (hi : 0 < i)
    (hle : i ≤ held.length + bytes.length) :
    (held ++ bytes).take i ≠ [] ∧
      (Utf8Complete ((held ++ bytes).take i) ↔ sequenceLength held ≤ i) := by
  obtain ⟨c, rest, rfl, -⟩ := h.head
  obtain ⟨i, rfl⟩ := Nat.exists_eq_succ_of_ne_zero hi.ne'
  rw [cons_append, take_succ_cons]
  refine ⟨cons_ne_nil _ _, ?_⟩
  rw [Utf8Complete, length_cons, length_take, length_append, sequenceLength, head?_cons,
    Option.elim_some]
  rw [length_cons] at hle
  have hmin : min i (rest.length + bytes.length) = i := min_eq_left (by omega)
  rw [hmin]

theorem Started.sequenceLength_le (h : Started held) : sequenceLength held ≤ utfLen := by
  obtain ⟨c, rest, rfl, -⟩ := h.head
  exact utf8Length_le c

section Behind

variable {table : Table} {ctx : Ctx} {buf : Buf}

theorem recodeSaved_beyond (hclean : Clean ctx) (hstarted : Started ctx.saved)
    (hne : buf.bytes ≠ [])
    (hbeyond : sequenceLength ctx.saved < ctx.saved.length + buf.bytes.length) :
    ((utf8Decode (ctx.saved ++ buf.bytes)).2 < ctx.saved.length →
      recodeSaved table ctx buf = .error .read) ∧
      (ctx.saved.length ≤ (utf8Decode (ctx.saved ++ buf.bytes)).2 →
        Recoded ctx (recodeSaved table ctx buf) (recoded table (ctx.saved ++ buf.bytes))
          (unfinished (ctx.saved ++ buf.bytes)) (if buf.flags.lastBuf then 1 else 0)) := by
  obtain ⟨htake, -, hle, hend⟩ := fillSaved_take hne hstarted.length_le
  have hsequence := hstarted.sequenceLength_le
  have hutfLen : utfLen = 4 := rfl
  have hpos := hstarted.pos
  have hbytes := length_pos_iff.mpr hne
  rw [recodeSaved]
  generalize fillSaved (utfLen - ctx.saved.length) ctx.saved buf.bytes = filled at htake hle hend ⊢
  obtain ⟨saved, i⟩ := filled
  simp only at htake hle hend ⊢
  have hreach : sequenceLength ctx.saved ≤ i := by omega
  have hi : 0 < i := by omega
  obtain ⟨hnonempty, hiff⟩ := hstarted.complete_take_iff hi hle
  have hcomplete := hiff.mpr hreach
  have hdecode : utf8Decode (saved.take i) = utf8Decode (ctx.saved ++ buf.bytes) := by
    rw [htake, ← utf8Decode_append hcomplete ((ctx.saved ++ buf.bytes).drop i), take_append_drop]
  have hn : (utf8Decode (ctx.saved ++ buf.bytes)).1 ≠ utf8Incomplete := by
    rw [← hdecode, htake]
    exact fun h => (utf8Decode_incomplete_iff hnonempty).mp h hcomplete
  have hwhole : Utf8Complete (ctx.saved ++ buf.bytes) := by
    have happend := hcomplete.append ((ctx.saved ++ buf.bytes).drop i)
    rwa [take_append_drop] at happend
  obtain ⟨hroom, hclean', -, hbusy'⟩ := getBuffer_spec hclean (bufferSize buf.bytes.length)
  have hsize : htmlEntityLen ≤ bufferSize buf.bytes.length := by
    rw [bufferSize]
    split <;> omega
  have hwrite := write_ok (b := (getBuffer ctx (bufferSize buf.bytes.length)).1)
    (by rw [hroom.empty, length_nil]; exact hsize.trans hroom.capacity)
    (replacement_length table (utf8Decode (ctx.saved ++ buf.bytes)).1)
  rw [hdecode]
  simp only [hn, false_and, if_false, hwrite, bind, Except.bind]
  refine ⟨fun hshort => if_pos hshort, fun hlong => ?_⟩
  rw [if_neg (not_lt.mpr hlong)]
  obtain ⟨c, rest, hheld, hc⟩ := hstarted.head
  have hloop := @recodeLoop_spec table buf.flags ((buf.bytes.drop
      ((utf8Decode (ctx.saved ++ buf.bytes)).2 - ctx.saved.length)).length)
    { (getBuffer ctx (bufferSize buf.bytes.length)).2 with saved := [] } []
    { (getBuffer ctx (bufferSize buf.bytes.length)).1 with
      bytes := (getBuffer ctx (bufferSize buf.bytes.length)).1.bytes ++
        replacement table (utf8Decode (ctx.saved ++ buf.bytes)).1 }
    _ (le_rfl) ⟨hclean'.free, hclean'.busy⟩ rfl ⟨hroom.memory, hroom.plain⟩
  have hdrop : (ctx.saved ++ buf.bytes).drop (utf8Decode (ctx.saved ++ buf.bytes)).2 =
      buf.bytes.drop ((utf8Decode (ctx.saved ++ buf.bytes)).2 - ctx.saved.length) := by
    rw [drop_append, drop_eq_nil_of_le hlong, nil_append]
  refine hloop.congr ?_ ?_ (zero_add _) hbusy'
  · rw [hroom.empty, ← hdrop]
    rw [hheld, cons_append] at hwhole ⊢
    rw [recoded_complete table hc hwhole]
    rfl
  · rw [← hdrop]
    rw [hheld, cons_append] at hwhole ⊢
    exact (codePoints_complete hc hwhole).2.symm

theorem recodeSaved_within (hclean : Clean ctx) (hstarted : Started ctx.saved)
    (hne : buf.bytes ≠ [])
    (hwithin : ctx.saved.length + buf.bytes.length ≤ sequenceLength ctx.saved) :
    (ctx.saved.length ≠ 1 → recodeSaved table ctx buf = .error .read) ∧
      (ctx.saved.length = 1 →
        Recoded ctx (recodeSaved table ctx buf) [] (ctx.saved ++ buf.bytes) 0) := by
  obtain ⟨htake, -, hle, hend⟩ := fillSaved_take hne hstarted.length_le
  have hsequence := hstarted.sequenceLength_le
  have hutfLen : utfLen = 4 := rfl
  have hpos := hstarted.pos
  have hbytes := length_pos_iff.mpr hne
  rw [recodeSaved]
  generalize fillSaved (utfLen - ctx.saved.length) ctx.saved buf.bytes = filled at htake hle hend ⊢
  obtain ⟨saved, i⟩ := filled
  simp only at htake hle hend ⊢
  have hi : 0 < i := by omega
  have hlt : i < utfLen := by omega
  obtain ⟨hnonempty, hiff⟩ := hstarted.complete_take_iff hi hle
  have hn : (utf8Decode (saved.take i)).1 = utf8Incomplete := by
    rw [htake, utf8Decode_incomplete_iff hnonempty, hiff]
    omega
  simp only [hn, hlt, and_self, if_true, bind, Except.bind]
  refine ⟨fun hmore => ?_, fun hone => ?_⟩
  · -- one byte less than the sequence and the buffer have, but more than the buffer has
    rw [Ctx.save, if_pos (by omega)]
  · have hall : i = buf.bytes.length := by omega
    rw [Ctx.save, if_neg (by omega), if_neg (by omega), hall, take_length]
    exact ⟨_, _, rfl, rfl, rfl, rfl, ⟨hclean.free, hclean.busy⟩, rfl⟩

end Behind

end Nginx.Http.Charset
