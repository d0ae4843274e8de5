/-
  Http/NotModified.lean --- entity-tags and the lists of them in `If-Match` and
  `If-None-Match` (`ngx_http_test_if_match` in
  `src/http/modules/ngx_http_not_modified_filter_module.c`).

  The value is what is left of it, from `start` to `end`.
-/
import Nginx.Foundation.Elements
import Nginx.Foundation.Memory

set_option autoImplicit false

namespace Nginx.Http.NotModified

open List Foundation

/-! ## The test -/

abbrev comma : Byte := 44

abbrev quote : Byte := 34

/-- `ch == ' ' || ch == '\t'` -/
def isWhite (ch : Byte) : Bool := ch == 32 || ch == 9

/-- `ch == ' ' || ch == '\t' || ch == ','` -/
def isSeparator (ch : Byte) : Bool := isWhite ch || ch == comma

/-- `ngx_strncmp(s1, s2, n) == 0`, where `s2` has `n` bytes -/
def strncmp : Bytes → Bytes → Bool
  | _, [] => true
  | [], _ :: _ => false
  | a :: s1, c :: s2 => a == c && (c == 0 || strncmp s1 s2)

/-- `skip:` -/
def skip (start : Bytes) : Bytes := (start.dropWhile (· != comma)).dropWhile isSeparator

/-- `W/` is passed over where `weak` is set. -/
def stripWeak (weak : Bool) (start : Bytes) : Bytes :=
  if weak && decide (2 < start.length) && start.take 2 == [87, 47] then start.drop 2 else start

theorem length_dropWhile_le (p : Byte → Bool) (s : Bytes) : (s.dropWhile p).length ≤ s.length :=
  (dropWhile_suffix p).length_le

theorem length_skip_lt {start : Bytes} (h : start ≠ []) : (skip start).length < start.length := by
  rw [skip]
  cases hstop : start.dropWhile (· != comma) with
  | nil => exact length_pos_of_ne_nil h
  | cons c rest =>
    have hc : c = comma := by
      have hhead := @head?_dropWhile_not _ (· != comma) start
      rw [hstop] at hhead
      simpa using hhead
    have hle : (c :: rest).length ≤ start.length := hstop ▸ length_dropWhile_le _ start
    have hdrop : (c :: rest).dropWhile isSeparator = rest.dropWhile isSeparator := by
      rw [hc]
      rfl
    rw [hdrop]
    exact lt_of_le_of_lt (length_dropWhile_le _ rest) hle

theorem stripWeak_suffix (weak : Bool) (start : Bytes) : stripWeak weak start <:+ start := by
  rw [stripWeak]
  split
  · exact drop_suffix 2 start
  · exact suffix_rfl

theorem stripWeak_ne_nil {weak : Bool} {start : Bytes} (h : start ≠ []) :
    stripWeak weak start ≠ [] := by
  rw [stripWeak]
  split
  · next hw =>
    simp only [Bool.and_eq_true, decide_eq_true_eq] at hw
    exact ne_nil_of_length_pos (by rw [length_drop]; omega)
  · exact h

/-- The loop of `ngx_http_test_if_match` -/
def matchLoop (weak : Bool) (etag start : Bytes) : Bool :=
  if _hne : start = [] then false
  else
    let text := stripWeak weak start
    if text.length < etag.length then false
    else if strncmp text etag then
      let rest := (text.drop etag.length).dropWhile isWhite
      if _hrest : rest = [] ∨ rest.head? = some comma then true
      else matchLoop weak etag (skip rest)
    else matchLoop weak etag (skip text)
termination_by start.length
decreasing_by
  · refine Nat.lt_of_lt_of_le (length_skip_lt (not_or.mp _hrest).1) ?_
    refine le_trans (length_dropWhile_le _ _)
      (le_trans ?_ (stripWeak_suffix weak start).length_le)
    rw [length_drop]
    exact Nat.sub_le _ _
  · exact Nat.lt_of_lt_of_le (length_skip_lt (stripWeak_ne_nil _hne))
      (stripWeak_suffix weak start).length_le

/-- `ngx_http_test_if_match` of a header's value; `etag` is the value of `r->headers_out.etag`. -/
def testIfMatch (list : Bytes) (etag : Option Bytes) (weak : Bool) : Bool :=
  if list.length = 1 ∧ list.head? = some 42 then true
  else
    match etag with
    | none => false
    | some etag => matchLoop weak (stripWeak weak etag) list

attribute [local simp] strncmp

/-! ## Entity-tags -/

/-- `etagc` -/
def isEtagc (b : Byte) :
    Bool := b == 33 || (decide (35 ≤ b) && decide (b ≤ 126)) || decide (128 ≤ b)

/-- An entity-tag, weak or not, with what is between its quotes. -/
structure EntityTag where
  weak : Bool
  chars : Bytes
  etagc : ∀ b ∈ chars, isEtagc b = true

/-- `W/` -/
def weakMark : Bytes := [87, 47]

namespace EntityTag

def mark (t : EntityTag) : Bytes := if t.weak then weakMark else []

def text (t : EntityTag) : Bytes := t.mark ++ quote :: (t.chars ++ [quote])

end EntityTag

/-- Separators, of which one is a comma. -/
structure Separator where
  bytes : Bytes
  separators : ∀ b ∈ bytes, isSeparator b = true
  comma_mem : comma ∈ bytes

/-- The entity-tags of a list with what is between them, and any separators behind the last one. -/
inductive TagList where
  | last (t : EntityTag) (trail : Bytes) (separators : ∀ b ∈ trail, isSeparator b = true)
  | more (t : EntityTag) (sep : Separator) (rest : TagList)

namespace TagList

def text : TagList → Bytes
  | last t trail _ => t.text ++ trail
  | more t sep rest => t.text ++ (sep.bytes ++ rest.text)

def tags : TagList → List EntityTag
  | last t _ _ => [t]
  | more t _ rest => t :: rest.tags

def first : TagList → EntityTag
  | last t _ _ => t
  | more t _ _ => t

end TagList

/-- The value of an `If-Match` or `If-None-Match` header; a list may begin with empty elements. -/
inductive IfMatch where
  | any
  | list (lead : Bytes) (separators : ∀ b ∈ lead, isSeparator b = true)
    (comma_first : lead = [] ∨ lead.head? = some comma)
      (tags : TagList)

def IfMatch.text : IfMatch → Bytes
  | any => [42]
  | list lead _ _ tags => lead ++ tags.text

/-- Two tags are equal, or but for the weak mark. -/
def SameTag (weak : Bool) (etag t : EntityTag) :
    Prop := (weak = false → t.weak = etag.weak) ∧ t.chars = etag.chars

/-- What is asked of the test. -/
def IfMatch.Holds (weak : Bool) (etag : EntityTag) : IfMatch → Prop
  | any => True
  | list _ _ _ tags => ∃ t ∈ tags.tags, SameTag weak etag t

/-- What is behind the last comma, if there is one. -/
def behindComma : Bytes → Option Bytes
  | [] => none
  | b :: s => (behindComma s).or (if b = comma then some s else none)

/-- What may be in front of a quote that is taken for the first one of the tag. -/
def MarkOf (weak : Bool) (etag : EntityTag) (mark : Bytes) : Prop :=
  if weak then mark = [] ∨ mark = weakMark else mark = etag.mark

/-- Two neighbours of which the first ends with a comma, or with a comma and `W/`, and the second
begins with one, where the text from the last quote of the first to the first quote of the second is
the tag. -/
def Straddles (weak : Bool) (etag : EntityTag) : TagList → Prop
  | .last .. => False
  | .more t sep rest =>
    (∃ mark, behindComma t.chars = some mark ∧ MarkOf weak etag mark) ∧
        sep.bytes ++ rest.first.mark = etag.chars ∧ rest.first.chars.head? = some comma ∨
      Straddles weak etag rest

/-- Of a list, that tags are taken for another one. -/
def IfMatch.Misread (weak : Bool) (etag : EntityTag) : IfMatch → Prop
  | any => False
  | list _ _ _ tags => Straddles weak etag tags

attribute [local simp] TagList.text TagList.tags TagList.first behindComma Straddles

variable {weak : Bool} {etag t : EntityTag} {b : Byte} {c s start rest r x : Bytes}

/-! ## Bytes of a tag -/

theorem not_white_of_etagc (h : isEtagc b = true) : isWhite b = false := by
  by_contra hw
  rw [isWhite, Bool.not_eq_false, Bool.or_eq_true, beq_iff_eq, beq_iff_eq] at hw
  rcases hw with rfl | rfl <;> exact absurd h (by decide)

theorem ne_quote_of_etagc (h : isEtagc b = true) : b ≠ quote := by
  rintro rfl
  exact absurd h (by decide)

theorem ne_zero_of_etagc (h : isEtagc b = true) : b ≠ 0 := by
  rintro rfl
  exact absurd h (by decide)

theorem ne_quote_of_separator (h : isSeparator b = true) : b ≠ quote := by
  rintro rfl
  exact absurd h (by decide)

theorem not_separator_of_etagc (h : isEtagc b = true) (hb : b ≠ comma) : isSeparator b = false := by
  rw [isSeparator, not_white_of_etagc h, Bool.false_or]
  exact beq_false_of_ne hb

theorem etagc_weakMark : ∀ b ∈ weakMark, isEtagc b = true := all_eq_true.mp rfl

theorem EntityTag.etagc_mark (t : EntityTag) : ∀ b ∈ t.mark, isEtagc b = true := by
  rw [EntityTag.mark]
  split
  · exact etagc_weakMark
  · exact forall_mem_nil _

theorem quote_notMem (h : ∀ b ∈ c, isEtagc b = true) :
    quote ∉ c := fun hmem => ne_quote_of_etagc (h _ hmem) rfl

theorem EntityTag.comma_notMem_mark (t : EntityTag) : comma ∉ t.mark := by
  rw [EntityTag.mark]
  split <;> decide

theorem markOf_comma_notMem (h : MarkOf weak etag c) : comma ∉ c := by
  rw [MarkOf] at h
  split at h
  · rcases h with rfl | rfl <;> decide
  · exact h ▸ etag.comma_notMem_mark

/-! ## Skipping -/

theorem skip_cons (hb : b ≠ comma) (s : Bytes) : skip (b :: s) = skip s := by
  have hdrop : (b :: s).dropWhile (· != comma) = s.dropWhile (· != comma) :=
    dropWhile_cons_of_pos (by exact bne_iff_ne.mpr hb)
  rw [skip, hdrop, skip]

theorem skip_append (hs : comma ∉ s) (rest : Bytes) : skip (s ++ rest) = skip rest := by
  induction s with
  | nil => rfl
  | cons b s ih =>
    obtain ⟨hb, hs⟩ := not_or.mp (mt mem_cons.mpr hs)
    rw [cons_append, skip_cons (Ne.symm hb), ih hs]

theorem skip_comma (s : Bytes) : skip (comma :: s) = s.dropWhile isSeparator := rfl

theorem skip_dropWhile (start : Bytes) : skip (start.dropWhile isWhite) = skip start := by
  induction start with
  | nil => rfl
  | cons b s ih =>
    by_cases hb : isWhite b = true
    · have hcomma : b ≠ comma := by
        rintro rfl
        exact absurd hb (by decide)
      rw [dropWhile_cons_of_pos hb, ih, skip_cons hcomma]
    · rw [dropWhile_cons_of_neg hb]

theorem skip_stripWeak (weak : Bool) (start : Bytes) :
    skip (stripWeak weak start) = skip start := by
  rw [stripWeak]
  split
  · next hw =>
    simp only [Bool.and_eq_true, beq_iff_eq] at hw
    have hcomma : comma ∉ start.take 2 := by
      rw [hw.2]
      decide
    rw [← skip_append hcomma (start.drop 2), take_append_drop]
  · rfl

/-! ## Where the tag is found -/

/-- What is behind the tag where it is found at `start`, with a `W/` in front of it or not. -/
def found (weak : Bool) (etag : EntityTag) (start : Bytes) : Option Bytes :=
  if stripWeak weak etag.text <+: stripWeak weak start then
    some ((stripWeak weak start).drop (stripWeak weak etag.text).length)
  else none

theorem strncmp_iff (h : 0 ∉ x) (s : Bytes) : strncmp s x = true ↔ x <+: s := by
  induction x generalizing s with
  | nil => simp
  | cons b x ih =>
    obtain ⟨hb, hx⟩ := not_or.mp (mt mem_cons.mpr h)
    cases s with
    | nil => simp
    | cons a s =>
      have hzero : (b == 0) = false := beq_false_of_ne (Ne.symm hb)
      rw [strncmp, hzero, Bool.false_or, Bool.and_eq_true, beq_iff_eq, ih hx, cons_prefix_cons]
      exact and_congr_left' eq_comm

theorem stripWeak_text (weak : Bool) (etag : EntityTag) :
    stripWeak weak etag.text = (if weak then [] else etag.mark) ++
      quote :: (etag.chars ++ [quote]) := by
  cases weak with
  | false => rfl
  | true =>
    rw [stripWeak, EntityTag.text, EntityTag.mark]
    cases hw : etag.weak with
    | false =>
      have hquote : quote ≠ 87 := by decide
      rw [if_neg (by simp [hquote])]
      rfl
    | true =>
      rw [if_pos (by simp [weakMark])]
      rfl

theorem zero_notMem_stripWeak (weak : Bool) (etag : EntityTag) :
    (0 : Byte) ∉ stripWeak weak etag.text := by
  have hmark : (0 : Byte) ∉ etag.mark := fun hmem => ne_zero_of_etagc (etag.etagc_mark _ hmem) rfl
  have hchars : (0 : Byte) ∉ etag.chars := fun hmem => ne_zero_of_etagc (etag.etagc _ hmem) rfl
  rw [stripWeak_text]
  have hquote : (0 : Byte) ≠ quote := by decide
  cases weak <;> simp [hmark, hchars, hquote]

theorem stripWeak_quote (x : Bytes) :
    stripWeak true (c ++ quote :: x) = (if weakMark <+: c then c.drop 2 else c) ++ quote :: x := by
  have hquote : quote ≠ 87 ∧ quote ≠ 47 := by decide
  rcases c with _ | ⟨b₁, _ | ⟨b₂, c⟩⟩
  · simp [stripWeak, weakMark, hquote.1]
  · simp [stripWeak, weakMark, hquote.2]
  by_cases hw : b₁ = 87 ∧ b₂ = 47
  · obtain ⟨rfl, rfl⟩ := hw
    simp [stripWeak, weakMark]
  have hprefix : ¬weakMark <+: b₁ :: b₂ :: c := by
    intro hp
    have hboth : 87 = b₁ ∧ 47 = b₂ := by simpa [weakMark] using hp
    exact hw ⟨hboth.1.symm, hboth.2.symm⟩
  have htake : ¬(true && decide (2 < (b₁ :: b₂ :: c ++ quote :: x).length) &&
      (b₁ :: b₂ :: c ++ quote :: x).take 2 == [87, 47]) = true := by simpa using hw
  rw [if_neg hprefix, stripWeak, if_neg htake]

theorem found_eq_some :
    found weak etag start = some r ↔ stripWeak weak etag.text ++ r = stripWeak weak start := by
  rw [found]
  constructor
  · intro h
    split at h
    · next hp =>
      obtain ⟨t, ht⟩ := hp
      rw [← ht, drop_left] at h
      rw [← ht, Option.some.inj h]
    · exact absurd h.symm (Option.some_ne_none r)
  · intro h
    rw [← h, if_pos (prefix_append ..), drop_left]

/-- Behind bytes of a tag and a quote, the tag is found where these bytes may be in front of it. -/
theorem found_iff (hc : ∀ b ∈ c, isEtagc b = true) (x : Bytes) :
    found weak etag (c ++ quote :: x) = some r ↔ MarkOf weak etag c ∧
      x = etag.chars ++ quote :: r := by
  have hassoc : ∀ m : Bytes,
    m ++ quote :: (etag.chars ++ [quote]) ++ r = m ++ quote :: (etag.chars ++ quote :: r) := by simp
  have hsplit : ∀ m c' : Bytes, quote ∉ m → quote ∉ c' →
      (m ++ quote :: (etag.chars ++ quote :: r) = c' ++ quote :: x ↔
        c' = m ∧ x = etag.chars ++ quote :: r) := by
    intro m c' hm hc'
    constructor
    · intro heq
      obtain ⟨h₁, h₂⟩ := append_cons_inj hm hc' heq
      exact ⟨h₁.symm, h₂.symm⟩
    · rintro ⟨rfl, rfl⟩
      rfl
  rw [found_eq_some, stripWeak_text, hassoc, MarkOf]
  cases weak with
  | false =>
    rw [if_neg Bool.false_ne_true, if_neg Bool.false_ne_true]
    exact hsplit _ _ (quote_notMem etag.etagc_mark) (quote_notMem hc)
  | true =>
    have hrest : quote ∉ (if weakMark <+: c then c.drop 2 else c) := by
      split
      · exact fun hmem => quote_notMem hc (mem_of_mem_drop hmem)
      · exact quote_notMem hc
    have hempty : (if weakMark <+: c then c.drop 2 else c) = [] ↔ c = [] ∨ c = weakMark := by
      constructor
      · intro h
        split at h
        · next hp =>
          have hle := drop_eq_nil_iff.mp h
          exact .inr (hp.eq_of_length (le_antisymm hp.length_le hle)).symm
        · exact .inl h
      · rintro (rfl | rfl) <;> decide
    rw [if_pos rfl, if_pos rfl, stripWeak_quote, hsplit _ _ not_mem_nil hrest, hempty]

/-! ## One round of the loop -/

/-- What the loop does behind a place where the tag was found. -/
def verdict (weak : Bool) (etag : EntityTag) (rest : Bytes) : Bool :=
  if rest.dropWhile isWhite = [] ∨ (rest.dropWhile isWhite).head? = some comma then true
  else matchLoop weak (stripWeak weak etag.text) (skip rest)

theorem matchLoop_nil (weak : Bool) (x : Bytes) : matchLoop weak x [] = false := by
  rw [matchLoop]
  rfl

theorem matchLoop_short (h : start.length < x.length) : matchLoop weak x start = false := by
  rw [matchLoop]
  split
  · rfl
  · have hlt : (stripWeak weak start).length < x.length :=
      lt_of_le_of_lt (stripWeak_suffix weak start).length_le h
    exact if_pos hlt

theorem matchLoop_found (h : found weak etag start = some r) :
    matchLoop weak (stripWeak weak etag.text) start = verdict weak etag r := by
  have heq := found_eq_some.mp h
  have hp : stripWeak weak etag.text <+: stripWeak weak start := ⟨r, heq⟩
  have hne : start ≠ [] := by
    rintro rfl
    have hempty : stripWeak weak ([] : Bytes) = [] := by cases weak <;> rfl
    have hnil := prefix_nil.mp (hempty ▸ hp)
    rw [stripWeak_text] at hnil
    exact absurd hnil (append_ne_nil_of_right_ne_nil _ (cons_ne_nil _ _))
  have hsame := (strncmp_iff (zero_notMem_stripWeak weak etag) _).mpr hp
  rw [matchLoop, dif_neg hne]
  simp only
  rw [if_neg (not_lt.mpr hp.length_le), if_pos hsame, ← heq, drop_left, verdict, skip_dropWhile]
  split <;> rfl

theorem matchLoop_none (h : found weak etag start = none) :
    matchLoop weak (stripWeak weak etag.text) start =
      matchLoop weak (stripWeak weak etag.text) (skip start) := by
  have hp : ¬stripWeak weak etag.text <+: stripWeak weak start := by
    intro hp
    rw [found, if_pos hp] at h
    exact absurd h (Option.some_ne_none _)
  by_cases hne : start = []
  · rw [hne]
    rfl
  have hsame : ¬strncmp (stripWeak weak start) (stripWeak weak etag.text) = true :=
    mt (strncmp_iff (zero_notMem_stripWeak weak etag) _).mp hp
  have hround : matchLoop weak (stripWeak weak etag.text) start =
      if (stripWeak weak start).length < (stripWeak weak etag.text).length then false
      else matchLoop weak (stripWeak weak etag.text) (skip start) := by
    rw [matchLoop, dif_neg hne]
    simp only
    rw [if_neg hsame, skip_stripWeak]
  rw [hround]
  split
  · next hlt =>
    have hskip := length_skip_lt (@stripWeak_ne_nil weak _ hne)
    rw [skip_stripWeak] at hskip
    exact (matchLoop_short (lt_trans hskip hlt)).symm
  · rfl

/-! ## From one tag of a list to the next -/

/-- What comes behind the last quote of a tag: the tags that follow hold `listed` or not, and
`falsely` is whether the text up to the next quote is what is between the quotes of the tag, and
is taken for it.
-/
structure Behind (weak : Bool) (etag : EntityTag) (x : Bytes) (listed falsely : Prop) : Prop where
  next : matchLoop weak (stripWeak weak etag.text) (skip x) = true ↔ listed
  taken : ∀ r, x = etag.chars ++ quote :: r → (verdict weak etag r = true ↔ listed ∨ falsely)
  text : falsely → ∃ r, x = etag.chars ++ quote :: r

/-- What is behind the last comma, or all. -/
def pieceOf (c : Bytes) : Bytes := (behindComma c).getD c

theorem behindComma_eq_none (hc : comma ∉ c) : behindComma c = none := by
  induction c with
  | nil => rfl
  | cons b c ih =>
    obtain ⟨hb, hc⟩ := not_or.mp (mt mem_cons.mpr hc)
    rw [behindComma, ih hc, if_neg (Ne.symm hb)]
    rfl

theorem behindComma_comma (c : Bytes) : behindComma (comma :: c) = some (pieceOf c) := by
  rw [behindComma, if_pos rfl, pieceOf]
  cases behindComma c <;> rfl

theorem behindComma_cons (hb : b ≠ comma) (c : Bytes) : behindComma (b :: c) = behindComma c := by
  rw [behindComma, if_neg hb, Option.or_none]

theorem pieceOf_comma (c : Bytes) : pieceOf (comma :: c) = pieceOf c := by
  rw [pieceOf, behindComma_comma, Option.getD_some]

variable {listed falsely : Prop}

theorem Behind.place (h : Behind weak etag x listed falsely) (hc : ∀ b ∈ c, isEtagc b = true)
    (hskip : matchLoop weak (stripWeak weak etag.text) (skip (c ++ quote :: x)) = true ↔
      listed ∨ (∃ mark, behindComma c = some mark ∧ MarkOf weak etag mark) ∧ falsely) :
    matchLoop weak (stripWeak weak etag.text) (c ++ quote :: x) = true ↔
      listed ∨ MarkOf weak etag (pieceOf c) ∧ falsely := by
  cases hfound : found weak etag (c ++ quote :: x) with
  | some r =>
    obtain ⟨hmark, hx⟩ := (found_iff hc x).mp hfound
    have hpiece : pieceOf c = c := by
      rw [pieceOf, behindComma_eq_none (markOf_comma_notMem hmark), Option.getD_none]
    rw [matchLoop_found hfound, h.taken r hx, hpiece, and_iff_right hmark]
  | none =>
    rw [matchLoop_none hfound, hskip]
    refine or_congr_right (and_congr_left fun hfalsely => ?_)
    cases hcomma : behindComma c with
    | some mark => simp [pieceOf, hcomma]
    | none =>
      have hnot : ¬MarkOf weak etag (pieceOf c) := by
        intro hmark
        rw [pieceOf, hcomma, Option.getD_none] at hmark
        obtain ⟨r, hx⟩ := h.text hfalsely
        rw [(found_iff hc x).mpr ⟨hmark, hx⟩] at hfound
        exact absurd hfound (Option.some_ne_none r)
      refine iff_of_false ?_ hnot
      rintro ⟨mark, hsome, -⟩
      exact absurd hsome.symm (Option.some_ne_none mark)

theorem Behind.inside (h : Behind weak etag x listed falsely) (hc : ∀ b ∈ c, isEtagc b = true) :
    (matchLoop weak (stripWeak weak etag.text) (skip (c ++ quote :: x)) = true ↔
        listed ∨ (∃ mark, behindComma c = some mark ∧ MarkOf weak etag mark) ∧ falsely) ∧
      (matchLoop weak (stripWeak weak etag.text) ((c ++ quote :: x).dropWhile isSeparator) = true ↔
        listed ∨ MarkOf weak etag (pieceOf c) ∧ falsely) := by
  induction c with
  | nil =>
    have hskip : matchLoop weak (stripWeak weak etag.text) (skip ([] ++ quote :: x)) = true ↔
        listed ∨ (∃ mark, behindComma [] = some mark ∧ MarkOf weak etag mark) ∧ falsely := by
      have hnone : ¬∃ mark, behindComma [] = some mark ∧ MarkOf weak etag mark := by
        rintro ⟨mark, hsome, -⟩
        exact absurd hsome.symm (Option.some_ne_none mark)
      rw [nil_append, skip_cons (by decide), h.next]
      exact (or_iff_left fun hboth => hnone hboth.1).symm
    exact ⟨hskip, h.place hc hskip⟩
  | cons b c ih =>
    obtain ⟨hskip, hplace⟩ := ih fun d hd => hc d (mem_cons_of_mem b hd)
    by_cases hb : b = comma
    · subst hb
      rw [cons_append, skip_comma, behindComma_comma, pieceOf_comma]
      refine ⟨hplace.trans (or_congr_right (and_congr_left' ?_)), hplace⟩
      simp
    have hstay : (b :: c ++ quote :: x).dropWhile isSeparator = b :: c ++ quote :: x := by
      have hsep := not_separator_of_etagc (hc b mem_cons_self) hb
      exact dropWhile_cons_of_neg (ne_true_of_eq_false hsep)
    have hskip' : matchLoop weak (stripWeak weak etag.text) (skip (b :: c ++ quote :: x)) = true ↔
        listed ∨ (∃ mark, behindComma (b :: c) = some mark ∧ MarkOf weak etag mark) ∧
          falsely := by
      rw [cons_append, skip_cons hb, behindComma_cons hb]
      exact hskip
    rw [hstay]
    exact ⟨hskip', h.place hc hskip'⟩

theorem markOf_mark (weak : Bool) (etag t : EntityTag) :
    MarkOf weak etag t.mark ↔ (weak = false → t.weak = etag.weak) := by
  rw [MarkOf, EntityTag.mark, EntityTag.mark]
  cases weak <;> cases t.weak <;> cases etag.weak <;> simp [weakMark]

theorem Behind.tag (h : Behind weak etag x listed falsely) (t : EntityTag)
    (hx : verdict weak etag x = true) :
    matchLoop weak (stripWeak weak etag.text) (t.mark ++ quote :: (t.chars ++ quote :: x)) = true ↔
      SameTag weak etag t ∨ listed ∨
        (∃ mark, behindComma t.chars = some mark ∧ MarkOf weak etag mark) ∧ falsely := by
  by_cases hsame : SameTag weak etag t
  · have hfound : found weak etag (t.mark ++ quote :: (t.chars ++ quote :: x)) = some x :=
      (found_iff t.etagc_mark _).mpr ⟨(markOf_mark weak etag t).mpr hsame.1, by rw [hsame.2]⟩
    rw [matchLoop_found hfound]
    exact iff_of_true hx (.inl hsame)
  · have hfound : found weak etag (t.mark ++ quote :: (t.chars ++ quote :: x)) = none := by
      refine Option.eq_none_iff_forall_ne_some.mpr fun r hr => hsame ?_
      obtain ⟨hmark, heq⟩ := (found_iff t.etagc_mark _).mp hr
      exact ⟨(markOf_mark weak etag t).mp hmark,
        (append_cons_inj (quote_notMem t.etagc) (quote_notMem etag.etagc) heq).1⟩
    rw [matchLoop_none hfound, skip_append t.comma_notMem_mark,
      skip_cons (by decide), (h.inside t.etagc).1, or_iff_right hsame]

/-! ## Lists -/

theorem eq_comma_of_separator (hb : isSeparator b = true) (hw : isWhite b = false) : b = comma := by
  rw [isSeparator, hw, Bool.false_or] at hb
  exact eq_of_beq hb

theorem verdict_trail (hs : ∀ b ∈ s, isSeparator b = true) : verdict weak etag s = true := by
  refine if_pos ?_
  induction s with
  | nil => exact .inl rfl
  | cons b s ih =>
    by_cases hw : isWhite b = true
    · rw [dropWhile_cons_of_pos hw]
      exact ih fun c hc => hs c (mem_cons_of_mem b hc)
    · rw [dropWhile_cons_of_neg hw]
      exact .inr
        (congrArg some
        (eq_comma_of_separator (hs b mem_cons_self) (eq_false_of_ne_true hw)))

theorem verdict_separator (sep : Separator) (rest : Bytes) :
    verdict weak etag (sep.bytes ++ rest) = true := by
  obtain ⟨s, hs, hcomma⟩ := sep
  refine if_pos (.inr ?_)
  induction s with
  | nil => exact absurd hcomma not_mem_nil
  | cons b s ih =>
    by_cases hw : isWhite b = true
    · have hb : comma ≠ b := by
        rintro rfl
        exact absurd hw (by decide)
      rw [cons_append, dropWhile_cons_of_pos hw]
      exact ih (fun c hc => hs c (mem_cons_of_mem b hc)) (mem_of_ne_of_mem hb hcomma)
    · rw [cons_append, dropWhile_cons_of_neg hw]
      exact congrArg some
        (eq_comma_of_separator (hs b mem_cons_self) (eq_false_of_ne_true hw))

theorem TagList.text_first (list : TagList) :
    ∃ x, list.text = list.first.mark ++ quote :: (list.first.chars ++ quote :: x) := by
  cases list with
  | last t trail hs => exact ⟨trail, by simp [EntityTag.text]⟩
  | more t sep rest => exact ⟨sep.bytes ++ rest.text, by simp [EntityTag.text]⟩

theorem dropWhile_white (hc : ∀ b ∈ c, isEtagc b = true) (x : Bytes) :
    (c ++ quote :: x).dropWhile isWhite = c ++ quote :: x := by
  cases c with
  | nil => rfl
  | cons b c =>
    have hb := not_white_of_etagc (hc b mem_cons_self)
    exact dropWhile_cons_of_neg (ne_true_of_eq_false hb)

theorem skip_separator (sep : Separator) (rest : TagList) :
    skip (sep.bytes ++ rest.text) = rest.text := by
  obtain ⟨x, htext⟩ := rest.text_first
  have hstop : rest.text.dropWhile isSeparator = rest.text := by
    rw [htext, EntityTag.mark]
    split <;> rfl
  have hall : ∀ s : Bytes, (∀ b ∈ s, isSeparator b = true) → comma ∈ s →
    skip (s ++ rest.text) = rest.text := by
    intro s hs hcomma
    induction s with
    | nil => exact absurd hcomma not_mem_nil
    | cons b s ih =>
      by_cases hb : b = comma
      · rw [hb, cons_append, skip_comma, dropWhile_append_of_pos fun c hc =>
          hs c (mem_cons_of_mem b hc), hstop]
      · rw [cons_append, skip_cons hb]
        exact ih (fun c hc => hs c (mem_cons_of_mem b hc)) (mem_of_ne_of_mem (Ne.symm hb) hcomma)
  exact hall _ sep.separators sep.comma_mem

theorem behind_trail (hs : ∀ b ∈ s, isSeparator b = true) : Behind weak etag s False False where
  next := by
    have hskip : skip s = [] := by
      induction s with
      | nil => rfl
      | cons b s ih =>
        have hs' := fun c hc => hs c (mem_cons_of_mem b hc)
        by_cases hb : b = comma
        · have hall := @dropWhile_append_of_pos _ isSeparator s [] hs'
          rw [append_nil] at hall
          rw [hb, skip_comma, hall]
          rfl
        · rw [skip_cons hb, ih hs']
    rw [hskip, matchLoop_nil]
    exact iff_of_false Bool.false_ne_true id
  taken r hr := by
    have hmem : quote ∈ s := hr ▸ mem_append_right _ mem_cons_self
    exact absurd rfl (ne_quote_of_separator (hs _ hmem))
  text := False.elim

theorem head_comma {m : Bytes} (sep : Separator) (h : sep.bytes ++ m = etag.chars) :
    etag.chars.head? = some comma := by
  obtain ⟨s, hs, hcomma⟩ := sep
  obtain ⟨b, s, rfl⟩ := exists_cons_of_ne_nil (ne_nil_of_mem hcomma)
  have hb : isEtagc b = true := etag.etagc b (h ▸ mem_cons_self)
  rw [← h]
  exact congrArg some (eq_comma_of_separator (hs b mem_cons_self) (not_white_of_etagc hb))

theorem behind_more (sep : Separator) (rest : TagList)
    (h : matchLoop weak (stripWeak weak etag.text) rest.text = true ↔ listed) :
    Behind weak etag (sep.bytes ++ rest.text) listed
      (sep.bytes ++ rest.first.mark = etag.chars ∧ rest.first.chars.head? = some comma) := by
  obtain ⟨x, htext⟩ := rest.text_first
  have hnotMem : quote ∉ sep.bytes ++ rest.first.mark := by
    refine not_mem_append (fun hmem => ?_) (quote_notMem rest.first.etagc_mark)
    exact ne_quote_of_separator (sep.separators _ hmem) rfl
  constructor
  · rw [skip_separator, h]
  · intro r hr
    rw [htext, ← append_assoc] at hr
    obtain ⟨hchars, hr⟩ := append_cons_inj hnotMem (quote_notMem etag.etagc) hr
    rw [← hr, verdict, dropWhile_white rest.first.etagc]
    by_cases hcomma : rest.first.chars.head? = some comma
    · have hhead : (rest.first.chars ++ quote :: x).head? = some comma := by
        rw [head?_append, hcomma]
        rfl
      rw [if_pos (.inr hhead)]
      exact iff_of_true rfl (.inr ⟨hchars, hcomma⟩)
    have hhead : ¬(rest.first.chars ++ quote :: x = [] ∨
      (rest.first.chars ++ quote :: x).head? = some comma) := by
      rintro (hnil | hhead)
      · exact absurd hnil (append_ne_nil_of_right_ne_nil _ (cons_ne_nil _ _))
      cases hfirst : rest.first.chars with
      | nil =>
        rw [hfirst] at hhead
        exact absurd (Option.some.inj hhead) (by decide)
      | cons b c =>
        rw [hfirst] at hhead
        exact hcomma (hfirst ▸ hhead)
    have hfound : found weak etag rest.text = none := by
      refine Option.eq_none_iff_forall_ne_some.mpr fun y hy => hcomma ?_
      rw [htext] at hy
      have heq := ((found_iff rest.first.etagc_mark _).mp hy).2
      rw [(append_cons_inj (quote_notMem rest.first.etagc) (quote_notMem etag.etagc) heq).1]
      exact head_comma sep hchars
    have hskip : skip rest.text = skip (rest.first.chars ++ quote :: x) := by
      rw [htext, skip_append rest.first.comma_notMem_mark, skip_cons (by decide)]
    rw [if_neg hhead, ← hskip, ← matchLoop_none hfound, h]
    exact (or_iff_left fun hboth => hcomma hboth.2).symm
  · rintro ⟨hchars, -⟩
    exact ⟨rest.first.chars ++ quote :: x, by rw [htext, ← append_assoc, hchars]⟩

theorem matchLoop_text (list : TagList) :
    matchLoop weak (stripWeak weak etag.text) list.text = true ↔
      (∃ t ∈ list.tags, SameTag weak etag t) ∨ Straddles weak etag list := by
  induction list with
  | last t trail hs =>
    have htag := (behind_trail hs : Behind weak etag trail False False).tag t (verdict_trail hs)
    have htext : (TagList.last t trail hs).text = t.mark ++
      quote :: (t.chars ++ quote :: trail) := by simp [EntityTag.text]
    rw [htext, htag]
    simp
  | more t sep rest ih =>
    have htag := (behind_more sep rest ih).tag t (verdict_separator sep rest.text)
    have htext : (TagList.more t sep rest).text = t.mark ++
      quote :: (t.chars ++ quote :: (sep.bytes ++ rest.text)) := by
      simp [EntityTag.text]
    rw [htext, htag, TagList.tags, exists_mem_cons_iff, Straddles, or_assoc, or_assoc]
    exact or_congr_right (or_congr_right or_comm)

/-! ## The value of a header -/

theorem found_lead (hs : start.head? = some comma) : found weak etag start = none := by
  obtain ⟨s, rfl⟩ : ∃ s, start = comma :: s := by
    cases start with
    | nil => exact absurd hs.symm (Option.some_ne_none comma)
    | cons b s => exact ⟨s, by rw [Option.some.inj hs]⟩
  have hcomma : comma ≠ 87 ∧ comma ≠ quote := by decide
  have hstay : stripWeak weak (comma :: s) = comma :: s := by
    refine if_neg ?_
    simp [hcomma.1]
  refine Option.eq_none_iff_forall_ne_some.mpr fun r hr => ?_
  have heq := found_eq_some.mp hr
  rw [hstay, stripWeak_text] at heq
  have hhead := congrArg List.head? heq
  cases weak <;> cases hw : etag.weak <;> simp [EntityTag.mark, weakMark, hw] at hhead
  all_goals exact absurd hhead (by decide)

/-- The test of any value a header may have: a listed tag is found, and one that two neighbours
make. -/
theorem testIfMatch_iff_holds_or (weak : Bool) (etag : EntityTag) (value : IfMatch) :
    testIfMatch value.text (some etag.text) weak = true ↔ value.Holds weak etag ∨
      value.Misread weak etag := by
  cases value with
  | any => exact iff_of_true rfl (.inl trivial)
  | list lead hs hfirst list =>
    have hloop : testIfMatch (IfMatch.list lead hs hfirst list).text (some etag.text) weak =
        matchLoop weak (stripWeak weak etag.text) (lead ++ list.text) := by
      refine if_neg ?_
      rintro ⟨hlength, -⟩
      obtain ⟨x, htext⟩ := list.text_first
      rw [IfMatch.text, htext] at hlength
      simp only [length_append, length_cons] at hlength
      omega
    have hlead : matchLoop weak (stripWeak weak etag.text) (lead ++ list.text) =
        matchLoop weak (stripWeak weak etag.text) list.text := by
      rcases hfirst with rfl | hcomma
      · rfl
      have hhead : (lead ++ list.text).head? = some comma := by
        rw [head?_append, hcomma]
        rfl
      have hmem : comma ∈ lead := mem_of_mem_head? hcomma
      rw [matchLoop_none (found_lead hhead), skip_separator ⟨lead, hs, hmem⟩]
    rw [hloop, hlead, matchLoop_text]
    rfl

/-- The answer is right unless two neighbours are taken for the tag, which is not in the list. -/
theorem testIfMatch_iff (weak : Bool) (etag : EntityTag) (value : IfMatch) :
    (testIfMatch value.text (some etag.text) weak = true ↔ value.Holds weak etag) ↔
      (value.Misread weak etag → value.Holds weak etag) := by
  rw [testIfMatch_iff_holds_or]
  exact or_iff_left_iff_imp

/-- `"a,"` and `",b"` with nothing but a comma between them. -/
def straddled : IfMatch :=
  .list [] (all_eq_true.mp rfl) (.inl rfl)
    (.more ⟨false, ascii "a,", all_eq_true.mp rfl⟩
      ⟨[comma], all_eq_true.mp rfl, mem_singleton_self comma⟩
      (.last ⟨false, ascii ",b", all_eq_true.mp rfl⟩ [] (all_eq_true.mp rfl)))

/-- The tag `","` is found between two others. -/
theorem testIfMatch_straddled :
    ¬(testIfMatch straddled.text
      (some (EntityTag.mk false [comma] (all_eq_true.mp rfl)).text) false = true ↔
      straddled.Holds false ⟨false, [comma], all_eq_true.mp rfl⟩) := by
  have hmisread : straddled.Misread false ⟨false, [comma], all_eq_true.mp rfl⟩ :=
    .inl ⟨⟨[], rfl, rfl⟩, rfl, rfl⟩
  intro hiff
  obtain ⟨t, ht, hsame⟩ := hiff.mp ((testIfMatch_iff_holds_or _ _ _).mpr (.inr hmisread))
  rcases mem_pair.mp ht with rfl | rfl
  · exact absurd hsame.2 (by decide)
  · exact absurd hsame.2 (by decide)

end Nginx.Http.NotModified
