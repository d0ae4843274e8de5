/-
  Core/ResolverExact.lean --- when `ngx_resolver_copy` is memory-exact.

  Both loops are read as walks over the elements of a name.  The first counts a
  label as its length and one byte more, less one byte for the name; the second
  writes a dot behind every label that is not followed by a zero byte, whatever
  element follows.  They agree exactly for a name whose last element is a label.
-/
import Nginx.Core.ResolverCopy

set_option autoImplicit false

namespace Nginx.Core

open Foundation List

variable {buf : Nat → Byte} {last limit p q : Nat} {es es' : List NameElt}

attribute [local simp] labelsOf

theorem ne_zero_of_isPointer {n : Byte} (h : isPointer n) : n ≠ 0 := by
  rintro rfl
  exact h (by decide)

/-! ## Names, element by element -/

theorem not_nameEnds_zero : ¬ NameEnds buf last 0 p es := by
  rintro ⟨q, -, -, hlt⟩
  exact Nat.not_lt_zero _ hlt

theorem nameEnds_root (hp : buf p = 0) : NameEnds buf last (limit + 1) p es ↔ es = [] := by
  constructor
  · rintro ⟨q, hwalk, -, -⟩
    cases hwalk with
    | nil => rfl
    | pointer hptr => exact absurd hp (ne_zero_of_isPointer hptr)
    | label hne => exact absurd hp hne
  · rintro rfl
    exact ⟨p, .nil p, hp, Nat.succ_pos limit⟩

theorem nameEnds_pointer (hp : isPointer (buf p)) :
    NameEnds buf last (limit + 1) p es ↔
      pointerTarget buf p < last ∧
        ∃ es', es = .pointer :: es' ∧ NameEnds buf last limit (pointerTarget buf p) es' := by
  constructor
  · rintro ⟨q, hwalk, hroot, hlt⟩
    cases hwalk with
    | nil => exact absurd hroot (ne_zero_of_isPointer hp)
    | pointer _ inside rest => exact ⟨inside, _, rfl, q, rest, hroot, Nat.lt_of_succ_lt_succ hlt⟩
    | label _ hlabel => exact absurd hp hlabel
  · rintro ⟨inside, es', rfl, q, rest, hroot, hlt⟩
    exact ⟨q, .pointer hp inside rest, hroot, Nat.succ_lt_succ hlt⟩

theorem nameEnds_label (hne : buf p ≠ 0) (hp : ¬ isPointer (buf p)) :
    NameEnds buf last (limit + 1) p es ↔
      p + 1 + (buf p).toNat < last ∧
        ∃ es', es = .label (load buf (p + 1) (buf p).toNat) :: es' ∧
          NameEnds buf last limit (p + 1 + (buf p).toNat) es' := by
  constructor
  · rintro ⟨q, hwalk, hroot, hlt⟩
    cases hwalk with
    | nil => exact absurd hroot hne
    | pointer hptr => exact absurd hptr hp
    | label _ _ inside rest => exact ⟨inside, _, rfl, q, rest, hroot, Nat.lt_of_succ_lt_succ hlt⟩
  · rintro ⟨inside, es', rfl, q, rest, hroot, hlt⟩
    exact ⟨q, .label hne hp inside rest, hroot, Nat.succ_lt_succ hlt⟩

theorem nameWalk_unique {q' : Nat} (h : NameWalk buf last p es q) (hroot : buf q = 0)
    (h' : NameWalk buf last p es' q') (hroot' : buf q' = 0) : es = es' := by
  induction h generalizing es' with
  | nil p =>
    cases h' with
    | nil => rfl
    | pointer hptr => exact absurd hroot (ne_zero_of_isPointer hptr)
    | label hne => exact absurd hroot hne
  | pointer hptr inside rest ih =>
    cases h' with
    | nil => exact absurd hroot' (ne_zero_of_isPointer hptr)
    | pointer _ _ rest' => rw [ih hroot rest']
    | label _ hlabel => exact absurd hptr hlabel
  | label hne hlabel inside rest ih =>
    cases h' with
    | nil => exact absurd hroot' hne
    | pointer hptr => exact absurd hptr hlabel
    | label _ _ _ rest' => rw [ih hroot rest']

theorem NameEnds.unique (h : NameEnds buf last limit p es) (h' : NameEnds buf last limit p es') :
    es = es' := by
  obtain ⟨q, hwalk, hroot, -⟩ := h
  obtain ⟨q', hwalk', hroot', -⟩ := h'
  exact nameWalk_unique hwalk hroot hwalk' hroot'

/-! ## Pointers that are cut off -/

theorem not_cutPointer_zero : ¬ CutPointer buf last 0 p := by
  rintro ⟨es, q, -, -, -, hlt⟩
  exact Nat.not_lt_zero _ hlt

theorem not_cutPointer_root (hp : buf p = 0) : ¬ CutPointer buf last limit p := by
  rintro ⟨es, q, hwalk, hptr, -, -⟩
  cases hwalk with
  | nil => exact absurd hp (ne_zero_of_isPointer hptr)
  | pointer hptr' => exact absurd hp (ne_zero_of_isPointer hptr')
  | label hne => exact absurd hp hne

theorem cutPointer_pointer (hp : isPointer (buf p)) :
    CutPointer buf last (limit + 1) p ↔
      p + 1 = last ∨
        pointerTarget buf p < last ∧ CutPointer buf last limit (pointerTarget buf p) := by
  constructor
  · rintro ⟨es, q, hwalk, hptr, hcut, hlt⟩
    cases hwalk with
    | nil => exact Or.inl hcut
    | pointer _ inside rest =>
      exact Or.inr ⟨inside, _, q, rest, hptr, hcut, Nat.lt_of_succ_lt_succ hlt⟩
    | label _ hlabel => exact absurd hp hlabel
  · rintro (hcut | ⟨inside, es, q, rest, hptr, hcut, hlt⟩)
    · exact ⟨[], p, .nil p, hp, hcut, Nat.succ_pos limit⟩
    · exact ⟨_, q, .pointer hp inside rest, hptr, hcut, Nat.succ_lt_succ hlt⟩

theorem cutPointer_label (hne : buf p ≠ 0) (hp : ¬ isPointer (buf p)) :
    CutPointer buf last (limit + 1) p ↔
      p + 1 + (buf p).toNat < last ∧ CutPointer buf last limit (p + 1 + (buf p).toNat) := by
  constructor
  · rintro ⟨es, q, hwalk, hptr, hcut, hlt⟩
    cases hwalk with
    | nil => exact absurd hptr hp
    | pointer hptr' => exact absurd hptr' hp
    | label _ _ inside rest =>
      exact ⟨inside, _, q, rest, hptr, hcut, Nat.lt_of_succ_lt_succ hlt⟩
  · rintro ⟨inside, es, q, rest, hptr, hcut, hlt⟩
    exact ⟨_, q, .label hne hp inside rest, hptr, hcut, Nat.succ_lt_succ hlt⟩

/-! ## The first loop -/

/-- What the first loop adds to the length for the elements of a name. -/
def nameWeight : List NameElt → Nat
  | [] => 0
  | .label text :: es => 1 + text.length + nameWeight es
  | .pointer :: es => nameWeight es

/-- The measuring loop counts the labels of the name, or there is none. -/
theorem len_measureLoop (i p : Nat) (len : Int) (reads : List Nat) :
    (∃ es, NameEnds buf last i p es ∧
      (measureLoop buf last i p len reads).len = .ok (len + nameWeight es)) ∨
    (∃ err, (measureLoop buf last i p len reads).len = .error err) ∧
      ∀ es, ¬ NameEnds buf last i p es := by
  induction i generalizing p len reads with
  | zero => exact Or.inr ⟨⟨_, rfl⟩, fun _ => not_nameEnds_zero⟩
  | succ i ih =>
    rw [measureLoop]
    split
    next hroot => exact Or.inl ⟨[], (nameEnds_root hroot).mpr rfl, by simp [nameWeight]⟩
    next hne =>
    split
    next hptr =>
      simp only [nameEnds_pointer hptr]
      split
      next hout =>
        exact Or.inr ⟨⟨_, rfl⟩, fun es h => absurd h.1 (not_lt.mpr hout)⟩
      next hin =>
        rcases ih (pointerTarget buf p) len (reads ++ [p, p + 1])
          with ⟨es, hends, hlen⟩ | ⟨herr, hno⟩
        · exact Or.inl ⟨_, ⟨not_le.mp hin, es, rfl, hends⟩, hlen⟩
        · exact Or.inr ⟨herr, fun es ⟨_, es', _, h⟩ => hno es' h⟩
    next hlabel =>
      simp only [nameEnds_label hne hlabel]
      split
      next hout =>
        exact Or.inr ⟨⟨_, rfl⟩, fun es h => absurd h.1 (not_lt.mpr hout)⟩
      next hin =>
        rcases ih (p + 1 + (buf p).toNat) (len + (1 + (buf p).toNat)) (reads ++ [p]) with
          ⟨es, hends, hlen⟩ | ⟨herr, hno⟩
        · refine Or.inl ⟨_, ⟨not_le.mp hin, es, rfl, hends⟩, ?_⟩
          rw [hlen, nameWeight, length_load]
          push_cast
          rw [Int.add_assoc]
        · exact Or.inr ⟨herr, fun es ⟨_, es', _, h⟩ => hno es' h⟩

theorem reads_measureLoop (i : Nat) {p : Nat} (hp : p < last) (len : Int) (reads : List Nat) :
    (∀ r ∈ (measureLoop buf last i p len reads).reads, r < last) ↔
      (∀ r ∈ reads, r < last) ∧ ¬ CutPointer buf last i p := by
  induction i generalizing p len reads with
  | zero => simp [measureLoop, not_cutPointer_zero]
  | succ i ih =>
    rw [measureLoop]
    split
    next hroot => simp [not_cutPointer_root hroot, or_imp, forall_and, hp]
    next hne =>
    split
    next hptr =>
      rw [cutPointer_pointer hptr]
      have hnext : p + 1 < last ↔ ¬ p + 1 = last := by omega
      split
      next hout => simp [or_imp, forall_and, hp, hnext, not_lt.mpr hout]
      next hin =>
        have hin := not_le.mp hin
        simp [ih hin, or_imp, forall_and, hp, hnext, hin, and_assoc]
    next hlabel =>
      rw [cutPointer_label hne hlabel]
      split
      next hout => simp [or_imp, forall_and, hp, not_lt.mpr hout]
      next hin =>
        have hin := not_le.mp hin
        simp [ih hin, or_imp, forall_and, hp, hin]

/-! ## The second loop -/

/-- What the second loop writes for the elements of a name. -/
def copiedText : List NameElt → Bytes
  | [] => []
  | .label text :: es => strlow text ++ if es = [] then [] else chr '.' :: copiedText es
  | .pointer :: es => copiedText es

theorem NameWalk.eq_nil_iff (h : NameWalk buf last p es q) (hroot : buf q = 0) :
    es = [] ↔ buf p = 0 := by
  cases h with
  | nil => simp [hroot]
  | pointer hptr => simp [ne_zero_of_isPointer hptr]
  | label hne => simp [hne]

/-- The copy loop writes the labels of the name, and where it reads. -/
theorem copyLoop_eq (h : NameWalk buf last p es q) (hroot : buf q = 0) (hne : es ≠ [])
    (hp : p < last) {fuel : Nat} (hfuel : es.length ≤ fuel) (c : Copying) :
    ∃ reads, copyLoop buf fuel p c = .ok ⟨c.written ++ copiedText es, c.reads ++ reads⟩ ∧
      (¬ CutPointer buf last es.length p → ∀ r ∈ reads, r < last) := by
  induction h generalizing fuel c with
  | nil => exact absurd rfl hne
  | @pointer p q es hptr inside rest ih =>
    obtain ⟨fuel, rfl⟩ : ∃ f, fuel = f + 1 := ⟨fuel - 1, by simp at hfuel; omega⟩
    rw [copyLoop, if_pos hptr]
    have hheads : ¬ CutPointer buf last (es.length + 1) p →
        p + 1 < last ∧ ¬ CutPointer buf last es.length (pointerTarget buf p) := by
      rw [cutPointer_pointer hptr]
      exact fun hcut => ⟨by omega, fun hrest => hcut (Or.inr ⟨inside, hrest⟩)⟩
    rcases Decidable.em (es = []) with rfl | hes
    · rw [if_pos ((rest.eq_nil_iff hroot).mp rfl)]
      refine ⟨[p + 1, pointerTarget buf p], by simp [copiedText], fun hcut => ?_⟩
      simp [inside, (hheads hcut).1]
    rw [if_neg (mt (rest.eq_nil_iff hroot).mpr hes)]
    obtain ⟨reads, heq, hreads⟩ := ih hroot hes inside (Nat.le_of_succ_le_succ hfuel)
      { c with reads := c.reads ++ [p + 1, pointerTarget buf p] }
    refine ⟨[p + 1, pointerTarget buf p] ++ reads, by simp [heq, copiedText], fun hcut => ?_⟩
    obtain ⟨hnext, hrest⟩ := hheads hcut
    simpa [or_imp, forall_and, inside, hnext] using hreads hrest
  | @label p q es hz hlabel inside rest ih =>
    obtain ⟨fuel, rfl⟩ : ∃ f, fuel = f + 1 := ⟨fuel - 1, by simp at hfuel; omega⟩
    rw [copyLoop, if_neg hlabel]
    have htext : ∀ r ∈ (List.range (buf p).toNat).map (p + 1 + ·) ++ [p + 1 + (buf p).toNat],
        r < last := by
      intro r hr
      simp only [mem_append, mem_map, mem_range, mem_singleton] at hr
      omega
    rcases Decidable.em (es = []) with rfl | hes
    · rw [if_pos ((rest.eq_nil_iff hroot).mp rfl)]
      exact ⟨_, by simp [copiedText], fun _ => htext⟩
    rw [if_neg (mt (rest.eq_nil_iff hroot).mpr hes)]
    obtain ⟨reads, heq, hreads⟩ := ih hroot hes inside (Nat.le_of_succ_le_succ hfuel)
      ⟨c.written ++ strlow (load buf (p + 1) (buf p).toNat) ++ [chr '.'],
        c.reads ++ (List.range (buf p).toNat).map (p + 1 + ·) ++ [p + 1 + (buf p).toNat]⟩
    refine ⟨((List.range (buf p).toNat).map (p + 1 + ·) ++ [p + 1 + (buf p).toNat]) ++ reads,
      by rw [heq]; simp [copiedText, hes], fun hcut r hr => ?_⟩
    rcases mem_append.mp hr with hr | hr
    · exact htext r hr
    · refine hreads (fun hrest => hcut ?_) r hr
      exact (cutPointer_label hz hlabel).mpr ⟨inside, hrest⟩

/-! ## Counting the dots -/

/-- Some label of the name is followed by nothing but pointers, one at least. -/
def EndsInPointer (es : List NameElt) : Prop :=
  ∃ es', es = es' ++ [.pointer] ∧ labelsOf es' ≠ []

theorem endsInPointer_pointer : EndsInPointer (.pointer :: es) ↔ EndsInPointer es := by
  constructor
  · rintro ⟨es', heq, hlabels⟩
    cases es' with
    | nil => exact absurd rfl hlabels
    | cons e es' =>
      obtain ⟨rfl, rfl⟩ := cons.inj heq
      exact ⟨es', rfl, hlabels⟩
  · rintro ⟨es', rfl, hlabels⟩
    exact ⟨.pointer :: es', rfl, hlabels⟩

theorem labelsOf_append : labelsOf (es ++ es') = labelsOf es ++ labelsOf es' := by
  induction es with
  | nil => rfl
  | cons e es ih => cases e <;> simp [labelsOf, ih]

theorem endsInPointer_label {text : Bytes} :
    EndsInPointer (.label text :: es) ↔ EndsInPointer es ∨ es ≠ [] ∧ labelsOf es = [] := by
  constructor
  · rintro ⟨es', heq, -⟩
    cases es' with
    | nil => cases heq
    | cons e es' =>
      obtain ⟨rfl, rfl⟩ := cons.inj heq
      rcases Decidable.em (labelsOf es' = []) with hnone | hsome
      · exact Or.inr ⟨by simp, by simp [labelsOf_append, hnone, labelsOf]⟩
      · exact Or.inl ⟨es', rfl, hsome⟩
  · rintro (⟨es', rfl, -⟩ | ⟨hne, hnone⟩)
    · exact ⟨.label text :: es', rfl, by simp [labelsOf]⟩
    · obtain ⟨es', e, rfl⟩ := eq_nil_or_concat' es |>.resolve_left hne
      cases e with
      | label text' => simp [labelsOf_append, labelsOf] at hnone
      | pointer => exact ⟨.label text :: es', rfl, by simp [labelsOf]⟩

theorem copiedText_of_noLabels (h : labelsOf es = []) : copiedText es = [] := by
  induction es with
  | nil => rfl
  | cons e es ih =>
    cases e with
    | label text => simp [labelsOf] at h
    | pointer => exact ih h

theorem nameWeight_of_noLabels (h : labelsOf es = []) : nameWeight es = 0 := by
  induction es with
  | nil => rfl
  | cons e es ih =>
    cases e with
    | label text => simp [labelsOf] at h
    | pointer => exact ih h

theorem nameWeight_pos (h : labelsOf es ≠ []) : 0 < nameWeight es := by
  induction es with
  | nil => exact absurd rfl h
  | cons e es ih =>
    cases e with
    | label text => simp only [nameWeight]; omega
    | pointer => exact ih h

theorem EndsInPointer.hasLabels (h : EndsInPointer es) : labelsOf es ≠ [] := by
  obtain ⟨es', rfl, hlabels⟩ := h
  simp [labelsOf_append, labelsOf, hlabels]

theorem dotted_cons {text : Bytes} {labels : List Bytes} (h : labels ≠ []) :
    dotted (text :: labels) = strlow text ++ chr '.' :: dotted labels := by
  obtain ⟨label, labels, rfl⟩ := exists_cons_of_ne_nil h
  simp [dotted, List.intercalate]

theorem copiedText_eq (h : labelsOf es ≠ []) :
    (¬ EndsInPointer es → copiedText es = dotted (labelsOf es) ∧
      (copiedText es).length + 1 = nameWeight es) ∧
    (EndsInPointer es → (copiedText es).length = nameWeight es) := by
  induction es with
  | nil => exact absurd rfl h
  | cons e es ih =>
    cases e with
    | pointer =>
      rw [endsInPointer_pointer]
      exact ih h
    | label text =>
      rw [endsInPointer_label]
      rcases Decidable.em (labelsOf es = []) with hnone | hsome
      · have htext := copiedText_of_noLabels hnone
        have hweight := nameWeight_of_noLabels hnone
        rcases Decidable.em (es = []) with rfl | hes
        · have hno : ¬ EndsInPointer [] := by rintro ⟨es', heq, -⟩; simp at heq
          simp [hno, copiedText, nameWeight, labelsOf, dotted, List.intercalate, strlow,
            add_comm]
        · simp [hes, hnone, copiedText, nameWeight, htext, hweight, strlow, add_comm]
      · have hes : es ≠ [] := by rintro rfl; exact hsome rfl
        obtain ⟨hdots, hmore⟩ := ih hsome
        simp only [hsome, and_false, or_false, copiedText, if_neg hes, labelsOf, nameWeight,
          dotted_cons hsome, length_append, length_cons, strlow, length_map]
        constructor
        · intro hend
          obtain ⟨heq, hlen⟩ := hdots hend
          exact ⟨by rw [heq], by omega⟩
        · intro hend
          have hlen := hmore hend
          omega

/-! ## Exactness -/

/-- The call has read nothing past the end, and a name that it returns is the
dotted lower-case form of the labels, written into the memory allocated for it. -/
def CopyExact (buf : Nat → Byte) (last src : Nat) (c : NameCopy) : Prop :=
  (∀ r ∈ c.reads, r < last) ∧
    ∀ name, c.rc = .ok → c.name = some name →
      c.written.length ≤ c.allocated ∧
        ∃ es q, NameWalk buf last src es q ∧ buf q = 0 ∧ name = dotted (labelsOf es)

theorem pointerToRoot_iff (h : NameEnds buf last limit p es) :
    PointerToRoot buf last limit p ↔ EndsInPointer es := by
  constructor
  · rintro ⟨es', hends, hlabels⟩
    exact ⟨es', h.unique hends, hlabels⟩
  · rintro ⟨es', rfl, hlabels⟩
    exact ⟨es', h, hlabels⟩

theorem CutPointer.mono {limit' : Nat} (h : CutPointer buf last limit p) (hle : limit ≤ limit') :
    CutPointer buf last limit' p := by
  obtain ⟨es, q, hwalk, hptr, hcut, hlt⟩ := h
  exact ⟨es, q, hwalk, hptr, hcut, lt_of_lt_of_le hlt hle⟩

theorem exact_of_copied {reads reads' : List Nat} {len : Int} (hlabels : labelsOf es ≠ [])
    (hends : NameEnds buf last limit p es) (hlen : len = -1 + nameWeight es)
    (hreads : (∀ r ∈ reads, r < last) ↔ ¬ CutPointer buf last limit p)
    (hreads' : ¬ CutPointer buf last limit p → ∀ r ∈ reads', r < last) :
    CopyExact buf last p
        ⟨.ok, some (copiedText es), len.toNat, copiedText es, reads ++ reads'⟩ ↔
      ¬ CutPointer buf last limit p ∧ ¬ EndsInPointer es := by
  obtain ⟨hdots, hmore⟩ := copiedText_eq hlabels
  constructor
  · rintro ⟨hin, hname⟩
    refine ⟨hreads.mp fun r hr => hin r (mem_append_left _ hr), fun hend => ?_⟩
    obtain ⟨hfit, -⟩ := hname _ rfl rfl
    have hpos := nameWeight_pos hlabels
    have hcount := hmore hend
    simp only at hfit
    omega
  · rintro ⟨hcut, hend⟩
    obtain ⟨heq, hcount⟩ := hdots hend
    obtain ⟨q, hwalk, hroot, -⟩ := hends
    refine ⟨fun r hr => ?_, fun name _ hname => ⟨?_, es, q, hwalk, hroot, ?_⟩⟩
    · rcases mem_append.mp hr with hr | hr
      · exact hreads.mpr hcut r hr
      · exact hreads' hcut r hr
    · simp only
      omega
    · rw [← Option.some.inj hname, heq]

/-- **Names of DNS responses.**  Every call returns, and it is memory-exact if and
only if the name does not come to a compression pointer of which the response
holds only the first byte and, where a name is returned, no pointer behind its
labels leads to the root label. -/
theorem resolverCopy_exact_iff (buf : Nat → Byte) (last src : Nat) (wanted memory : Bool)
    (hsrc : src < last) :
    ∃ c, resolverCopy buf last src wanted memory = .ok c ∧
      (CopyExact buf last src c ↔
        ¬ CutPointer buf last pointersLimit src ∧
          ¬ (wanted = true ∧ memory = true ∧ PointerToRoot buf last pointersLimit src)) := by
  set m := measureLoop buf last pointersLimit src (-1) [] with hm
  have hreads : (∀ r ∈ m.reads, r < last) ↔ ¬ CutPointer buf last pointersLimit src := by
    simpa using reads_measureLoop pointersLimit hsrc (-1) []
  -- a call that returns no name has only the first loop to answer for
  have hnone : ∀ rc, (CopyExact buf last src ⟨rc, none, 0, [], m.reads⟩ ↔
      ¬ CutPointer buf last pointersLimit src) := fun rc => by
    simp [CopyExact, hreads]
  rcases @len_measureLoop buf last pointersLimit src (-1) [] with
    ⟨es, hends, hlen⟩ | ⟨⟨err, herr⟩, hno⟩
  · rw [← hm] at hlen
    rw [pointerToRoot_iff hends, resolverCopy, ← hm, hlen]
    cases wanted with
    | false => exact ⟨_, rfl, by simp [hnone]⟩
    | true =>
    rcases Decidable.em (labelsOf es = []) with hempty | hlabels
    · have hnotEnd : ¬ EndsInPointer es := fun hend => hend.hasLabels hempty
      exact ⟨_, by simp [nameWeight_of_noLabels hempty]; rfl, by simp [hnone, hnotEnd]⟩
    have hpos := nameWeight_pos hlabels
    cases memory with
    | false => exact ⟨_, by simp [show nameWeight es ≠ 0 by omega]; rfl, by simp [hnone]⟩
    | true =>
    obtain ⟨q, hwalk, hroot, hlt⟩ := hends
    have hne : es ≠ [] := by rintro rfl; exact hlabels rfl
    have hfuel : es.length ≤ copyBound := by
      have hbound : pointersLimit ≤ copyBound := by decide
      omega
    obtain ⟨reads, hcopy, hmore⟩ := copyLoop_eq hwalk hroot hne hsrc hfuel ⟨[], m.reads ++ [src]⟩
    refine ⟨⟨.ok, some (copiedText es), (-1 + nameWeight es : Int).toNat, copiedText es,
      m.reads ++ (src :: reads)⟩, ?_, ?_⟩
    · simp [hcopy, show nameWeight es ≠ 0 by omega]
      rfl
    simp only [true_and]
    refine exact_of_copied hlabels ⟨q, hwalk, hroot, hlt⟩ rfl hreads fun hcut r hr => ?_
    rcases mem_cons.mp hr with rfl | hr
    · exact hsrc
    · exact hmore (fun hshort => hcut (hshort.mono hlt.le)) r hr
  · have hroot : ¬ PointerToRoot buf last pointersLimit src := fun ⟨es, hends, _⟩ => hno _ hends
    exact ⟨_, by rw [resolverCopy, ← hm, herr], by simp [hnone, hroot]⟩

/-! ## Two responses -/

/-- A response of a header whose bytes are zero, the label `a` and two bytes more. -/
def shortResponse (b b' : Byte) (i : Nat) : Byte :=
  (List.replicate 12 0 ++ [1, chr 'a', b, b']).getD i 0

/-- `a`, followed by a pointer to a zero byte, is allocated one byte and written as
`a.`. -/
theorem resolverCopy_pointerToRoot :
    ∃ c, resolverCopy (shortResponse 0xc0 0) 16 12 true true = .ok c ∧
      c.allocated = 1 ∧ c.written = ascii "a." ∧ ¬ CopyExact (shortResponse 0xc0 0) 16 12 c := by
  refine ⟨⟨.ok, some (ascii "a."), 1, ascii "a.", [12, 14, 15, 0, 12, 13, 14, 15, 0]⟩,
    by rfl, rfl, rfl, ?_⟩
  rintro ⟨-, hname⟩
  exact absurd (hname _ rfl rfl).1 (by decide)

/-- A pointer that begins at the last byte, 14, has its second byte read at 15. -/
example :
    (measureLoop (shortResponse 0xc0 0) 15 pointersLimit 12 (-1) []).reads = [12, 14, 15, 0] :=
  rfl

/-- The name `A` at 12, and a pointer to it at 15. -/
def pointerResponse (i : Nat) : Byte :=
  (List.replicate 12 0 ++ [1, chr 'A', 0, 0xc0, 12]).getD i 0

/-- A name that is a pointer to another one is copied exactly. -/
theorem resolverCopy_exact_a :
    ∃ c, resolverCopy pointerResponse 17 15 true true = .ok c ∧ c.name = some (ascii "a") ∧
      CopyExact pointerResponse 17 15 c := by
  obtain ⟨c, hcopy, hiff⟩ := resolverCopy_exact_iff pointerResponse 17 15 true true (by decide)
  have hc : resolverCopy pointerResponse 17 15 true true =
      .ok ⟨.ok, some (ascii "a"), 1, ascii "a", [15, 16, 12, 14, 15, 16, 12, 13, 14]⟩ := by rfl
  have hends : NameEnds pointerResponse 17 pointersLimit 15 [.pointer, .label (ascii "A")] :=
    ⟨14, .pointer (by decide) (by decide)
      (.label (by decide) (by decide) (by decide) (.nil 14)), by decide, by decide⟩
  have hlast : ¬ EndsInPointer [.pointer, .label (ascii "A")] := by
    rintro ⟨es, heq, -⟩
    exact absurd (congrArg List.getLast? heq) (by simp)
  refine ⟨c, hcopy, ?_, hiff.mpr ⟨?_, fun hroot => hlast ((pointerToRoot_iff hends).mp hroot.2.2)⟩⟩
  · obtain rfl := Except.ok.inj (hc.symm.trans hcopy)
    rfl
  · have hpointer : isPointer (pointerResponse 15) := by decide
    have htarget : pointerTarget pointerResponse 15 = 12 := by decide
    rw [show pointersLimit = 126 + 1 + 1 from rfl, cutPointer_pointer hpointer, htarget,
      cutPointer_label (by decide) (by decide)]
    rintro (hcut | ⟨-, -, hcut⟩)
    · exact absurd hcut (by decide)
    · exact not_cutPointer_root (by decide) hcut

end Nginx.Core
