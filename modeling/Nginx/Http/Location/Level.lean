/-
  Http/Location/Level.lean --- the order of the names, and the nested queue: on each level
  the names are in order, and what begins with the name of an inclusive location is inside it.
-/
import Mathlib.Data.List.TakeWhile
import Nginx.Foundation.Prefixes
import Nginx.Http.Location.Tree

set_option autoImplicit false

namespace Nginx.Http.Location

open List Foundation

/-- The place of a byte among the others: the end of a name first, then the slash. -/
def rank (c : Byte) : Nat := if c = 0 then 0 else if c = chr '/' then 1 else c.toNat + 1

theorem toNat_pos {c : Byte} (hc : c ≠ 0) :
    0 < c.toNat := pos_of_ne_zero fun hn => hc (UInt8.toNat_inj.mp hn)

theorem rank_injective : Function.Injective rank := by
  intro a b h
  unfold rank at h
  by_cases ha : a = 0 <;> by_cases hb : b = 0
  · rw [ha, hb]
  · rw [if_pos ha, if_neg hb] at h
    split at h <;> omega
  · rw [if_neg ha, if_pos hb] at h
    split at h <;> omega
  rw [if_neg ha, if_neg hb] at h
  have := toNat_pos ha
  have := toNat_pos hb
  by_cases has : a = chr '/' <;> by_cases hbs : b = chr '/'
  · rw [has, hbs]
  · rw [if_pos has, if_neg hbs] at h
    omega
  · rw [if_neg has, if_pos hbs] at h
    omega
  · rw [if_neg has, if_neg hbs] at h
    exact UInt8.toNat_inj.mp (by omega)

/-- A name without NUL. -/
def Clean (name : Bytes) : Prop := ∀ c ∈ name, c ≠ 0

theorem LocConf.clean (clcf : LocConf) : Clean clcf.name := by
  intro c hc
  simpa using all_eq_true.mp clcf.noNul c hc

theorem Clean.drop {name : Bytes} (h : Clean name) (n : Nat) :
    Clean (name.drop n) := fun c hc => h c (mem_of_mem_drop hc)

/-- What a comparison of at most `n` bytes tells. -/
inductive Compared (n : Nat) (s1 s2 : Bytes) (rc : Int) : Prop where
  | same (hrc : rc = 0) (h : s1.take n = s2.take n)
  | less (hrc : rc < 0) (hne : s1.take n ≠ s2.take n) (h : Before rank s1 s2)
  | greater (hrc : 0 < rc) (hne : s1.take n ≠ s2.take n) (h : Before rank s2 s1)

/-- `ngx_filename_cmp` compares by rank up to the length. -/
theorem filenameCmp_spec {n : Nat} (s1 : Bytes) {s2 : Bytes} (h2 : Clean s2)
    (h1 : n ≤ s2.length ∨ Clean s1) :
    Compared n s1 s2 (filenameCmp n s1 s2) := by
  induction n generalizing s1 s2 with
  | zero => exact .same rfl (by simp)
  | succ n ih =>
    unfold filenameCmp
    cases s1 with
    | nil =>
      cases s2 with
      | nil => exact .same rfl rfl
      | cons b s2 =>
        have hb : b ≠ 0 := h2 b mem_cons_self
        have hpos := toNat_pos hb
        refine .less ?_ (by simp) trivial
        simp [hb.symm]
        omega
    | cons a s1 =>
      cases s2 with
      | nil =>
        have ha : a ≠ 0 := (h1.resolve_left (by simp)) a mem_cons_self
        have hpos := toNat_pos ha
        refine .greater ?_ (by simp) trivial
        simp [ha]
        omega
      | cons b s2 =>
        have hb : b ≠ 0 := h2 b mem_cons_self
        have h2' : Clean s2 := fun c hc => h2 c (mem_cons_of_mem _ hc)
        have h1' : n ≤ s2.length ∨ Clean s1 := by
          refine h1.imp (fun h => ?_) fun h c hc => h c (mem_cons_of_mem _ hc)
          simpa using h
        simp only [headD_cons, tail_cons]
        by_cases hab : a = b
        · subst hab
          simp only [if_true, hb, ne_eq, not_false_eq_true]
          rcases ih s1 h2' h1' with ⟨hrc, h⟩ | ⟨hrc, hne, h⟩ | ⟨hrc, hne, h⟩
          · exact .same hrc (by simp [h])
          · exact .less hrc (by simpa using hne) (.inr ⟨rfl, h⟩)
          · exact .greater hrc (by simpa using hne) (.inr ⟨rfl, h⟩)
        have hneq : (a :: s1).take (n + 1) ≠ (b :: s2).take (n + 1) := by simp [hab]
        simp only [if_neg hab, hb, or_false]
        have hval : a.toNat ≠ b.toNat := fun hn => hab (UInt8.toNat_inj.mp hn)
        have hbpos := toNat_pos hb
        have hrank : ∀ rc : Int, (rc < 0 ∧ rank a < rank b) ∨ (0 < rc ∧ rank b < rank a) →
            Compared (n + 1) (a :: s1) (b :: s2) rc := by
          rintro rc (⟨hrc, h⟩ | ⟨hrc, h⟩)
          · exact .less hrc hneq (.inl h)
          · exact .greater hrc hneq (.inl h)
        by_cases ha : a = 0
        · rw [if_pos ha]
          refine hrank _ (.inl ⟨?_, ?_⟩)
          · simp only [ha, UInt8.toNat_zero]
            omega
          · simp only [rank, ha, hb, if_true, if_false]
            split <;> omega
        have hapos := toNat_pos ha
        rw [if_neg ha]
        apply hrank
        simp only [rank, slashFirst, ha, hb, if_false]
        by_cases has : a = chr '/'
        · have hbs : b ≠ chr '/' := fun h => hab (has.trans h.symm)
          simp only [has, hbs, if_true, if_false]
          left
          omega
        · by_cases hbs : b = chr '/'
          · simp only [has, hbs, if_true, if_false]
            right
            omega
          · simp only [has, hbs, if_false]
            omega

/-! ## Sorted -/

/-- The locations of an element have its name, and there is one. -/
structure Named (lq : LocationQueue) : Prop where
  exact : ∀ clcf, lq.exact = some clcf → clcf.name = lq.name ∧ clcf.exactMatch = true
  inclusive : ∀ clcf, lq.inclusive = some clcf → clcf.name = lq.name ∧ clcf.exactMatch = false
  some : lq.exact ≠ none ∨ lq.inclusive ≠ none

theorem Named.clean {lq : LocationQueue} (h : Named lq) : Clean lq.name := by
  rcases h.some with hs | hs
  · obtain ⟨clcf, hc⟩ := Option.ne_none_iff_exists'.mp hs
    rw [← (h.exact clcf hc).1]
    exact clcf.clean
  · obtain ⟨clcf, hc⟩ := Option.ne_none_iff_exists'.mp hs
    rw [← (h.inclusive clcf hc).1]
    exact clcf.clean

/-- And it has no others inside yet. -/
structure Plain (lq : LocationQueue) : Prop extends Named lq where
  list : lq.list = []

theorem plain_addLocation (clcf : LocConf) : Plain (addLocation clcf) := by
  unfold addLocation
  by_cases h : clcf.exactMatch
  · rw [if_pos h]
    refine ⟨⟨?_, by simp, by simp⟩, rfl⟩
    rintro _ ⟨⟩
    exact ⟨rfl, h⟩
  · rw [if_neg h]
    refine ⟨⟨by simp, ?_, by simp⟩, rfl⟩
    rintro _ ⟨⟩
    exact ⟨rfl, by simpa using h⟩

theorem eq_of_take_eq {s1 s2 : Bytes}
    (h : s1.take (min s1.length s2.length + 1) = s2.take (min s1.length s2.length + 1)) :
    s1 = s2 := by
  have hlen := congrArg List.length h
  simp only [length_take] at hlen
  have h1 : s1.length ≤ min s1.length s2.length + 1 := by omega
  have h2 : s2.length ≤ min s1.length s2.length + 1 := by omega
  rwa [take_of_length_le h1, take_of_length_le h2] at h

theorem cmpLocations_le_iff {a b : LocationQueue} (ha : Clean a.name) (hb : Clean b.name) :
    cmpLocations a b ≤ 0 ↔ Before rank a.name b.name ∨
      (a.name = b.name ∧ (a.exact ≠ none ∨ b.exact = none)) := by
  unfold cmpLocations
  rcases filenameCmp_spec (n := min a.name.length b.name.length + 1) a.name hb (.inr ha) with
    ⟨hrc, h⟩ | ⟨hrc, hne, h⟩ | ⟨hrc, hne, h⟩
  · have heq := eq_of_take_eq h
    rw [hrc, heq]
    rcases a.exact with _ | _ <;> rcases b.exact with _ | _ <;> simp [Before.irrefl]
  · rw [if_neg (by omega)]
    exact ⟨fun _ => .inl h, fun _ => by omega⟩
  rw [if_neg (by omega)]
  refine ⟨fun h' => by omega, ?_⟩
  rintro (h' | ⟨heq, _⟩)
  · exact absurd h h'.asymm
  · rw [heq] at hne
    exact absurd rfl hne

theorem sorted_locations {queue : List LocationQueue} (h : ∀ lq ∈ queue, Clean lq.name) :
    (queueSort cmpLocations queue).Pairwise fun a b => cmpLocations a b ≤ 0 := by
  refine queueSort_sorted (P := fun lq => Clean lq.name) (fun a b ha hb hlt =>
    ?_) (fun a b c ha hb hc hab hbc => ?_) h
  · have hn : ¬cmpLocations a b ≤ 0 := by omega
    rw [cmpLocations_le_iff ha hb, not_or] at hn
    rw [cmpLocations_le_iff hb ha]
    rcases Before.total rank_injective a.name b.name with h | h | h
    · exact absurd h hn.1
    · right
      refine ⟨h.symm, ?_⟩
      by_contra hne
      rw [not_or, not_not] at hne
      exact hn.2 ⟨h, .inr hne.1⟩
    · exact .inl h
  · rw [cmpLocations_le_iff ha hb] at hab
    rw [cmpLocations_le_iff hb hc] at hbc
    rw [cmpLocations_le_iff ha hc]
    rcases hab with hab | ⟨hab, hab'⟩
    · left
      rcases hbc with hbc | ⟨hbc, _⟩
      · exact hab.trans hbc
      · rwa [← hbc]
    · rw [hab]
      refine hbc.imp_right fun hbc => ⟨hbc.1, ?_⟩
      rcases hab' with h | h
      · exact .inl h
      · exact .inr (hbc.2.resolve_left fun hne => hne h)

/-! ## Joined -/

/-- The elements stand in the order of their names, an exact one right in front of the
inclusive one of the same name. -/
def Ordered (a b : LocationQueue) : Prop :=
  Before rank a.name b.name ∨ (a.name = b.name ∧ a.inclusive = none ∧ b.exact = none)

/-- The elements hold the locations and no others. -/
structure Holds (elements : List LocationQueue) (locations : List LocConf) : Prop where
  exact : ∀ clcf, (∃ lq ∈ elements, lq.exact = some clcf) ↔ clcf ∈ locations ∧
    clcf.exactMatch = true
  inclusive : ∀ clcf, (∃ lq ∈ elements, lq.inclusive = some clcf) ↔
    clcf ∈ locations ∧ clcf.exactMatch = false

theorem sameName_iff {a b : LocationQueue} (hb : Clean b.name) :
    a.name.length = b.name.length ∧ filenameCmp b.name.length a.name b.name = 0 ↔
      a.name = b.name := by
  constructor
  · rintro ⟨hlen, hrc⟩
    rcases filenameCmp_spec (n := b.name.length) a.name hb (.inl le_rfl) with
      ⟨-, h⟩ | ⟨hrc', -, -⟩ | ⟨hrc', -, -⟩
    · rw [take_of_length_le hlen.le, take_length] at h
      exact h
    · omega
    · omega
  · intro h
    rw [h]
    refine ⟨rfl, ?_⟩
    rcases filenameCmp_spec (n := b.name.length) b.name hb (.inl le_rfl) with
      ⟨hrc, -⟩ | ⟨-, hne, -⟩ | ⟨-, hne, -⟩
    · exact hrc
    · exact absurd rfl hne
    · exact absurd rfl hne

/-- Exact and inclusive locations of one name become one element. -/
theorem joinExactLocations_spec (queue : List LocationQueue) (hnamed : ∀ lq ∈ queue, Plain lq)
    (hord : queue.Pairwise Ordered) :
    ∃ joined, joinExactLocations queue = some joined ∧
      joined.Pairwise (fun a b => Before rank a.name b.name) ∧
      (∀ lq ∈ joined, Plain lq ∧ ∃ x ∈ queue, x.name = lq.name) ∧
      (∀ clcf, (∃ lq ∈ joined, lq.exact = some clcf) ↔ ∃ lq ∈ queue, lq.exact = some clcf) ∧
      ∀ clcf, (∃ lq ∈ joined, lq.inclusive = some clcf) ↔
        ∃ lq ∈ queue, lq.inclusive = some clcf := by
  induction queue using joinExactLocations.induct with
  | case1 => exact ⟨[], by simp [joinExactLocations]⟩
  | case2 lq => exact ⟨[lq], by simpa [joinExactLocations] using hnamed⟩
  | case3 lq lx rest hsame hdup =>
    obtain ⟨hlq, -⟩ := pairwise_cons.mp hord
    have hname := (sameName_iff (hnamed lx (by simp)).clean).mp hsame
    rcases hlq lx (by simp) with h | ⟨-, hi, he⟩
    · exact absurd hname h.ne
    · simp [hi, he] at hdup
  | case4 lq lx rest hsame hdup ih =>
    obtain ⟨hlq, hrest⟩ := pairwise_cons.mp hord
    obtain ⟨hlx, hrest⟩ := pairwise_cons.mp hrest
    have hname := (sameName_iff (hnamed lx (by simp)).clean).mp hsame
    obtain ⟨hi, he⟩ : lq.inclusive = none ∧ lx.exact = none := by
      rcases hlq lx (by simp) with h | ⟨-, h⟩
      · exact absurd hname h.ne
      · exact h
    have hnlq := hnamed lq (by simp)
    have hnlx := hnamed lx (by simp)
    have hix : lx.inclusive ≠ none := hnlx.some.resolve_left fun h => h he
    have hnew : Plain { lq with inclusive := lx.inclusive } :=
      ⟨⟨hnlq.exact, fun clcf hc => by rw [hname]; exact hnlx.inclusive clcf hc, .inr hix⟩,
        hnlq.list⟩
    have hbefore : ∀ x ∈ rest, Before rank lq.name x.name := by
      intro x hx
      rw [hname]
      exact (hlx x hx).resolve_right fun h => hix h.2.1
    obtain ⟨joined, hjoin, hsorted, hmem, hexact, hincl⟩ := ih
      (forall_mem_cons.mpr ⟨hnew, fun x hx => hnamed x (by simp [hx])⟩)
      (pairwise_cons.mpr ⟨fun x hx => .inl (hbefore x hx), hrest⟩)
    refine ⟨joined, ?_, hsorted, fun y hy => ⟨(hmem y hy).1, ?_⟩, fun clcf => ?_, fun clcf => ?_⟩
    · rw [joinExactLocations, if_pos hsame, if_neg hdup, hjoin]
    · obtain ⟨x, hx, hxn⟩ := (hmem y hy).2
      rcases mem_cons.mp hx with rfl | hx
      · exact ⟨lq, by simp, hxn⟩
      · exact ⟨x, by simp [hx], hxn⟩
    · rw [hexact]
      simp [he]
    · rw [hincl]
      simp [hi]
  | case5 lq lx rest hsame ih =>
    obtain ⟨hlq, hrest⟩ := pairwise_cons.mp hord
    have hname : lq.name ≠ lx.name := fun h =>
      hsame ((sameName_iff (hnamed lx (by simp)).clean).mpr h)
    obtain ⟨joined, hjoin, hsorted, hmem, hexact, hincl⟩ :=
      ih (fun x hx => hnamed x (mem_cons_of_mem _ hx)) hrest
    have hlx : Before rank lq.name lx.name := (hlq lx (by simp)).resolve_right fun h => hname h.1
    have hbefore : ∀ x ∈ lx :: rest, Before rank lq.name x.name := by
      intro x hx
      rcases mem_cons.mp hx with rfl | hx'
      · exact hlx
      · rcases (pairwise_cons.mp hrest).1 x hx' with h | ⟨h, -⟩
        · exact hlx.trans h
        · rwa [← h]
    refine ⟨lq :: joined, ?_, pairwise_cons.mpr ⟨fun y hy => ?_, hsorted⟩, fun y hy =>
      ?_, fun clcf => ?_, fun clcf => ?_⟩
    · rw [joinExactLocations, if_neg hsame, hjoin]
      rfl
    · obtain ⟨x, hx, hxn⟩ := (hmem y hy).2
      rw [← hxn]
      exact hbefore x hx
    · rcases mem_cons.mp hy with rfl | hy
      · exact ⟨hnamed y (by simp), y, by simp, rfl⟩
      · obtain ⟨hny, x, hx, hxn⟩ := hmem y hy
        exact ⟨hny, x, mem_cons_of_mem _ hx, hxn⟩
    · simp only [exists_mem_cons_iff] at hexact ⊢
      rw [hexact]
    · simp only [exists_mem_cons_iff] at hincl ⊢
      rw [hincl]

/-- The elements behind `pre`, each with its own level inside. -/
inductive Level : Bytes → List LocationQueue → Prop where
  | nil (pre : Bytes) : Level pre []
  | cons {pre : Bytes} {lq : LocationQueue} {queue : List LocationQueue} (named : Named lq)
    (hpre : pre <+: lq.name)
      (before : ∀ x ∈ queue, Before rank lq.name x.name)
      (outside : lq.inclusive ≠ none → ∀ x ∈ queue, ¬lq.name <+: x.name)
      (empty : lq.inclusive = none → lq.list = []) (longer : ∀ x ∈ lq.list, lq.name ≠ x.name)
      (inner : Level lq.name lq.list) (rest : Level pre queue) : Level pre (lq :: queue)

/-- The element is in the queue, or inside one of it. -/
inductive Held : List LocationQueue → LocationQueue → Prop where
  | here {queue : List LocationQueue} {x : LocationQueue} (h : x ∈ queue) : Held queue x
  | inside {queue : List LocationQueue} {lq x : LocationQueue} (h : lq ∈ queue)
    (hx : Held lq.list x) : Held queue x

@[simp] theorem not_held_nil (x : LocationQueue) : ¬Held [] x := by
  rintro (h | ⟨h, _⟩)
  · exact not_mem_nil h
  · exact not_mem_nil h

@[simp] theorem held_cons {lq x : LocationQueue} {queue : List LocationQueue} :
    Held (lq :: queue) x ↔ x = lq ∨ Held lq.list x ∨ Held queue x := by
  constructor
  · rintro (h | ⟨h, hx⟩)
    · exact (mem_cons.mp h).imp_right fun h => .inr (.here h)
    · rcases mem_cons.mp h with rfl | h
      · exact .inr (.inl hx)
      · exact .inr (.inr (.inside h hx))
  · rintro (rfl | h | h)
    · exact .here mem_cons_self
    · exact .inside mem_cons_self h
    · rcases h with h | ⟨h, hx⟩
      · exact .here (mem_cons_of_mem _ h)
      · exact .inside (mem_cons_of_mem _ h) hx

theorem held_append {l r : List LocationQueue} {x : LocationQueue} :
    Held (l ++ r) x ↔ Held l x ∨ Held r x := by
  induction l with
  | nil => simp
  | cons lq l ih => simp [ih, or_assoc]

/-! ## What a level has -/

namespace Level

variable {pre : Bytes} {queue l r : List LocationQueue} {lq m x y : LocationQueue}

theorem of_mem (h : Level pre queue) (hx : x ∈ queue) :
    Named x ∧ pre <+: x.name ∧ (x.inclusive = none → x.list = []) ∧
      (∀ y ∈ x.list, x.name ≠ y.name) ∧ Level x.name x.list := by
  induction h with
  | nil => exact absurd hx not_mem_nil
  | cons named hpre before outside empty longer inner rest _ ih =>
    rcases mem_cons.mp hx with rfl | hx
    · exact ⟨named, hpre, empty, longer, inner⟩
    · exact ih hx

theorem append (h : Level pre (l ++ r)) :
    Level pre l ∧ Level pre r ∧ ∀ x ∈ l, ∀ y ∈ r, Before rank x.name y.name ∧
      (x.inclusive ≠ none → ¬x.name <+: y.name) := by
  induction l with
  | nil => exact ⟨.nil pre, h, fun x hx => absurd hx not_mem_nil⟩
  | cons lq l ih =>
    cases h with
    | cons named hpre before outside empty longer inner rest =>
      obtain ⟨hl, hr, hlr⟩ := ih rest
      refine ⟨.cons named hpre (fun x hx => before x (mem_append_left _ hx))
        (fun hi x hx => outside hi x (mem_append_left _ hx)) empty longer inner hl,
          hr, fun x hx y hy => ?_⟩
      rcases mem_cons.mp hx with rfl | hx
      · exact ⟨before y (mem_append_right _ hy), fun hi => outside hi y (mem_append_right _ hy)⟩
      · exact hlr x hx y hy

theorem around (h : Level pre (l ++ m :: r)) :
    (∀ x ∈ l, Before rank x.name m.name ∧ (x.inclusive ≠ none → ¬x.name <+: m.name)) ∧
      ∀ x ∈ r, Before rank m.name x.name ∧ (m.inclusive ≠ none → ¬m.name <+: x.name) := by
  obtain ⟨-, hr, hlr⟩ := h.append
  refine ⟨fun x hx => hlr x hx m mem_cons_self, fun x hx => ?_⟩
  cases hr with
  | cons named hpre before outside empty longer inner rest =>
    exact ⟨before x hx, fun hi => outside hi x hx⟩

theorem of_held (h : Level pre queue) (hx : Held queue x) :
    ∃ q ∈ queue, x = q ∨ (q.inclusive ≠ none ∧ Held q.list x) := by
  rcases hx with hx | ⟨hq, hx⟩
  · exact ⟨x, hx, .inl rfl⟩
  · refine ⟨_, hq, .inr ⟨fun hi => ?_, hx⟩⟩
    rw [(h.of_mem hq).2.2.1 hi] at hx
    exact not_held_nil x hx

theorem held_isPrefix (h : Level pre queue) (hx : Held queue x) : Named x ∧ pre <+: x.name := by
  induction hx generalizing pre with
  | here hx => exact ⟨(h.of_mem hx).1, (h.of_mem hx).2.1⟩
  | inside hq hx ih =>
    obtain ⟨-, hpre, -, -, hin⟩ := h.of_mem hq
    obtain ⟨hn, hp⟩ := ih hin
    exact ⟨hn, hpre.trans hp⟩

theorem held_longer (h : Level pre queue) (hq : lq ∈ queue) (hx : Held lq.list x) :
    lq.name <+: x.name ∧ lq.name ≠ x.name := by
  obtain ⟨-, -, -, hne, hin⟩ := h.of_mem hq
  refine ⟨(hin.held_isPrefix hx).2, ?_⟩
  obtain ⟨q, hq', rfl | ⟨-, hx⟩⟩ := hin.of_held hx
  · exact hne x hq'
  intro heq
  have hqx := (((hin.of_mem hq').2.2.2.2).held_isPrefix hx).2
  have hlq := (hin.of_mem hq').2.1
  rw [← heq] at hqx
  exact hne q hq' (hlq.eq_of_length_le hqx.length_le)

end Level

/-! ## The queue is nested -/

theorem inside_iff {lq lx : LocationQueue} (h : Clean lx.name) :
    inside lq lx = true ↔ lq.name <+: lx.name := by
  unfold inside
  rw [Bool.and_eq_true, decide_eq_true_eq, decide_eq_true_eq]
  constructor
  · rintro ⟨hlen, hrc⟩
    rcases filenameCmp_spec (n := lq.name.length) lq.name h (.inl hlen)
      with ⟨-, h⟩ | ⟨h, -, -⟩ | ⟨h, -, -⟩
    · rw [take_length] at h
      rw [h]
      exact take_prefix _ _
    · omega
    · omega
  · intro hp
    refine ⟨hp.length_le, ?_⟩
    have htake : lq.name.take lq.name.length = lx.name.take lq.name.length := by
      rw [take_length]
      exact prefix_iff_eq_take.mp hp
    rcases filenameCmp_spec (n := lq.name.length) lq.name h (.inl hp.length_le)
      with ⟨h, -⟩ | ⟨-, h, -⟩ | ⟨-, h, -⟩
    · exact h
    · exact absurd htake h
    · exact absurd htake h

theorem not_prefix_behind {lq : LocationQueue} {queue : List LocationQueue}
    (hbefore : ∀ x ∈ queue, Before rank lq.name x.name)
    (hord : queue.Pairwise fun a b => Before rank a.name b.name)
    (hhead : ∀ x ∈ queue.head?, ¬lq.name <+: x.name) : ∀ x ∈ queue, ¬lq.name <+: x.name := by
  cases queue with
  | nil => exact fun x hx => absurd hx not_mem_nil
  | cons lx queue =>
    have hlx := hhead lx rfl
    intro x hx hp
    rcases mem_cons.mp hx with rfl | hx
    · exact hlx hp
    · refine hlx (Before.prefix_between rank_injective ?_ ?_ hp)
      · exact (hbefore lx mem_cons_self).asymm
      · exact ((pairwise_cons.mp hord).1 x hx).asymm

/-- The element without what is inside. -/
def alone (lq : LocationQueue) : LocationQueue := { lq with list := [] }

theorem alone_of_plain {lq : LocationQueue} (h : Plain lq) : alone lq = lq := by
  obtain ⟨exact, inclusive, name, list⟩ := lq
  have hl : list = [] := h.list
  rw [hl]
  rfl

/-- `nested` is a level, in any place where its names may stand, and holds these elements. -/
structure Nests (nested elements : List LocationQueue) : Prop where
  level : ∀ pre : Bytes, (∀ x ∈ elements, pre <+: x.name) → Level pre nested
  held : ∀ x, (∃ y, Held nested y ∧ alone y = x) ↔ x ∈ elements

theorem nests_nil : Nests [] [] := ⟨fun pre _ => .nil pre, by simp⟩

theorem Nests.mem {nested elements : List LocationQueue} (h : Nests nested elements)
    {y : LocationQueue} (hy : y ∈ nested) :
    ∃ x ∈ elements, x.name = y.name := ⟨alone y, (h.held _).mp ⟨y, .here hy, rfl⟩, rfl⟩

theorem Nests.cons {lq : LocationQueue} {inner family nested others : List LocationQueue}
    (hp : Plain lq)
    (hinner : Nests inner family) (hnested : Nests nested others)
    (hfamily : ∀ x ∈ family, lq.name <+: x.name ∧ Before rank lq.name x.name)
    (hbefore : ∀ x ∈ others, Before rank lq.name x.name)
    (hout : lq.inclusive ≠ none → ∀ x ∈ others, ¬lq.name <+: x.name)
    (hempty : lq.inclusive = none → inner = []) :
    Nests ({ lq with list := inner } :: nested) (lq :: (family ++ others)) := by
  refine ⟨fun pre hpre => ?_, fun x => ?_⟩
  · refine .cons ⟨hp.exact, hp.inclusive, hp.some⟩
      (hpre lq (by simp)) (fun y hy => ?_) (fun hi y hy => ?_) hempty
      (fun y hy => ?_) (hinner.level _ fun x hx => (hfamily x hx).1)
      (hnested.level pre fun x hx => hpre x (by simp [hx]))
    · obtain ⟨x, hx, hxn⟩ := hnested.mem hy
      rw [← hxn]
      exact hbefore x hx
    · obtain ⟨x, hx, hxn⟩ := hnested.mem hy
      rw [← hxn]
      exact hout hi x hx
    · obtain ⟨x, hx, hxn⟩ := hinner.mem hy
      rw [← hxn]
      exact (hfamily x hx).2.ne
  · have hself : alone { lq with list := inner } = lq := alone_of_plain hp
    simp only [held_cons, mem_cons, mem_append, ← hinner.held, ← hnested.held]
    constructor
    · rintro ⟨y, rfl | hy | hy, rfl⟩
      · exact .inl hself
      · exact .inr (.inl ⟨y, hy, rfl⟩)
      · exact .inr (.inr ⟨y, hy, rfl⟩)
    · rintro (rfl | ⟨y, hy, rfl⟩ | ⟨y, hy, rfl⟩)
      · exact ⟨_, .inl rfl, hself⟩
      · exact ⟨y, .inr (.inl hy), rfl⟩
      · exact ⟨y, .inr (.inr hy), rfl⟩

/-- The list of lists has below each name the names that go on behind it. -/
theorem createLocationsList_nests {queue : List LocationQueue} (hplain : ∀ x ∈ queue, Plain x)
    (hord : queue.Pairwise fun a b => Before rank a.name b.name) :
    Nests (createLocationsList queue) queue := by
  induction queue using createLocationsList.induct with
  | case1 =>
    rw [createLocationsList]
    exact nests_nil
  | case2 lq =>
    have hp := hplain lq (by simp)
    have := Nests.cons hp nests_nil nests_nil (by simp) (by simp) (by simp) fun _ => rfl
    rw [show { lq with list := [] } = lq from alone_of_plain hp] at this
    rw [createLocationsList]
    exact this
  | case3 lq lx rest hi ih =>
    obtain ⟨hlq, hrest⟩ := pairwise_cons.mp hord
    have hp := hplain lq (by simp)
    have := Nests.cons hp nests_nil (ih (fun x hx => hplain x (mem_cons_of_mem _ hx)) hrest)
      (by simp) hlq
      (fun hne => absurd (Option.isNone_iff_eq_none.mp hi) hne) fun _ => rfl
    rw [show { lq with list := [] } = lq from alone_of_plain hp] at this
    rw [createLocationsList, if_pos hi]
    exact this
  | case4 lq lx rest hi hin ih =>
    obtain ⟨hlq, hrest⟩ := pairwise_cons.mp hord
    have hp := hplain lq (by simp)
    have hlx : ¬lq.name <+: lx.name := fun h => hin ((inside_iff (hplain lx (by simp)).clean).mpr h)
    have hnone := not_prefix_behind hlq hrest (by simpa using hlx)
    have := Nests.cons hp nests_nil (ih (fun x hx => hplain x (mem_cons_of_mem _ hx)) hrest)
      (by simp) hlq
      (fun _ => hnone) fun _ => rfl
    rw [show { lq with list := [] } = lq from alone_of_plain hp] at this
    rw [createLocationsList, if_neg hi, if_pos hin]
    exact this
  | case5 lq lx rest hi hin ihf iho =>
    obtain ⟨hlq, hrest⟩ := pairwise_cons.mp hord
    rw [not_not] at hin
    have hp := hplain lq (by simp)
    have hsplit : lx :: rest = (lx :: rest.takeWhile (inside lq)) ++
      rest.dropWhile (inside lq) := by
      rw [cons_append, takeWhile_append_dropWhile]
    have hplain' : ∀ x ∈ (lx :: rest.takeWhile (inside lq)) ++ rest.dropWhile (inside lq),
      Plain x := by
      rw [← hsplit]
      exact fun x hx => hplain x (mem_cons_of_mem _ hx)
    rw [hsplit] at hlq hrest
    obtain ⟨hof, hoo, -⟩ := pairwise_append.mp hrest
    have hnone := not_prefix_behind (fun x hx => hlq x (mem_append_right _ hx)) hoo fun x hx => by
      have := head?_dropWhile_not (inside lq) rest
      rw [Option.mem_def.mp hx] at this
      rw [← inside_iff (hplain' x (mem_append_right _ (mem_of_mem_head? hx))).clean]
      simpa using this
    have := Nests.cons hp (ihf (fun x hx => hplain' x (mem_append_left _ hx)) hof)
      (iho (fun x hx => hplain' x (mem_append_right _ hx)) hoo) (fun x hx =>
        ⟨?_, hlq x (mem_append_left _ hx)⟩)
      (fun x hx => hlq x (mem_append_right _ hx)) (fun _ => hnone)
      (fun hn => absurd (Option.isNone_iff_eq_none.mpr hn) hi)
    · rw [createLocationsList, if_neg hi, if_neg (not_not.mpr hin), hsplit]
      exact this
    · rw [← inside_iff (hplain' x (mem_append_left _ hx)).clean]
      rcases mem_cons.mp hx with rfl | hx
      · exact hin
      · exact mem_takeWhile_imp hx

end Nginx.Http.Location
