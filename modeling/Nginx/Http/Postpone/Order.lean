/-
  Http/Postpone/Order.lean --- the active request stands where the output ends.

  `Parked c r l f`: the list `l` of the request `r`, with the lists of the requests
  in it, is the outline `f`.  Only the requests named in `f` matter (`Parked.congr`).

  `Shape`: the tree is the contents of the active request in its frames, the ancestors;
  what stands before has been passed on, what stands behind is in the postponed lists.
  Adding to a list, output, waking, creating and closing a request keep it.
-/
import Nginx.Http.Postpone.Filter

set_option autoImplicit false

namespace Nginx.Http.Postpone

open Foundation Foundation.Outline

open List hiding append_assoc append_nil nil_append cons_append flatten flatten_append

/-- What a postponed list holds, one after the other. -/
def items : List Postponed → List (Bytes ⊕ Nat)
  | [] => []
  | .request sr :: l => .inr sr :: items l
  | .out chain :: l => chain.map .inl ++ items l

@[simp] theorem items_append (l m : List Postponed) : items (l ++ m) = items l ++ items m := by
  induction l with
  | nil => rfl
  | cons pr l ih =>
    cases pr with
    | request sr => rw [List.cons_append, items, items, ih, List.cons_append]
    | out chain => rw [List.cons_append, items, items, ih, List.append_assoc]

theorem items_postponeFilterAdd (input : List Bytes) (l : List Postponed) :
    items (Connection.postponeFilterAdd input l) = items l ++ input.map .inl := by
  fun_induction Connection.postponeFilterAdd input l with
  | case1 => simp [items]
  | case2 chain => simp [items]
  | case3 sr => simp [items]
  | case4 pr rest _ _ ih =>
    cases pr with
    | request sr => rw [items, ih, items, List.cons_append]
    | out chain => rw [items, ih, items, List.append_assoc]

/-- The items of the request `r` are the outline `f`. -/
def Holds (c : Connection) (r : Nat) : List (Bytes ⊕ Nat) → Outline Nat Bytes → Prop
  | l, .nil => l = []
  | l, .text b f => ∃ m, l = .inl b :: m ∧ Holds c r m f
  | l, .node s x f => ∃ m, l = .inr s :: m ∧ (c.requests s).parent = r ∧
      Holds c s (items (c.requests s).postponed) x ∧ Holds c r m f

def Parked (c : Connection) (r : Nat) (l : List Postponed) (f : Outline Nat Bytes) : Prop :=
  Holds c r (items l) f

section Congr

variable {c c' : Connection}

theorem Holds.congr {r : Nat} {l : List (Bytes ⊕ Nat)} {f : Outline Nat Bytes}
    (hsame : ∀ s ∈ f.names, (c'.requests s).parent = (c.requests s).parent ∧
      (c'.requests s).postponed = (c.requests s).postponed)
    (h : Holds c r l f) : Holds c' r l f := by
  induction f generalizing r l with
  | nil => exact h
  | text b rest ih =>
    obtain ⟨m, hl, hrest⟩ := h
    exact ⟨m, hl, ih hsame hrest⟩
  | node s x rest ihx ihRest =>
    obtain ⟨m, hl, hparent, hx, hrest⟩ := h
    obtain ⟨hp, hq⟩ := hsame s mem_cons_self
    refine ⟨m, hl, hp.trans hparent, ?_, ?_⟩
    · rw [hq]
      exact ihx (fun i hi => hsame i (mem_cons_of_mem _ (mem_append_left _ hi))) hx
    · exact ihRest (fun i hi => hsame i (mem_cons_of_mem _ (mem_append_right _ hi))) hrest

variable {f : Outline Nat Bytes}

variable {r : Nat} {m : List (Bytes ⊕ Nat)}

theorem Holds.append {l : List (Bytes ⊕ Nat)} {g : Outline Nat Bytes}
    (hf : Holds c r l f) (hg : Holds c r m g) : Holds c r (l ++ m) (f ++ g) := by
  induction f generalizing l with
  | nil =>
    have hl : l = [] := hf
    rw [hl]
    exact hg
  | text b rest ih =>
    obtain ⟨k, hl, hrest⟩ := hf
    exact ⟨k ++ m, by rw [hl, List.cons_append], ih hrest⟩
  | node s x rest _ ih =>
    obtain ⟨k, hl, hparent, hx, hrest⟩ := hf
    exact ⟨k ++ m, by rw [hl, List.cons_append], hparent, hx, ih hrest⟩

theorem holds_texts (r : Nat) (bs : List Bytes) : Holds c r (bs.map .inl) (.texts bs) := by
  induction bs with
  | nil => rfl
  | cons b bs ih => exact ⟨_, rfl, ih⟩

theorem Holds.eq_nil (h : Holds c r [] f) : f = .nil := by
  cases f with
  | nil => rfl
  | text b rest => obtain ⟨m, hl, -⟩ := h; cases hl
  | node s x rest => obtain ⟨m, hl, -⟩ := h; cases hl

theorem Holds.texts_append {bs : List Bytes}
    (h : Holds c r (bs.map .inl ++ m) f) : ∃ g, f = .texts bs ++ g ∧ Holds c r m g := by
  induction bs generalizing f with
  | nil => exact ⟨f, rfl, h⟩
  | cons b bs ih =>
    cases f with
    | nil => cases (h : Sum.inl b :: (bs.map .inl ++ m) = [])
    | text b' rest =>
      obtain ⟨k, hl, hrest⟩ := h
      rw [map_cons, List.cons_append, List.cons.injEq, Sum.inl.injEq] at hl
      obtain ⟨rfl, rfl⟩ := hl
      obtain ⟨g, rfl, hg⟩ := ih hrest
      exact ⟨g, rfl, hg⟩
    | node s x rest =>
      obtain ⟨k, hl, -⟩ := h
      rw [map_cons, List.cons_append, List.cons.injEq] at hl
      cases hl.1

theorem Holds.request_cons {s : Nat}
    (h : Holds c r (.inr s :: m) f) :
    ∃ x g, f = .node s x g ∧ (c.requests s).parent = r ∧
      Holds c s (items (c.requests s).postponed) x ∧ Holds c r m g := by
  cases f with
  | nil => cases (h : (Sum.inr s : Bytes ⊕ Nat) :: m = [])
  | text b rest =>
    obtain ⟨k, hl, -⟩ := h
    rw [List.cons.injEq] at hl
    cases hl.1
  | node s' x rest =>
    obtain ⟨k, hl, hparent, hx, hrest⟩ := h
    rw [List.cons.injEq, Sum.inr.injEq] at hl
    obtain ⟨rfl, rfl⟩ := hl
    exact ⟨x, rest, rfl, hparent, hx, hrest⟩

/-! ## Adding to a list -/

/-- The connection `c'` is `c` with `added` at the end of the list of `q`, for the
requests named in `known`. -/
structure Adds (c c' : Connection) (q : Nat) (added : List (Bytes ⊕ Nat)) (known : Nat → Prop) :
    Prop where
  parent : ∀ s, known s → (c'.requests s).parent = (c.requests s).parent
  others : ∀ s, known s → s ≠ q → (c'.requests s).postponed = (c.requests s).postponed
  self : items (c'.requests q).postponed = items (c.requests q).postponed ++ added
  /-- what is added is no known request -/
  head : ∀ s, known s → items (Connection.withoutHead s (c'.requests q).postponed) =
    items (Connection.withoutHead s (c.requests q).postponed) ++ added

theorem Holds.addTo {q : Nat} {added : List (Bytes ⊕ Nat)} {g : Outline Nat Bytes}
    {known : Nat → Prop}
    (hadds : Adds c c' q added known) (hg : Holds c' q added g)
    {l : List (Bytes ⊕ Nat)} (hknown : ∀ s ∈ f.names, known s) (hnodup : f.names.Nodup)
    (h : Holds c r l f) : Holds c' r l (Outline.addTo q g f) := by
  induction f generalizing r l with
  | nil => exact h
  | text b rest ih =>
    obtain ⟨m, hl, hrest⟩ := h
    exact ⟨m, hl, ih hknown hnodup hrest⟩
  | node s x rest ihx ihRest =>
    obtain ⟨m, hl, hparent, hx, hrest⟩ := h
    obtain ⟨hs, hboth⟩ := nodup_cons.mp hnodup
    obtain ⟨hnodupX, hnodupRest, -⟩ := nodup_append.mp hboth
    have hknownX : ∀ i ∈ x.names, known i := fun i hi =>
      hknown i (mem_cons_of_mem _ (mem_append_left _ hi))
    have hrest' :=
      ihRest (fun i hi => hknown i (mem_cons_of_mem _ (mem_append_right _ hi)))
      hnodupRest hrest
    have hks := hknown s mem_cons_self
    refine ⟨m, hl, (hadds.parent s hks).trans hparent, ?_, hrest'⟩
    by_cases hsq : s = q
    · subst hsq
      rw [if_pos rfl, hadds.self]
      refine Holds.append (hx.congr fun i hi => ⟨hadds.parent i (hknownX i hi), ?_⟩) hg
      refine hadds.others i (hknownX i hi) ?_
      rintro rfl
      exact hs (mem_append_left _ hi)
    · rw [if_neg hsq, hadds.others s hks hsq]
      exact ihx hknownX hnodupX hx

end Congr

open Foundation.Outline

/-- The list of an ancestor, without the child towards the active request. -/
abbrev listWithout (c : Connection) (i r : Nat) : List (Bytes ⊕ Nat) :=
  items (Connection.withoutHead i (c.requests r).postponed)

/-- The frames around the request `i` are its ancestors. -/
def Chained (c : Connection) : Nat → List (Frame Nat Bytes) → Prop
  | i, [] => i = 0
  | i, frame :: frames => (c.requests i).parent = frame.name ∧
      Holds c frame.name (listWithout c i frame.name) frame.after ∧ Chained c frame.name frames

/-- The requests whose output is complete. -/
def closed (before : Outline Nat Bytes) (frames : List (Frame Nat Bytes)) : List Nat :=
  before.names ++ frames.flatMap fun frame => frame.before.names

/-- The contents of the active request are `before ++ behind`, and its list is `l`. -/
structure Shape (c : Connection) (l : List Postponed) (tree before behind : Outline Nat Bytes)
    (frames : List (Frame Nat Bytes)) : Prop where
  tree_eq : tree = up c.data (before ++ behind) frames
  output : c.output = textBefore frames ++ before.flatten
  parked : Parked c c.data l behind
  chained : Chained c c.data frames
  nodup : tree.names.Nodup
  names : ∀ r, r ∈ tree.names ↔ r < c.created
  logged : ∀ r, r < c.created → ((c.requests r).logged = true ↔ r ∈ closed before frames)

/-- The output is in order. -/
def Ordered (c : Connection) (tree : Outline Nat Bytes) : Prop :=
  ∃ before behind frames, Shape c (c.requests c.data).postponed tree before behind frames

theorem ordered_start : Ordered start (.node 0 .nil .nil) := by
  refine ⟨.nil, .nil, [], rfl, rfl, rfl, rfl, nodup_singleton 0, fun r => ?_, fun r hr => ?_⟩
  · exact mem_singleton.trans Nat.lt_one_iff.symm
  · exact ⟨fun h => absurd (h : false = true) Bool.false_ne_true, fun h =>
      absurd (h : r ∈ []) not_mem_nil⟩

/-! ## What the shape says -/

namespace Shape

variable {c : Connection} {l : List Postponed} {tree before behind : Outline Nat Bytes}
  {frames : List (Frame Nat Bytes)}

theorem perm (h : Shape c l tree before behind frames) :
    tree.names.Perm (c.data :: ((before ++ behind).names ++ frameNames frames)) := by
  rw [h.tree_eq]
  exact perm_names_up _ _ _

theorem nodup_parts (h : Shape c l tree before behind frames) :
    (c.data :: ((before ++ behind).names ++ frameNames frames)).Nodup :=
  h.perm.nodup_iff.mp h.nodup

theorem lt_created (h : Shape c l tree before behind frames) {r : Nat}
    (hr : r ∈ c.data :: ((before ++ behind).names ++ frameNames frames)) : r < c.created :=
  (h.names r).mp (h.perm.mem_iff.mpr hr)

theorem data_lt (h : Shape c l tree before behind frames) : c.data < c.created :=
  h.lt_created mem_cons_self

theorem data_not_mem (h : Shape c l tree before behind frames) :
    c.data ∉ (before ++ behind).names ++ frameNames frames :=
  (nodup_cons.mp h.nodup_parts).1

theorem behind_lt (h : Shape c l tree before behind frames) {s : Nat} (hs : s ∈ behind.names) :
    s < c.created ∧ s ≠ c.data := by
  have hmem : s ∈ (before ++ behind).names ++ frameNames frames := by
    rw [names_append]
    exact mem_append_left _ (mem_append_right _ hs)
  refine ⟨h.lt_created (mem_cons_of_mem _ hmem), ?_⟩
  rintro rfl
  exact h.data_not_mem hmem

theorem frames_lt (h : Shape c l tree before behind frames) {s : Nat} (hs : s ∈ frameNames frames) :
    s < c.created ∧ s ≠ c.data := by
  refine ⟨h.lt_created (mem_cons_of_mem _ (mem_append_right _ hs)), ?_⟩
  rintro rfl
  exact h.data_not_mem (mem_append_right _ hs)

end Shape

theorem mem_frameNames_of_closed {frames : List (Frame Nat Bytes)} {r : Nat}
    (h : r ∈ frames.flatMap fun frame => frame.before.names) : r ∈ frameNames frames := by
  induction frames with
  | nil => cases h
  | cons frame frames ih =>
    rw [flatMap_cons, mem_append] at h
    rw [frameNames, mem_cons, mem_append, mem_append]
    rcases h with h | h
    · exact .inr (.inl (.inl h))
    · exact .inr (.inr (ih h))

theorem Shape.data_not_closed {c : Connection} {l : List Postponed}
    {tree before behind : Outline Nat Bytes}
    {frames : List (Frame Nat Bytes)} (h : Shape c l tree before behind frames) :
    c.data ∉ closed before frames := by
  intro hmem
  refine h.data_not_mem ?_
  rw [names_append]
  rcases mem_append.mp hmem with hmem | hmem
  · exact mem_append_left _ (mem_append_left _ hmem)
  · exact mem_append_right _ (mem_frameNames_of_closed hmem)

theorem not_mem_of_not_closed {before : Outline Nat Bytes}
    {frames : List (Frame Nat Bytes)} {q : Nat}
    (hq : q ∉ closed before frames) :
    q ∉ before.names ∧ ∀ frame ∈ frames, q ∉ frame.before.names := by
  rw [closed, mem_append, not_or] at hq
  refine ⟨hq.1, fun frame hframe hmem => hq.2 ?_⟩
  exact mem_flatMap.mpr ⟨frame, hframe, hmem⟩

/-! ## Changes that do not matter -/

/-- `c'` has the same requests as `c`, the list of the active one apart. -/
structure Agrees (c c' : Connection) : Prop where
  data : c'.data = c.data
  output : c'.output = c.output
  created : c'.created = c.created
  parent : ∀ s, s < c.created → (c'.requests s).parent = (c.requests s).parent
  logged : ∀ s, s < c.created → (c'.requests s).logged = (c.requests s).logged
  postponed : ∀ s, s < c.created → s ≠ c.data → (c'.requests s).postponed = (c.requests s).postponed

theorem Agrees.symm {c c' : Connection} (h : Agrees c c') : Agrees c' c where
  data := h.data.symm
  output := h.output.symm
  created := h.created.symm
  parent s hs := (h.parent s (h.created ▸ hs)).symm
  logged s hs := (h.logged s (h.created ▸ hs)).symm
  postponed s hs hne := (h.postponed s (h.created ▸ hs) (h.data ▸ hne)).symm

theorem Chained.congr {c c' : Connection} {i : Nat} {frames : List (Frame Nat Bytes)}
    (hi : (c'.requests i).parent = (c.requests i).parent)
    (hsame : ∀ s ∈ frameNames frames, (c'.requests s).parent = (c.requests s).parent ∧
      (c'.requests s).postponed = (c.requests s).postponed)
    (h : Chained c i frames) : Chained c' i frames := by
  induction frames generalizing i with
  | nil => exact h
  | cons frame frames ih =>
    obtain ⟨hparent, hafter, hframes⟩ := h
    have hname := hsame frame.name (by rw [frameNames]; exact mem_cons_self)
    refine ⟨hi.trans hparent, ?_, ?_⟩
    · rw [listWithout, hname.2]
      refine hafter.congr fun s hs => hsame s ?_
      rw [frameNames]
      exact mem_cons_of_mem _ (mem_append_left _ (mem_append_right _ hs))
    · refine ih hname.1 (fun s hs => hsame s ?_) hframes
      rw [frameNames]
      exact mem_cons_of_mem _ (mem_append_right _ hs)

theorem Shape.congr {c c' : Connection} {l : List Postponed}
    {tree before behind : Outline Nat Bytes}
    {frames : List (Frame Nat Bytes)} (h : Shape c l tree before behind frames) (ha : Agrees c c') :
    Shape c' l tree before behind frames where
  tree_eq := by rw [ha.data]; exact h.tree_eq
  output := ha.output.trans h.output
  parked := by
    rw [Parked, ha.data]
    refine Holds.congr (fun s hs => ?_) h.parked
    obtain ⟨hlt, hne⟩ := h.behind_lt hs
    exact ⟨ha.parent s hlt, ha.postponed s hlt hne⟩
  chained := by
    rw [ha.data]
    refine Chained.congr (ha.parent _ h.data_lt) (fun s hs => ?_) h.chained
    obtain ⟨hlt, hne⟩ := h.frames_lt hs
    exact ⟨ha.parent s hlt, ha.postponed s hlt hne⟩
  nodup := h.nodup
  names r := by rw [ha.created]; exact h.names r
  logged r hr := by
    rw [ha.created] at hr
    rw [ha.logged r hr]
    exact h.logged r hr

theorem Ordered.congr {c c' : Connection} {tree : Outline Nat Bytes}
    (h : Ordered c tree) (ha : Agrees c c')
    (hdata : (c'.requests c.data).postponed = (c.requests c.data).postponed) : Ordered c' tree := by
  obtain ⟨before, behind, frames, hs⟩ := h
  refine ⟨before, behind, frames, ?_⟩
  rw [ha.data, hdata]
  exact hs.congr ha

section Add

variable {c c' : Connection} {tree before behind g : Outline Nat Bytes} {l l' : List Postponed}
  {frames : List (Frame Nat Bytes)} {q : Nat} {added : List (Bytes ⊕ Nat)}

theorem Chained.add (hadds : Adds c c' q added (· < c.created)) (hg : Holds c' q added g) {i : Nat}
    (hi : i < c.created) (hlt : ∀ s ∈ frameNames frames, s < c.created)
    (hnodup : (frameNames frames).Nodup)
    (h : Chained c i frames) : Chained c' i (frames.map (Frame.addTo q g)) := by
  induction frames generalizing i with
  | nil => exact h
  | cons frame frames ih =>
    obtain ⟨hparent, hafter, hframes⟩ := h
    rw [frameNames] at hlt hnodup
    obtain ⟨hname, hboth⟩ := nodup_cons.mp hnodup
    obtain ⟨hhere, hnodupFrames, -⟩ := nodup_append.mp hboth
    obtain ⟨-, hnodupAfter, -⟩ := nodup_append.mp hhere
    have hltName := hlt frame.name mem_cons_self
    have hltAfter : ∀ s ∈ frame.after.names, s < c.created := fun s hs =>
      hlt s (mem_cons_of_mem _ (mem_append_left _ (mem_append_right _ hs)))
    refine ⟨(hadds.parent i hi).trans hparent, ?_, ?_⟩
    · by_cases hq : frame.name = q
      · -- the list of this ancestor grows; the names behind are others
        subst hq
        simp only [Frame.addTo, if_true, listWithout, hadds.head i hi]
        refine Holds.append (hafter.congr fun s hs => ⟨hadds.parent s (hltAfter s hs), ?_⟩) hg
        refine hadds.others s (hltAfter s hs) ?_
        rintro rfl
        exact hname (mem_append_left _ (mem_append_right _ hs))
      · simp only [Frame.addTo, if_neg hq, listWithout, hadds.others frame.name hltName hq]
        exact Holds.addTo hadds hg hltAfter hnodupAfter hafter
    · exact ih hltName (fun s hs =>
        hlt s (mem_cons_of_mem _ (mem_append_right _ hs))) hnodupFrames hframes

theorem closed_map_addTo (before : Outline Nat Bytes) (frames : List (Frame Nat Bytes)) (q : Nat)
    (g : Outline Nat Bytes) :
    closed before (frames.map (Frame.addTo q g)) = closed before frames := by
  rw [closed, closed, flatMap_map]
  rfl

theorem textBefore_map_addTo (frames : List (Frame Nat Bytes)) (q : Nat) (g : Outline Nat Bytes) :
    textBefore (frames.map (Frame.addTo q g)) = textBefore frames := by
  induction frames with
  | nil => rfl
  | cons frame frames ih => rw [map_cons, textBefore, textBefore, ih]; rfl

/-- New names, created with the outline `g`. -/
structure Fresh (c c' : Connection) (g : Outline Nat Bytes) : Prop where
  nodup : g.names.Nodup
  fresh : ∀ i ∈ g.names, c.created ≤ i
  created : ∀ i, i < c'.created ↔ i < c.created ∨ i ∈ g.names
  logged : ∀ i, i < c.created → (c'.requests i).logged = (c.requests i).logged
  new : ∀ i ∈ g.names, (c'.requests i).logged = false

theorem names_grow (hfresh : Fresh c c' g) (hnodup : tree.names.Nodup)
    (hnames : ∀ r, r ∈ tree.names ↔ r < c.created) (hq : q < c.created) :
    (addTo q g tree).names.Nodup ∧ ∀ r, r ∈ (addTo q g tree).names ↔ r < c'.created := by
  refine ⟨nodup_names_addTo hnodup hfresh.nodup fun i hi hmem => ?_, fun r => ?_⟩
  · exact absurd ((hnames i).mp hmem) (not_lt.mpr (hfresh.fresh i hi))
  · have hmemq := (hnames q).mpr hq
    rw [mem_names_addTo, hfresh.created, hnames]
    exact or_congr_right (and_iff_right hmemq)

theorem logged_grow (hfresh : Fresh c c' g) {before : Outline Nat Bytes}
    {frames : List (Frame Nat Bytes)}
    (hlt : ∀ r ∈ closed before frames, r < c.created)
    (h : ∀ r, r < c.created → ((c.requests r).logged = true ↔ r ∈ closed before frames)) (r : Nat)
    (hr : r < c'.created) : (c'.requests r).logged = true ↔ r ∈ closed before frames := by
  rcases (hfresh.created r).mp hr with hr | hr
  · rw [hfresh.logged r hr]
    exact h r hr
  · rw [hfresh.new r hr]
    refine iff_of_false Bool.false_ne_true fun hmem => ?_
    exact absurd (hlt r hmem) (not_lt.mpr (hfresh.fresh r hr))

theorem Shape.closed_lt (h : Shape c l tree before behind frames) {r : Nat}
    (hr : r ∈ closed before frames) :
    r < c.created := by
  refine h.lt_created (mem_cons_of_mem _ ?_)
  rw [names_append]
  rcases mem_append.mp hr with hr | hr
  · exact mem_append_left _ (mem_append_left _ hr)
  · exact mem_append_right _ (mem_frameNames_of_closed hr)

/-- What is added behind an open request is added to the outline. -/
theorem Shape.add (h : Shape c l tree before behind frames)
    (hadds : Adds c c' q added (· < c.created))
    (hg : Holds c' q added g) (hfresh : Fresh c c' g) (hq : q < c.created)
    (hopen : q ∉ closed before frames)
    (hdata : c'.data = c.data) (houtput : c'.output = c.output)
    (hl : if q = c.data then items l' = items l ++ added else l' = l) :
    Shape c' l' (addTo q g tree) before (if c.data = q then behind ++ g else addTo q g behind)
      (frames.map (Frame.addTo q g)) := by
  obtain ⟨hbefore, hbeforeFrames⟩ := not_mem_of_not_closed hopen
  have hnodupParts := (nodup_cons.mp h.nodup_parts).2
  obtain ⟨hnodupHere, hnodupFrames, -⟩ := nodup_append.mp hnodupParts
  have hnodupBehind : behind.names.Nodup := by
    rw [names_append] at hnodupHere
    exact (nodup_append.mp hnodupHere).2.1
  obtain ⟨hnodup, hnames⟩ := names_grow hfresh h.nodup h.names hq
  refine ⟨?_, ?_, ?_, ?_, hnodup, hnames, ?_⟩
  · rw [h.tree_eq, addTo_up h.nodup_parts hbeforeFrames, hdata]
    by_cases hdq : c.data = q
    · rw [if_pos hdq, if_pos hdq, append_assoc]
    · rw [if_neg hdq, if_neg hdq, addTo_append, addTo_of_not_mem hbefore]
  · rw [houtput, textBefore_map_addTo]
    exact h.output
  · rw [Parked, hdata]
    by_cases hdq : c.data = q
    · rw [if_pos hdq.symm] at hl
      rw [if_pos hdq, hl]
      subst hdq
      refine Holds.append (h.parked.congr fun s hs => ?_) hg
      obtain ⟨hlt, hne⟩ := h.behind_lt hs
      exact ⟨hadds.parent s hlt, hadds.others s hlt hne⟩
    · rw [if_neg (Ne.symm hdq)] at hl
      rw [if_neg hdq, hl]
      exact Holds.addTo hadds hg (fun s hs => (h.behind_lt hs).1) hnodupBehind h.parked
  · rw [hdata]
    exact h.chained.add hadds hg h.data_lt (fun s hs => (h.frames_lt hs).1) hnodupFrames
  · rw [closed_map_addTo]
    exact logged_grow hfresh (fun r hr => h.closed_lt hr) h.logged

theorem Shape.pass (h : Shape c l tree before .nil frames) (input : List Bytes) :
    Shape { c with output := c.output ++ input } l (addTo c.data (.texts input) tree)
      (before ++ .texts input) .nil
      frames := by
  have hdata := h.data_not_mem
  rw [append_nil, mem_append, not_or] at hdata
  have hbeforeFrames := (not_mem_of_not_closed h.data_not_closed).2
  have hfresh : Fresh c c (.texts input) := by
    refine ⟨?_, fun i hi => ?_, fun i => ?_, fun _ _ => rfl, fun i hi => ?_⟩
    · rw [names_texts]; exact nodup_nil
    · rw [names_texts] at hi; cases hi
    · rw [names_texts]; exact ⟨.inl, fun h => h.resolve_right not_mem_nil⟩
    · rw [names_texts] at hi; cases hi
  obtain ⟨hnodup, hnames⟩ := names_grow hfresh h.nodup h.names h.data_lt
  refine ⟨?_, ?_, h.parked.congr fun _ _ => ⟨rfl, rfl⟩,
    @Chained.congr c _ _ _ rfl (fun _ _ => ⟨rfl, rfl⟩) h.chained, hnodup, hnames, ?_⟩
  · have hup := addTo_up (g := .texts input) h.nodup_parts hbeforeFrames
    rw [h.tree_eq, hup, if_pos rfl, names_frames_not_mem hdata.2, append_nil, append_nil]
  · show c.output ++ input = _
    rw [flatten_append, flatten_texts, ← List.append_assoc, ← h.output]
  · intro r hr
    rw [closed, names_append, names_texts, List.append_nil]
    exact h.logged r hr

end Add

/-! ## Moving the active role -/

section Active

variable {c : Connection} {tree before behind : Outline Nat Bytes} {l : List Postponed}
  {frames : List (Frame Nat Bytes)}

variable {s : Nat}

theorem withoutHead_of_not_mem {l : List Postponed} (h : Sum.inr s ∉ items l) :
    Connection.withoutHead s l = l := by
  cases l with
  | nil => rfl
  | cons pr next =>
    cases pr with
    | out chain => rfl
    | request sr =>
      rw [items, mem_cons, not_or] at h
      rw [Connection.withoutHead, if_neg]
      rintro rfl
      exact h.1 rfl

variable {r : Nat}

theorem Holds.mem_names {m : List (Bytes ⊕ Nat)} {f : Outline Nat Bytes} (h : Holds c r m f)
    (hs : Sum.inr s ∈ m) : s ∈ f.names := by
  induction f generalizing m with
  | nil =>
    have hm : m = [] := h
    rw [hm] at hs
    cases hs
  | text b rest ih =>
    obtain ⟨k, rfl, hrest⟩ := h
    refine ih hrest ((mem_cons.mp hs).resolve_left fun heq => ?_)
    cases heq
  | node t x rest _ ih =>
    obtain ⟨k, rfl, -, -, hrest⟩ := h
    rw [names, mem_cons, mem_append]
    rcases mem_cons.mp hs with heq | hs
    · rw [Sum.inr.injEq] at heq
      exact .inl heq
    · exact .inr (.inr (ih hrest hs))

@[simp] theorem requests_modify_self (c : Connection) (r : Nat) (f : Request → Request) :
    (c.modify r f).requests r = f (c.requests r) :=
  Function.update_self ..

theorem requests_modify_ne (c : Connection) (f : Request → Request) (h : s ≠ r) :
    (c.modify r f).requests s = c.requests s :=
  Function.update_of_ne h ..

theorem agrees_modify (c : Connection) (r : Nat) {f : Request → Request}
    (hparent : (f (c.requests r)).parent = (c.requests r).parent)
    (hlogged : (f (c.requests r)).logged = (c.requests r).logged)
    (hpostponed : r ≠ c.data → (f (c.requests r)).postponed = (c.requests r).postponed) :
    Agrees c (c.modify r f) := by
  refine ⟨rfl, rfl, rfl, fun s _ => ?_, fun s _ => ?_, fun s _ hne => ?_⟩
  all_goals
    by_cases hs : s = r
    · subst hs
      rw [requests_modify_self]
      first | exact hparent | exact hlogged | exact hpostponed hne
    · rw [requests_modify_ne c f hs]

theorem requests_subrequest (c : Connection) (r : Nat) (waited : Bool) :
    (c.subrequest r waited).requests =
      ((c.setPostponed r ((c.requests r).postponed ++ [.request c.created])).modify c.created
        fun _ => { parent := r, waited := waited }).requests :=
  rfl

theorem requests_subrequest_new (c : Connection) (r : Nat) (waited : Bool) :
    (c.subrequest r waited).requests c.created = { parent := r, waited := waited } := by
  rw [requests_subrequest, requests_modify_self]

theorem requests_subrequest_self (c : Connection) (waited : Bool) (hr : r ≠ c.created) :
    (c.subrequest r waited).requests r =
      { c.requests r with postponed := (c.requests r).postponed ++ [.request c.created] } := by
  rw [requests_subrequest, requests_modify_ne _ _ hr, Connection.setPostponed, requests_modify_self]

theorem requests_subrequest_of_ne (c : Connection) (waited : Bool)
    (hsr : s ≠ r) (hs : s ≠ c.created) :
    (c.subrequest r waited).requests s = c.requests s := by
  rw [requests_subrequest, requests_modify_ne _ _ hs, Connection.setPostponed,
    requests_modify_ne _ _ hsr]

theorem fresh_subrequest (hr : r < c.created) (waited : Bool) :
    Fresh c (c.subrequest r waited) (.node c.created .nil .nil) := by
  have hnames : (Outline.node c.created .nil .nil : Outline Nat Bytes).names = [c.created] := rfl
  refine ⟨nodup_singleton _, fun i hi => ?_, fun i => ?_, fun i hi => ?_, fun i hi => ?_⟩
  · rw [hnames, mem_singleton] at hi
    exact le_of_eq hi.symm
  · rw [hnames, mem_singleton]
    exact Nat.lt_succ_iff_lt_or_eq
  · by_cases hir : i = r
    · subst hir
      rw [requests_subrequest_self c waited (ne_of_lt hi)]
    · rw [requests_subrequest_of_ne c waited hir (ne_of_lt hi)]
  · rw [hnames, mem_singleton] at hi
    rw [hi, requests_subrequest_new]

/-- The next subrequest of the list becomes active. -/
theorem Shape.wake {next : List Postponed}
    (h : Shape c (.request s :: next) tree before behind frames) :
    Ordered ({ c.setPostponed c.data next with data := s }.postRequest s) tree := by
  obtain ⟨x, f, rfl, hparent, hx, hnext⟩ := h.parked.request_cons
  obtain ⟨hnodupHere, -⟩ := nodup_append.mp (nodup_cons.mp h.nodup_parts).2
  rw [names_append, Outline.names] at hnodupHere
  obtain ⟨hs, -⟩ := nodup_cons.mp (nodup_append.mp hnodupHere).2.1
  rw [mem_append, not_or] at hs
  have hlt : ∀ i, i = s ∨ i ∈ x.names ∨ i ∈ f.names → i < c.created ∧ i ≠ c.data := by
    intro i hi
    refine h.behind_lt ?_
    rw [Outline.names, mem_cons, mem_append]
    exact hi
  have hother : ∀ i, i ≠ c.data → (c.setPostponed c.data next).requests i = c.requests i :=
    fun i hi =>
    requests_modify_ne c _ hi
  have hself : (c.setPostponed c.data next).requests c.data =
    { c.requests c.data with postponed := next } :=
    requests_modify_self ..
  have hagrees : Agrees c (c.setPostponed c.data next) :=
    agrees_modify c c.data rfl rfl fun hne => absurd rfl hne
  have h' := h.congr hagrees
  have hsame : ∀ i, i = s ∨ i ∈ x.names ∨ i ∈ f.names →
      ((c.setPostponed c.data next).requests i).parent = (c.requests i).parent ∧
        ((c.setPostponed c.data next).requests i).postponed = (c.requests i).postponed := by
    intro i hi
    rw [hother i (hlt i hi).2]
    exact ⟨rfl, rfl⟩
  have hafter : Connection.withoutHead s next = next :=
    withoutHead_of_not_mem fun hmem => hs.2 (hnext.mem_names hmem)
  refine ⟨.nil, x, ⟨c.data, before, f⟩ :: frames, h.tree_eq, ?_, ?_,
    ⟨?_, ?_, ?_⟩, h.nodup, h.names, ?_⟩
  · show c.output = _
    rw [textBefore, flatten, List.append_nil]
    exact h.output
  · show Holds _ s (items ((c.setPostponed c.data next).requests s).postponed) x
    rw [(hsame s (.inl rfl)).2]
    exact hx.congr fun i hi => hsame i (.inr (.inl hi))
  · exact (hsame s (.inl rfl)).1.trans hparent
  · show Holds _ c.data
      (items (Connection.withoutHead s ((c.setPostponed c.data next).requests c.data).postponed)) f
    rw [hself, hafter]
    exact hnext.congr fun i hi => hsame i (.inr (.inr hi))
  · exact @Chained.congr (c.setPostponed c.data next) _ _ _ rfl (fun _ _ => ⟨rfl, rfl⟩) h'.chained
  · intro r hr
    rw [closed, Outline.names, List.nil_append, flatMap_cons]
    exact h'.logged r hr

theorem Shape.postponeLoop (h : Shape c l tree before behind frames) :
    Ordered (Connection.postponeLoop c c.data l) tree := by
  induction l generalizing c before behind with
  | nil =>
    have hself : (c.setPostponed c.data []).requests c.data =
      { c.requests c.data with postponed := [] } :=
      requests_modify_self ..
    refine ⟨before, behind, frames, ?_⟩
    rw [Connection.postponeLoop]
    show Shape _ ((c.setPostponed c.data []).requests c.data).postponed _ _ _ _
    rw [hself]
    exact h.congr (agrees_modify c c.data rfl rfl fun hne => absurd rfl hne)
  | cons pr next ih =>
    cases pr with
    | request s => exact h.wake
    | out chain =>
      obtain ⟨g, rfl, hg⟩ := h.parked.texts_append
      have hpassed : Shape
        { c with output := c.output ++ chain } next tree (before ++ .texts chain) g frames := by
        refine ⟨?_, ?_, @Holds.congr c _ _ _ _ (fun _ _ => ⟨rfl, rfl⟩) hg,
          @Chained.congr c _ _ _ rfl (fun _ _ => ⟨rfl, rfl⟩) h.chained,
          h.nodup, h.names, ?_⟩
        · rw [append_assoc]
          exact h.tree_eq
        · show c.output ++ chain = _
          rw [flatten_append, flatten_texts, ← List.append_assoc, ← h.output]
        · intro r hr
          rw [closed, names_append, names_texts, List.append_nil]
          exact h.logged r hr
      exact ih hpassed

/-- A subrequest of the active request takes its place. -/
theorem Shape.spawn (h : Shape c [] tree before behind frames)
    (hempty : (c.requests c.data).postponed = [])
    (waited : Bool) :
    Ordered (c.subrequest c.data waited) (addTo c.data (.node c.created .nil .nil) tree) := by
  have hbehind : behind = .nil := h.parked.eq_nil
  subst hbehind
  have hdata := h.data_not_mem
  rw [append_nil, mem_append, not_or] at hdata
  have hbeforeFrames := (not_mem_of_not_closed h.data_not_closed).2
  have hnew : (c.subrequest c.data waited).requests c.created =
    { parent := c.data, waited := waited } :=
    requests_subrequest_new ..
  have hself : (c.subrequest c.data waited).requests c.data =
      { c.requests c.data with postponed := [.request c.created] } := by
    rw [requests_subrequest_self c waited (ne_of_lt h.data_lt), hempty, List.nil_append]
  have hother : ∀ s, s < c.created → s ≠ c.data →
    (c.subrequest c.data waited).requests s = c.requests s :=
    fun s hs hne => requests_subrequest_of_ne c waited hne (ne_of_lt hs)
  have hactive : (c.subrequest c.data waited).data = c.created := if_pos ⟨rfl, hempty⟩
  have hfresh : Fresh c (c.subrequest c.data waited) (.node c.created .nil .nil) :=
    fresh_subrequest h.data_lt waited
  obtain ⟨hnodup, hnames⟩ := names_grow hfresh h.nodup h.names h.data_lt
  refine ⟨.nil, .nil, ⟨c.data, before, .nil⟩ :: frames, ?_, ?_, ?_, ?_, hnodup, hnames, ?_⟩
  · have hup := addTo_up (g := .node c.created .nil .nil) h.nodup_parts hbeforeFrames
    rw [h.tree_eq, hup, if_pos rfl, names_frames_not_mem hdata.2, append_nil, hactive]
    rfl
  · show c.output = _
    rw [textBefore, flatten, List.append_nil]
    exact h.output
  · rw [hactive, hnew]
    rfl
  · rw [hactive]
    refine ⟨by rw [hnew], ?_, ?_⟩
    · rw [listWithout, hself, Connection.withoutHead, if_pos rfl]
      rfl
    · refine Chained.congr (by rw [hself]) (fun s hs => ?_) h.chained
      obtain ⟨hlt, hne⟩ := h.frames_lt hs
      rw [hother s hlt hne]
      exact ⟨rfl, rfl⟩
  · rw [closed, Outline.names, List.nil_append, flatMap_cons]
    exact logged_grow hfresh (fun r hr => h.closed_lt hr) h.logged

/-- `ngx_http_finalize_request` where the request is active and complete. -/
def closeActive (c : Connection) : Connection :=
  let parent := (c.requests c.data).parent
  let c' := { c with count := c.count - 1 }.modify c.data fun q =>
    { q with logged := true, done := true }
  { c'.setPostponed parent (Connection.withoutHead c.data (c'.requests parent).postponed) with
    data := parent }.postRequest parent

/-- The active request as it is logged. -/
abbrev logActive (c : Connection) : Connection := c.modify c.data fun q =>
    { q with logged := true, done := true }

theorem requests_closeActive (c : Connection) :
    (closeActive c).requests =
      ((logActive c).setPostponed (c.requests c.data).parent
        (Connection.withoutHead c.data
          ((logActive c).requests (c.requests c.data).parent).postponed)).requests :=
  rfl

theorem requests_closeActive_self (hne : (c.requests c.data).parent ≠ c.data) :
    (closeActive c).requests c.data = { c.requests c.data with logged := true, done := true } := by
  rw [requests_closeActive, Connection.setPostponed, requests_modify_ne _ _ (Ne.symm hne),
    requests_modify_self]

theorem requests_closeActive_parent (hne : (c.requests c.data).parent ≠ c.data) :
    (closeActive c).requests (c.requests c.data).parent =
      { c.requests (c.requests c.data).parent with
        postponed := Connection.withoutHead c.data
          (c.requests (c.requests c.data).parent).postponed } := by
  rw [requests_closeActive, Connection.setPostponed, requests_modify_self,
    requests_modify_ne _ _ hne]

theorem requests_closeActive_of_ne (hs : s ≠ c.data) (hparent : s ≠ (c.requests c.data).parent) :
    (closeActive c).requests s = c.requests s := by
  rw [requests_closeActive, Connection.setPostponed, requests_modify_ne _ _ hparent,
    requests_modify_ne _ _ hs]

/-- The active request ends: its parent becomes active. -/
theorem Shape.close (h : Shape c [] tree before behind frames) (hdata : c.data ≠ 0) :
    Ordered (closeActive c) tree := by
  have hbehind : behind = .nil := h.parked.eq_nil
  subst hbehind
  cases frames with
  | nil => exact absurd h.chained hdata
  | cons frame frames =>
    obtain ⟨hparent, hafter, hframes⟩ := h.chained
    have hparts := (nodup_append.mp (nodup_cons.mp h.nodup_parts).2).2.1
    rw [frameNames] at hparts
    obtain ⟨hname, hboth⟩ := nodup_cons.mp hparts
    rw [mem_append, mem_append, not_or, not_or] at hname
    have hlt : ∀ s, s = frame.name ∨ s ∈ frame.after.names ∨ s ∈ frameNames frames →
      s < c.created ∧ s ≠ c.data := by
      intro s hs
      refine h.frames_lt ?_
      rw [frameNames, mem_cons, mem_append, mem_append]
      exact hs.imp_right fun hs => hs.imp_left .inr
    have hne : (c.requests c.data).parent ≠ c.data := by
      rw [hparent]
      exact (hlt frame.name (.inl rfl)).2
    have hself := requests_closeActive_self hne
    have hsame : ∀ s, s ∈ frame.after.names ∨ s ∈ frameNames frames →
        (closeActive c).requests s = c.requests s := by
      intro s hs
      refine requests_closeActive_of_ne (hlt s (.inr hs)).2 ?_
      rw [hparent]
      rintro rfl
      exact hs.elim hname.1.2 hname.2
    have hparentOf : ∀ s, ((closeActive c).requests s).parent = (c.requests s).parent := by
      intro s
      by_cases hs : s = c.data
      · rw [hs, hself]
      · by_cases hs' : s = (c.requests c.data).parent
        · rw [hs', requests_closeActive_parent hne]
        · rw [requests_closeActive_of_ne hs hs']
    have hactive : (closeActive c).data = frame.name := hparent
    have hupper : ((closeActive c).requests frame.name).postponed =
        Connection.withoutHead c.data (c.requests frame.name).postponed := by
      rw [← hparent, requests_closeActive_parent hne]
    refine ⟨frame.before ++ .node c.data before .nil, frame.after, frames,
      ?_, ?_, ?_, ?_, h.nodup, h.names, ?_⟩
    · rw [h.tree_eq, up, hactive, append_assoc, append_nil]
      rfl
    · show c.output = _
      rw [h.output, textBefore, flatten_append, flatten, flatten,
        List.append_nil, List.append_assoc]
    · rw [hactive, hupper]
      exact hafter.congr fun s hs => by rw [hsame s (.inl hs)]; exact ⟨rfl, rfl⟩
    · rw [hactive]
      exact hframes.congr (hparentOf _) fun s hs => by rw [hsame s (.inr hs)]; exact ⟨rfl, rfl⟩
    intro r hr
    have hold := h.logged r hr
    have hmem : r ∈ closed (frame.before ++ .node c.data before .nil) frames ↔
        r = c.data ∨ r ∈ closed before (frame :: frames) := by
      simp only [closed, names_append, Outline.names, flatMap_cons,
        mem_append, mem_cons,
        List.append_nil]
      grind
    rw [hmem, ← hold]
    by_cases hr' : r = c.data
    · rw [hr', hself]
      exact iff_of_true rfl (.inl rfl)
    have hlogged : ((closeActive c).requests r).logged = (c.requests r).logged := by
      by_cases hr'' : r = (c.requests c.data).parent
      · rw [hr'', requests_closeActive_parent hne]
      · rw [requests_closeActive_of_ne hr' hr'']
    rw [hlogged, or_iff_right hr']

end Active

end Nginx.Http.Postpone
