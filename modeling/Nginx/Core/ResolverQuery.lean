/-
  Core/ResolverQuery.lean --- the questions that the resolver asks
  (`ngx_resolver_create_name_query` and `ngx_resolver_create_srv_query` in
  `src/core/ngx_resolver.c`, with IPv6).

  A name is converted from its end on, a label behind the byte with its length.
  Positions are counted from `rn->query`.
-/
import Nginx.Core.ResolverExact
import Nginx.Core.StrCase
import Nginx.Foundation.Segments

set_option autoImplicit false

namespace Nginx.Core

open List Foundation Option Function

/-! ## The functions -/

/-- `sizeof(ngx_resolver_hdr_t)` -/
def queryHeadLen : Nat := 12

/-- `sizeof(ngx_resolver_qs_t)` -/
def querySectionLen : Nat := 4

/-- `query` with one question. -/
def queryHead (ident : Nat) : Bytes :=
  [UInt8.ofNat (ident >>> 8), UInt8.ofNat ident, 1, 0, 0, 1, 0, 0, 0, 0, 0, 0]

/-- `qs`, of the class IN. -/
def querySection (type : Byte) : Bytes := [0, type, 0, 1]

/-- `nlen` -/
def questionLen (name : Bytes) : Nat := if name.length ≠ 0 then 1 + name.length + 1 else 1

/-- `len`, as it is allocated. -/
def queryLen (name : Bytes) : Nat := queryHeadLen + questionLen name + querySectionLen

/-- The loop over the name, its last byte first, and the byte behind the loop. -/
def questionLoop (mem : Nat → Byte) (p : Nat) : Bytes → Nat → Rc × (Nat → Byte)
  | [], len =>
    if len = 0 ∨ len > 255 then (.declined, mem)
    else (.ok, update mem p (UInt8.ofNat len))
  | ch :: s, len =>
    if ch ≠ chr '.' then questionLoop (update mem p ch) (p - 1) s (len + 1)
    else if len = 0 ∨ len > 255 then (.declined, mem)
    else questionLoop (update mem p (UInt8.ofNat len)) (p - 1) s 0

/-- What the functions have in common; `old` is the memory allocated. -/
def createQuery (type : Byte) (old : Nat → Byte) (ident : Nat) (name : Bytes) : Rc × (Nat → Byte) :=
  let behind := queryHeadLen + questionLen name
  let mem := memcpy old 0 (queryHead ident)
  let mem := memcpy mem behind (querySection type)
  let mem := update mem (behind - 1) 0
  if name.length = 0 then (.declined, mem)
  else questionLoop mem (behind - 2) name.reverse 0

/-- What a call returns and leaves in the node: `rn->qlen`, `rn->query6 - rn->query`, and
the memory from `rn->query` on. -/
structure QueryNode where
  rc : Rc
  qlen : Nat
  query6 : Nat
  mem : Nat → Byte

/-- `NGX_RESOLVE_A`, `NGX_RESOLVE_AAAA` and `NGX_RESOLVE_SRV` -/
def resolveA : Byte := 1
def resolveAaaa : Byte := 28
def resolveSrv : Byte := 33

/-- `ngx_resolver_create_name_query`; `none` without memory, when the node stays as it is. -/
def createNameQuery (ipv6 : Bool) (alloc : Option (Nat → Byte))
    (ident ident6 : Nat) (name : Bytes) : Option QueryNode :=
  alloc.map fun old =>
    let len := queryLen name
    -- `rn->qlen` is `u_short`
    let qlen := len % 65536
    let (rc, mem) := createQuery resolveA old ident name
    if rc ≠ .ok ∨ ¬ ipv6 then ⟨rc, qlen, len, mem⟩
    else
      let mem := memcpy mem len (load mem 0 qlen)
      let mem := memcpy mem len [UInt8.ofNat (ident6 >>> 8), UInt8.ofNat ident6]
      let mem := update mem (len + queryHeadLen + questionLen name + 1) resolveAaaa
      ⟨rc, qlen, len, mem⟩

/-- `ngx_resolver_create_srv_query` -/
def createSrvQuery (alloc : Option (Nat → Byte)) (ident : Nat) (name : Bytes) : Option QueryNode :=
  alloc.map fun old =>
    let (rc, mem) := createQuery resolveSrv old ident name
    ⟨rc, queryLen name % 65536, 0, mem⟩

/-! ## Names and their labels -/

/-- The labels of a name. -/
def nameLabels (name : Bytes) : List Bytes := name.splitOn (chr '.')

/-- A label on the wire. -/
def wireLabel (label : Bytes) : Bytes := UInt8.ofNat label.length :: label

/-- Labels on the wire, behind the last one a zero byte. -/
def wireLabels (labels : List Bytes) : Bytes := labels.flatMap wireLabel ++ [0]

variable {mem mem' : Nat → Byte} {p len : Nat} {s cur name : Bytes}

theorem nameLabels_of_not_mem (h : chr '.' ∉ cur) : nameLabels cur = [cur] := splitOn_eq_singleton h

theorem nameLabels_append_dot (text : Bytes) (h : chr '.' ∉ cur) :
    nameLabels (text ++ chr '.' :: cur) = nameLabels text ++ [cur] := by
  rw [nameLabels, splitOn_append_cons_self, splitOn_eq_singleton h, nameLabels]

theorem load_update_of_lt {a n i : Nat} {b : Byte} (h : i < a ∨ a + n ≤ i) :
    load (update mem i b) a n = load mem a n :=
  map_congr_left fun j hj => update_of_ne (by have := mem_range.mp hj; omega) ..

theorem load_congr_of_forall {a n : Nat} (h : ∀ i, a ≤ i → i < a + n → mem' i = mem i) :
    load mem' a n = load mem a n :=
  map_congr_left fun j hj =>
    h (a + j) (Nat.le_add_right _ _) (Nat.add_lt_add_left (mem_range.mp hj) a)

/-- The loop has written the labels of the name, up to `p` and as far in front of it as the name is
long. -/
theorem questionLoop_ok (hcur : load mem (p + 1) len = cur) (hfree : chr '.' ∉ cur)
    (hp : s.length ≤ p)
    (h : questionLoop mem p s len = (.ok, mem')) :
    (∀ label ∈ nameLabels (s.reverse ++ cur), 0 < label.length ∧ label.length ≤ 255) ∧
      load mem' (p - s.length) (s.length + 1 + len) =
        (nameLabels (s.reverse ++ cur)).flatMap wireLabel ∧
      ∀ i, i < p - s.length ∨ p < i → mem' i = mem i := by
  have hlen : cur.length = len := by rw [← hcur, length_load]
  induction s generalizing mem p len cur with
  | nil =>
    rw [questionLoop] at h
    split at h
    · cases h
    next hgood =>
    cases h
    have hcur' : load (update mem p (UInt8.ofNat len)) (p + 1) len = cur := by
      rw [load_update_of_lt (.inl (Nat.lt_succ_self p)), hcur]
    rw [reverse_nil, nil_append, nameLabels_of_not_mem hfree]
    refine ⟨forall_mem_singleton.mpr (by omega), ?_, fun i hi => update_of_ne (by omega) ..⟩
    rw [length_nil, Nat.sub_zero, zero_add, add_comm 1, load_succ, hcur', update_self,
      flatMap_singleton, wireLabel, hlen]
  | cons ch s ih =>
    rw [length_cons] at hp
    rw [questionLoop] at h
    by_cases hdot : ch = chr '.'
    · subst hdot
      rw [if_neg (not_not.mpr rfl)] at h
      split at h
      · cases h
      next hgood =>
      have hnone : load (update mem p (UInt8.ofNat len)) (p - 1 + 1) 0 = [] := rfl
      obtain ⟨hlabels, hload, hframe⟩ := ih hnone not_mem_nil (by omega) h rfl
      rw [append_nil] at hlabels hload
      rw [reverse_cons, append_assoc, singleton_append, nameLabels_append_dot _ hfree]
      have hlater : load mem' p (1 + len) = wireLabel cur := by
        have hsame : ∀ i, p ≤ i → i < p + (1 + len) → mem' i = update mem p (UInt8.ofNat len) i :=
          fun i hi _ => hframe i (.inr (by omega))
        rw [load_congr_of_forall hsame, add_comm 1, load_succ,
          load_update_of_lt (.inl (Nat.lt_succ_self p)), hcur,
          update_self, wireLabel, hlen]
      refine ⟨?_, ?_, fun i hi => ?_⟩
      · intro label hlabel
        rcases mem_append.mp hlabel with hlabel | hlabel
        · exact hlabels label hlabel
        · obtain rfl := mem_singleton.mp hlabel
          omega
      · rw [length_cons, show s.length + 1 + 1 + len = s.length + 1 + 0 + (1 + len) by
          omega, load_append,
          show p - (s.length + 1) = p - 1 - s.length by omega, hload,
          show p - 1 - s.length + (s.length + 1 + 0) = p by
            omega, hlater, flatMap_append, flatMap_singleton]
      · rw [length_cons] at hi
        rw [hframe i (by omega)]
        exact update_of_ne (by omega) ..
    · rw [if_pos hdot] at h
      have hcur' : load (update mem p ch) (p - 1 + 1) (len + 1) = ch :: cur := by
        rw [show p - 1 + 1 = p by
          omega, load_succ, load_update_of_lt (.inl (Nat.lt_succ_self p)), hcur, update_self]
      have hfree' : chr '.' ∉ ch :: cur := fun hmem =>
        (mem_cons.mp hmem).elim (fun heq => hdot heq.symm) hfree
      obtain ⟨hlabels, hload, hframe⟩ := ih hcur' hfree' (by omega) h (congrArg (· + 1) hlen)
      rw [reverse_cons, append_assoc, singleton_append]
      refine ⟨hlabels, ?_, fun i hi => ?_⟩
      · rw [← hload, length_cons]
        congr 1
        · omega
        · omega
      · rw [length_cons] at hi
        rw [hframe i (by omega)]
        exact update_of_ne (by omega) ..

theorem createQuery_ok {type : Byte} {old : Nat → Byte} {ident : Nat}
    (h : createQuery type old ident name = (.ok, mem')) :
    (∀ label ∈ nameLabels name, 0 < label.length ∧ label.length ≤ 255) ∧
      load mem' queryHeadLen (questionLen name) = wireLabels (nameLabels name) := by
  rw [createQuery] at h
  split at h
  · cases h
  next hne =>
  have hlen : questionLen name = 1 + name.length + 1 := if_pos hne
  have hp : queryHeadLen + questionLen name - 2 = queryHeadLen + name.length := by omega
  have hzero : queryHeadLen + questionLen name - 1 = queryHeadLen + name.length + 1 := by omega
  rw [hp] at h
  obtain ⟨hlabels, hload, hframe⟩ := questionLoop_ok load_zero not_mem_nil
    (by rw [length_reverse]; exact Nat.le_add_left ..) h
  rw [reverse_reverse, append_nil] at hlabels hload
  rw [length_reverse, Nat.add_sub_cancel, add_zero] at hload
  refine ⟨hlabels, ?_⟩
  rw [hlen, show 1 + name.length + 1 = name.length + 1 + 1 by
    omega, load_append, hload, wireLabels, load_succ, load_zero,
    ← add_assoc, hframe _ (.inr (Nat.lt_succ_self _)), hzero, update_self]

/-! ## Reading the question -/

theorem wireLabels_cons (label : Bytes) (labels : List Bytes) :
    wireLabels (label :: labels) = UInt8.ofNat label.length :: (label ++ wireLabels labels) := by
  rw [wireLabels, flatMap_cons, wireLabel, append_assoc, cons_append, wireLabels]

variable {labels : List Bytes}

variable {buf : Nat → Byte}

theorem walk_wireLabels {last q : Nat}
    (h : load buf q (wireLabels labels).length = wireLabels labels)
    (hlabels : ∀ label ∈ labels, 0 < label.length ∧ label.length ≤ 63)
    (hlast : q + (wireLabels labels).length ≤ last) :
    ∃ root, NameWalk buf last q (labels.map .label) root ∧ buf root = 0 := by
  induction labels generalizing q with
  | nil => exact ⟨q, .nil q, (cons.inj h).1⟩
  | cons label labels ih =>
    obtain ⟨⟨hpos, hshort⟩, hrest⟩ := forall_mem_cons.mp hlabels
    rw [wireLabels_cons, length_cons, length_append] at h hlast
    rw [load_succ, load_append] at h
    obtain ⟨hbyte, hbytes⟩ := cons.inj h
    obtain ⟨hlabel, hwire⟩ := append_inj hbytes (length_load ..)
    have hnat : (buf q).toNat = label.length := by
      rw [hbyte, UInt8.toNat_ofNat', Nat.mod_eq_of_lt (by omega)]
    have hne : buf q ≠ 0 := fun hzero => by
      rw [hzero] at hnat
      exact absurd hnat hpos.ne
    have hmask : ∀ n, n < 64 → UInt8.ofNat n &&& 0xc0 = 0 := by decide
    have hpointer : ¬ isPointer (buf q) := by
      rw [isPointer, hbyte, hmask _ (by omega)]
      exact not_not.mpr rfl
    obtain ⟨root, hwalk, hroot⟩ := ih hwire hrest (by omega)
    have hfirst : load buf (q + 1) (buf q).toNat = label := by rw [hnat, hlabel]
    rw [map_cons, ← hfirst]
    refine ⟨root, .label hne hpointer ?_ ?_, hroot⟩
    · have hpos' : 0 < (wireLabels labels).length := by
        rw [wireLabels, length_append]
        exact Nat.lt_add_left _ Nat.one_pos
      omega
    · rw [hnat]
      exact hwalk

theorem labelsOf_map (labels : List Bytes) : labelsOf (labels.map .label) = labels := by
  induction labels with
  | nil => rfl
  | cons label labels ih => rw [map_cons, labelsOf, ih]

theorem not_endsInPointer_map (labels : List Bytes) : ¬ EndsInPointer (labels.map .label) := by
  rintro ⟨es, heq, -⟩
  have hmem : NameElt.pointer ∈ labels.map .label :=
    heq ▸ mem_append_right es (mem_singleton.mpr rfl)
  obtain ⟨label, -, hlabel⟩ := mem_map.mp hmem
  cases hlabel

theorem resolverCopy_labels {last q root : Nat} (hne : labels ≠ [])
    (hwalk : NameWalk buf last q (labels.map .label) root) (hroot : buf root = 0) (hq : q < last)
    (hlimit : labels.length < pointersLimit) :
    ∃ c, resolverCopy buf last q true true = .ok c ∧ c.rc = .ok ∧
      c.name = some (dotted labels) := by
  have hends : NameEnds buf last pointersLimit q (labels.map .label) :=
    ⟨root, hwalk, hroot, by rw [length_map]; exact hlimit⟩
  have hsome : labelsOf (labels.map NameElt.label) ≠ [] := by rw [labelsOf_map]; exact hne
  have hpos := nameWeight_pos hsome
  have hmap : labels.map NameElt.label ≠ [] := fun h => hne (map_eq_nil_iff.mp h)
  have hfuel : (labels.map NameElt.label).length ≤ copyBound := by
    have hbound : pointersLimit ≤ copyBound := by decide
    rw [length_map]
    omega
  obtain ⟨htext, -⟩ := (copiedText_eq hsome).1 (not_endsInPointer_map labels)
  rw [labelsOf_map] at htext
  rcases @len_measureLoop buf last pointersLimit q (-1) [] with ⟨es, hes, hlen⟩ | ⟨-, hno⟩
  · obtain rfl := hends.unique hes
    obtain ⟨reads, hcopy, -⟩ := copyLoop_eq hwalk hroot hmap hq hfuel
      ⟨[], (measureLoop buf last pointersLimit q (-1) []).reads ++ [q]⟩
    have hweight : (-1 : Int) + (nameWeight (labels.map NameElt.label) : Int) ≠ -1 := by omega
    rw [nil_append, htext] at hcopy
    rw [resolverCopy, hlen]
    dsimp only
    rw [if_neg (by decide), if_neg hweight, if_neg (by decide), hcopy]
    exact ⟨_, rfl, rfl, rfl⟩
  · exact absurd hends (hno _)

theorem resolverCopy_error {last q root : Nat}
    (hwalk : NameWalk buf last q (labels.map .label) root) (hroot : buf root = 0)
    (hlimit : pointersLimit ≤ labels.length)
    {c : NameCopy} (h : resolverCopy buf last q true true = .ok c) : c.rc = .error := by
  rcases @len_measureLoop buf last pointersLimit q (-1) []
    with ⟨es, ⟨root', hwalk', hroot', hlt⟩, -⟩ | ⟨⟨err, herr⟩, -⟩
  · obtain rfl := nameWalk_unique hwalk hroot hwalk' hroot'
    rw [length_map] at hlt
    omega
  · rw [resolverCopy, herr] at h
    cases h
    rfl

theorem tolower_dot : tolower (chr '.') = chr '.' := by decide

theorem dotted_nameLabels (name : Bytes) : dotted (nameLabels name) = strlow name := by
  have hmap : ∀ labels : List Bytes, dotted labels = strlow ([chr '.'].intercalate labels) := by
    intro labels
    induction labels with
    | nil => rfl
    | cons label labels ih =>
      cases labels with
      | nil => simp [dotted, List.intercalate, strlow]
      | cons label' labels =>
        rw [dotted_cons (cons_ne_nil _ _), ih]
        simp [List.intercalate, strlow, tolower_dot]
  rw [hmap, nameLabels, intercalate_splitOn]

/-! ## The question and the name -/

/-- What a question is for: labels that may be on the wire, in all of the bytes reserved,
and the name is read back from every response with this question. -/
structure QuestionRight (name : Bytes) (query : Nat → Byte) : Prop where
  wire : ∃ labels : List Bytes, (∀ label ∈ labels, 1 ≤ label.length ∧ label.length ≤ 63) ∧
    load query queryHeadLen (questionLen name) = wireLabels labels
  copied : ∀ (buf : Nat → Byte) (last : Nat),
    load buf queryHeadLen (questionLen name) = load query queryHeadLen (questionLen name) →
    queryHeadLen + questionLen name ≤ last →
    ∃ c, resolverCopy buf last queryHeadLen true true = .ok c ∧ c.rc = .ok ∧
      c.name = some (strlow name)

/-- A name of labels that are not too long, and not too many. -/
structure ShortLabels (name : Bytes) : Prop where
  length : ∀ label ∈ nameLabels name, label.length ≤ 63
  count : (nameLabels name).length ≤ 127

/-- A question for labels of up to 255 bytes. -/
structure Asks (name : Bytes) (query : Nat → Byte) : Prop where
  labels : ∀ label ∈ nameLabels name, 0 < label.length ∧ label.length ≤ 255
  wire : load query queryHeadLen (questionLen name) = wireLabels (nameLabels name)

theorem nameLabels_ne_nil (name : Bytes) : nameLabels name ≠ [] := splitOn_ne_nil (chr '.') name

theorem Asks.length {query : Nat → Byte} (h : Asks name query) :
    (wireLabels (nameLabels name)).length = questionLen name := by
  rw [← h.wire, length_load]

theorem wireLabels_injective {labels' : List Bytes}
    (h : ∀ label ∈ labels, 0 < label.length ∧ label.length ≤ 255)
    (h' : ∀ label ∈ labels', 0 < label.length ∧ label.length ≤ 255)
    (heq : wireLabels labels = wireLabels labels') :
    labels = labels' := by
  have hbyte : ∀ {label : Bytes}, 0 < label.length ∧ label.length ≤ 255 →
    (UInt8.ofNat label.length).toNat = label.length :=
    fun hlabel => by rw [UInt8.toNat_ofNat', Nat.mod_eq_of_lt (by omega)]
  have hroot : ∀ {label : Bytes}, 0 < label.length ∧ label.length ≤ 255 →
    UInt8.ofNat label.length ≠ 0 := fun hlabel hzero => by
    have hnat := hbyte hlabel
    rw [hzero] at hnat
    exact absurd hnat hlabel.1.ne
  induction labels generalizing labels' with
  | nil =>
    cases labels' with
    | nil => rfl
    | cons label' labels' =>
      rw [wireLabels_cons] at heq
      exact absurd (cons.inj heq).1.symm (hroot (h' _ (mem_cons_self ..)))
  | cons label labels ih =>
    obtain ⟨hlabel, hrest⟩ := forall_mem_cons.mp h
    cases labels' with
    | nil =>
      rw [wireLabels_cons] at heq
      exact absurd (cons.inj heq).1 (hroot hlabel)
    | cons label' labels' =>
      obtain ⟨hlabel', hrest'⟩ := forall_mem_cons.mp h'
      rw [wireLabels_cons, wireLabels_cons] at heq
      obtain ⟨hfirst, hbytes⟩ := cons.inj heq
      have hlen := congrArg UInt8.toNat hfirst
      rw [hbyte hlabel, hbyte hlabel'] at hlen
      obtain ⟨rfl, hwire⟩ := append_inj hbytes hlen
      rw [ih hrest hrest' hwire]

/-- The question on the wire is the name exactly when its labels are short. -/
theorem Asks.right_iff {query : Nat → Byte} (h : Asks name query) :
    QuestionRight name query ↔ ShortLabels name := by
  have hlength := h.length
  have hwalk : ∀ (buf : Nat → Byte) (last : Nat),
      load buf queryHeadLen (questionLen name) = load query queryHeadLen (questionLen name) →
      queryHeadLen + questionLen name ≤ last → (∀ label ∈ nameLabels name, label.length ≤ 63) →
      ∃ root, NameWalk buf last queryHeadLen ((nameLabels name).map .label) root ∧
        buf root = 0 := by
    intro buf last hload hlast hshort
    refine walk_wireLabels ?_ (fun label hlabel =>
      ⟨(h.labels label hlabel).1, hshort label hlabel⟩) (by omega)
    rw [hlength, hload, h.wire]
  constructor
  · intro hright
    have hshort : ∀ label ∈ nameLabels name, label.length ≤ 63 := by
      obtain ⟨labels, hlabels, hwire⟩ := hright.wire
      have hlabels' : ∀ label ∈ labels, 0 < label.length ∧ label.length ≤ 255 :=
        fun label hlabel => ⟨(hlabels label hlabel).1, (hlabels label hlabel).2.trans (by decide)⟩
      have heq := wireLabels_injective h.labels hlabels' (h.wire.symm.trans hwire)
      rw [heq]
      exact fun label hlabel => (hlabels label hlabel).2
    refine ⟨hshort, ?_⟩
    by_contra hmany
    obtain ⟨root, hroot, hzero⟩ := hwalk query (queryHeadLen + questionLen name) rfl le_rfl hshort
    obtain ⟨c, hcopy, hok, -⟩ := hright.copied query (queryHeadLen + questionLen name) rfl le_rfl
    have herror := resolverCopy_error hroot hzero (not_le.mp hmany) hcopy
    rw [hok] at herror
    cases herror
  · intro hshort
    refine ⟨⟨nameLabels name, fun label hlabel =>
      ⟨(h.labels label hlabel).1, hshort.length label hlabel⟩, h.wire⟩, ?_⟩
    intro buf last hload hlast
    obtain ⟨root, hroot, hzero⟩ := hwalk buf last hload hlast hshort.length
    have hlimit : (nameLabels name).length < pointersLimit := Nat.lt_succ_of_le hshort.count
    have hpos : 0 < questionLen name := by
      rw [questionLen]
      split <;> omega
    obtain ⟨c, hcopy, hok, hname⟩ :=
      resolverCopy_labels (nameLabels_ne_nil name) hroot hzero (by omega) hlimit
    exact ⟨c, hcopy, hok, hname.trans (congrArg some (dotted_nameLabels name))⟩

/-! ## The queries of a node -/

theorem length_intercalate_le (labels : List Bytes) (h : ∀ label ∈ labels, label.length ≤ 63) :
    ([chr '.'].intercalate labels).length ≤ 64 * labels.length := by
  induction labels with
  | nil => exact Nat.zero_le _
  | cons label labels ih =>
    obtain ⟨hlabel, hrest⟩ := forall_mem_cons.mp h
    have hmore := ih hrest
    cases labels with
    | nil =>
      simp only [List.intercalate, intersperse_singleton, flatten_singleton, length_singleton]
      omega
    | cons label' labels =>
      simp only [List.intercalate, intersperse_cons_cons, flatten_cons, length_append, length_cons,
        length_nil] at hmore ⊢
      omega

theorem ShortLabels.queryLen_lt (h : ShortLabels name) : queryLen name < 65536 := by
  have hlen := length_intercalate_le (nameLabels name) h.length
  rw [nameLabels, intercalate_splitOn, ← nameLabels] at hlen
  have hcount := h.count
  rw [queryLen, queryHeadLen, querySectionLen, questionLen]
  split <;> omega

theorem Asks.congr {query query' : Nat → Byte} (h : Asks name query)
    (hsame : ∀ i, queryHeadLen ≤ i → i < queryHeadLen + questionLen name → query' i = query i) :
    Asks name query' :=
  ⟨h.labels, by rw [load_congr_of_forall hsame, h.wire]⟩

variable {ipv6 : Bool} {alloc : Option (Nat → Byte)} {ident ident6 : Nat} {rn : QueryNode}

/-- What a successful call writes asks for the name. -/
theorem createNameQuery_asks (h : createNameQuery ipv6 alloc ident ident6 name = some rn)
    (hok : rn.rc = .ok) :
    Asks name rn.mem ∧
      (ipv6 = true → queryLen name < 65536 → Asks name fun i => rn.mem (rn.query6 + i)) := by
  cases alloc with
  | none => cases h
  | some old =>
    cases hquery : createQuery resolveA old ident name with
    | mk rc mem =>
      simp only [createNameQuery, map_some, hquery, some.injEq] at h
      have hbehind : queryHeadLen + questionLen name < queryLen name := by
        rw [queryLen, querySectionLen]
        omega
      split at h
      · next hskip =>
        subst h
        obtain rfl : rc = .ok := hok
        obtain ⟨hlabels, hwire⟩ := createQuery_ok hquery
        exact ⟨⟨hlabels, hwire⟩, fun hipv6 => absurd hipv6 (hskip.resolve_left (not_not.mpr rfl))⟩
      subst h
      obtain rfl : rc = .ok := hok
      obtain ⟨hlabels, hwire⟩ := createQuery_ok hquery
      have hasks : Asks name mem := ⟨hlabels, hwire⟩
      refine ⟨hasks.congr fun i hlow hhigh => ?_, fun _ hlen =>
        hasks.congr fun i hlow hhigh => ?_⟩
      · dsimp only
        rw [update_of_ne (by omega), memcpy_apply_of_lt (by omega), memcpy_apply_of_lt (by omega)]
      have hlow' : 2 ≤ i := le_trans (by decide) hlow
      have hin : i < (load mem 0 (queryLen name % 65536)).length := by
        rw [length_load, Nat.mod_eq_of_lt hlen]
        omega
      dsimp only
      rw [update_of_ne (by omega), memcpy_apply_of_ge (Nat.add_le_add_left hlow' _),
        memcpy_apply_add hin,
        getElem_load, zero_add]

theorem createSrvQuery_asks (h : createSrvQuery alloc ident name = some rn) (hok : rn.rc = .ok) :
    Asks name rn.mem := by
  cases alloc with
  | none => cases h
  | some old =>
    cases hquery : createQuery resolveSrv old ident name with
    | mk rc mem =>
      simp only [createSrvQuery, map_some, hquery, some.injEq] at h
      subst h
      obtain rfl : rc = .ok := hok
      obtain ⟨hlabels, hwire⟩ := createQuery_ok hquery
      exact ⟨hlabels, hwire⟩

theorem createNameQuery_right_iff (h : createNameQuery ipv6 alloc ident ident6 name = some rn)
    (hok : rn.rc = .ok) :
    (QuestionRight name rn.mem ∧
      (ipv6 = true → QuestionRight name fun i => rn.mem (rn.query6 + i))) ↔ ShortLabels name := by
  obtain ⟨hasks, hasks6⟩ := createNameQuery_asks h hok
  constructor
  · exact fun hright => hasks.right_iff.mp hright.1
  · intro hshort
    exact ⟨hasks.right_iff.mpr hshort, fun hipv6 =>
      (hasks6 hipv6 hshort.queryLen_lt).right_iff.mpr hshort⟩

/-- A query that was made asks for the name, in labels, exactly where the labels are short. -/
theorem resolverQuery_right_iff (name : Bytes) :
    (∀ ipv6 alloc ident ident6 rn, createNameQuery ipv6 alloc ident ident6 name = some rn →
      rn.rc = .ok →
      ((QuestionRight name rn.mem ∧
        (ipv6 = true → QuestionRight name fun i => rn.mem (rn.query6 + i))) ↔ ShortLabels name)) ∧
    ∀ alloc ident rn, createSrvQuery alloc ident name = some rn → rn.rc = .ok →
      (QuestionRight name rn.mem ↔ ShortLabels name) :=
  ⟨fun _ _ _ _ _ h hok => createNameQuery_right_iff h hok, fun _ _ _ h hok =>
    (createSrvQuery_asks h hok).right_iff⟩

/-- The queries for `A.bc` and its two addresses. -/
theorem resolverQuery_right_ab :
    ∃ rn, createNameQuery true (some fun _ => 0) 0 1 (ascii "A.bc") = some rn ∧ rn.rc = .ok ∧
      load rn.mem queryHeadLen 6 = [1, chr 'A', 2, chr 'b', chr 'c', 0] ∧
      QuestionRight (ascii "A.bc") rn.mem ∧
      QuestionRight (ascii "A.bc") fun i => rn.mem (rn.query6 + i) := by
  obtain ⟨rn, hrn⟩ : ∃ rn, createNameQuery true (some fun _ => 0) 0 1 (ascii "A.bc") = some rn :=
    ⟨_, rfl⟩
  obtain ⟨hok, hload⟩ : rn.rc = .ok ∧
      load rn.mem queryHeadLen 6 = [1, chr 'A', 2, chr 'b', chr 'c', 0] := by
    cases hrn
    exact ⟨rfl, by rfl⟩
  obtain ⟨hright, hright6⟩ :=
    ((resolverQuery_right_iff (ascii "A.bc")).1 true _ 0 1 rn hrn hok).mpr ⟨by decide, by decide⟩
  exact ⟨rn, hrn, hok, hload, hright, hright6 rfl⟩

/-- A label of 64 bytes, whose length is a pointer when it is read. -/
theorem not_questionRight_long :
    ∃ rn, createNameQuery false (some fun _ => 0) 0 0 (List.replicate 64 (chr 'a')) = some rn ∧
      rn.rc = .ok ∧
      ¬ QuestionRight (List.replicate 64 (chr 'a')) rn.mem := by
  obtain ⟨rn, hrn⟩ : ∃ rn,
    createNameQuery false (some fun _ => 0) 0 0 (List.replicate 64 (chr 'a')) = some rn := ⟨_, rfl⟩
  have hok : rn.rc = .ok := by
    cases hrn
    rfl
  refine ⟨rn, hrn, hok, fun hright => ?_⟩
  have hshort := (createNameQuery_asks hrn hok).1.right_iff.mp hright
  have hlabel : List.replicate 64 (chr 'a') ∈ nameLabels (List.replicate 64 (chr 'a')) := by
    have hfree : chr '.' ∉ List.replicate 64 (chr 'a') := fun hmem =>
      absurd (eq_of_mem_replicate hmem) (by decide)
    rw [nameLabels_of_not_mem hfree]
    exact mem_singleton.mpr rfl
  have hlen := hshort.length _ hlabel
  rw [length_replicate] at hlen
  exact absurd hlen (by decide)

end Nginx.Core
