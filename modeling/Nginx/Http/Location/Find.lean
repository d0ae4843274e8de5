/-
  Http/Location/Find.lean --- what the search finds: the location of the URI itself, then a
  redirect, then the longest name that the URI begins with.

  A step of the search leaves aside elements that the URI has nothing to do with, as long as
  the byte of the length holds what is left of the name.
-/
import Nginx.Http.Location.Level

set_option autoImplicit false

namespace Nginx.Http.Location

open List Foundation Option

/-! ## What is found among some elements -/

/-- `auto_redirect` of the node. -/
def redirects (lq : LocationQueue) : Bool :=
  lq.exact.any LocConf.autoRedirect || lq.inclusive.any LocConf.autoRedirect

/-- The URI with a slash behind it. -/
def slashed (uri : Bytes) : Bytes := uri ++ [chr '/']

/-- The element has nothing to do with the URI. -/
structure Idle (uri : Bytes) (x : LocationQueue) : Prop where
  named : x.name ≠ uri
  redirect : x.name = slashed uri → redirects x = false
  inclusive : x.inclusive ≠ none → ¬x.name <+: uri

/-- The best match among the elements `H`, or `rv` if there is none. -/
inductive Best (H : LocationQueue → Prop) (uri : Bytes) (rv : LocationMatch) :
    LocationMatch → Prop where
  | exact {x : LocationQueue} {clcf : LocConf} (hx : H x) (hname : x.name = uri)
    (h : x.exact = some clcf) :
    Best H uri rv (.ok clcf)
  | named {x : LocationQueue} {clcf : LocConf} (hx : H x) (hname : x.name = uri)
    (hno : x.exact = none)
      (h : x.inclusive = some clcf) : Best H uri rv (.again clcf)
  | redirect {x : LocationQueue} {clcf : LocConf} (hnone : ∀ y, H y → y.name ≠ uri) (hx : H x)
      (hname : x.name = slashed uri) (hauto : redirects x)
        (h : x.exact.or x.inclusive = some clcf) :
    Best H uri rv (.done clcf)
  | inclusive {x : LocationQueue} {clcf : LocConf} (hnone : ∀ y, H y → y.name ≠ uri)
      (hno : ∀ y, H y → y.name = slashed uri → redirects y = false)
        (hx : H x) (hpre : x.name <+: uri)
      (h : x.inclusive = some clcf)
      (hmax : ∀ y, H y → y.inclusive ≠ none → y.name <+: uri → y.name.length ≤ x.name.length) :
    Best H uri rv (.again clcf)
  | none (h : ∀ y, H y → Idle uri y) : Best H uri rv rv

theorem prefix_slashed (uri : Bytes) : uri <+: slashed uri := prefix_append _ _

theorem ne_slashed_of_isPrefix {name uri : Bytes} (h : name <+: uri) : name ≠ slashed uri := by
  intro heq
  have := h.length_le
  rw [heq] at this
  simp [slashed] at this

namespace Best

variable {H H' : LocationQueue → Prop} {uri : Bytes} {rv res : LocationMatch}

/-- Elements that the URI has nothing to do with change nothing. -/
theorem widen (h : Best H uri rv res) (hsub : ∀ x, H x → H' x)
    (hidle : ∀ x, H' x → H x ∨ Idle uri x) :
    Best H' uri rv res := by
  cases h with
  | exact hx hname h => exact .exact (hsub _ hx) hname h
  | named hx hname hno h => exact .named (hsub _ hx) hname hno h
  | redirect hnone hx hname hauto h =>
    exact .redirect (fun y hy => (hidle y hy).elim (hnone y) Idle.named) (hsub _ hx) hname hauto h
  | inclusive hnone hno hx hpre h hmax =>
    refine .inclusive (fun y hy => (hidle y hy).elim (hnone y) Idle.named)
      (fun y hy => (hidle y hy).elim (hno y) Idle.redirect) (hsub _ hx) hpre h fun y hy hi hp => ?_
    rcases hidle y hy with hy' | hy'
    · exact hmax y hy' hi hp
    · exact absurd hp (hy'.inclusive hi)
  | none h => exact .none fun y hy => (hidle y hy).elim (h y) id

/-- The search below an element that the URI goes on behind. -/
theorem descend {m : LocationQueue} {clcf : LocConf} (h : Best H uri (.again clcf) res)
    (hm : m.inclusive = some clcf)
    (hpre : m.name <+: uri) (hne : m.name ≠ uri) (hin : ∀ x, H x → m.name <+: x.name)
    (hsub : ∀ x, H x → H' x)
    (hHm : H' m) (hidle : ∀ x, H' x → H x ∨ x = m ∨ Idle uri x) : Best H' uri rv res := by
  have hmr := ne_slashed_of_isPrefix hpre
  cases h with
  | exact hx hname h => exact .exact (hsub _ hx) hname h
  | named hx hname hno h => exact .named (hsub _ hx) hname hno h
  | redirect hnone hx hname hauto h =>
    refine .redirect (fun y hy => ?_) (hsub _ hx) hname hauto h
    rcases hidle y hy with hy | rfl | hy
    · exact hnone y hy
    · exact hne
    · exact hy.named
  | inclusive hnone hno hx hpre' h hmax =>
    refine .inclusive (fun y hy => ?_) (fun y hy => ?_) (hsub _ hx) hpre' h fun y hy hi hp => ?_
    · rcases hidle y hy with hy | rfl | hy
      · exact hnone y hy
      · exact hne
      · exact hy.named
    · rcases hidle y hy with hy | rfl | hy
      · exact hno y hy
      · exact fun heq => absurd heq hmr
      · exact hy.redirect
    · rcases hidle y hy with hy | rfl | hy
      · exact hmax y hy hi hp
      · exact (hin _ hx).length_le
      · exact absurd hp (hy.inclusive hi)
  | none h =>
    refine .inclusive (fun y hy => ?_) (fun y hy => ?_) hHm hpre hm fun y hy hi hp => ?_
    · rcases hidle y hy with hy | rfl | hy
      · exact (h y hy).named
      · exact hne
      · exact hy.named
    · rcases hidle y hy with hy | rfl | hy
      · exact (h y hy).redirect
      · exact fun heq => absurd heq hmr
      · exact hy.redirect
    · rcases hidle y hy with hy | rfl | hy
      · exact absurd hp ((h y hy).inclusive hi)
      · exact le_rfl
      · exact absurd hp (hy.inclusive hi)

/-- The search of what stands in front of an element that redirects. -/
theorem redirected {m : LocationQueue} {clcf : LocConf} (h : Best H uri (.done clcf) res)
    (hname : m.name = slashed uri)
    (hauto : redirects m) (hm : m.exact.or m.inclusive = some clcf)
    (hleft : ∀ x, H x → x.name ≠ slashed uri ∧ (x.inclusive ≠ Option.none → ¬x.name <+: uri))
    (hsub : ∀ x, H x → H' x)
    (hHm : H' m) (hnamed : ∀ x, H' x → H x ∨ x.name ≠ uri) : Best H' uri rv res := by
  cases h with
  | exact hx hname h => exact .exact (hsub _ hx) hname h
  | named hx hname hno h => exact .named (hsub _ hx) hname hno h
  | redirect _ hx hname' _ _ => exact absurd hname' (hleft _ hx).1
  | inclusive _ _ hx hpre h _ =>
    exact absurd hpre ((hleft _ hx).2 (by rw [h]; exact some_ne_none _))
  | none h =>
    exact .redirect
      (fun y hy => (hnamed y hy).elim (fun hy => (h y hy).named) id) hHm hname hauto hm

end Best

/-! ## Where an element is -/

/-- `x` is an element of the level that stands behind `p`. -/
inductive At : Bytes → List LocationQueue → Bytes → LocationQueue → Prop where
  | here {pre : Bytes} {queue : List LocationQueue} {x : LocationQueue}
    (h : x ∈ queue) : At pre queue pre x
  | inside {pre p : Bytes} {queue : List LocationQueue} {lq x : LocationQueue} (h : lq ∈ queue)
      (hx : At lq.name lq.list p x) : At pre queue p x

variable {queue : List LocationQueue}

theorem At.mono {pre p : Bytes} {queue' : List LocationQueue} {x : LocationQueue}
    (h : At pre queue p x)
    (hsub : ∀ y ∈ queue, y ∈ queue') : At pre queue' p x := by
  cases h with
  | here h => exact .here (hsub _ h)
  | inside h hx => exact .inside (hsub _ h) hx

theorem At.held {pre p : Bytes} {x : LocationQueue} (h : At pre queue p x) : Held queue x := by
  induction h with
  | here h => exact .here h
  | inside h _ ih => exact .inside h ih

/-- What is left of each name fits into a byte. -/
def Short (pre : Bytes) (queue : List LocationQueue) :
    Prop := ∀ p x, At pre queue p x → x.name.length ≤ p.length + 255

/-! ## The comparison at a node -/

/-- Where the URI stands to a name. -/
inductive Placed (uri name : Bytes) (rc : Int) : Prop where
  | related (hrc : rc = 0) (h : uri <+: name ∨ name <+: uri)
  | before (hrc : rc < 0) (h : Before rank uri name) (hu : ¬uri <+: name) (hn : ¬name <+: uri)
  | behind (hrc : 0 < rc) (h : Before rank name uri) (hu : ¬uri <+: name) (hn : ¬name <+: uri)

theorem placed (pre u : Bytes) {r : Bytes} (hr : Clean r) :
    Placed (pre ++ u) (pre ++ r)
      (filenameCmp (if u.length ≤ r.length then u.length else r.length) u r) := by
  have htake : ∀ n, n = (if u.length ≤ r.length then u.length else r.length) →
      (u.take n = r.take n ↔ u <+: r ∨ r <+: u) := by
    intro n hn
    by_cases hle : u.length ≤ r.length
    · rw [if_pos hle] at hn
      rw [hn, take_length, ← prefix_iff_eq_take]
      refine ⟨.inl, fun h => h.elim id fun h => ?_⟩
      rw [h.eq_of_length_le hle]
    · rw [if_neg hle] at hn
      rw [hn, take_length, eq_comm, ← prefix_iff_eq_take]
      exact ⟨.inr, fun h => h.elim (fun h => absurd h.length_le hle) id⟩
  have hn : (if u.length ≤ r.length then u.length else r.length) ≤ r.length := by
    split <;> omega
  have hiff := htake _ rfl
  rcases filenameCmp_spec u hr (.inl hn) with ⟨hrc, h⟩ | ⟨hrc, hne, h⟩ | ⟨hrc, hne, h⟩
  · refine .related hrc ?_
    simpa only [prefix_append_right_inj] using hiff.mp h
  · rw [ne_eq, hiff, not_or] at hne
    refine .before hrc ((Before.append_left pre).mpr h) ?_ ?_
    · simpa only [prefix_append_right_inj] using hne.1
    · simpa only [prefix_append_right_inj] using hne.2
  · rw [ne_eq, hiff, not_or] at hne
    refine .behind hrc ((Before.append_left pre).mpr h) ?_ ?_
    · simpa only [prefix_append_right_inj] using hne.1
    · simpa only [prefix_append_right_inj] using hne.2

/-! ## Around a node -/

section around

variable {pre uri : Bytes} {l r : List LocationQueue} {m x : LocationQueue}

theorem held_around : Held (l ++ m :: r) x ↔ Held l x ∨ x = m ∨ Held m.list x ∨ Held r x := by
  rw [held_append, held_cons]

/-- What is held in front of a node: before it, and no prefix that it goes on behind. -/
theorem Level.held_left (h : Level pre (l ++ m :: r)) (hx : Held l x) :
    Before rank x.name m.name ∧ (x.inclusive ≠ none → ¬x.name <+: m.name) := by
  obtain ⟨hl, -, -⟩ := h.append
  obtain ⟨q, hq, hxq⟩ := hl.of_held hx
  obtain ⟨hbefore, hout⟩ := h.around.1 q hq
  rcases hxq with rfl | ⟨hi, hx⟩
  · exact ⟨hbefore, hout⟩
  have hqx := (hl.held_longer hq hx).1
  refine ⟨?_, fun _ hxm => hout hi (hqx.trans hxm)⟩
  rcases Before.total rank_injective x.name m.name with hlt | heq | hgt
  · exact hlt
  · rw [heq] at hqx
    exact absurd hqx (hout hi)
  · exact absurd (Before.prefix_between rank_injective hbefore.asymm hgt.asymm hqx) (hout hi)

theorem Level.held_right (h : Level pre (l ++ m :: r)) (hx : Held r x) :
    Before rank m.name x.name ∧ (m.inclusive ≠ none → ¬m.name <+: x.name) := by
  obtain ⟨-, hmr, -⟩ := h.append
  cases hmr with
  | cons named hpre before outside empty longer inner rest =>
    obtain ⟨q, hq, hxq⟩ := rest.of_held hx
    have hqx : q.name <+: x.name := by
      rcases hxq with rfl | ⟨-, hx⟩
      · exact prefix_refl _
      · exact (rest.held_longer hq hx).1
    refine ⟨Before.trans_not rank_injective (before q hq) (Before.not_of_isPrefix hqx),
      fun hi hmx => ?_⟩
    rcases prefix_or_prefix_of_prefix hmx hqx with hmq | hqm
    · exact outside hi q hq hmq
    · exact Before.not_of_isPrefix hqm (before q hq)

theorem Level.held_inner (h : Level pre (l ++ m :: r)) (hx : Held m.list x) :
    m.name <+: x.name ∧ m.name ≠ x.name ∧ m.inclusive ≠ none := by
  have hm : m ∈ l ++ m :: r := mem_append_right _ mem_cons_self
  obtain ⟨hp, hne⟩ := h.held_longer hm hx
  refine ⟨hp, hne, fun hi => ?_⟩
  rw [(h.of_mem hm).2.2.1 hi] at hx
  exact not_held_nil x hx

theorem Level.not_before (h : Level pre (l ++ m :: r)) (hx : x = m ∨ Held m.list x ∨ Held r x) :
    ¬Before rank x.name m.name := by
  rcases hx with rfl | hx | hx
  · exact Before.irrefl _
  · exact Before.not_of_isPrefix (h.held_inner hx).1
  · exact (h.held_right hx).1.asymm

theorem Level.eq_of_isPrefix {queue : List LocationQueue} {q q' : LocationQueue}
    (h : Level pre queue) (hq : q ∈ queue)
    (hq' : q' ∈ queue) (hi : q.inclusive ≠ none) (hp : q.name <+: q'.name) : q = q' := by
  obtain ⟨front, back, rfl⟩ := append_of_mem hq'
  obtain ⟨hfront, hback⟩ := h.around
  rcases mem_append.mp hq with hq | hq
  · exact absurd hp ((hfront q hq).2 hi)
  · rcases mem_cons.mp hq with rfl | hq
    · rfl
    · exact absurd (hback q hq).1 (Before.not_of_isPrefix hp)

/-- No two elements have the same name. -/
theorem Level.eq_of_held {queue : List LocationQueue} {y : LocationQueue}
    (h : Level pre queue) (hx : Held queue x)
    (hy : Held queue y) (hname : x.name = y.name) : x = y := by
  induction hx generalizing pre with
  | @here queue x hx =>
    obtain ⟨q, hq, rfl | ⟨hi, hyq⟩⟩ := h.of_held hy
    · obtain ⟨front, back, rfl⟩ := append_of_mem hq
      obtain ⟨hfront, hback⟩ := h.around
      rcases mem_append.mp hx with hx | hx
      · exact absurd hname (hfront x hx).1.ne
      · rcases mem_cons.mp hx with rfl | hx
        · rfl
        · exact absurd hname.symm (hback x hx).1.ne
    · obtain ⟨hqy, hne⟩ := h.held_longer hq hyq
      rw [← hname] at hqy hne
      exact absurd (congrArg LocationQueue.name (h.eq_of_isPrefix hq hx hi hqy)) hne
  | @inside queue lq x hlq hx ih =>
    obtain ⟨hlx, hlne⟩ := h.held_longer hlq hx
    have hi : lq.inclusive ≠ none := by
      intro hi
      rw [(h.of_mem hlq).2.2.1 hi] at hx
      exact not_held_nil x hx
    obtain ⟨q, hq, rfl | ⟨hiq, hyq⟩⟩ := h.of_held hy
    · rw [hname] at hlx hlne
      exact absurd (congrArg LocationQueue.name (h.eq_of_isPrefix hlq hq hi hlx)) hlne
    have hqy := (h.held_longer hq hyq).1
    rw [← hname] at hqy
    have hsame : lq = q := by
      rcases prefix_or_prefix_of_prefix hlx hqy with hp | hp
      · exact h.eq_of_isPrefix hlq hq hi hp
      · exact (h.eq_of_isPrefix hq hlq hiq hp).symm
    rw [← hsame] at hyq
    exact ih (h.of_mem hlq).2.2.2.2 hyq hname

theorem idle_behind (h : Before rank uri m.name) (hx : ¬Before rank x.name m.name)
    (hred : x.name = slashed uri → redirects x = false) : Idle uri x := by
  refine ⟨fun heq => hx (heq ▸ h), hred, fun _ hp => hx ?_⟩
  exact Before.not_trans rank_injective (Before.not_of_isPrefix hp) h

theorem not_slashed_behind (h : Before rank uri m.name) (hu : ¬uri <+: m.name)
    (hx : ¬Before rank x.name m.name) :
    x.name ≠ slashed uri := by
  intro heq
  refine hu (Before.prefix_between rank_injective h.asymm hx ?_)
  rw [heq]
  exact prefix_slashed uri

theorem eq_slashed {name : Bytes} (hclean : Clean name) (hp : uri <+: name) (hne : uri ≠ name)
    (hle : ¬Before rank (slashed uri) name) : name = slashed uri := by
  obtain ⟨t, rfl⟩ := hp
  cases t with
  | nil => simp at hne
  | cons c t =>
    have hc : c ≠ 0 := hclean c (by simp)
    have hcpos := toNat_pos hc
    unfold slashed at hle ⊢
    rw [Before.append_left, Before.cons_cons, not_or, not_and, not_lt] at hle
    have hslash : rank (chr '/') = 1 := by decide
    have hcr : rank c = 1 := by
      have hpos : 1 ≤ rank c := by
        unfold rank
        rw [if_neg hc]
        split <;> omega
      omega
    have hcs : c = chr '/' := rank_injective (hcr.trans hslash.symm)
    have ht : t = [] := by
      cases t with
      | nil => rfl
      | cons d t => exact absurd (Before.nil_cons d t) (hle.2 (by rw [hcs]))
    rw [hcs, ht]

theorem Level.idle_left (h : Level pre (l ++ m :: r)) (hm : Before rank m.name uri)
    (hx : Held l x) : Idle uri x := by
  obtain ⟨hxm, hout⟩ := h.held_left hx
  have hxu := hxm.trans hm
  refine ⟨hxu.ne, fun heq => ?_, fun hi hp => ?_⟩
  · rw [heq] at hxu
    exact absurd hxu (Before.not_of_isPrefix (prefix_slashed uri))
  · exact hout hi (Before.prefix_between rank_injective hxm.asymm hm.asymm hp)

theorem Level.idle_right (h : Level pre (l ++ m :: r)) (hm : m.name <+: uri)
    (hi : m.inclusive ≠ none) (hx : Held r x) :
    Idle uri x := by
  obtain ⟨hmx, hout⟩ := h.held_right hx
  refine ⟨fun heq => hout hi (heq ▸ hm), fun heq => ?_, fun _ hp => ?_⟩
  · refine absurd ?_ (hout hi)
    rw [heq]
    exact hm.trans (prefix_slashed uri)
  · rcases prefix_or_prefix_of_prefix hm hp with h' | h'
    · exact hout hi h'
    · exact Before.not_of_isPrefix h' hmx

theorem Level.idle_node (h : Level pre (l ++ m :: r)) (hu : ¬uri <+: m.name) (hn : ¬m.name <+: uri)
    (hx : x = m ∨ Held m.list x) : Idle uri x := by
  have hmx : m.name <+: x.name := by
    rcases hx with rfl | hx
    · exact prefix_refl _
    · exact (h.held_inner hx).1
  refine ⟨fun heq => hn (heq ▸ hmx), fun heq => ?_, fun _ hp => hn (hmx.trans hp)⟩
  rw [heq] at hmx
  exact absurd (List.prefix_or_prefix_of_prefix hmx (prefix_slashed uri)) (not_or.mpr ⟨hn, hu⟩)

end around

theorem eq_of_redirects {uri : Bytes} {m : LocationQueue} (hm : Named m)
    (hred : redirects m) (hp : uri <+: m.name)
    (hlen : m.name.length = uri.length + 1) : m.name = slashed uri := by
  have hlast : m.name.getLast? = some (chr '/') := by
    unfold redirects at hred
    rw [Bool.or_eq_true, Option.any_eq_true, Option.any_eq_true] at hred
    rcases hred with ⟨clcf, hc, hauto⟩ | ⟨clcf, hc, hauto⟩
    · rw [← (hm.exact clcf hc).1]
      exact clcf.slashAtEnd hauto
    · rw [← (hm.inclusive clcf hc).1]
      exact clcf.slashAtEnd hauto
  obtain ⟨t, ht⟩ := hp
  rw [← ht] at hlast hlen ⊢
  obtain ⟨c, rfl⟩ := length_eq_one_iff.mp (by simpa using hlen : t.length = 1)
  simp only [getLast?_append, getLast?_singleton, some_or, some.injEq] at hlast
  rw [hlast, slashed]

theorem exists_or_some {m : LocationQueue} (hm : Named m) :
    ∃ clcf, m.exact.or m.inclusive = some clcf := by
  rcases he : m.exact with _ | clcf
  · obtain ⟨clcf, hi⟩ := ne_none_iff_exists'.mp (hm.some.resolve_left fun hne => hne he)
    exact ⟨clcf, by simp [hi]⟩
  · exact ⟨clcf, rfl⟩

/-! ## The search of a tree -/

theorem createLocationsTree_none {k : Nat} (h : queue[queue.length / 2]? = none) :
    createLocationsTree queue k = .null := by
  rw [createLocationsTree]
  split
  · rfl
  · rename_i hm
    rw [h] at hm
    exact absurd hm.symm (some_ne_none _)

theorem createLocationsTree_some {k : Nat} {m : LocationQueue}
    (h : queue[queue.length / 2]? = some m) :
    createLocationsTree queue k =
      .node m.exact m.inclusive (redirects m) ((m.name.length - k) % 256) (m.name.drop k)
        (createLocationsTree (queue.take (queue.length / 2)) k)
        (createLocationsTree (queue.drop (queue.length / 2 + 1)) k)
        (createLocationsTree m.list (k + (m.name.length - k))) := by
  rw [createLocationsTree]
  split
  · rename_i hm
    rw [h] at hm
    exact absurd hm (some_ne_none _)
  · rename_i x hm
    obtain rfl : m = x := some.inj (h.symm.trans hm)
    rfl

theorem findStaticLocation_node (exact inclusive : Option LocConf)
    (autoRedirect : Bool) (len : Nat) (name : Bytes)
    (left right tree : LocationTree) (uri : Bytes) (rv : LocationMatch) :
    findStaticLocation (.node exact inclusive autoRedirect len name left right tree) uri rv =
      if filenameCmp (if uri.length ≤ len then uri.length else len) uri name <
        0 then findStaticLocation left uri rv
      else if 0 <
        filenameCmp
        (if uri.length ≤ len then uri.length else len) uri name then findStaticLocation right uri rv
      else if len < uri.length then
        inclusive.elim (findStaticLocation right uri rv) fun clcf =>
          findStaticLocation tree (uri.drop (if uri.length ≤ len then uri.length else len))
            (.again clcf)
      else if uri.length = len then exact.elim (inclusive.elim rv .again) .ok
      else findStaticLocation left uri
        (if uri.length + 1 = len ∧
        autoRedirect then (exact.or inclusive).elim rv .done else rv) := by
  cases inclusive <;> cases exact <;> rfl

theorem middle_split {m : LocationQueue} (h : queue[queue.length / 2]? = some m) :
    queue = queue.take (queue.length / 2) ++ m :: queue.drop (queue.length / 2 + 1) := by
  obtain ⟨hlt, hm⟩ := List.getElem?_eq_some_iff.mp h
  rw [← hm, ← drop_eq_getElem_cons hlt, take_append_drop]

theorem empty_of_middle (h : queue[queue.length / 2]? = none) : queue = [] := by
  rw [getElem?_eq_none_iff] at h
  exact eq_nil_of_length_eq_zero (by omega)

theorem Level.take {pre : Bytes} (h : Level pre queue) (n : Nat) : Level pre (queue.take n) := by
  rw [← take_append_drop n queue] at h
  exact h.append.1

theorem Level.drop {pre : Bytes} (h : Level pre queue) (n : Nat) : Level pre (queue.drop n) := by
  rw [← take_append_drop n queue] at h
  exact h.append.2.1

section node

variable {pre uri : Bytes} {l r : List LocationQueue} {m : LocationQueue} {clcf : LocConf}
  {rv res : LocationMatch}

/-- The URI stands in front of the node: the best match is to the left. -/
theorem Level.best_left (h : Level pre (l ++ m :: r)) (hlt : Before rank uri m.name)
    (hnu : ¬uri <+: m.name) (hleft : Best (Held l) uri rv res) :
    Best (Held (l ++ m :: r)) uri rv res := by
  refine hleft.widen (fun x hx => held_around.mpr (.inl hx)) fun x hx => ?_
  refine (held_around.mp hx).imp_right fun hx => ?_
  have hnb := h.not_before hx
  exact idle_behind hlt hnb fun heq => absurd heq (not_slashed_behind hlt hnu hnb)

/-- The URI stands behind the node: the best match is to the right. -/
theorem Level.best_right (h : Level pre (l ++ m :: r)) (hlt : Before rank m.name uri)
    (hnode : ∀ x, x = m ∨ Held m.list x → Idle uri x) (hright : Best (Held r) uri rv res) :
    Best (Held (l ++ m :: r)) uri rv res := by
  refine hright.widen (fun x hx => held_around.mpr (.inr (.inr (.inr hx)))) fun x hx => ?_
  rcases held_around.mp hx with hx | hx | hx | hx
  · exact .inr (h.idle_left hlt hx)
  · exact .inr (hnode x (.inl hx))
  · exact .inr (hnode x (.inr hx))
  · exact .inl hx

/-- The URI goes on behind the name of a node without a prefix location. -/
theorem Level.best_past (h : Level pre (l ++ m :: r)) (hmu : m.name <+: uri) (hne : m.name ≠ uri)
    (hi : m.inclusive = none) (hright : Best (Held r) uri rv res) :
    Best (Held (l ++ m :: r)) uri rv res := by
  refine h.best_right (Before.of_isPrefix hmu hne) (fun x hx => ?_) hright
  rcases hx with rfl | hx
  · exact ⟨hne, fun heq => absurd heq (ne_slashed_of_isPrefix hmu), fun hsome => absurd hi hsome⟩
  · exact absurd hi (h.held_inner hx).2.2

/-- The URI goes on behind the name of a node with a prefix location: the search goes inside. -/
theorem Level.best_inside (h : Level pre (l ++ m :: r)) (hmu : m.name <+: uri)
    (hne : m.name ≠ uri) (hi : m.inclusive = some clcf)
    (hin : Best (Held m.list) uri (.again clcf) res) : Best (Held (l ++ m :: r)) uri rv res := by
  have hsome : m.inclusive ≠ none := by
    rw [hi]
    exact some_ne_none clcf
  refine hin.descend hi hmu hne (fun x hx => (h.held_inner hx).1)
    (fun x hx => held_around.mpr (.inr (.inr (.inl hx)))) (held_around.mpr (.inr (.inl rfl)))
    fun x hx => ?_
  rcases held_around.mp hx with hx | hx | hx | hx
  · exact .inr (.inr (h.idle_left (Before.of_isPrefix hmu hne) hx))
  · exact .inr (.inl hx)
  · exact .inl hx
  · exact .inr (.inr (h.idle_right hmu hsome hx))

/-- The URI is the name of the node. -/
theorem best_here (hm : Named m) (hname : m.name = uri) :
    Best (Held (l ++ m :: r)) uri rv (m.exact.elim (m.inclusive.elim rv .again) .ok) := by
  have hheld : Held (l ++ m :: r) m := held_around.mpr (.inr (.inl rfl))
  rcases he : m.exact with _ | clcf
  · obtain ⟨clcf, hi⟩ := ne_none_iff_exists'.mp (hm.some.resolve_left fun hne => hne he)
    rw [hi]
    exact .named hheld hname he hi
  · exact .exact hheld hname he

/-- The node redirects the URI, unless something to the left is the URI itself. -/
theorem Level.best_redirected (h : Level pre (l ++ m :: r)) (hms : m.name = slashed uri)
    (hred : redirects m) (hor : m.exact.or m.inclusive = some clcf)
    (hleft : Best (Held l) uri (.done clcf) res) : Best (Held (l ++ m :: r)) uri rv res := by
  have hum : uri <+: m.name := hms ▸ prefix_slashed uri
  have hne : uri ≠ m.name := fun heq => ne_slashed_of_isPrefix (prefix_refl uri) (heq.trans hms)
  refine hleft.redirected hms hred hor (fun x hx => ?_) (fun x hx => held_around.mpr (.inl hx))
    (held_around.mpr (.inr (.inl rfl))) fun x hx => ?_
  · obtain ⟨hxm, hout⟩ := h.held_left hx
    refine ⟨?_, fun hi hp => hout hi (hp.trans hum)⟩
    rw [← hms]
    exact hxm.ne
  · refine (held_around.mp hx).imp_right fun hx heq => h.not_before hx ?_
    rw [heq]
    exact Before.of_isPrefix hum hne

/-- The name of a node that does not redirect goes on behind the URI. -/
theorem Level.best_short (h : Level pre (l ++ m :: r)) (hm : Named m) (hum : uri <+: m.name)
    (hne : uri ≠ m.name) (hnot : m.name = slashed uri → redirects m = false)
    (hleft : Best (Held l) uri rv res) : Best (Held (l ++ m :: r)) uri rv res := by
  refine hleft.widen (fun x hx => held_around.mpr (.inl hx)) fun x hx => ?_
  refine (held_around.mp hx).imp_right fun hx => ?_
  have hnb := h.not_before hx
  refine idle_behind (Before.of_isPrefix hum hne) hnb fun heq => ?_
  have hms := eq_slashed hm.clean hum hne (by rw [← heq]; exact hnb)
  rcases hx with rfl | hx | hx
  · exact hnot hms
  · exact absurd (hms.trans heq.symm) (h.held_inner hx).2.1
  · exact absurd (hms.trans heq.symm) (h.held_right hx).1.ne

end node

/-- The search of a tree finds the best match among the elements that it was made of. -/
theorem find_best (queue : List LocationQueue) (k : Nat) {pre : Bytes} (hk : pre.length = k)
    (h : Level pre queue) (hshort : Short pre queue) {uri : Bytes} (huri : pre <+: uri)
    (rv : LocationMatch) :
    Best (Held queue) uri rv
      (findStaticLocation (createLocationsTree queue k) (uri.drop k) rv) := by
  induction queue, k using createLocationsTree.induct generalizing pre rv with
  | case1 queue k hnone =>
    rw [createLocationsTree_none hnone, empty_of_middle hnone]
    exact .none fun y hy => absurd hy (not_held_nil y)
  | case2 queue k m hmid len ihl ihr =>
    rename_i ihm
    have hsplit := middle_split hmid
    rw [createLocationsTree_some hmid]
    have ihl := ihl hk (h.take _) fun p x hx => hshort p x (hx.mono fun y hy => mem_of_mem_take hy)
    have ihr := ihr hk (h.drop _) fun p x hx => hshort p x (hx.mono fun y hy => mem_of_mem_drop hy)
    generalize queue.take (queue.length / 2) = l at *
    generalize queue.drop (queue.length / 2 + 1) = r at *
    have hmem : m ∈ queue := by rw [hsplit]; exact mem_append_right _ mem_cons_self
    obtain ⟨hnamed, hpm, -, -, hinner⟩ := h.of_mem hmem
    have hlen : k + (m.name.length - k) = m.name.length := by
      have := hpm.length_le
      omega
    have ihm := ihm hlen.symm hinner (fun p x hx => hshort p x (.inside hmem hx))
    have hmlen := hshort pre m (.here hmem)
    clear hmid
    subst hsplit
    obtain ⟨u, hu⟩ := huri
    obtain ⟨rem, hrem⟩ := hpm
    have hdu : uri.drop k = u := by rw [← hu, ← hk, drop_left]
    have hdm : m.name.drop k = rem := by rw [← hrem, ← hk, drop_left]
    have hlrem : m.name.length - k = rem.length := by
      rw [← hrem, ← hk, length_append, Nat.add_sub_cancel_left]
    have hmod : rem.length % 256 = rem.length := Nat.mod_eq_of_lt (by omega)
    have hclean : Clean rem := by
      rw [← hdm]
      exact hnamed.clean.drop k
    have hplaced := placed pre u hclean
    rw [hu, hrem] at hplaced
    have hulen : uri.length = k + u.length := by rw [← hu, length_append, hk]
    have hnlen : m.name.length = k + rem.length := by rw [← hrem, length_append, hk]
    have hlen' : len = rem.length := hlrem
    rw [hlen'] at ihm
    rw [hdu] at ihl ihr
    rw [hdu, hdm, hlrem, hmod, findStaticLocation_node]
    rcases hplaced with ⟨hrc, hrel⟩ | ⟨hrc, hlt, hnu, hnn⟩ | ⟨hrc, hlt, hnu, hnn⟩
    · rw [if_neg (by omega), if_neg (by omega)]
      rcases lt_trichotomy rem.length u.length with hgt | heq | hless
      · -- the URI goes on behind the name
        have hmu : m.name <+: uri := hrel.resolve_left fun h => by
          have := h.length_le
          omega
        have hne : m.name ≠ uri := fun h => by
          rw [h] at hnlen
          omega
        rw [if_pos hgt, if_neg (by omega)]
        rcases hi : m.inclusive with _ | clcf
        · exact h.best_past hmu hne hi (ihr ⟨u, hu⟩ rv)
        · have hin := ihm hmu (.again clcf)
          rw [← drop_drop, hdu] at hin
          exact h.best_inside hmu hne hi hin
      · -- the URI is the name
        have hname : m.name = uri := by
          rcases hrel with h | h
          · exact (h.eq_of_length (by omega)).symm
          · exact h.eq_of_length (by omega)
        rw [if_neg (by omega), if_pos heq.symm]
        exact best_here hnamed hname
      · -- the name goes on behind the URI
        have hum : uri <+: m.name := hrel.resolve_right fun h => by
          have := h.length_le
          omega
        have hne : uri ≠ m.name := fun h => by
          rw [← h] at hnlen
          omega
        rw [if_neg (by omega), if_neg (by omega)]
        by_cases hred : u.length + 1 = rem.length ∧ redirects m = true
        · have hms : m.name = slashed uri := eq_of_redirects hnamed hred.2 hum (by omega)
          obtain ⟨clcf, hor⟩ := exists_or_some hnamed
          rw [if_pos hred, hor]
          exact h.best_redirected hms hred.2 hor (ihl ⟨u, hu⟩ (.done clcf))
        · rw [if_neg hred]
          refine h.best_short hnamed hum hne (fun hms => ?_) (ihl ⟨u, hu⟩ rv)
          rw [hms] at hnlen
          simp only [slashed, length_append, length_singleton] at hnlen
          exact Bool.eq_false_iff.mpr fun hr => hred ⟨by omega, hr⟩
    · -- to the left
      rw [if_pos hrc]
      exact h.best_left hlt hnu (ihl ⟨u, hu⟩ rv)
    · -- to the right
      rw [if_neg (by omega), if_pos hrc]
      exact h.best_right hlt (fun x hx => h.idle_node hnu hnn hx) (ihr ⟨u, hu⟩ rv)

end Nginx.Http.Location
