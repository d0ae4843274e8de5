/-
  Http/Location/StaticLocation.lean --- the location of a URI among the configured ones, and
  when the tree of them gives it for each URI.
-/
import Mathlib.Data.List.Pairwise
import Nginx.Http.Location.Truncated

set_option autoImplicit false

namespace Nginx.Http.Location

open Foundation List

/-- What the configured locations give for a URI: the exact location of its name; or the
inclusive one; or a redirect to the name with a slash; or the longest name that the URI
begins with; or nothing. -/
inductive BestMatch (locations : List LocConf) (uri : Bytes) : LocationMatch → Prop where
  | exact {clcf : LocConf} (hmem : clcf ∈ locations) (hexact : clcf.exactMatch = true)
    (hname : clcf.name = uri) :
    BestMatch locations uri (.ok clcf)
  | named {clcf : LocConf} (hno : ∀ x ∈ locations, x.exactMatch = true → x.name ≠ uri)
    (hmem : clcf ∈ locations)
      (hname : clcf.name = uri) : BestMatch locations uri (.again clcf)
  | redirect {clcf x : LocConf} (hno : ∀ y ∈ locations, y.name ≠ uri)
    (hx : x ∈ locations) (hxname : x.name = slashed uri)
      (hauto : x.autoRedirect = true) (hmem : clcf ∈ locations) (hname : clcf.name = slashed uri)
      (hfirst : clcf.exactMatch = true ∨ ∀ y ∈ locations, y.exactMatch = true →
        y.name ≠ slashed uri) :
    BestMatch locations uri (.done clcf)
  | inclusive {clcf : LocConf} (hno : ∀ x ∈ locations, x.name ≠ uri)
      (hnored : ∀ x ∈ locations, x.name = slashed uri → x.autoRedirect = false)
        (hmem : clcf ∈ locations)
      (hincl : clcf.exactMatch = false) (hpre : clcf.name <+: uri)
      (hlongest : ∀ x ∈ locations, x.exactMatch = false → x.name <+: uri →
        x.name.length ≤ clcf.name.length) :
    BestMatch locations uri (.again clcf)
  | declined (hno : ∀ x ∈ locations, x.name ≠ uri)
      (hnored : ∀ x ∈ locations, x.name = slashed uri → x.autoRedirect = false)
      (hnoincl : ∀ x ∈ locations, x.exactMatch = false →
        ¬x.name <+: uri) : BestMatch locations uri .declined

/-- No location is configured twice. -/
def NoDuplicates (locations : List LocConf) : Prop :=
  locations.Pairwise fun a b => ¬(a.name = b.name ∧ a.exactMatch = b.exactMatch)

/-- Each name goes on for 255 bytes at most behind the longest inclusive location that it is inside
of. -/
def Fits (locations : List LocConf) : Prop :=
  ∀ x ∈ locations, x.name.length ≤ 255 ∨ ∃ y ∈ locations, y.exactMatch = false ∧
    y.name <+: x.name ∧ y.name ≠ x.name ∧
    x.name.length ≤ y.name.length + 255

theorem NoDuplicates.eq {locations : List LocConf} (h : NoDuplicates locations)
    {a b : LocConf} (ha : a ∈ locations)
    (hb : b ∈ locations) (hname : a.name = b.name) (hexact : a.exactMatch = b.exactMatch) :
    a = b := by
  by_contra hne
  have hsymm : Std.Symm fun a b : LocConf => ¬(a.name = b.name ∧ a.exactMatch = b.exactMatch) :=
    ⟨fun x y hxy hyx => hxy ⟨hyx.1.symm, hyx.2.symm⟩⟩
  exact List.Pairwise.forall h ha hb hne ⟨hname, hexact⟩

/-! ## The queue that the tree is made of -/

/-- A nested queue of these locations. -/
structure Built (locations : List LocConf) (nested : List LocationQueue) : Prop where
  level : Level [] nested
  exact : ∀ clcf, (∃ x, Held nested x ∧ x.exact = some clcf) ↔ clcf ∈ locations ∧
    clcf.exactMatch = true
  inclusive : ∀ clcf, (∃ x, Held nested x ∧ x.inclusive = some clcf) ↔
    clcf ∈ locations ∧ clcf.exactMatch = false

theorem ordered_sort {locations : List LocConf} (h : NoDuplicates locations) :
    (queueSort cmpLocations (locations.map addLocation)).Pairwise Ordered := by
  have hclean : ∀ lq ∈ locations.map addLocation, Clean lq.name := by
    intro lq hlq
    obtain ⟨clcf, -, rfl⟩ := mem_map.mp hlq
    exact (plain_addLocation clcf).clean
  have hperm := queueSort_perm cmpLocations (locations.map addLocation)
  have hdup : (queueSort cmpLocations (locations.map addLocation)).Pairwise
      fun a b => ¬(a.name = b.name ∧ a.exact.isSome = b.exact.isSome) := by
    refine (hperm.pairwise_iff fun hab hba =>
      hab ⟨hba.1.symm, hba.2.symm⟩).mpr (pairwise_map.mpr (h.imp ?_))
    rintro a b hab ⟨hname, hexact⟩
    have hn : ∀ c : LocConf, (addLocation c).name = c.name ∧
      (addLocation c).exact.isSome = c.exactMatch := by
      intro c
      unfold addLocation
      by_cases hc : c.exactMatch <;> simp [hc]
    rw [(hn a).1, (hn b).1] at hname
    rw [(hn a).2, (hn b).2] at hexact
    exact hab ⟨hname, hexact⟩
  have hsingle : ∀ lq ∈ queueSort cmpLocations (locations.map addLocation),
      Clean lq.name ∧ (lq.exact = none ∨ lq.inclusive = none) := by
    intro lq hlq
    obtain ⟨clcf, -, rfl⟩ := mem_map.mp (hperm.mem_iff.mp hlq)
    refine ⟨(plain_addLocation clcf).clean, ?_⟩
    unfold addLocation
    split <;> simp
  refine ((sorted_locations hclean).and hdup).imp_of_mem ?_
  rintro a b ha hb ⟨hle, hne⟩
  obtain ⟨hca, hsa⟩ := hsingle a ha
  rcases (cmpLocations_le_iff hca (hsingle b hb).1).mp hle with hlt | ⟨hname, hex⟩
  · exact .inl hlt
  right
  refine ⟨hname, ?_⟩
  rcases hea : a.exact with _ | c <;> rcases heb : b.exact with _ | d
  · exact absurd ⟨hname, by rw [hea, heb]⟩ hne
  · simp [hea, heb] at hex
  · exact ⟨hsa.resolve_left (by simp [hea]), rfl⟩
  · exact absurd ⟨hname, by rw [hea, heb]; rfl⟩ hne

theorem addLocation_exact {c clcf : LocConf} :
    (addLocation c).exact = some clcf ↔ c = clcf ∧ c.exactMatch = true := by
  unfold addLocation
  by_cases h : c.exactMatch <;> simp [h]

theorem addLocation_inclusive {c clcf : LocConf} :
    (addLocation c).inclusive = some clcf ↔ c = clcf ∧ c.exactMatch = false := by
  unfold addLocation
  by_cases h : c.exactMatch <;> simp [h]

theorem held_field (field : LocationQueue → Option LocConf) (hf : ∀ x, field (alone x) = field x)
    {nested joined : List LocationQueue}
    (hheld : ∀ x, (∃ y, Held nested y ∧ alone y = x) ↔ x ∈ joined) {clcf : LocConf} :
    (∃ x, Held nested x ∧ field x = some clcf) ↔ ∃ x ∈ joined, field x = some clcf := by
  constructor
  · rintro ⟨x, hx, hc⟩
    exact ⟨alone x, (hheld _).mp ⟨x, hx, rfl⟩, by rw [hf, hc]⟩
  · rintro ⟨x, hx, hc⟩
    obtain ⟨y, hy, rfl⟩ := (hheld x).mpr hx
    exact ⟨y, hy, by rw [← hf, hc]⟩

theorem exists_built {locations : List LocConf} (h : NoDuplicates locations) :
    ∃ nested, initStaticLocationTrees locations = some (createLocationsTree nested 0) ∧
      Built locations nested := by
  have hperm := queueSort_perm cmpLocations (locations.map addLocation)
  have hplain : ∀ lq ∈ queueSort cmpLocations (locations.map addLocation), Plain lq := by
    intro lq hlq
    obtain ⟨clcf, -, rfl⟩ := mem_map.mp (hperm.mem_iff.mp hlq)
    exact plain_addLocation clcf
  obtain ⟨joined, hjoin, hsorted, hmem, hexact, hincl⟩ :=
    joinExactLocations_spec _ hplain (ordered_sort h)
  obtain ⟨hlevel, hheld⟩ := createLocationsList_nests (fun x hx => (hmem x hx).1) hsorted
  refine ⟨createLocationsList joined, by
    rw [initStaticLocationTrees, hjoin]; rfl, hlevel [] fun x _ => List.nil_prefix,
    fun clcf => ?_, fun clcf => ?_⟩
  · rw [held_field LocationQueue.exact (fun _ => rfl) hheld, hexact]
    simp only [hperm.mem_iff, mem_map, exists_exists_and_eq_and, addLocation_exact]
    exact ⟨fun ⟨c, hc, heq, h⟩ => heq ▸ ⟨hc, h⟩, fun ⟨hc, h⟩ => ⟨clcf, hc, rfl, h⟩⟩
  · rw [held_field LocationQueue.inclusive (fun _ => rfl) hheld, hincl]
    simp only [hperm.mem_iff, mem_map, exists_exists_and_eq_and, addLocation_inclusive]
    exact ⟨fun ⟨c, hc, heq, h⟩ => heq ▸ ⟨hc, h⟩, fun ⟨hc, h⟩ => ⟨clcf, hc, rfl, h⟩⟩

section built

variable {locations : List LocConf} {nested : List LocationQueue}

theorem Built.named (h : Built locations nested) {x : LocationQueue} (hx : Held nested x) :
    Named x :=
  (h.level.held_isPrefix hx).1

theorem Built.exists_of_held (h : Built locations nested) {x : LocationQueue} (hx : Held nested x) :
    ∃ clcf ∈ locations, clcf.name = x.name := by
  rcases (h.named hx).some with hne | hne
  · obtain ⟨clcf, hc⟩ := Option.ne_none_iff_exists'.mp hne
    exact ⟨clcf, ((h.exact clcf).mp ⟨x, hx, hc⟩).1, ((h.named hx).exact clcf hc).1⟩
  · obtain ⟨clcf, hc⟩ := Option.ne_none_iff_exists'.mp hne
    exact ⟨clcf, ((h.inclusive clcf).mp ⟨x, hx, hc⟩).1, ((h.named hx).inclusive clcf hc).1⟩

theorem Built.held_of_mem (h : Built locations nested) {clcf : LocConf} (hc : clcf ∈ locations) :
    ∃ x, Held nested x ∧ x.name = clcf.name ∧
      (clcf.exactMatch = true ∧ x.exact = some clcf ∨ clcf.exactMatch = false ∧
        x.inclusive = some clcf) := by
  rcases hex : clcf.exactMatch with _ | _
  · obtain ⟨x, hx, hxc⟩ := (h.inclusive clcf).mpr ⟨hc, hex⟩
    exact ⟨x, hx, ((h.named hx).inclusive clcf hxc).1.symm, .inr ⟨rfl, hxc⟩⟩
  · obtain ⟨x, hx, hxc⟩ := (h.exact clcf).mpr ⟨hc, hex⟩
    exact ⟨x, hx, ((h.named hx).exact clcf hxc).1.symm, .inl ⟨rfl, hxc⟩⟩

theorem Built.none_named (h : Built locations nested) {name : Bytes}
    (hno : ∀ y, Held nested y → y.name ≠ name) :
    ∀ x ∈ locations, x.name ≠ name := by
  intro x hx heq
  obtain ⟨y, hy, hname, -⟩ := h.held_of_mem hx
  exact hno y hy (hname.trans heq)

theorem Built.no_redirect (h : Built locations nested) {name : Bytes}
    (hno : ∀ y, Held nested y → y.name = name → redirects y = false) :
    ∀ x ∈ locations, x.name = name → x.autoRedirect = false := by
  intro x hx heq
  obtain ⟨y, hy, hname, hcase⟩ := h.held_of_mem hx
  have := hno y hy (hname.trans heq)
  unfold redirects at this
  rw [Bool.or_eq_false_iff] at this
  rcases hcase with ⟨-, hc⟩ | ⟨-, hc⟩
  · simpa [hc] using this.1
  · simpa [hc] using this.2

/-- The best match of the tree is that of the configuration. -/
theorem Built.bestMatch (h : Built locations nested) {uri : Bytes} {res : LocationMatch}
    (hbest : Best (Held nested) uri .declined res) : BestMatch locations uri res := by
  have hunique : ∀ x y, Held nested x → Held nested y → x.name = y.name → x = y :=
    fun x y hx hy => h.level.eq_of_held hx hy
  cases hbest with
  | exact hx hname hc =>
    have hmem := (h.exact _).mp ⟨_, hx, hc⟩
    exact .exact hmem.1 hmem.2 (((h.named hx).exact _ hc).1.trans hname)
  | @named x clcf hx hname hno hc =>
    refine .named (fun y hy hex heq => ?_) ((h.inclusive _).mp ⟨_, hx, hc⟩).1
      (((h.named hx).inclusive _ hc).1.trans hname)
    obtain ⟨z, hz, hzname, ⟨-, hzc⟩ | ⟨hf, -⟩⟩ := h.held_of_mem hy
    · rw [hunique x z hx hz (hname.trans (hzname.trans heq).symm), hzc] at hno
      exact absurd hno (Option.some_ne_none _)
    · rw [hex] at hf
      exact absurd hf.symm Bool.false_ne_true
  | @redirect x clcf hnone hx hname hauto hc =>
    have hred : ∃ c ∈ locations, c.name = slashed uri ∧ c.autoRedirect = true := by
      by_contra hno
      simp only [not_exists, not_and, Bool.not_eq_true] at hno
      unfold redirects at hauto
      rw [Bool.or_eq_true, Option.any_eq_true, Option.any_eq_true] at hauto
      rcases hauto with ⟨c, hxc, ha⟩ | ⟨c, hxc, ha⟩
      · rw [hno c ((h.exact c).mp ⟨x, hx, hxc⟩).1 (((h.named hx).exact c hxc).1.trans hname)] at ha
        exact absurd ha Bool.false_ne_true
      · rw [hno c ((h.inclusive c).mp ⟨x, hx, hxc⟩).1
          (((h.named hx).inclusive c hxc).1.trans hname)] at ha
        exact absurd ha Bool.false_ne_true
    obtain ⟨c, hcmem, hcname, hcauto⟩ := hred
    rcases hex : x.exact with _ | e
    · rw [hex, Option.none_or] at hc
      refine .redirect (h.none_named hnone) hcmem hcname hcauto ((h.inclusive _).mp ⟨x, hx, hc⟩).1
        (((h.named hx).inclusive _ hc).1.trans hname) (.inr fun y hy hye heq => ?_)
      obtain ⟨z, hz, hzname, ⟨-, hzc⟩ | ⟨hf, -⟩⟩ := h.held_of_mem hy
      · rw [hunique x z hx hz (hname.trans (hzname.trans heq).symm), hzc] at hex
        exact absurd hex (Option.some_ne_none _)
      · rw [hye] at hf
        exact absurd hf.symm Bool.false_ne_true
    · rw [hex, Option.some_or] at hc
      obtain rfl := Option.some.inj hc
      have hmem := (h.exact _).mp ⟨x, hx, hex⟩
      exact .redirect
        (h.none_named hnone) hcmem hcname hcauto hmem.1 (((h.named hx).exact _ hex).1.trans hname)
        (.inl hmem.2)
  | inclusive hnone hno hx hpre hc hmax =>
    have hmem := (h.inclusive _).mp ⟨_, hx, hc⟩
    have hname := ((h.named hx).inclusive _ hc).1
    refine .inclusive (h.none_named hnone)
      (h.no_redirect hno) hmem.1 hmem.2 (by rw [hname]; exact hpre) fun y hy hinc hp => ?_
    obtain ⟨z, hz, hzname, ⟨ht, -⟩ | ⟨-, hzc⟩⟩ := h.held_of_mem hy
    · rw [hinc] at ht
      exact absurd ht Bool.false_ne_true
    · rw [hname, ← hzname]
      exact hmax z hz (by rw [hzc]; exact Option.some_ne_none _) (by rw [hzname]; exact hp)
  | none hidle =>
    refine .declined (h.none_named fun y hy => (hidle y hy).named)
      (h.no_redirect fun y hy => (hidle y hy).redirect)
      fun x hx hinc hp => ?_
    obtain ⟨z, hz, hzname, ⟨ht, -⟩ | ⟨-, hzc⟩⟩ := h.held_of_mem hx
    · rw [hinc] at ht
      exact absurd ht Bool.false_ne_true
    · exact (hidle z hz).inclusive (by rw [hzc]; exact Option.some_ne_none _)
        (by rw [hzname]; exact hp)

theorem Built.not_bestMatch (h : Built locations nested) (hdup : NoDuplicates locations)
    {x : LocationQueue} {uri : Bytes}
    {res : LocationMatch} (hx : Held nested x) (hnear : Near uri x.name)
    (hwrong : Wrong x uri res) :
    ¬BestMatch locations uri res := by
  intro hbest
  rcases hwrong with @⟨clcf, hex, hname, hres⟩ | @⟨clcf, hne, hres, hpre⟩
  · obtain ⟨hmem, hexact⟩ := (h.exact clcf).mp ⟨x, hx, hex⟩
    have hcname : clcf.name = uri := ((h.named hx).exact clcf hex).1.trans hname.symm
    cases hbest with
    | exact hmem' hexact' hname' =>
      exact hres
        (congrArg _ (hdup.eq hmem' hmem (hname'.trans hcname.symm) (hexact'.trans hexact.symm)))
    | named hno _ _ => exact hno clcf hmem hexact hcname
    | redirect hno _ _ _ _ _ _ => exact hno clcf hmem hcname
    | inclusive hno _ _ _ _ _ => exact hno clcf hmem hcname
    | declined hno _ _ => exact hno clcf hmem hcname
  · -- a name as long as the URI, and another one
    have hfar : ¬x.name <+: uri := fun hp => hne (hp.eq_of_length hnear.length.symm).symm
    cases hbest with
    | exact _ _ hname =>
      obtain rfl := Option.some.inj hres
      exact hfar (hname ▸ hpre)
    | named _ _ hname =>
      obtain rfl := Option.some.inj hres
      exact hfar (hname ▸ hpre)
    | redirect _ _ _ _ _ hname _ =>
      obtain rfl := Option.some.inj hres
      rw [hname] at hpre
      rcases List.prefix_or_prefix_of_prefix hpre (prefix_slashed uri) with hp | hp
      · exact hfar hp
      · exact hne (hp.eq_of_length hnear.length)
    | inclusive _ _ _ _ hp _ =>
      obtain rfl := Option.some.inj hres
      exact hfar (hpre.trans hp)
    | declined _ _ _ => exact Option.some_ne_none clcf hres.symm

end built

/-! ## What is left of the names -/

variable {queue : List LocationQueue} {x : LocationQueue}

theorem Held.exists_at (h : Held queue x) (pre : Bytes) :
    ∃ p, At pre queue p x := by
  induction h generalizing pre with
  | here h => exact ⟨pre, .here h⟩
  | inside h _ ih =>
    obtain ⟨p, hp⟩ := ih _
    exact ⟨p, .inside h hp⟩

theorem At.isPrefix {pre p : Bytes} (h : At pre queue p x)
    (hlevel : Level pre queue) : pre <+: p := by
  induction h with
  | here h => exact prefix_refl _
  | inside h _ ih =>
    obtain ⟨-, hp, -, -, hin⟩ := hlevel.of_mem h
    exact hp.trans (ih hin)

theorem At.outer {pre p : Bytes} (h : At pre queue p x)
    (hlevel : Level pre queue) :
    p = pre ∨ ∃ y, Held queue y ∧ y.inclusive ≠ none ∧ y.name = p ∧ p <+: x.name ∧ p ≠ x.name := by
  induction h with
  | here h => exact .inl rfl
  | @inside pre p queue lq x h hx ih =>
    right
    have hin := (hlevel.of_mem h).2.2.2.2
    rcases ih hin with rfl | ⟨y, hy, hrest⟩
    · obtain ⟨hp, hne⟩ := hlevel.held_longer h hx.held
      refine ⟨lq, .here h, fun hi => ?_, rfl, hp, hne⟩
      have hheld := hx.held
      rw [(hlevel.of_mem h).2.2.1 hi] at hheld
      exact not_held_nil x hheld
    · exact ⟨y, .inside h hy, hrest⟩

theorem At.longest {pre p : Bytes} {y : LocationQueue} (h : At pre queue p x)
    (hlevel : Level pre queue) (hy : Held queue y) (hi : y.inclusive ≠ none)
    (hp : y.name <+: x.name)
    (hne : y.name ≠ x.name) : y.name.length ≤ p.length := by
  induction h with
  | @here pre queue x hx =>
    obtain ⟨q, hq, rfl | ⟨hiq, hyq⟩⟩ := hlevel.of_held hy
    · exact absurd (congrArg LocationQueue.name (hlevel.eq_of_isPrefix hq hx hi hp)) hne
    · obtain ⟨hqy, hqne⟩ := hlevel.held_longer hq hyq
      obtain rfl := hlevel.eq_of_isPrefix hq hx hiq (hqy.trans hp)
      exact absurd (hqy.eq_of_length_le hp.length_le) hqne
  | @inside pre p queue lq x hlq hx ih =>
    have hin := (hlevel.of_mem hlq).2.2.2.2
    obtain ⟨hlx, -⟩ := hlevel.held_longer hlq hx.held
    have hil : lq.inclusive ≠ none := by
      intro hil
      have hheld := hx.held
      rw [(hlevel.of_mem hlq).2.2.1 hil] at hheld
      exact not_held_nil x hheld
    obtain ⟨q, hq, hyq⟩ := hlevel.of_held hy
    have hqx : q.name <+: x.name ∧ q.inclusive ≠ none := by
      rcases hyq with rfl | ⟨hiq, hyq⟩
      · exact ⟨hp, hi⟩
      · exact ⟨(hlevel.held_longer hq hyq).1.trans hp, hiq⟩
    have hsame : lq = q := by
      rcases List.prefix_or_prefix_of_prefix hlx hqx.1 with hp | hp
      · exact hlevel.eq_of_isPrefix hlq hq hil hp
      · exact (hlevel.eq_of_isPrefix hq hlq hqx.2 hp).symm
    subst hsame
    rcases hyq with rfl | ⟨-, hyq⟩
    · exact (hx.isPrefix hin).length_le
    · exact ih hin hyq hp hne

theorem Built.short_iff {locations : List LocConf} {nested : List LocationQueue}
    (h : Built locations nested) :
    Short [] nested ↔ Fits locations := by
  constructor
  · intro hshort clcf hc
    obtain ⟨x, hx, hname, -⟩ := h.held_of_mem hc
    obtain ⟨p, hat⟩ := hx.exists_at []
    have hlen := hshort p x hat
    rw [← hname]
    rcases hat.outer h.level with rfl | ⟨y, hy, hi, rfl, hp, hne⟩
    · exact .inl (by simpa using hlen)
    · obtain ⟨c, hyc⟩ := Option.ne_none_iff_exists'.mp hi
      obtain ⟨hcmem, hcincl⟩ := (h.inclusive c).mp ⟨y, hy, hyc⟩
      have hcname := ((h.named hy).inclusive c hyc).1
      exact .inr ⟨c, hcmem, hcincl, by rw [hcname]; exact hp, by
        rw [hcname]; exact hne, by rw [hcname]; exact hlen⟩
  · intro hfits p x hat
    obtain ⟨clcf, hc, hname⟩ := h.exists_of_held hat.held
    rcases hfits clcf hc with hlen | ⟨c, hcmem, hcincl, hp, hne, hlen⟩
    · rw [← hname]
      omega
    obtain ⟨y, hy, hyname, ⟨ht, -⟩ | ⟨-, hyc⟩⟩ := h.held_of_mem hcmem
    · rw [hcincl] at ht
      exact absurd ht Bool.false_ne_true
    rw [hname, ← hyname] at hp hne
    have := hat.longest h.level hy (by rw [hyc]; exact Option.some_ne_none _) hp hne
    rw [← hname]
    rw [← hyname] at hlen
    omega

/-- The tree gives each URI its location exactly when what is left of each name fits into a byte. -/
theorem findStaticLocation_iff {locations : List LocConf} (h : NoDuplicates locations) :
    ∃ tree, initStaticLocationTrees locations = some tree ∧
      ((∀ uri : Bytes, BestMatch locations uri (findStaticLocation tree uri .declined)) ↔
        Fits locations) := by
  obtain ⟨nested, htree, hbuilt⟩ := exists_built h
  refine ⟨_, htree, ?_⟩
  rw [← hbuilt.short_iff]
  constructor
  · intro hall
    by_contra hlong
    obtain ⟨x, uri, hx, -, hnear, hwrong⟩ := find_wrong nested 0 rfl hbuilt.level hlong
    exact hbuilt.not_bestMatch h hx hnear (hwrong .declined nofun) (hall uri)
  · intro hshort uri
    exact hbuilt.bestMatch (find_best nested 0 rfl hbuilt.level hshort List.nil_prefix .declined)

/-- `location = /` and `location /images/`, with a redirect to it. -/
def images : List LocConf :=
  [⟨ascii "/", true, false, rfl, nofun⟩, ⟨ascii "/images/", false, true, rfl, fun _ => rfl⟩]

theorem findStaticLocation_images :
    NoDuplicates images ∧ Fits images ∧
      ∃ tree, initStaticLocationTrees images = some tree ∧
        (∀ uri : Bytes, BestMatch images uri (findStaticLocation tree uri .declined)) := by
  have hdup : NoDuplicates images := by
    unfold NoDuplicates images
    simp
  have hfits : Fits images := fun x hx => by
    rcases mem_cons.mp hx with rfl | hx
    · exact .inl (by decide)
    · obtain rfl := mem_singleton.mp hx
      exact .inl (by decide)
  obtain ⟨tree, htree, hiff⟩ := findStaticLocation_iff hdup
  exact ⟨hdup, hfits, tree, htree, hiff.mpr hfits⟩

/-- `location = ` with a name of 256 bytes. -/
def longLocation :
    LocConf := ⟨List.replicate 256 (chr 'a'), true, false, by rw [all_replicate]; rfl, nofun⟩

/-- The length of the name is kept as 0, and the URI of this name is declined. -/
theorem findStaticLocation_long :
    ¬∃ tree, initStaticLocationTrees [longLocation] = some tree ∧
      ∀ uri : Bytes, BestMatch [longLocation] uri (findStaticLocation tree uri .declined) := by
  rintro ⟨tree, htree, hall⟩
  have hqueue : joinExactLocations (queueSort cmpLocations ([longLocation].map addLocation)) =
    some [addLocation longLocation] := by
    rw [show queueSort cmpLocations ([longLocation].map addLocation) =
      [addLocation longLocation] from rfl, joinExactLocations]
  have hmid : [addLocation longLocation][[addLocation longLocation].length / 2]? =
    some (addLocation longLocation) := rfl
  rw [initStaticLocationTrees, hqueue, Option.map_some, createLocationsList,
    createLocationsTree_some hmid] at htree
  obtain rfl := Option.some.inj htree
  have hlen : longLocation.name.length = 256 := length_replicate
  have hname : (addLocation longLocation).name.length = 256 := hlen
  have hfind := hall longLocation.name
  have hcmp (name : Bytes) : filenameCmp 0 longLocation.name name = 0 := rfl
  rw [findStaticLocation_node, hname, Nat.sub_zero, Nat.mod_self,
    if_neg (c := longLocation.name.length ≤ 0) (by omega),
    hcmp, if_neg (by omega), if_neg (by omega), if_pos (by omega)] at hfind
  rw [show (addLocation longLocation).inclusive = none from rfl, Option.elim_none,
    createLocationsTree_none (by rfl), findStaticLocation] at hfind
  cases hfind with
  | declined hno _ _ => exact hno longLocation (mem_singleton.mpr rfl) rfl

end Nginx.Http.Location
