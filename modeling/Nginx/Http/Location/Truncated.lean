/-
  Http/Location/Truncated.lean --- a name of which too much is left for the byte of the length
  sends the search of some URI to the wrong place.

  A URI that differs from the name in its last byte only goes the way of the name through
  the nodes in front of it.
-/
import Nginx.Http.Location.Find

set_option autoImplicit false

namespace Nginx.Http.Location

open List Foundation

theorem filenameCmp_congr {n : Nat} {u v : Bytes} (h : u.take n = v.take n) (name : Bytes) :
    filenameCmp n u name = filenameCmp n v name := by
  induction n generalizing u v name with
  | zero => rfl
  | succ n ih =>
    have hhead : u.headD 0 = v.headD 0 := by
      cases u <;> cases v <;> simp_all
    have htail : u.tail.take n = v.tail.take n := by
      cases u <;> cases v <;> simp_all
    unfold filenameCmp
    rw [hhead, ih htail]

theorem filenameCmp_self {n : Nat} {name : Bytes} (hclean : Clean name) (hn : n ≤ name.length) :
    filenameCmp n name name = 0 := by
  rcases filenameCmp_spec (n := n) name hclean (.inl hn) with ⟨hrc, -⟩ | ⟨-, hne, -⟩ | ⟨-, hne, -⟩
  · exact hrc
  · exact absurd rfl hne
  · exact absurd rfl hne

/-- The location that is set. -/
def LocationMatch.location : LocationMatch → Option LocConf
  | .declined => none
  | .ok clcf => some clcf
  | .again clcf => some clcf
  | .done clcf => some clcf

/-- The match is one of an element of the queue. -/
def Found (queue : List LocationQueue) (res : LocationMatch) : Prop :=
  ∃ y clcf, Held queue y ∧ res.location = some clcf ∧
    (y.exact = some clcf ∨ y.inclusive = some clcf)

theorem Found.mono {queue queue' : List LocationQueue} {res : LocationMatch} (h : Found queue res)
    (hsub : ∀ x, Held queue x → Held queue' x) : Found queue' res := by
  obtain ⟨y, clcf, hy, hrest⟩ := h
  exact ⟨y, clcf, hsub y hy, hrest⟩

/-- What a search finds is what it began with, or a location of some element of its tree. -/
theorem find_found (queue : List LocationQueue) (k : Nat) (u : Bytes) (rv : LocationMatch) :
    findStaticLocation (createLocationsTree queue k) u rv = rv ∨
      Found queue (findStaticLocation (createLocationsTree queue k) u rv) := by
  induction queue, k using createLocationsTree.induct generalizing u rv with
  | case1 queue k hnone =>
    rw [createLocationsTree_none hnone]
    exact .inl rfl
  | case2 queue k m hmid len ihl ihr =>
    rename_i ihm
    have hsplit := middle_split hmid
    rw [createLocationsTree_some hmid, findStaticLocation_node]
    generalize queue.take (queue.length / 2) = l at *
    generalize queue.drop (queue.length / 2 + 1) = r at *
    have hl : ∀ x, Held l x → Held queue x := fun x hx => by
      rw [hsplit]
      exact held_around.mpr (.inl hx)
    have hr : ∀ x, Held r x → Held queue x := fun x hx => by
      rw [hsplit]
      exact held_around.mpr (.inr (.inr (.inr hx)))
    have hm : Held queue m := by rw [hsplit]; exact held_around.mpr (.inr (.inl rfl))
    have hi : ∀ x, Held m.list x → Held queue x := fun x hx => by
      rw [hsplit]
      exact held_around.mpr (.inr (.inr (.inl hx)))
    generalize
      (if u.length ≤ (m.name.length - k) % 256 then u.length else (m.name.length - k) % 256) = n
    split
    · exact (ihl u rv).imp_right fun h => h.mono hl
    split
    · exact (ihr u rv).imp_right fun h => h.mono hr
    split
    · rcases hinc : m.inclusive with _ | clcf
      · exact (ihr u rv).imp_right fun h => h.mono hr
      right
      rw [Option.elim_some]
      rcases ihm (u.drop _) (.again clcf) with h | h
      · exact ⟨m, clcf, hm, by rw [h]; rfl, .inr hinc⟩
      · exact h.mono hi
    split
    · rcases hex : m.exact with _ | clcf
      · rcases hinc : m.inclusive with _ | clcf
        · exact .inl rfl
        · exact .inr ⟨m, clcf, hm, rfl, .inr hinc⟩
      · exact .inr ⟨m, clcf, hm, rfl, .inl hex⟩
    split
    · rcases hor : m.exact.or m.inclusive with _ | clcf
      · exact (ihl u rv).imp_right fun h => h.mono hl
      right
      rw [Option.elim_some]
      rcases ihl u (.done clcf) with h | h
      · rw [h]
        refine ⟨m, clcf, hm, rfl, ?_⟩
        rcases hex : m.exact with _ | c
        · rw [hex, Option.none_or] at hor
          exact .inr hor
        · rw [hex, Option.some_or] at hor
          exact .inl hor
      · exact h.mono hl
    · exact (ihl u rv).imp_right fun h => h.mono hl

/-! ## The wrong place -/

/-- What is found for the URI is not what it should be: it misses the exact location of this
name, or it is a location that goes on behind another name of the same length. -/
inductive Wrong (x : LocationQueue) (uri : Bytes) (res : LocationMatch) : Prop where
  | missed {clcf : LocConf} (h : x.exact = some clcf) (hname : uri = x.name) (hres : res ≠ .ok clcf)
  | other {clcf : LocConf} (hne : uri ≠ x.name) (hres : res.location = some clcf)
    (hpre : x.name <+: clcf.name)

/-- The URI is as long as the name, and differs from it in the last byte at most. -/
structure Near (uri name : Bytes) : Prop where
  length : uri.length = name.length
  init : uri.dropLast = name.dropLast

theorem Near.take {uri name : Bytes} (h : Near uri name) {n : Nat} (hn : n < name.length) :
    uri.take n = name.take n := by
  have := congrArg (List.take n) h.init
  rw [dropLast_eq_take, dropLast_eq_take, take_take, take_take, h.length] at this
  rwa [min_eq_left (by omega)] at this

theorem exists_near {name : Bytes} (hne : name ≠ []) : ∃ uri, Near uri name ∧ uri ≠ name := by
  obtain ⟨init, c, rfl⟩ : ∃ init c, name = init ++ [c] := ⟨_, _, (dropLast_append_getLast hne).symm⟩
  have hother : ∃ d : Byte, d ≠ c := by
    by_cases hc : c = chr 'a'
    · exact ⟨chr 'b', by rw [hc]; decide⟩
    · exact ⟨chr 'a', fun h => hc h.symm⟩
  obtain ⟨d, hd⟩ := hother
  refine ⟨init ++ [d], ⟨by simp, by simp⟩, fun heq => hd ?_⟩
  simpa using heq

section node

variable {pre uri : Bytes} {l r : List LocationQueue} {m x : LocationQueue}

theorem placed_near (hpm : pre <+: m.name) (hclean : Clean m.name)
    (hlen : m.name.length ≤ pre.length + 255) (hpx : pre <+: x.name)
    (hlong : m.name.length < x.name.length) (hnear : Near uri x.name) :
    Placed x.name m.name (filenameCmp (m.name.length - pre.length) (uri.drop pre.length)
      (m.name.drop pre.length)) := by
  obtain ⟨rem, hrem⟩ := hpm
  obtain ⟨v, hv⟩ := hpx
  have hmr : m.name.drop pre.length = rem := by rw [← hrem, drop_left]
  have hxv : x.name.drop pre.length = v := by rw [← hv, drop_left]
  have hlm : m.name.length = pre.length + rem.length := by rw [← hrem, length_append]
  have hlx : x.name.length = pre.length + v.length := by rw [← hv, length_append]
  have htake : (uri.drop pre.length).take rem.length = v.take rem.length := by
    rw [← hxv, take_drop, take_drop, hnear.take (by omega)]
  have hc : Clean rem := by
    rw [← hmr]
    exact hclean.drop _
  have hp := placed pre v hc
  rw [hv, hrem, if_neg (by omega)] at hp
  rw [hmr, show m.name.length - pre.length = rem.length by omega, filenameCmp_congr htake]
  exact hp

/-- The way of a name that is too long, and of a URI near it, at a node whose name is not. -/
theorem way_near (hpm : pre <+: m.name) (hclean : Clean m.name)
    (hlen : m.name.length ≤ pre.length + 255) (hpx : pre <+: x.name)
    (hlong : pre.length + 255 < x.name.length) (hnear : Near uri x.name) {len k : Nat}
    (hk : pre.length = k) (hlen' : m.name.length - k = len) :
    len < (uri.drop k).length ∧ Placed x.name m.name (filenameCmp
      (if (uri.drop k).length ≤ len then (uri.drop k).length else len) (uri.drop k)
      (m.name.drop k)) := by
  subst hk hlen'
  have hul : (uri.drop pre.length).length = x.name.length - pre.length := by
    rw [length_drop, hnear.length]
  refine ⟨by omega, ?_⟩
  rw [if_neg (by omega)]
  exact placed_near hpm hclean hlen hpx (by omega) hnear

/-- A node whose name is too long compares equal with a URI near it, which then seems longer. -/
theorem cut_near {k : Nat} (hclean : Clean m.name) (hlong : k + 255 < m.name.length)
    (hnear : Near uri m.name) {len : Nat} (hlen : m.name.length - k = len) :
    filenameCmp (if (uri.drop k).length ≤ len % 256 then (uri.drop k).length else len % 256)
        (uri.drop k) (m.name.drop k) = 0 ∧ len % 256 < (uri.drop k).length := by
  have hul : (uri.drop k).length = len := by
    rw [length_drop, hnear.length, hlen]
  have hlt : len % 256 < len := by omega
  rw [if_neg (by omega)]
  refine ⟨?_, by omega⟩
  have htake : (uri.drop k).take (len % 256) = (m.name.drop k).take (len % 256) := by
    rw [take_drop, take_drop, hnear.take (by omega)]
  rw [filenameCmp_congr htake]
  exact filenameCmp_self (hclean.drop k) (by rw [length_drop]; omega)

theorem not_short_around (hlen : m.name.length ≤ pre.length + 255)
    (hlong : ¬Short pre (l ++ m :: r)) : ¬Short pre l ∨ ¬Short m.name m.list ∨ ¬Short pre r := by
  by_contra hall
  simp only [not_or, not_not] at hall
  refine hlong fun p x hx => ?_
  cases hx with
  | here hx =>
    rcases mem_append.mp hx with hx | hx
    · exact hall.1 _ x (.here hx)
    · rcases mem_cons.mp hx with rfl | hx
      · exact hlen
      · exact hall.2.2 _ x (.here hx)
  | inside hq hx =>
    rcases mem_append.mp hq with hq | hq
    · exact hall.1 _ x (.inside hq hx)
    · rcases mem_cons.mp hq with rfl | hq
      · exact hall.2.1 _ x hx
      · exact hall.2.2 _ x (.inside hq hx)

end node

theorem Found.not_ok {queue : List LocationQueue} {res : LocationMatch} (h : Found queue res)
    (hnamed : ∀ y, Held queue y → Named y) {clcf : LocConf}
    (hne : ∀ y, Held queue y → y.name ≠ clcf.name) : res ≠ .ok clcf := by
  rintro rfl
  obtain ⟨y, c, hy, hc, hyc⟩ := h
  obtain rfl : clcf = c := Option.some.inj hc
  rcases hyc with hyc | hyc
  · exact hne y hy ((hnamed y hy).exact _ hyc).1.symm
  · exact hne y hy ((hnamed y hy).inclusive _ hyc).1.symm

/-- The search behind an exact location whose name is too long, for its own name. -/
theorem Level.wrong_exact {pre : Bytes} {l r : List LocationQueue} {m : LocationQueue}
    (h : Level pre (l ++ m :: r)) (hr : Level pre r) (hm : Named m) (hi : m.inclusive = none)
    {k : Nat} {u : Bytes} {rv : LocationMatch} (hrv : ∀ clcf, rv ≠ .ok clcf) :
    Wrong m m.name (findStaticLocation (createLocationsTree r k) u rv) := by
  obtain ⟨clcf, hex⟩ := Option.ne_none_iff_exists'.mp (hm.some.resolve_right fun hne => hne hi)
  refine .missed hex rfl ?_
  rcases find_found r k u rv with hres | hres
  · rw [hres]
    exact hrv clcf
  · refine hres.not_ok (fun y hy => (hr.held_isPrefix hy).1) fun y hy => ?_
    rw [(hm.exact clcf hex).1]
    exact (h.held_right hy).1.ne.symm

/-- The search inside a prefix location whose name is too long, for another URI near it. -/
theorem Level.wrong_inside {m : LocationQueue} (hinner : Level m.name m.list) (hm : Named m)
    {clcf : LocConf} (hi : m.inclusive = some clcf) {uri u : Bytes} (hne : uri ≠ m.name) (k : Nat) :
    Wrong m uri (findStaticLocation (createLocationsTree m.list k) u (.again clcf)) := by
  rcases find_found m.list k u (.again clcf) with hres | ⟨y, c, hy, hres, hc⟩
  · refine .other hne (by rw [hres]; rfl) ?_
    rw [(hm.inclusive clcf hi).1]
  obtain ⟨hny, hpy⟩ := hinner.held_isPrefix hy
  refine .other hne hres ?_
  rcases hc with hc | hc
  · rwa [(hny.exact c hc).1]
  · rwa [(hny.inclusive c hc).1]

/-- Where too much is left of some name, the search goes wrong for a URI near one such name. -/
theorem find_wrong (queue : List LocationQueue) (k : Nat) {pre : Bytes} (hk : pre.length = k)
    (h : Level pre queue) (hlong : ¬Short pre queue) :
    ∃ x uri, Held queue x ∧ pre.length + 255 < x.name.length ∧ Near uri x.name ∧
      ∀ rv, (∀ clcf, rv ≠ .ok clcf) →
        Wrong x uri (findStaticLocation (createLocationsTree queue k) (uri.drop k) rv) := by
  induction queue, k using createLocationsTree.induct generalizing pre with
  | case1 queue k hnone =>
    refine absurd (fun p x hx => ?_) hlong
    rw [empty_of_middle hnone] at hx
    exact absurd hx.held (not_held_nil x)
  | case2 queue k m hmid len ihl ihr =>
    rename_i ihm
    have hsplit := middle_split hmid
    rw [createLocationsTree_some hmid]
    have hll := h.take (queue.length / 2)
    have hlr := h.drop (queue.length / 2 + 1)
    generalize queue.take (queue.length / 2) = l at *
    generalize queue.drop (queue.length / 2 + 1) = r at *
    have hmem : m ∈ queue := by rw [hsplit]; exact mem_append_right _ mem_cons_self
    obtain ⟨hnamed, hpm, -, -, hinner⟩ := h.of_mem hmem
    have hpmlen := hpm.length_le
    have hlen : k + len = m.name.length := by
      have : len = m.name.length - k := rfl
      omega
    have hlen' : m.name.length - k = len := rfl
    have ihm := ihm hlen.symm hinner
    rw [hlen, ← hlen] at ihm
    clear hmid
    subst hsplit
    simp only [findStaticLocation_node, hlen']
    by_cases hmlong : pre.length + 255 < m.name.length
    · -- the length of this node is wrong
      rcases hi : m.inclusive with _ | clcf
      · have hnear : Near m.name m.name := ⟨rfl, rfl⟩
        obtain ⟨hrc, hlt⟩ := cut_near hnamed.clean (by omega) hnear hlen'
        refine ⟨m, m.name, held_around.mpr (.inr (.inl rfl)), hmlong, hnear, fun rv hrv => ?_⟩
        rw [if_neg (by omega), if_neg (by omega), if_pos hlt, Option.elim_none]
        exact h.wrong_exact hlr hnamed hi hrv
      have hne : m.name ≠ [] := by
        intro hnil
        rw [hnil] at hmlong
        exact absurd hmlong (Nat.not_lt_zero _)
      obtain ⟨uri, hnear, hneq⟩ := exists_near hne
      obtain ⟨hrc, hlt⟩ := cut_near hnamed.clean (by omega) hnear hlen'
      refine ⟨m, uri, held_around.mpr (.inr (.inl rfl)), hmlong, hnear, fun rv _ => ?_⟩
      rw [if_neg (by omega), if_neg (by omega), if_pos hlt, Option.elim_some]
      exact hinner.wrong_inside hnamed hi hneq _
    have hmlen : m.name.length ≤ pre.length + 255 := by omega
    have hmod : len % 256 = len := Nat.mod_eq_of_lt (by omega)
    rw [hmod]
    rcases not_short_around hmlen hlong with hcase | hcase | hcase
    · obtain ⟨x, uri, hx, hxlong, hnear, hwrong⟩ := ihl hk hll hcase
      have hpx := (hll.held_isPrefix hx).2
      refine ⟨x, uri, held_around.mpr (.inl hx), hxlong, hnear, fun rv hrv => ?_⟩
      have hxm := (h.held_left hx).1
      have hplaced := (way_near hpm hnamed.clean hmlen hpx hxlong hnear hk hlen').2
      rcases hplaced with ⟨-, hrel⟩ | ⟨hrc, -, -, -⟩ | ⟨-, hlt, -, -⟩
      · rcases hrel with hrel | hrel
        · have := hrel.length_le
          omega
        · exact absurd hxm (Before.not_of_isPrefix hrel)
      · rw [if_pos hrc]
        exact hwrong rv hrv
      · exact absurd hlt hxm.asymm
    · obtain ⟨x, uri, hx, hxlong, hnear, hwrong⟩ := ihm hcase
      have hmx := (hinner.held_isPrefix hx).2
      have hx' : Held (l ++ m :: r) x := held_around.mpr (.inr (.inr (.inl hx)))
      refine ⟨x, uri, hx', by omega, hnear, fun rv hrv => ?_⟩
      obtain ⟨hlt, hplaced⟩ :=
        way_near hpm hnamed.clean hmlen (hpm.trans hmx) (by omega) hnear hk hlen'
      have hrc : filenameCmp (if (uri.drop k).length ≤ len then (uri.drop k).length else len)
          (uri.drop k) (m.name.drop k) = 0 := by
        rcases hplaced with ⟨hrc, -⟩ | ⟨-, -, -, hn⟩ | ⟨-, -, -, hn⟩
        · exact hrc
        · exact absurd hmx hn
        · exact absurd hmx hn
      obtain ⟨clcf, hi⟩ := Option.ne_none_iff_exists'.mp (h.held_inner hx).2.2
      rw [if_neg (by omega), if_neg (by omega), if_pos hlt, hi, Option.elim_some,
        if_neg (by omega), drop_drop]
      exact hwrong (.again clcf) fun _ heq => LocationMatch.noConfusion heq
    · obtain ⟨x, uri, hx, hxlong, hnear, hwrong⟩ := ihr hk hlr hcase
      have hpx := (hlr.held_isPrefix hx).2
      have hx' : Held (l ++ m :: r) x := held_around.mpr (.inr (.inr (.inr hx)))
      refine ⟨x, uri, hx', hxlong, hnear, fun rv hrv => ?_⟩
      obtain ⟨hmx, hout⟩ := h.held_right hx
      obtain ⟨hlt, hplaced⟩ := way_near hpm hnamed.clean hmlen hpx hxlong hnear hk hlen'
      rcases hplaced with ⟨hrc, hrel⟩ | ⟨-, hlt', -, -⟩ | ⟨hrc, -, -, -⟩
      · have hi : m.inclusive = none := by
          by_contra hne
          rcases hrel with hrel | hrel
          · exact absurd hmx (Before.not_of_isPrefix hrel)
          · exact hout hne hrel
        rw [if_neg (by omega), if_neg (by omega), if_pos hlt, hi, Option.elim_none]
        exact hwrong rv hrv
      · exact absurd hlt' hmx.asymm
      · rw [if_neg (by omega), if_pos hrc]
        exact hwrong rv hrv

end Nginx.Http.Location
