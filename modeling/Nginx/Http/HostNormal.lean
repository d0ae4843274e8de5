/-
  Http/HostNormal.lean --- when `ngx_http_validate_host` normalises a host.
-/
import Nginx.Foundation.Segments
import Nginx.Http.ValidateHost

set_option autoImplicit false

namespace Nginx.Http

open List Foundation
open Foundation.Segments (takeWhile_ne_self not_mem_takeWhile_ne)
open Nginx.Core (strlow tolower mem_strlow tolower_eq_iff)

/-! ## Clean hosts -/

section Clean

variable {host h : Bytes} {dot : Bool}

theorem hostClean_append {rest : Bytes} (hclean : hostClean dot (host ++ rest) = true) :
    hostClean dot host = true := by
  induction host generalizing dot with
  | nil => rfl
  | cons ch host ih =>
    rw [cons_append, hostClean] at hclean
    rw [hostClean]
    split at hclean
    · next hch =>
      rw [Bool.and_eq_true] at hclean
      rw [if_pos hch, hclean.1, ih hclean.2]
      rfl
    · next hch =>
      rw [Bool.and_eq_true] at hclean
      rw [if_neg hch, hclean.1, ih hclean.2]
      rfl

theorem hostClean_strlow (host : Bytes) (dot : Bool) :
    hostClean dot (strlow host) = hostClean dot host := by
  induction host generalizing dot with
  | nil => rfl
  | cons ch host ih =>
    have hzero : (tolower ch != 0) = (ch != 0) := by
      rw [Bool.eq_iff_iff, bne_iff_ne, bne_iff_ne, ne_eq, ne_eq, tolower_eq_iff (by decide)]
    have hslash : (tolower ch != chr '/') = (ch != chr '/') := by
      rw [Bool.eq_iff_iff, bne_iff_ne, bne_iff_ne, ne_eq, ne_eq, tolower_eq_iff (by decide)]
    rw [strlow, map_cons, ← strlow, hostClean, hostClean, ih, ih, hzero, hslash]
    exact if_congr (tolower_eq_iff (by decide)) rfl rfl

theorem not_mem_of_hostClean (hclean : hostClean dot host = true) : 0 ∉ host ∧ chr '/' ∉ host := by
  induction host generalizing dot with
  | nil => exact ⟨not_mem_nil, not_mem_nil⟩
  | cons ch host ih =>
    rw [hostClean] at hclean
    rw [mem_cons, mem_cons, not_or, not_or]
    split at hclean
    · next hch =>
      rw [Bool.and_eq_true] at hclean
      obtain ⟨hzero, hslash⟩ := ih hclean.2
      exact ⟨⟨by rw [hch]; decide, hzero⟩, ⟨by rw [hch]; decide, hslash⟩⟩
    · rw [Bool.and_eq_true, Bool.and_eq_true, bne_iff_ne, bne_iff_ne] at hclean
      obtain ⟨hzero, hslash⟩ := ih hclean.2
      exact ⟨⟨hclean.1.1.symm, hzero⟩, ⟨hclean.1.2.symm, hslash⟩⟩

theorem not_infix_of_hostClean (hclean : hostClean dot host = true) :
    ¬ [chr '.', chr '.'] <:+: host := by
  induction host generalizing dot with
  | nil => exact fun h => absurd (infix_nil.mp h) (cons_ne_nil _ _)
  | cons ch host ih =>
    rw [hostClean] at hclean
    rw [infix_cons_iff, not_or]
    split at hclean
    · next hch =>
      rw [Bool.and_eq_true] at hclean
      refine ⟨fun hinitial => ?_, ih hclean.2⟩
      obtain ⟨rest, hrest⟩ := (cons_prefix_cons.mp hinitial).2
      have hhost := hclean.2
      rw [← hrest] at hhost
      cases hhost
    · next hch =>
      rw [Bool.and_eq_true] at hclean
      exact ⟨fun hinitial => hch (cons_prefix_cons.mp hinitial).1.symm, ih hclean.2⟩

theorem getLast?_dropLast (hclean : hostClean dot host = true)
    (hlast : host.getLast? = some (chr '.')) :
    host.dropLast.getLast? ≠ some (chr '.') := by
  intro hagain
  obtain ⟨before, rfl⟩ := getLast?_eq_some_iff.mp hlast
  rw [dropLast_concat] at hagain
  obtain ⟨before, rfl⟩ := getLast?_eq_some_iff.mp hagain
  refine not_infix_of_hostClean hclean ⟨before, [], ?_⟩
  simp

end Clean

/-! ## What is returned -/

/-- The name without its last dot, which is left where there is another one behind the name. -/
def keptName (host : Bytes) : Bytes :=
  if (hostName host).getLast? = some (chr '.') ∧
    chr '.' ∉ host.drop (hostName host).length then (hostName host).dropLast
  else hostName host

section Kept

variable {host h : Bytes}

theorem hostName_initial (host : Bytes) : hostName host <+: host := by
  rw [hostName]
  split
  · split
    · next hclose =>
      have hrest : host.dropWhile (· != chr ']') ≠ [] := fun hnil => by
        have hall := dropWhile_eq_nil_iff.mp hnil _ hclose
        exact absurd hall (by decide)
      obtain ⟨ch, rest, hsplit⟩ := exists_cons_of_ne_nil hrest
      have hch : ch = chr ']' := by
        have hhead := head?_dropWhile_not (· != chr ']') host
        rw [hsplit, head?_cons] at hhead
        simpa using hhead
      rw [hch] at hsplit
      refine ⟨rest, ?_⟩
      rw [append_assoc, singleton_append, ← hsplit, takeWhile_append_dropWhile]
    · exact prefix_rfl
  · exact takeWhile_prefix _

theorem lastDot_spec (host : Bytes) (i d : Nat) :
    (chr '.' ∉ host ∧ lastDot i host d = d) ∨
      ∃ before after, host = before ++ chr '.' :: after ∧ chr '.' ∉ after ∧
        lastDot i host d = i + before.length := by
  induction host generalizing i d with
  | nil => exact .inl ⟨not_mem_nil, rfl⟩
  | cons ch host ih =>
    rw [lastDot]
    rcases ih (i + 1) (if ch = chr '.' then i else d)
      with ⟨hnot, hlast⟩ | ⟨before, after, rfl, hnot, hlast⟩
    · rw [hlast]
      by_cases hch : ch = chr '.'
      · exact .inr ⟨[], host, by rw [hch]; rfl, hnot, by rw [if_pos hch]; rfl⟩
      · refine .inl ⟨?_, if_neg hch⟩
        rw [mem_cons, not_or]
        exact ⟨Ne.symm hch, hnot⟩
    · refine .inr ⟨ch :: before, after, rfl, hnot, ?_⟩
      rw [hlast, length_cons]
      omega

theorem lastDot_eq_iff (host : Bytes) : lastDot 0 host host.length + 1 = (hostName host).length ↔
    (hostName host).getLast? = some (chr '.') ∧ chr '.' ∉ host.drop (hostName host).length := by
  obtain ⟨rest, hrest⟩ := hostName_initial host
  generalize hostName host = name at hrest
  subst hrest
  rw [drop_left]
  rcases lastDot_spec (name ++ rest) 0 (name ++ rest).length
    with ⟨hnot, hlast⟩ | ⟨before, after, hsplit, hnot, hlast⟩
  · rw [hlast, length_append]
    refine iff_of_false (by omega) fun hboth => hnot ?_
    exact mem_append_left _ (mem_of_getLast? hboth.1)
  rw [hlast, zero_add]
  constructor
  · intro hlen
    have hname : name = before ++ [chr '.'] ∧ rest = after := by
      rw [← singleton_append, ← append_assoc] at hsplit
      exact append_inj hsplit (by rw [length_append, length_singleton, hlen])
    rw [hname.1, hname.2, getLast?_concat]
    exact ⟨rfl, hnot⟩
  rintro ⟨hend, hrest⟩
  obtain ⟨front, rfl⟩ := getLast?_eq_some_iff.mp hend
  rw [append_assoc, singleton_append] at hsplit
  have hlen : before.length = front.length := by
    rcases append_eq_append_iff.mp hsplit with ⟨mid, hbefore, hmid⟩ | ⟨mid, hfront, hmid⟩
    · cases mid with
      | nil => rw [hbefore, append_nil]
      | cons ch mid =>
        rw [cons_append, cons.injEq] at hmid
        refine absurd ?_ hrest
        rw [hmid.2]
        exact mem_append_right _ mem_cons_self
    · cases mid with
      | nil => rw [hfront, append_nil]
      | cons ch mid =>
        rw [cons_append, cons.injEq] at hmid
        refine absurd ?_ hnot
        rw [hmid.2]
        exact mem_append_right _ mem_cons_self
  rw [length_append, length_singleton, hlen]

theorem keptName_initial (host : Bytes) : keptName host <+: host := by
  rw [keptName]
  split
  · exact (List.dropLast_prefix _).trans (hostName_initial host)
  · exact hostName_initial host

theorem lastDot_le (host : Bytes) : lastDot 0 host host.length ≤ host.length := by
  rcases lastDot_spec host 0 host.length with ⟨-, hlast⟩ | ⟨before, after, hsplit, -, hlast⟩
  · exact le_of_eq hlast
  · have hlen := congrArg List.length hsplit
    rw [length_append] at hlen
    omega

theorem keptName_length (host : Bytes) (hlen : host.length < 2 ^ 64 - 1) :
    (if lastDot 0 host host.length = subWord (hostName host).length 1 then subWord
      (hostName host).length 1
      else (hostName host).length) = (keptName host).length := by
  have hle := (hostName_initial host).length_le
  have hlast := lastDot_le host
  have hiff := lastDot_eq_iff host
  rw [keptName]
  rcases eq_zero_or_pos (hostName host).length with hzero | hpos
  · have hwrap : subWord 0 1 = 2 ^ 64 - 1 := rfl
    rw [hzero] at hiff ⊢
    rw [hwrap, if_neg (by omega), if_neg (mt hiff.mpr (by omega)), hzero]
  · rw [subWord_one hpos (by omega)]
    by_cases hdot : lastDot 0 host host.length + 1 = (hostName host).length
    · rw [if_pos (by omega), if_pos (hiff.mp hdot), length_dropLast]
    · rw [if_neg (by omega), if_neg (mt hiff.mpr hdot)]

theorem validateHost_eq (memory alloc : Bool) (host : Bytes) (hlen : host.length < 2 ^ 64 - 1) :
    validateHost memory alloc host =
      if hostClean false host = false ∨ keptName host = [] then .declined
      else if (alloc || host.any isUpper) = true then
        if memory then .ok (strlow (keptName host)) else .error
      else .ok (keptName host) := by
  obtain ⟨state, hloop⟩ := hostLoop_zero host alloc hlen
  have htake : host.take (keptName host).length = keptName host :=
    (prefix_iff_eq_take.mp (keptName_initial host)).symm
  rw [validateHost, hloop]
  cases hclean : hostClean false host with
  | false =>
    rw [if_neg Bool.false_ne_true, if_pos (Or.inl rfl)]
  | true =>
    simp only [if_true, keptName_length host hlen, htake, length_eq_zero_iff,
      Bool.true_eq_false, false_or]

end Kept

/-! ## Normal hosts -/

/-- The part of a host that names the server. -/
def serverPart (host : Bytes) : Bytes :=
  if host.head? = some (chr '[') ∧ chr ']' ∈ host then host.takeWhile (· != chr ']') ++ [chr ']']
  else host.takeWhile (· != chr ':')

/-- Without one dot at the end. -/
def dropDot (name : Bytes) : Bytes := if name.getLast? = some (chr '.') then name.dropLast else name

/-- A host has been normalised to this one. -/
structure Normal (host h : Bytes) : Prop where
  name : h = strlow (dropDot (serverPart host))
  nonempty : h ≠ []
  noNul : 0 ∉ h
  noSlash : chr '/' ∉ h
  noDots : ¬ [chr '.', chr '.'] <:+: h
  again : ∀ memory alloc, memory = true ∨ alloc = false → validateHost memory alloc h = .ok h

/-- A dot behind the name keeps the one at its end. -/
def KeepsDot (host : Bytes) : Prop :=
  host.head? ≠ some (chr '[') ∧ (host.takeWhile (· != chr ':')).getLast? = some (chr '.') ∧
    chr '.' ∈ host.drop (host.takeWhile (· != chr ':')).length

/-- A literal that is not closed keeps its port. -/
def KeepsPort (host : Bytes) : Prop := host.head? = some (chr '[') ∧ chr ']' ∉ host ∧ chr ':' ∈ host

section Normal

variable {host h name : Bytes}

theorem serverPart_literal (hopen : host.head? = some (chr '[')) (hclose : chr ']' ∈ host) :
    serverPart host = host.takeWhile (· != chr ']') ++ [chr ']'] ∧
      hostName host = serverPart host := by
  rw [hostName, if_pos hopen, if_pos hclose, serverPart, if_pos ⟨hopen, hclose⟩]
  exact ⟨rfl, rfl⟩

theorem serverPart_usual (hopen : host.head? ≠ some (chr '[')) :
    serverPart host = host.takeWhile (· != chr ':') ∧ hostName host = serverPart host := by
  rw [hostName, if_neg hopen, serverPart, if_neg fun hboth => hopen hboth.1]
  exact ⟨rfl, rfl⟩

theorem serverPart_open (hclose : chr ']' ∉ host) :
    serverPart host = host.takeWhile (· != chr ':') :=
  if_neg fun hboth => hclose hboth.2

theorem hostName_open (hopen : host.head? = some (chr '[')) (hclose : chr ']' ∉ host) :
    hostName host = host := by
  rw [hostName, if_pos hopen, if_neg hclose]

theorem serverPart_initial (host : Bytes) : serverPart host <+: host := by
  by_cases hclose : host.head? = some (chr '[') ∧ chr ']' ∈ host
  · rw [← (serverPart_literal hclose.1 hclose.2).2]
    exact hostName_initial host
  · rw [serverPart, if_neg hclose]
    exact takeWhile_prefix _

theorem dropDot_initial (name : Bytes) : dropDot name <+: name := by
  rw [dropDot]
  split
  · exact dropLast_prefix name
  · exact prefix_rfl

theorem keptName_eq (hdot : ¬ KeepsDot host) (hport : ¬ KeepsPort host) :
    keptName host = dropDot (serverPart host) := by
  by_cases hopen : host.head? = some (chr '[')
  · by_cases hclose : chr ']' ∈ host
    · obtain ⟨hpart, hname⟩ := serverPart_literal hopen hclose
      have hlast : (serverPart host).getLast? ≠ some (chr '.') := by
        rw [hpart, getLast?_concat]
        decide
      rw [keptName, hname, if_neg fun hboth => hlast hboth.1, dropDot, if_neg hlast]
    · have hcolon : chr ':' ∉ host := fun hcolon => hport ⟨hopen, hclose, hcolon⟩
      rw [keptName, hostName_open hopen hclose, serverPart_open hclose,
        takeWhile_ne_self hcolon, dropDot, drop_length]
      exact if_congr (and_iff_left not_mem_nil) rfl rfl
  · obtain ⟨hpart, hname⟩ := serverPart_usual hopen
    rw [keptName, hname, dropDot]
    refine if_congr ⟨fun hboth => hboth.1, fun hlast => ⟨hlast, fun hbehind => ?_⟩⟩ rfl rfl
    rw [hpart] at hlast hbehind
    exact hdot ⟨hopen, hlast, hbehind⟩

theorem strlow_eq_self (hupper : h.any isUpper = false) : strlow h = h := by
  have hsame : ∀ ch ∈ h, tolower ch = ch := fun ch hch => by
    have hnot := any_eq_false.mp hupper ch hch
    rw [isUpper, decide_eq_true_eq] at hnot
    exact if_neg hnot
  exact (map_congr_left hsame).trans (map_id h)

set_option maxRecDepth 4000 in
theorem isUpper_tolower (ch : Byte) : isUpper (tolower ch) = false := by
  revert ch
  apply forall_byte
  decide

theorem any_isUpper_strlow (name : Bytes) : (strlow name).any isUpper = false := by
  rw [any_eq_false]
  intro ch hch
  obtain ⟨b, -, rfl⟩ := mem_map.mp hch
  rw [isUpper_tolower]
  exact Bool.false_ne_true

theorem head?_strlow {c : Byte} (hc : Core.isAlpha c = false) :
    (strlow name).head? = some c ↔ name.head? = some c := by
  cases name with
  | nil => exact Iff.rfl
  | cons ch name =>
    rw [strlow, map_cons, head?_cons, head?_cons, Option.some.injEq,
      Option.some.injEq, tolower_eq_iff hc]

theorem getLast?_strlow {c : Byte} (hc : Core.isAlpha c = false) :
    (strlow name).getLast? = some c ↔ name.getLast? = some c := by
  rw [← head?_reverse, ← head?_reverse, strlow, ← map_reverse, ← strlow, head?_strlow hc]

theorem head?_of_prefix {l l' : Bytes} (hne : l ≠ []) (hinitial : l <+: l') :
    l.head? = l'.head? := by
  obtain ⟨ch, l, rfl⟩ := exists_cons_of_ne_nil hne
  obtain ⟨rest, rfl⟩ := hinitial
  rfl

theorem hostName_strlow (hne : dropDot (serverPart host) ≠ []) :
    hostName (strlow (dropDot (serverPart host))) = strlow (dropDot (serverPart host)) := by
  have hhead := head?_of_prefix hne ((dropDot_initial _).trans (serverPart_initial host))
  by_cases hopen : host.head? = some (chr '[')
  · have hopen' : (strlow (dropDot (serverPart host))).head? = some (chr '[') := by
      rw [head?_strlow (by decide), hhead, hopen]
    by_cases hclose : chr ']' ∈ host
    · obtain ⟨hpart, -⟩ := serverPart_literal hopen hclose
      have hdot : dropDot (serverPart host) = host.takeWhile (· != chr ']') ++ [chr ']'] := by
        rw [dropDot, hpart, if_neg (by rw [getLast?_concat]; decide)]
      have hlow : strlow (dropDot (serverPart host)) = strlow
        (host.takeWhile (· != chr ']')) ++ [chr ']'] := by
        rw [hdot, strlow, map_append]
        rfl
      have hinside : ∀ ch ∈ strlow (host.takeWhile (· != chr ']')), (ch != chr ']') = true := by
        intro ch hch
        rw [bne_iff_ne]
        rintro rfl
        exact not_mem_takeWhile_ne _ _ ((mem_strlow (by decide)).mp hch)
      rw [hostName, if_pos hopen', hlow, if_pos (mem_append_right _ mem_cons_self),
        takeWhile_append_of_pos hinside,
        takeWhile_cons_of_neg (by simp), append_nil]
    · refine hostName_open hopen' fun hmem => hclose ?_
      exact ((dropDot_initial _).trans (serverPart_initial host)).subset
        ((mem_strlow (by decide)).mp hmem)
  · have hopen' : (strlow (dropDot (serverPart host))).head? ≠ some (chr '[') := by
      rw [ne_eq, head?_strlow (by decide), hhead]
      exact hopen
    have hcolon : chr ':' ∉ strlow (dropDot (serverPart host)) := by
      intro hmem
      have hmem := (dropDot_initial _).subset ((mem_strlow (by decide)).mp hmem)
      rw [(serverPart_usual hopen).1] at hmem
      exact not_mem_takeWhile_ne _ _ hmem
    rw [hostName, if_neg hopen', takeWhile_ne_self hcolon]

theorem getLast?_dropDot (hclean : hostClean false name = true) :
    (dropDot name).getLast? ≠ some (chr '.') := by
  rw [dropDot]
  split
  · next hlast => exact getLast?_dropLast hclean hlast
  · next hlast => exact hlast

theorem validateHost_ok {memory alloc : Bool} (hlen : host.length < 2 ^ 64 - 1)
    (hok : validateHost memory alloc host = .ok h) :
    hostClean false host = true ∧ keptName host ≠ [] ∧ h = strlow (keptName host) := by
  rw [validateHost_eq memory alloc host hlen] at hok
  split at hok
  · cases hok
  next hnot =>
  rw [not_or, Bool.not_eq_false] at hnot
  refine ⟨hnot.1, hnot.2, ?_⟩
  split at hok
  · split at hok
    · cases hok
      rfl
    · cases hok
  · next hupper =>
    cases hok
    rw [Bool.not_eq_true, Bool.or_eq_false_iff] at hupper
    refine (strlow_eq_self ?_).symm
    rw [any_eq_false] at hupper ⊢
    exact fun ch hch => hupper.2 ch ((keptName_initial host).subset hch)

theorem validateHost_again {memory alloc : Bool} (hlen : h.length < 2 ^ 64 - 1)
    (hclean : hostClean false h = true) (hne : h ≠ [])
    (hname : hostName h = h) (hlast : h.getLast? ≠ some (chr '.'))
    (hlow : strlow h = h) (hupper : h.any isUpper = false)
    (hmemory : memory = true ∨ alloc = false) : validateHost memory alloc h = .ok h := by
  have hkept : keptName h = h := by
    rw [keptName, hname, if_neg fun hboth => hlast hboth.1]
  have hgood : ¬ (hostClean false h = false ∨ keptName h = []) := by
    rw [hkept, hclean]
    exact fun hbad => hbad.elim Bool.noConfusion hne
  rw [validateHost_eq memory alloc h hlen, if_neg hgood, hkept, hlow, hupper, Bool.or_false]
  rcases hmemory with rfl | rfl
  · rw [if_pos rfl, ite_self]
  · rw [if_neg Bool.false_ne_true]

theorem normal_of_kept (hlen : host.length < 2 ^ 64 - 1)
    (hclean : hostClean false host = true) (hne : keptName host ≠ [])
    (hdot : ¬ KeepsDot host) (hport : ¬ KeepsPort host) : Normal host (strlow (keptName host)) := by
  have hinitial := keptName_initial host
  have hkept : hostClean false (strlow (keptName host)) = true := by
    obtain ⟨rest, hrest⟩ := hinitial
    rw [← hrest] at hclean
    rw [hostClean_strlow]
    exact hostClean_append hclean
  have hpart : hostClean false (serverPart host) = true := by
    obtain ⟨rest, hrest⟩ := serverPart_initial host
    rw [← hrest] at hclean
    exact hostClean_append hclean
  have hnonempty : strlow (keptName host) ≠ [] := fun hnil => hne (map_eq_nil_iff.mp hnil)
  have hshort : (strlow (keptName host)).length < 2 ^ 64 - 1 := by
    rw [strlow, length_map]
    exact lt_of_le_of_lt hinitial.length_le hlen
  have heq := keptName_eq hdot hport
  have hname : hostName (strlow (keptName host)) = strlow (keptName host) := by
    rw [heq]
    rw [heq] at hne
    exact hostName_strlow hne
  have hlast : (strlow (keptName host)).getLast? ≠ some (chr '.') := by
    rw [ne_eq, getLast?_strlow (by decide), heq]
    exact getLast?_dropDot hpart
  have hupper := any_isUpper_strlow (keptName host)
  obtain ⟨hnul, hslash⟩ := not_mem_of_hostClean hkept
  exact ⟨by rw [heq], hnonempty, hnul, hslash, not_infix_of_hostClean hkept, fun memory alloc =>
    validateHost_again hshort hkept hnonempty hname hlast (strlow_eq_self hupper) hupper⟩

theorem not_normal_of_keepsDot (hdot : KeepsDot host) : ¬ Normal host (strlow (keptName host)) := by
  obtain ⟨hopen, hlast, hbehind⟩ := hdot
  obtain ⟨hpart, hname⟩ := serverPart_usual hopen
  intro hnormal
  have hlen := congrArg List.length hnormal.name
  rw [keptName, hname, hpart, if_neg fun hboth =>
    hboth.2 hbehind, dropDot, if_pos hlast, strlow, strlow, length_map,
    length_map, length_dropLast] at hlen
  have hpos := length_pos_of_mem (mem_of_getLast? hlast)
  omega

theorem not_normal_of_keepsPort (hport : KeepsPort host) :
    ¬ Normal host (strlow (keptName host)) := by
  obtain ⟨hopen, hclose, hcolon⟩ := hport
  have hkept : chr ':' ∈ keptName host := by
    rw [keptName, hostName_open hopen hclose]
    split
    · next hboth =>
      obtain ⟨front, hfront⟩ := getLast?_eq_some_iff.mp hboth.1
      rw [hfront] at hcolon ⊢
      rw [dropLast_concat]
      rcases mem_append.mp hcolon with hmem | hmem
      · exact hmem
      · exact absurd (mem_singleton.mp hmem) (by decide)
    · exact hcolon
  intro hnormal
  have hmem := (mem_strlow (c := chr ':') (by decide)).mpr hkept
  rw [hnormal.name, mem_strlow (by decide), serverPart_open hclose] at hmem
  exact not_mem_takeWhile_ne _ _ ((dropDot_initial _).subset hmem)

/-- **One name for a server.**  A host that `ngx_http_validate_host` accepts is normalised, just in
case no dot behind the name keeps one at its end and no literal that is not closed keeps a port. -/
theorem validateHost_normal_iff (memory alloc : Bool) (host h : Bytes)
    (hlen : host.length < 2 ^ 64 - 1)
    (hok : validateHost memory alloc host = .ok h) :
    Normal host h ↔ ¬ KeepsDot host ∧ ¬ KeepsPort host := by
  obtain ⟨hclean, hne, rfl⟩ := validateHost_ok hlen hok
  constructor
  · exact fun hnormal =>
      ⟨fun hdot => not_normal_of_keepsDot hdot hnormal, fun hport =>
        not_normal_of_keepsPort hport hnormal⟩
  · exact fun hboth => normal_of_kept hlen hclean hne hboth.1 hboth.2

/-- A name with a dot and a port behind it. -/
theorem validateHost_normal_iff_port :
    validateHost true false (ascii "A.b.:80") = .ok (ascii "a.b") ∧
      Normal (ascii "A.b.:80") (ascii "a.b") := by
  have hok : validateHost true false (ascii "A.b.:80") = .ok (ascii "a.b") := by decide
  refine ⟨hok, (validateHost_normal_iff true false _ _ (by decide) hok).mpr ⟨?_, ?_⟩⟩
  · rintro ⟨-, -, hdot⟩
    exact absurd hdot (by decide)
  · rintro ⟨hopen, -⟩
    exact absurd hopen (by decide)

/-- A dot in the port keeps the one in front of it. -/
theorem validateHost_dots : ¬ ∀ (memory alloc : Bool) (host h : Bytes), host.length < 2 ^ 64 - 1 →
    validateHost memory alloc host = .ok h → Normal host h := by
  intro hall
  have hnormal := hall true false (ascii "a.:8.") (ascii "a.") (by decide) (by decide)
  exact absurd hnormal.name (by decide)

end Normal

end Nginx.Http
