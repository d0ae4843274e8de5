/-
  Http/Forwarded.lean --- the address of a client behind proxies
  (`ngx_http_get_forwarded_addr` in `src/http/ngx_http_core_module.c`).

  Positions in a header's value are counted from its first byte, and -1 is the byte in
  front of it; a byte that is read is there, or there is no result at all.
-/
import Mathlib.Data.List.DropRight
import Nginx.Core.Base
import Nginx.Core.Inet
import Nginx.Foundation.Elements

set_option autoImplicit false

namespace Nginx.Http.Forwarded

open List Foundation Nginx.Core Option

/-! ## The walk of the code -/

/-- `*p == ' ' || *p == ','` -/
def isSeparator (c : Byte) : Bool := c == 32 || c == 44

/-- The first loop over `xfflen` bytes: `xfflen` behind it, where `p` is one less. -/
def trimEnd (xff : Bytes) : Nat → Option Nat
  | 0 => some 0
  | 1 => some 1
  | n + 2 => do
    let c ← xff[n + 1]?
    if isSeparator c then trimEnd xff (n + 1) else some (n + 2)

/-- The second loop, which begins with the last one of these bytes: `p` behind it. -/
def elementStart (xff : Bytes) : Nat → Option Int
  | 0 => some (-1)
  | 1 => some 0
  | n + 2 => do
    let c ← xff[n + 1]?
    if isSeparator c then some (n + 2) else elementStart xff (n + 1)

/-- The `len` bytes at `p`. -/
def textAt (xff : Bytes) (p : Int) (len : Nat) : Option Bytes :=
  if 0 ≤ p ∧ p + len ≤ xff.length then some ((xff.drop p.toNat).take len) else none

/-- The element that is looked at: `p`, and the text from there on. -/
def lastElement (xff : Bytes) : Option (Int × Bytes) := do
  let xfflen ← trimEnd xff xff.length
  let p ← elementStart xff xfflen
  let text ← textAt xff p (xfflen - p).toNat
  return (p, text)

theorem lastElement_le {xff text : Bytes} {p : Int} (h : lastElement xff = some (p, text)) :
    p ≤ xff.length := by
  simp only [lastElement, Option.bind_eq_bind, bind_eq_some_iff] at h
  obtain ⟨xfflen, -, q, -, text', htext, heq⟩ := h
  obtain ⟨rfl, rfl⟩ := Prod.mk.inj (some.inj heq)
  rw [textAt] at htext
  split at htext
  · omega
  · exact absurd htext.symm (some_ne_none _)

variable {α : Type} (parse : Bytes → Option α) (trusted : α → Bool)

/-- `ngx_http_get_forwarded_addr_internal`, where elements are parsed by `parse` and `trusted` says
which addresses match; none where a byte outside of the value is read. -/
def forwardedInternal (recursive : Bool) (addr : α) (xff : Bytes) : Option (Rc × α) :=
  if trusted addr then
    match _h : lastElement xff with
    | none => none
    | some (p, text) =>
      match parse text with
      | none => some (.declined, addr)
      | some paddr =>
        if _hp : recursive = true ∧ 0 < p then
          (forwardedInternal recursive paddr (xff.take (p - 1).toNat)).map fun (rc, addr) =>
            (if rc = .declined then .done else rc, addr)
        else some (.ok, paddr)
  else some (.declined, addr)
termination_by xff.length
decreasing_by
  have hle := lastElement_le _h
  rw [length_take]
  omega

/-- The loop of `ngx_http_get_forwarded_addr` over the headers, the last one first. -/
def forwardedLoop (recursive : Bool) (rc : Rc) (found : Bool) (addr : α) :
    List Bytes → Option (Rc × α)
  | [] => some (rc, addr)
  | xff :: headers =>
    match forwardedInternal parse trusted recursive addr xff with
    | none => none
    | some (rc, addr) =>
      if recursive = false then some (rc, addr)
      else if rc = .declined ∧ found = true then some (.done, addr)
      else if rc ≠ .ok then some (rc, addr)
      else forwardedLoop recursive rc true addr headers

/-- `ngx_http_get_forwarded_addr`, with the values of `headers` where it is not a null pointer. -/
def getForwardedAddr (addr : SockAddr) (headers : Option (List Bytes))
    (value : Bytes) (proxies : List Cidr)
    (recursive : Bool) : Option (Rc × SockAddr) :=
  match headers with
  | none => forwardedInternal parseAddrPort (cidrMatch · proxies) recursive addr value
  | some headers =>
    forwardedLoop parseAddrPort (cidrMatch · proxies) recursive .declined false addr headers.reverse

/-! ## The walk that is asked for -/

/-- The elements of a value, the last one first. -/
def elementsBackward (xff : Bytes) :
    List Bytes := (elements isSeparator xff.reverse).map List.reverse

/-- The addresses that take the place of `addr` one after the other. -/
def walk (addr : α) : List Bytes → List α
  | [] => []
  | element :: rest =>
    if trusted addr then
      match parse element with
      | none => []
      | some paddr => paddr :: walk paddr rest
    else []

/-- The same with one step at most where it is not recursive. -/
def steps (recursive : Bool) (addr : α) (values : List Bytes) : List α :=
  let all := walk parse trusted addr (values.flatMap elementsBackward)
  if recursive then all else all.take 1

attribute [local simp] trimEnd elementStart forwardedLoop walk

/-- What is asked of a call: no byte outside of a value is read, and the address is the last one of
the walk over these values, the last header first. -/
def Walked (recursive : Bool) (addr : α) (values : List Bytes) (result : Option (Rc × α)) : Prop :=
  ∃ rc last, result = some (rc, last) ∧
    last = (steps parse trusted recursive addr values).getLastD addr ∧
    (rc = .declined ↔ steps parse trusted recursive addr values = [])

/-! ## What the code sees of a value -/

/-- The number of elements that are read as they are: a separator in front of all but one is taken
for a part of the first element. -/
def readable (xff : Bytes) : Nat :=
  match xff with
  | c :: d :: _ => (elementsBackward xff).length - if isSeparator c && !isSeparator d then 1 else 0
  | _ => (elementsBackward xff).length

/-- The condition that a walk comes out as it should, by what is left of the values; `found` says
whether the address has been replaced before. -/
def Follows (recursive : Bool) (found : Bool) (addr : α) : List Bytes → Prop
  | [] => True
  | xff :: values =>
    trusted addr = true → xff ≠ [] ∧
      if xff.head?.any isSeparator then
        -- nothing counts that is in front of this value
        let all := steps parse trusted recursive addr (xff :: values)
        all.getLastD addr = (all.take (readable xff)).getLastD addr ∧
          (found = false → readable xff = 0 → all = [])
      else
        recursive = true →
          (walk parse trusted addr (elementsBackward xff)).length = (elementsBackward xff).length →
          Follows recursive true
            ((walk parse trusted addr (elementsBackward xff)).getLastD addr) values

variable {parse trusted} {recursive found : Bool} {addr : α} {c : Byte}
    {xff init e trail text : Bytes} {values : List Bytes}

/-! ## The last element -/

theorem exists_last (xff : Bytes) :
    (∀ c ∈ xff, isSeparator c = true) ∨
      ∃ init e trail, xff = init ++ e ++ trail ∧ e ≠ [] ∧ (∀ c ∈ e, isSeparator c = false) ∧
        (∀ c ∈ trail, isSeparator c = true) ∧ ∀ c ∈ init.getLast?, isSeparator c = true := by
  by_cases hall : xff.rdropWhile isSeparator = []
  · exact .inl (rdropWhile_eq_nil_iff.mp hall)
  right
  refine ⟨(xff.rdropWhile isSeparator).rdropWhile (fun c => !isSeparator c),
    (xff.rdropWhile isSeparator).rtakeWhile (fun c => !isSeparator c),
    xff.rtakeWhile isSeparator, ?_, ?_, ?_, ?_, ?_⟩
  · rw [rdropWhile_append_rtakeWhile, rdropWhile_append_rtakeWhile]
  · intro hnil
    have hlast := rdropWhile_last_not _ _ hall
    exact (rtakeWhile_eq_nil_iff.mp hnil) hall (by simpa using hlast)
  · intro c hc
    simpa using mem_rtakeWhile_imp hc
  · exact fun c hc => mem_rtakeWhile_imp hc
  intro c hc
  obtain ⟨hne, hlast⟩ := mem_getLast?_eq_getLast hc
  have hnot := rdropWhile_last_not _ _ hne
  rw [hlast]
  simpa using hnot

theorem elementsBackward_last (he : e ≠ []) (hchars : ∀ c ∈ e, isSeparator c = false)
    (htrail : ∀ c ∈ trail, isSeparator c = true)
    (hinit : ∀ c ∈ init.getLast?, isSeparator c = true) :
    elementsBackward (init ++ e ++ trail) = e :: elementsBackward init := by
  have hword : elements isSeparator (trail.reverse ++ e.reverse ++ init.reverse) =
    e.reverse :: elements isSeparator init.reverse :=
    elements_word (fun c hc => htrail c (mem_reverse.mp hc)) (mt reverse_eq_nil_iff.mp he)
      (fun c hc => hchars c (mem_reverse.mp hc)) (by rwa [head?_reverse])
  have hreverse : (init ++ e ++ trail).reverse = trail.reverse ++ e.reverse ++ init.reverse := by
    simp
  rw [elementsBackward, hreverse, hword, map_cons, reverse_reverse, elementsBackward]

theorem elementsBackward_separators (h : ∀ c ∈ xff, isSeparator c = true) :
    elementsBackward xff = [] := by
  rw [elementsBackward, elements_separators fun c hc => h c (mem_reverse.mp hc)]
  rfl

theorem elementsBackward_concat (hc : isSeparator c = true) :
    elementsBackward (xff ++ [c]) = elementsBackward xff := by
  rw [elementsBackward, reverse_append, reverse_singleton, singleton_append,
    elements_cons hc, elementsBackward]

theorem trimEnd_eq {k n : Nat} (hk : 1 ≤ k) (hkn : k ≤ n)
    (hsep : ∀ i, k ≤ i → i < n → ∃ c, xff[i]? = some c ∧ isSeparator c = true)
    (hstop : k = 1 ∨ ∃ c, xff[k - 1]? = some c ∧ isSeparator c = false) :
    trimEnd xff n = some k := by
  induction n with
  | zero => omega
  | succ n ih =>
    cases n with
    | zero =>
      obtain rfl : k = 1 := by omega
      rfl
    | succ n =>
      rcases lt_or_ge k (n + 2) with hlt | hge
      · obtain ⟨c, hget, hc⟩ := hsep (n + 1) (by omega) (by omega)
        have hrest := ih (by omega) fun i hki hi => hsep i hki (by omega)
        simp [trimEnd, hget, hc, hrest]
      · obtain rfl : k = n + 2 := by omega
        obtain ⟨c, hget, hc⟩ := hstop.resolve_left (by omega)
        have hlast : xff[n + 1]? = some c := hget
        simp [trimEnd, hlast, hc]

theorem elementStart_eq {j n : Nat} (hn : 1 ≤ n) (hjn : j ≤ n)
    (hchars : ∀ i, 1 ≤ i → j ≤ i → i < n → ∃ c, xff[i]? = some c ∧ isSeparator c = false)
    (hstop : j = 0 ∨ 2 ≤ j ∧ ∃ c, xff[j - 1]? = some c ∧ isSeparator c = true) :
    elementStart xff n = some (j : Int) := by
  induction n with
  | zero => omega
  | succ n ih =>
    cases n with
    | zero =>
      obtain rfl : j = 0 := by omega
      rfl
    | succ n =>
      rcases lt_or_ge j (n + 2) with hlt | hge
      · obtain ⟨c, hget, hc⟩ := hchars (n + 1) (by omega) (by omega) (by omega)
        have hrest := ih (by omega) (by omega) fun i h1 hji hi => hchars i h1 hji (by omega)
        simp [elementStart, hget, hc, hrest]
      · obtain rfl : j = n + 2 := by omega
        obtain ⟨c, hget, hc⟩ := (hstop.resolve_left (by omega)).2
        have hlast : xff[n + 1]? = some c := hget
        simp [elementStart, hlast, hc]

theorem lastElement_eq {j k : Nat} (htrim : trimEnd xff xff.length = some k)
    (hstart : elementStart xff k = some (j : Int))
    (hjk : j ≤ k) (hk : k ≤ xff.length) :
    lastElement xff = some ((j : Int), (xff.drop j).take (k - j)) := by
  have htext : textAt xff j ((k : Int) - j).toNat = some ((xff.drop j).take (k - j)) := by
    rw [textAt, if_pos (by omega)]
    congr
    omega
  simp only [lastElement, htrim, hstart, htext, Option.bind_eq_bind,
    Option.bind_some, Option.pure_def]

theorem lastElement_separators (h : ∀ b ∈ c :: xff, isSeparator b = true) :
    lastElement (c :: xff) = some (0, [c]) := by
  have htrim : trimEnd (c :: xff) (c :: xff).length = some 1 := by
    refine trimEnd_eq (Nat.le_refl 1) (by rw [length_cons]; omega) (fun i _ hi => ?_) (.inl rfl)
    exact ⟨_, getElem?_eq_getElem hi, h _ (getElem_mem hi)⟩
  exact lastElement_eq (j := 0) htrim rfl (Nat.zero_le 1) (by rw [length_cons]; omega)

theorem lastElement_append (he : e ≠ []) (hchars : ∀ c ∈ e, isSeparator c = false)
    (htrail : ∀ c ∈ trail, isSeparator c = true)
    (hinit : ∀ c ∈ init.getLast?, isSeparator c = true) :
    lastElement (init ++ e ++ trail) =
      if init.length ≤ 1 then some (0, init ++ e) else some ((init.length : Int), e) := by
  have hpos := length_pos_of_ne_nil he
  have hlength : (init ++ e).length = init.length + e.length := length_append
  have htotal : (init ++ e ++ trail).length = (init ++ e).length + trail.length := length_append
  have hget : ∀ i, init.length ≤ i → i < (init ++ e).length →
    ∃ c, (init ++ e ++ trail)[i]? = some c ∧ isSeparator c = false := by
    intro i hle hlt
    have hi : i - init.length < e.length := by omega
    refine ⟨e[i - init.length], ?_, hchars _ (getElem_mem hi)⟩
    rw [getElem?_append_left hlt, getElem?_append_right hle, getElem?_eq_getElem hi]
  have htrim : trimEnd (init ++ e ++ trail) (init ++ e ++ trail).length =
    some (init ++ e).length := by
    refine trimEnd_eq (by omega) (by omega) (fun i hle hlt =>
      ?_) (.inr (hget _ (by omega) (by omega)))
    have hi : i - (init ++ e).length < trail.length := by omega
    refine ⟨trail[i - (init ++ e).length], ?_, htrail _ (getElem_mem hi)⟩
    rw [getElem?_append_right hle, getElem?_eq_getElem hi]
  have hle : (init ++ e).length ≤ (init ++ e ++ trail).length := by omega
  by_cases hshort : init.length ≤ 1
  · have hstart := elementStart_eq (j := 0) (n := (init ++ e).length) (by omega) (Nat.zero_le _)
      (fun i h1 _ hi => hget i (by omega) hi) (.inl rfl)
    rw [if_pos hshort, lastElement_eq htrim hstart (Nat.zero_le _) hle,
      drop_zero, Nat.sub_zero, take_left]
    rfl
  have hstart :=
    @elementStart_eq (init ++ e ++ trail) init.length (init ++ e).length (by omega) (by omega)
    (fun i _ hji hi => hget i hji hi) (.inr ⟨by omega, ?_⟩)
  · have hdrop : ((init ++ e ++ trail).drop init.length).take ((init ++ e).length - init.length) =
      e := by
      rw [append_assoc, drop_left, hlength, Nat.add_sub_cancel_left, take_left]
    rw [if_neg hshort, lastElement_eq htrim hstart (by omega) hle, hdrop]
  · have hne : init ≠ [] := ne_nil_of_length_pos (by omega)
    refine ⟨init.getLast hne, ?_, hinit _ (getLast?_eq_some_getLast hne)⟩
    rw [append_assoc, getElem?_append_left (by omega),
      ← getLast?_eq_getElem?, getLast?_eq_some_getLast hne]

/-! ## One value -/

/-- What the code sees of a value, the last element first. -/
def seen (xff : Bytes) : List Bytes := (elementsBackward xff).take (readable xff)

/-- The steps over what is seen. -/
def stepsIn (parse : Bytes → Option α) (trusted : α → Bool) (recursive : Bool)
    (addr : α) (xff : Bytes) : List α :=
  let all := walk parse trusted addr (seen xff)
  if recursive then all else all.take 1

theorem readable_le (xff : Bytes) : readable xff ≤ (elementsBackward xff).length := by
  rcases xff with _ | ⟨c, _ | ⟨d, rest⟩⟩
  · exact le_rfl
  · exact le_rfl
  · exact Nat.sub_le _ _

theorem elementsBackward_ne_nil {b : Byte} (hb : b ∈ xff) (hchar : isSeparator b = false) :
    elementsBackward xff ≠ [] := by
  rcases exists_last xff with hall | ⟨init, e, trail, rfl, he, hchars, htrail, hinit⟩
  · rw [hall b hb] at hchar
    exact absurd hchar (by decide)
  · rw [elementsBackward_last he hchars htrail hinit]
    exact cons_ne_nil _ _

theorem seen_separators (h : ∀ c ∈ xff, isSeparator c = true) : seen xff = [] := by
  rw [seen, elementsBackward_separators h, take_nil]

theorem seen_of_head (h : ∀ c ∈ xff.head?, isSeparator c = false) :
    seen xff = elementsBackward xff := by
  rcases xff with _ | ⟨c, _ | ⟨d, rest⟩⟩
  · rfl
  · exact take_of_length_le (le_rfl)
  · have hc : isSeparator c = false := h c rfl
    refine take_of_length_le ?_
    rw [readable, hc]
    exact le_rfl

theorem seen_short (he : e ≠ []) (hchars : ∀ c ∈ e, isSeparator c = false)
    (htrail : ∀ c ∈ trail, isSeparator c = true)
    (hc : isSeparator c = true) : seen ([c] ++ e ++ trail) = [] := by
  obtain ⟨a, e, rfl⟩ := exists_cons_of_ne_nil he
  have hlast : elementsBackward ([c] ++ a :: e ++ trail) = [a :: e] := by
    have hinit : ∀ b ∈ [c].getLast?, isSeparator b = true := fun b hb => some.inj hb ▸ hc
    have hone : elementsBackward [c] = [] := elementsBackward_separators fun b hb =>
      mem_singleton.mp hb ▸ hc
    rw [elementsBackward_last he hchars htrail hinit, hone]
  have hreadable : readable ([c] ++ a :: e ++ trail) = 0 := by
    have hboth : (isSeparator c && !isSeparator a) = true := by rw [hc, hchars a mem_cons_self]; rfl
    change (elementsBackward ([c] ++ a :: e ++ trail)).length - _ = 0
    rw [hlast, hboth]
    rfl
  rw [seen, hreadable, take_zero]

theorem seen_long {i : Bytes} (hi : i ≠ []) (hc : isSeparator c = true)
    (he : e ≠ []) (hchars : ∀ c ∈ e, isSeparator c = false)
    (htrail : ∀ c ∈ trail, isSeparator c = true) : seen (i ++ [c] ++ e ++ trail) = e :: seen i := by
  have hinit : ∀ b ∈ (i ++ [c]).getLast?, isSeparator b = true := by
    intro b hb
    rw [getLast?_concat] at hb
    exact some.inj hb ▸ hc
  have hlast : elementsBackward (i ++ [c] ++ e ++ trail) = e :: elementsBackward i := by
    rw [elementsBackward_last he hchars htrail hinit, elementsBackward_concat hc]
  have hreadable : readable (i ++ [c] ++ e ++ trail) = readable i + 1 := by
    rcases i with _ | ⟨a, _ | ⟨b, i⟩⟩
    · exact absurd rfl hi
    · have hnone : (isSeparator a && !isSeparator c) = false := by rw [hc]; simp
      change (elementsBackward ([a] ++ [c] ++ e ++ trail)).length -
        (if isSeparator a && !isSeparator c then 1 else 0) = _
      rw [hlast, hnone]
      rfl
    change (elementsBackward (a :: b :: i ++ [c] ++ e ++ trail)).length -
      (if isSeparator a && !isSeparator b then 1 else 0) =
      (elementsBackward (a :: b :: i)).length -
        (if isSeparator a && !isSeparator b then 1 else 0) + 1
    rw [hlast, length_cons]
    split
    · next hboth =>
      have hb : isSeparator b = false := by simpa using (Bool.and_eq_true_iff.mp hboth).2
      have hpos := length_pos_of_ne_nil (@elementsBackward_ne_nil (a :: b :: i) b (by simp) hb)
      omega
    · rfl
  rw [seen, hreadable, hlast, take_succ_cons, seen]

/-! ## One call -/

theorem walk_of_not_trusted (h : trusted addr = false) (es : List Bytes) :
    walk parse trusted addr es = [] := by
  cases es with
  | nil => rfl
  | cons e es => rw [walk, if_neg (ne_true_of_eq_false h)]

/-- A value begins with an element. -/
def Opens (xff : Bytes) : Prop := xff.head?.any isSeparator = false

/-- The outcome of a call for one value. -/
structure Outcome (parse : Bytes → Option α) (trusted : α → Bool)
    (recursive : Bool) (addr : α) (xff : Bytes) (rc : Rc) (last : α) :
    Prop where
  last : last = (stepsIn parse trusted recursive addr xff).getLastD addr
  declined : rc = .declined ↔ stepsIn parse trusted recursive addr xff = []
  ok : recursive = true → (rc = .ok ↔
    Opens xff ∧
      (walk parse trusted addr (elementsBackward xff)).length = (elementsBackward xff).length)

theorem forwardedInternal_trusted {p : Int} (ht : trusted addr = true)
    (h : lastElement xff = some (p, text)) :
    forwardedInternal parse trusted recursive addr xff =
      match parse text with
      | none => some (.declined, addr)
      | some paddr =>
        if _hp : recursive = true ∧ 0 < p then
          (forwardedInternal parse trusted recursive paddr (xff.take (p - 1).toNat)).map
            fun (rc, addr) =>
            (if rc = .declined then .done else rc, addr)
        else some (.ok, paddr) := by
  rw [forwardedInternal, if_pos ht]
  split
  · next heq =>
    rw [h] at heq
    exact absurd heq (some_ne_none _)
  · next q t heq =>
    rw [h] at heq
    obtain ⟨rfl, rfl⟩ := Prod.mk.inj (some.inj heq)
    rfl

theorem outcome_declined (hsteps : walk parse trusted addr (seen xff) = [])
    (hok : Opens xff →
      (walk parse trusted addr (elementsBackward xff)).length ≠ (elementsBackward xff).length) :
    Outcome parse trusted recursive addr xff .declined addr := by
  have hnone : stepsIn parse trusted recursive addr xff = [] := by
    rw [stepsIn, hsteps]
    cases recursive <;> rfl
  exact ⟨by rw [hnone]; rfl, iff_of_true rfl hnone, fun _ =>
    iff_of_false (by decide) fun h => hok h.1 h.2⟩

theorem opens_mem (hne : xff ≠ []) (h : Opens xff) : ∃ b ∈ xff, isSeparator b = false := by
  obtain ⟨b, xff, rfl⟩ := exists_cons_of_ne_nil hne
  exact ⟨b, mem_cons_self, h⟩

theorem not_opens_cons (hc : isSeparator c = true) : ¬Opens (c :: xff) := fun h => by
  rw [Opens, head?_cons, any_some, hc] at h
  exact absurd h (by decide)

/-- The recursion goes back over the addresses as long as they are trusted. -/
theorem forwardedInternal_outcome (hparse : ∀ c e, isSeparator c = true → parse (c :: e) = none)
    (hne : xff ≠ []) :
    ∃ rc last, forwardedInternal parse trusted recursive addr xff = some (rc, last) ∧
      Outcome parse trusted recursive addr xff rc last := by
  induction hlength : xff.length using Nat.strong_induction_on generalizing xff addr with
  | _ n ih =>
    cases ht : trusted addr with
    | false =>
      refine ⟨.declined, addr, ?_, outcome_declined (walk_of_not_trusted ht _) fun hopens => ?_⟩
      · rw [forwardedInternal, if_neg (ne_true_of_eq_false ht)]
      · obtain ⟨b, hb, hchar⟩ := opens_mem hne hopens
        rw [walk_of_not_trusted ht]
        exact (length_pos_of_ne_nil (elementsBackward_ne_nil hb hchar)).ne
    | true =>
      rcases exists_last xff with hall | ⟨init, e, trail, rfl, he, hchars, htrail, hinit⟩
      · obtain ⟨c, xff, rfl⟩ := exists_cons_of_ne_nil hne
        have hc := hall c mem_cons_self
        refine ⟨.declined, addr, ?_, outcome_declined ?_ fun hopens =>
          absurd hopens (not_opens_cons hc)⟩
        · rw [forwardedInternal_trusted ht (lastElement_separators hall), hparse c [] hc]
        · rw [seen_separators hall]
          rfl
      · have hlast := lastElement_append he hchars htrail hinit
        rcases eq_nil_or_concat' init with rfl | ⟨i, c, rfl⟩
        · have hone : elementsBackward ([] ++ e ++ trail) = [e] :=
            elementsBackward_last he hchars htrail hinit
          have hopens : Opens ([] ++ e ++ trail) := by
            obtain ⟨a, e, rfl⟩ := exists_cons_of_ne_nil he
            exact hchars a mem_cons_self
          have hseen : seen ([] ++ e ++ trail) = [e] := by
            refine (seen_of_head fun b hb => ?_).trans hone
            rw [Opens, mem_def.mp hb, any_some] at hopens
            exact hopens
          cases hpaddr : parse e with
          | none =>
            have hwalk : walk parse trusted addr [e] = [] := by rw [walk, if_pos ht, hpaddr]
            refine ⟨.declined, addr, ?_, outcome_declined (by rw [hseen, hwalk]) fun _ => by
              rw [hone, hwalk]; exact zero_ne_one⟩
            rw [forwardedInternal_trusted ht hlast, nil_append, hpaddr]
          | some paddr =>
            have hwalk : walk parse trusted addr [e] = [paddr] := by
              rw [walk, if_pos ht, hpaddr]
              rfl
            have hsteps : stepsIn parse trusted recursive addr ([] ++ e ++ trail) = [paddr] := by
              rw [stepsIn, hseen, hwalk]
              cases recursive <;> rfl
            refine ⟨.ok, paddr, ?_, by
              rw [hsteps]; rfl, iff_of_false (by decide) (by rw [hsteps]; exact cons_ne_nil _ _),
              fun _ => iff_of_true rfl ⟨hopens, by rw [hone, hwalk]; rfl⟩⟩
            rw [forwardedInternal_trusted ht hlast, nil_append, hpaddr]
            exact dif_neg fun h => absurd h.2 (by decide)
        · have hc : isSeparator c = true := hinit c (by rw [getLast?_concat]; rfl)
          by_cases hi : i = []
          · subst hi
            refine ⟨.declined, addr, ?_, outcome_declined ?_ fun hopens =>
              absurd hopens (not_opens_cons hc)⟩
            · rw [forwardedInternal_trusted ht hlast, nil_append, singleton_append, hparse c e hc]
            · rw [nil_append, seen_short he hchars htrail hc]
              rfl
          have hmore : 1 < (i ++ [c]).length := by
            have hpos := length_pos_of_ne_nil hi
            rw [length_append, length_singleton]
            omega
          have hseen := seen_long hi hc he hchars htrail
          have hall : elementsBackward (i ++ [c] ++ e ++ trail) = e :: elementsBackward i := by
            rw [elementsBackward_last he hchars htrail hinit, elementsBackward_concat hc]
          rw [if_neg (not_le.mpr hmore)] at hlast
          cases hpaddr : parse e with
          | none =>
            have hwalk : ∀ es, walk parse trusted addr (e :: es) = [] :=
              fun es => by rw [walk, if_pos ht, hpaddr]
            refine ⟨.declined, addr, ?_, outcome_declined (by rw [hseen, hwalk]) fun _ => by
              rw [hall, hwalk]; exact ne_of_lt (Nat.succ_pos _)⟩
            rw [forwardedInternal_trusted ht hlast, hpaddr]
          | some paddr =>
            have hwalk : ∀ es,
              walk parse trusted addr (e :: es) = paddr :: walk parse trusted paddr es :=
              fun es => by
              rw [walk, if_pos ht, hpaddr]
            cases recursive with
            | false =>
              have hsteps : stepsIn parse trusted false addr (i ++ [c] ++ e ++ trail) =
                [paddr] := by
                rw [stepsIn, hseen, hwalk]
                rfl
              refine ⟨.ok, paddr, ?_, by
                rw [hsteps]; rfl,
                  iff_of_false (by decide) (by rw [hsteps]; exact cons_ne_nil _ _),
                fun h => absurd h Bool.false_ne_true⟩
              rw [forwardedInternal_trusted ht hlast, hpaddr]
              exact dif_neg fun h => absurd h.1 Bool.false_ne_true
            | true =>
              have hshorter : i.length < n := by
                rw [← hlength, append_assoc, append_assoc, length_append,
                  singleton_append, length_cons]
                omega
              obtain ⟨rc, last, hcall, hout⟩ : ∃ rc last,
                forwardedInternal parse trusted true paddr i = some (rc, last) ∧
                  Outcome parse trusted true paddr i rc last := ih _ hshorter hi rfl
              have htake : (i ++ [c] ++ e ++ trail).take (((i ++ [c]).length : Int) - 1).toNat =
                i := by
                have hnat : (((i ++ [c]).length : Int) - 1).toNat = i.length := by
                  rw [length_append, length_singleton]
                  omega
                rw [hnat, append_assoc, append_assoc, take_left]
              have hsteps : stepsIn parse trusted true addr (i ++ [c] ++ e ++ trail) =
                paddr :: stepsIn parse trusted true paddr i := by
                rw [stepsIn, hseen, hwalk]
                rfl
              have hopens : Opens (i ++ [c] ++ e ++ trail) ↔ Opens i := by
                obtain ⟨a, i, rfl⟩ := exists_cons_of_ne_nil hi
                rfl
              refine ⟨if rc = .declined then .done else rc, last, ?_, ?_, ?_, fun _ => ?_⟩
              · rw [forwardedInternal_trusted ht hlast, hpaddr]
                refine (dif_pos ⟨rfl, by omega⟩).trans ?_
                rw [htake, hcall]
                rfl
              · rw [hsteps, hout.last, getLastD_cons]
              · refine iff_of_false (fun hrc => ?_) (by rw [hsteps]; exact cons_ne_nil _ _)
                split at hrc
                · exact absurd hrc (by decide)
                · next hnot => exact hnot hrc
              · have hrc : (if rc = .declined then .done else rc) = Rc.ok ↔ rc = .ok := by
                  cases rc <;> decide
                rw [hrc, hout.ok rfl, hopens, hall, hwalk, length_cons, length_cons, Nat.succ_inj]

/-! ## All headers -/

theorem walk_take (k : Nat) (es : List Bytes) :
    walk parse trusted addr (es.take k) = (walk parse trusted addr es).take k := by
  induction es generalizing addr k with
  | nil => simp
  | cons e es ih =>
    cases k with
    | zero => rfl
    | succ k =>
      rw [take_succ_cons, walk, walk]
      split
      · cases parse e with
        | none => rfl
        | some paddr => exact congrArg (paddr :: ·) (ih k)
      · rfl

theorem walk_append (es more : List Bytes) :
    walk parse trusted addr (es ++ more) =
      if (walk parse trusted addr es).length = es.length then
        walk parse trusted addr es ++
          walk parse trusted ((walk parse trusted addr es).getLastD addr) more
      else walk parse trusted addr es := by
  induction es generalizing addr with
  | nil => rfl
  | cons e es ih =>
    rw [cons_append, walk, walk]
    split
    · cases parse e with
      | none => rfl
      | some paddr =>
        simp only [ih, length_cons, Nat.succ_inj, getLastD_cons]
        split <;> rfl
    · rfl

theorem stepsIn_eq_take (xff : Bytes) (values : List Bytes) :
    stepsIn parse trusted recursive addr xff =
      (steps parse trusted recursive addr (xff :: values)).take (readable xff) := by
  have hwalk : walk parse trusted addr (seen xff) =
      (walk parse trusted addr ((xff :: values).flatMap elementsBackward)).take (readable xff) := by
    rw [flatMap_cons, ← walk_take, take_append_of_le_length (readable_le xff), seen]
  rw [stepsIn, steps, hwalk]
  cases recursive with
  | false =>
    change List.take 1 _ = List.take _ (List.take 1 _)
    rw [take_take, take_take, min_comm]
  | true => rfl

theorem forwardedLoop_found {rc rc' : Rc} {last : α} (hrc : rc ≠ .declined)
    (h : forwardedLoop parse trusted true rc true addr values = some (rc', last)) :
    rc' ≠ .declined := by
  induction values generalizing rc addr with
  | nil =>
    rw [← (Prod.mk.inj (some.inj h)).1]
    exact hrc
  | cons xff values ih =>
    rw [forwardedLoop] at h
    split at h
    · exact absurd h.symm (some_ne_none _)
    next rc₁ addr₁ _ =>
    rw [if_neg (by decide)] at h
    split at h
    · rw [← (Prod.mk.inj (some.inj h)).1]
      decide
    next hnot =>
    have hne : rc₁ ≠ .declined := fun heq => hnot ⟨heq, rfl⟩
    split at h
    · rw [← (Prod.mk.inj (some.inj h)).1]
      exact hne
    · exact ih hne h

/-- What is asked of the loop, where addresses may have been replaced before. -/
def Came (parse : Bytes → Option α) (trusted : α → Bool) (recursive found : Bool)
    (addr : α) (values : List Bytes) : Prop :=
  ∃ rc last,
    forwardedLoop parse trusted recursive (if found then .ok else .declined) found addr values =
    some (rc, last) ∧
    last = (steps parse trusted recursive addr values).getLastD addr ∧
    (found = false → (rc = .declined ↔ steps parse trusted recursive addr values = []))

theorem forwardedLoop_ends {rc₀ rc : Rc} {last : α}
    (h : forwardedInternal parse trusted recursive addr xff = some (rc, last))
    (hend : recursive = true → rc ≠ .ok) :
    ∃ rc', forwardedLoop parse trusted recursive rc₀ found addr (xff :: values) = some (rc', last) ∧
      (found = false → rc' = rc) := by
  rw [forwardedLoop, h]
  simp only
  by_cases hrec : recursive = false
  · rw [if_pos hrec]
    exact ⟨rc, rfl, fun _ => rfl⟩
  rw [if_neg hrec]
  by_cases hdone : rc = .declined ∧ found = true
  · rw [if_pos hdone]
    exact ⟨.done, rfl, fun hf => absurd (hf.symm.trans hdone.2) Bool.false_ne_true⟩
  · rw [if_neg hdone, if_pos (hend (Bool.eq_true_of_not_eq_false hrec))]
    exact ⟨rc, rfl, fun _ => rfl⟩

theorem came_of_ends {rc : Rc} {last : α}
    (h : forwardedInternal parse trusted recursive addr xff = some (rc, last))
    (hend : recursive = true → rc ≠ .ok) :
    Came parse trusted recursive found addr (xff :: values) ↔
      last = (steps parse trusted recursive addr (xff :: values)).getLastD addr ∧
        (found = false →
          (rc = .declined ↔ steps parse trusted recursive addr (xff :: values) = [])) := by
  obtain ⟨rc', hloop, hrc⟩ := @forwardedLoop_ends _ parse trusted recursive found addr xff values
    (if found then .ok else .declined) rc last h hend
  constructor
  · rintro ⟨rc₁, last₁, hrun, hlast, hdeclined⟩
    obtain ⟨rfl, rfl⟩ := Prod.mk.inj (some.inj (hloop.symm.trans hrun))
    exact ⟨hlast, fun hf => hrc hf ▸ hdeclined hf⟩
  · rintro ⟨hlast, hdeclined⟩
    exact ⟨rc', last, hloop, hlast, fun hf => (hrc hf).symm ▸ hdeclined hf⟩

theorem steps_of_not_trusted (h : trusted addr = false) (values : List Bytes) :
    steps parse trusted recursive addr values = [] := by
  rw [steps, walk_of_not_trusted h]
  cases recursive <;> rfl

theorem steps_opens (hne : xff ≠ []) (hopens : Opens xff)
    (hrec : recursive = true →
      (walk parse trusted addr (elementsBackward xff)).length ≠ (elementsBackward xff).length) :
    steps parse trusted recursive addr (xff :: values) =
      stepsIn parse trusted recursive addr xff := by
  obtain ⟨b, hb, hchar⟩ := opens_mem hne hopens
  have hseen : seen xff = elementsBackward xff := by
    refine seen_of_head fun c hc => ?_
    rw [Opens, mem_def.mp hc, any_some] at hopens
    exact hopens
  rw [steps, stepsIn, hseen, flatMap_cons]
  cases recursive with
  | false =>
    change List.take 1 _ = List.take 1 _
    rw [← walk_take, ← walk_take,
      take_append_of_le_length (length_pos_of_ne_nil (elementsBackward_ne_nil hb hchar))]
  | true =>
    change walk parse trusted addr _ = walk parse trusted addr _
    rw [walk_append, if_neg (hrec rfl)]

theorem getLastD_append (xs ys : List α) (a : α) :
    (xs ++ ys).getLastD a = ys.getLastD (xs.getLastD a) := by
  induction xs generalizing a with
  | nil => rfl
  | cons x xs ih => rw [cons_append, getLastD_cons, ih, getLastD_cons]

theorem came_of_goes {rc : Rc} {last : α} (hne : xff ≠ []) (hopens : Opens xff)
    (hlength : (walk parse trusted addr (elementsBackward xff)).length =
      (elementsBackward xff).length)
    (h : forwardedInternal parse trusted true addr xff = some (rc, last)) (hok : rc = .ok)
    (hlast : last = (stepsIn parse trusted true addr xff).getLastD addr) :
    Came parse trusted true found addr (xff :: values) ↔
      Came parse trusted true true
        ((walk parse trusted addr (elementsBackward xff)).getLastD addr) values := by
  subst hok
  obtain ⟨b, hb, hchar⟩ := opens_mem hne hopens
  have hseen : seen xff = elementsBackward xff := by
    refine seen_of_head fun c hc => ?_
    rw [Opens, mem_def.mp hc, any_some] at hopens
    exact hopens
  have hend : last = (walk parse trusted addr (elementsBackward xff)).getLastD addr := by
    rw [hlast, stepsIn, hseen]
    rfl
  have hsteps : steps parse trusted true addr (xff :: values) =
      walk parse trusted addr (elementsBackward xff) ++ steps parse trusted true last values := by
    rw [steps, flatMap_cons, if_pos rfl, walk_append, if_pos hlength, ← hend, steps, if_pos rfl]
  have hpos : walk parse trusted addr (elementsBackward xff) ≠ [] := by
    refine ne_nil_of_length_pos ?_
    rw [hlength]
    exact length_pos_of_ne_nil (elementsBackward_ne_nil hb hchar)
  have hloop : ∀ rc₀, forwardedLoop parse trusted true rc₀ found addr (xff :: values) =
      forwardedLoop parse trusted true .ok true last values := fun rc₀ => by
    rw [forwardedLoop, h]
    simp only
    rw [if_neg (by decide), if_neg fun hdone =>
      absurd hdone.1 (by decide), if_neg (not_not.mpr rfl)]
  rw [Came, Came, hloop, hsteps, getLastD_append, ← hend]
  constructor
  · rintro ⟨rc', last', hrun, hlast', -⟩
    exact ⟨rc', last', hrun, hlast', fun hf => absurd hf (by decide)⟩
  · rintro ⟨rc', last', hrun, hlast', -⟩
    refine ⟨rc', last', hrun, hlast', fun _ =>
      iff_of_false (forwardedLoop_found (by decide) hrun) ?_⟩
    exact append_ne_nil_of_left_ne_nil hpos _

/-- What several headers give is what one joined list gives. -/
theorem came_iff_follows (hparse : ∀ c e, isSeparator c = true → parse (c :: e) = none)
    (hfound : found = true → recursive = true) :
    Came parse trusted recursive found addr values ↔
      Follows parse trusted recursive found addr values := by
  induction values generalizing found addr with
  | nil =>
    refine iff_of_true ⟨_, _, rfl, ?_, ?_⟩ trivial
    · cases recursive <;> rfl
    · rintro rfl
      exact iff_of_true rfl (by cases recursive <;> rfl)
  | cons xff values ih =>
    rw [Follows]
    cases ht : trusted addr with
    | false =>
      have hcall : forwardedInternal parse trusted recursive addr xff = some (.declined, addr) := by
        rw [forwardedInternal, if_neg (ne_true_of_eq_false ht)]
      rw [came_of_ends hcall fun _ => by decide, steps_of_not_trusted ht]
      exact iff_of_true ⟨rfl, fun _ => iff_of_true rfl rfl⟩ fun h => absurd h Bool.false_ne_true
    | true =>
      rw [forall_prop_of_true rfl]
      by_cases hne : xff = []
      · subst hne
        refine iff_of_false ?_ fun h => h.1 rfl
        rintro ⟨rc, last, hrun, -⟩
        have hcall : forwardedInternal parse trusted recursive addr [] = none := by
          rw [forwardedInternal, if_pos ht]
          rfl
        rw [forwardedLoop, hcall] at hrun
        exact absurd hrun.symm (some_ne_none _)
      · obtain ⟨rc, last, hcall, hout⟩ :=
          @forwardedInternal_outcome _ parse trusted recursive addr xff hparse hne
        rw [and_iff_right hne]
        by_cases hsep : xff.head?.any isSeparator = true
        · have hnot : ¬Opens xff := fun h => absurd (h.symm.trans hsep) Bool.false_ne_true
          rw [if_pos hsep, came_of_ends hcall fun hrec hok =>
            hnot ((hout.ok hrec).mp hok).1, hout.last, hout.declined,
            stepsIn_eq_take xff values, take_eq_nil_iff]
          refine and_congr eq_comm (imp_congr_right fun _ => ?_)
          constructor
          · exact fun h hzero => h.mp (.inl hzero)
          · exact fun h => ⟨fun h' => h'.elim h id, .inr⟩
        · have hopens : Opens xff := eq_false_of_ne_true hsep
          rw [if_neg hsep]
          by_cases hall : recursive = true ∧
            (walk parse trusted addr (elementsBackward xff)).length = (elementsBackward xff).length
          · obtain ⟨rfl, hlength⟩ := hall
            rw [forall_prop_of_true rfl, forall_prop_of_true hlength, ← ih fun _ => rfl]
            exact came_of_goes hne hopens hlength hcall
              ((hout.ok rfl).mpr ⟨hopens, hlength⟩) hout.last
          have hend : recursive = true →
            (walk parse trusted addr (elementsBackward xff)).length ≠
            (elementsBackward xff).length :=
            fun hrec hlength => hall ⟨hrec, hlength⟩
          rw [came_of_ends hcall fun hrec hok =>
            hend hrec ((hout.ok hrec).mp hok).2, steps_opens hne hopens hend]
          exact iff_of_true ⟨hout.last, fun _ => hout.declined⟩ fun hrec hlength =>
            absurd hlength (hend hrec)

/-! ## Addresses -/

theorem isDecimal_separator (hc : isSeparator c = true) :
    isDecimal c = false ∧ c ≠ chr '.' ∧ c ≠ chr ':' ∧ c ≠ chr '[' := by
  rw [isSeparator, Bool.or_eq_true, beq_iff_eq, beq_iff_eq] at hc
  rcases hc with rfl | rfl <;> decide

theorem parseAddr_separator (hc : isSeparator c = true) (e : Bytes) :
    parseAddr (c :: e) = none := by
  obtain ⟨hdigit, hdot, hcolon, -⟩ := isDecimal_separator hc
  have hinet : inetAddr (c :: e) = inaddrNone := by
    rw [inetAddr, inetAddrLoop, hdigit]
    exact if_neg hdot
  have hnibble : ({} : Inet6State).nibble c = none := by
    rw [isSeparator, Bool.or_eq_true, beq_iff_eq, beq_iff_eq] at hc
    rcases hc with rfl | rfl <;> rfl
  have hbytes : inet6Bytes (c :: e) = none := by
    rw [inet6Bytes, if_neg hcolon, inet6Loop, if_neg hcolon, if_neg fun h => hdot h.1, hnibble]
    rfl
  have hinet6 : inet6Addr (c :: e) = none := by
    rw [inet6Addr]
    split
    · next heq => exact absurd (heq.symm.trans hbytes) (some_ne_none _)
    · rfl
  rw [parseAddr, hinet, hinet6]
  exact if_neg (not_not.mpr rfl)

theorem withPort_separator (hc : isSeparator c = true) (e port : Bytes) :
    withPort (c :: e) port = none := by
  rw [withPort]
  split
  · rfl
  · split
    · rfl
    · rw [parseAddr_separator hc]
      rfl

theorem parseAddrPort_separator (hc : isSeparator c = true) (e : Bytes) :
    parseAddrPort (c :: e) = none := by
  obtain ⟨-, -, hcolon, hbracket⟩ := isDecimal_separator hc
  rw [parseAddrPort, parseAddr_separator hc]
  simp only
  rw [head?_cons, if_neg fun h => hbracket (some.inj h)]
  split
  · next d p hp =>
    have hskip : (c :: e).dropWhile (· != chr ':') = e.dropWhile (· != chr ':') :=
      dropWhile_cons_of_pos (by exact bne_iff_ne.mpr hcolon)
    have hle : (d :: p).length ≤ e.length := by
      rw [← hp, hskip]
      exact (dropWhile_suffix _).length_le
    obtain ⟨k, hk⟩ : ∃ k, (c :: e).length - (p.length + 1) = k + 1 := by
      rw [length_cons] at hle ⊢
      exact Nat.exists_eq_succ_of_ne_zero (by omega)
    rw [hk, take_succ_cons, withPort_separator hc]
  · rfl

/-- The values whose elements are walked over, the last header first. -/
def valuesOf (headers : Option (List Bytes)) (value : Bytes) : List Bytes :=
  match headers with
  | none => [value]
  | some headers => headers.reverse

/-- A call for any addresses, headers and blocks does what is asked of it exactly where the walk
comes out as it should. -/
theorem getForwardedAddr_iff (addr : SockAddr) (headers : Option (List Bytes))
    (value : Bytes) (proxies : List Cidr)
    (recursive : Bool) :
    Walked parseAddrPort (cidrMatch · proxies) recursive addr (valuesOf headers value)
        (getForwardedAddr addr headers value proxies recursive) ↔
      Follows parseAddrPort (cidrMatch · proxies) recursive false addr
        (valuesOf headers value) := by
  rw [← came_iff_follows (fun c e hc => parseAddrPort_separator hc e) fun h =>
    absurd h Bool.false_ne_true]
  have hcame : ∀ values, Came parseAddrPort (cidrMatch · proxies) recursive false addr values ↔
      Walked parseAddrPort (cidrMatch · proxies) recursive addr values
        (forwardedLoop parseAddrPort
          (cidrMatch · proxies) recursive .declined false addr values) := by
    intro values
    simp only [Came, Walked, forall_prop_of_true]
    rfl
  cases headers with
  | some headers => exact (hcame _).symm
  | none =>
    have hone : forwardedLoop parseAddrPort
      (cidrMatch · proxies) recursive .declined false addr [value] =
        forwardedInternal parseAddrPort (cidrMatch · proxies) recursive addr value := by
      rw [forwardedLoop]
      split
      · next heq => exact heq.symm
      next rc addr₁ heq =>
      rw [heq]
      split
      · rfl
      · rw [if_neg fun h => absurd h.2 Bool.false_ne_true]
        split
        · rfl
        · next hok => rfl
    have hvalues : valuesOf none value = [value] := rfl
    rw [hvalues, hcame, hone]
    rfl

/-- An empty value, where every address is trusted: the byte in front of it is read. -/
theorem getForwardedAddr_empty :
    ¬Walked parseAddrPort (cidrMatch · [.inet 0 0]) true (.inet 1 0) (valuesOf (some [[]]) [])
      (getForwardedAddr (.inet 1 0) (some [[]]) [] [.inet 0 0] true) := by
  rintro ⟨rc, last, hcall, -⟩
  have hnone : forwardedInternal parseAddrPort (cidrMatch · [.inet 0 0]) true (.inet 1 0) [] =
    none := by
    rw [forwardedInternal, if_pos (by decide)]
    rfl
  have hloop : getForwardedAddr (.inet 1 0) (some [[]]) [] [.inet 0 0] true = none := by
    rw [getForwardedAddr, reverse_singleton, forwardedLoop, hnone]
  exact absurd (hcall.symm.trans hloop) (some_ne_none _)

end Nginx.Http.Forwarded
