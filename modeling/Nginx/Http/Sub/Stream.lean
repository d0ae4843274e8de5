/-
  Http/Sub/Stream.lean --- a response that is cut into buffers goes through the filter as
  its bytes go through a substitution, but for what is kept at the end of it.
-/
import Nginx.Http.Sub.Scan

set_option autoImplicit false

namespace Nginx.Http.Sub

open List Foundation
open Nginx.Core (tolower)

/-! ## Buffers -/

theorem bufferLoop_nil (tables : SubTables) (subs : List SubMatch)
    (last : Bool) (turns : Nat) (s : SubState) :
    bufferLoop tables subs last turns s [] = s := by
  cases turns with
  | zero => rfl
  | succ turns => exact if_pos rfl

theorem filterChain_empty (tables : SubTables) (subs : List SubMatch) {calls : List (List SubBuf)}
    (hcalls : calls.flatten = []) (s : SubState) :
    calls.foldl (fun s chain => filterChain tables subs false chain s) s = s := by
  induction calls with
  | nil => rfl
  | cons chain calls ih =>
    rw [flatten_cons] at hcalls
    obtain ⟨rfl, hcalls⟩ := append_eq_nil_iff.mp hcalls
    exact ih hcalls

/-- The filter between two buffers, when it has read `text`. -/
structure Kept (pairs : List SubMatch) (tables : SubTables) (subs : List SubMatch)
    (text : Bytes) (s : SubState) :
    Prop where
  passed : Passed tolower pairs text s.out s.ctx.looked
  pending : Pending tables subs s.ctx
  settled : Settled pairs tables s.ctx.looked
  most_lt : s.most < tables.maxMatchLen

/-- The filter at the end of a response: what was kept has been passed on. -/
structure Ended (pairs : List SubMatch) (tables : SubTables) (text : Bytes) (s : SubState) :
    Prop where
  out : ∃ passed looked, s.out = passed ++ looked ∧ Passed tolower pairs text passed looked ∧
    Settled pairs tables looked
  most_lt : s.most < tables.maxMatchLen

section stream

variable {pairs : List SubMatch} {tables : SubTables} {subs : List SubMatch}
    (h : Tabled pairs tables subs)

include h

theorem Tabled.kept_init : Kept pairs tables subs [] (.init tables) := by
  have hpos := h.min_pos
  have hle := h.min_le_max
  refine ⟨Passed.refl [], ⟨?_, .inl rfl, ?_⟩, .inl hpos, ?_⟩
  · unfold SubState.init
    simp
  · unfold SubState.init
    simp only [length_nil]
    omega
  · unfold SubState.init
    simp only
    omega

variable {text : Bytes} {s : SubState}

/-- The loop over a buffer, with what has been passed on as the invariant. -/
theorem Tabled.bufferLoop_kept {rest : Bytes} {last : Bool} {turns : Nat}
    (hturns : (s.ctx.looked ++ rest).length < turns)
    (hpassed : Passed tolower pairs text s.out (s.ctx.looked ++ rest))
    (hpending : Pending tables subs s.ctx)
    (hsettled : rest = [] → Settled pairs tables s.ctx.looked)
    (hmost : s.most < tables.maxMatchLen) :
    Kept pairs tables subs text (bufferLoop tables subs last turns s rest) := by
  induction turns generalizing s rest with
  | zero => exact absurd hturns (Nat.not_lt_zero _)
  | succ turns ih =>
    unfold bufferLoop
    split
    next hnil =>
      subst hnil
      rw [append_nil] at hpassed
      exact ⟨hpassed, hpending, hsettled rfl, hmost⟩
    next hne =>
      obtain ⟨hsaved, hparsed⟩ := h.parse_spec hpending hne last
      have hlooked := hpending.looked_lt
      simp only
      generalize parse tables subs s.ctx rest last = r at hsaved hparsed ⊢
      have hpos := length_pos_of_ne_nil hne
      rw [length_append] at hturns
      rcases hparsed with hagain | ⟨m, hreplaces⟩
      · have hkept := hagain.pending.looked_lt
        rw [hagain.replaced, hagain.rest]
        simp only [bufferLoop_nil]
        refine ⟨?_, hagain.pending, hagain.settled, ?_⟩
        · have hout := hpassed.trans hagain.passed
          rw [← append_assoc] at hout
          exact hout
        · simp only
          omega
      · have hkept := hreplaces.pending.looked_lt
        have hless := hreplaces.less
        rw [hreplaces.replaced]
        refine ih ?_ ?_ hreplaces.pending hreplaces.settled ?_
        · have hlength := @length_append _ s.ctx.looked rest
          simp only
          omega
        · have hout := hpassed.trans hreplaces.passed
          simp only [append_assoc] at hout ⊢
          exact hout
        · simp only at hkept ⊢
          omega

theorem Tabled.bufferLoop_data (hs : Kept pairs tables subs text s) (data : Bytes)
    (last : Bool) :
    Kept pairs tables subs (text ++ data)
      (bufferLoop tables subs last (s.ctx.looked.length + data.length + 1) s data) := by
  refine h.bufferLoop_kept ?_ (hs.passed.append data) hs.pending (fun _ => hs.settled) hs.most_lt
  rw [length_append]
  omega

theorem Tabled.filterBuf_kept (hs : Kept pairs tables subs text s) (flush : Bool)
    {buf : SubBuf} (hbuf : buf.last = false) :
    Kept pairs tables subs (text ++ buf.data) (filterBuf tables subs flush s buf) := by
  unfold filterBuf
  simp only [hbuf, Bool.false_eq_true, and_false, if_false]
  exact h.bufferLoop_data hs buf.data flush

theorem Tabled.filterBuf_ended (hs : Kept pairs tables subs text s) (flush : Bool)
    {buf : SubBuf} (hbuf : buf.last = true) :
    Ended pairs tables (text ++ buf.data) (filterBuf tables subs flush s buf) := by
  have hkept := h.bufferLoop_data hs buf.data flush
  unfold filterBuf
  simp only [hbuf, and_true]
  split
  next => exact ⟨⟨_, _, rfl, hkept.passed, hkept.settled⟩, hkept.most_lt⟩
  next hnil =>
    refine ⟨⟨_, _, ?_, hkept.passed, hkept.settled⟩, hkept.most_lt⟩
    rw [not_not.mp hnil, append_nil]

/-! ## Chains and calls -/

/-- The bytes in a list of buffers. -/
def bytesOf (bufs : List SubBuf) : Bytes := bufs.flatMap SubBuf.data

theorem Tabled.filterChain_kept {chain : List SubBuf}
    (hchain : ∀ buf ∈ chain, buf.last = false) (hs : Kept pairs tables subs text s) (flush : Bool) :
    Kept pairs tables subs (text ++ bytesOf chain) (filterChain tables subs flush chain s) := by
  induction chain generalizing text s flush with
  | nil =>
    unfold bytesOf filterChain
    rw [flatMap_nil, append_nil]
    exact hs
  | cons buf chain ih =>
    obtain ⟨hbuf, hchain⟩ := forall_mem_cons.mp hchain
    have hrest :=
      ih hchain (h.filterBuf_kept hs (chain.isEmpty && (flush || buf.flush)) hbuf)
        (flush || buf.flush)
    unfold bytesOf at hrest ⊢
    rw [flatMap_cons, ← append_assoc]
    exact hrest

theorem Tabled.filterChain_ended {bufs : List SubBuf}
    (hbufs : ∀ buf ∈ bufs, buf.last = false) {final : SubBuf}
    (hfinal : final.last = true) (hs : Kept pairs tables subs text s) (flush : Bool) :
    Ended pairs tables (text ++ bytesOf (bufs ++ [final]))
      (filterChain tables subs flush (bufs ++ [final]) s) := by
  induction bufs generalizing text s flush with
  | nil =>
    have hended := h.filterBuf_ended hs (true && (flush || final.flush)) hfinal
    unfold bytesOf
    rw [nil_append, flatMap_cons, flatMap_nil, append_nil]
    exact hended
  | cons buf bufs ih =>
    obtain ⟨hbuf, hbufs⟩ := forall_mem_cons.mp hbufs
    have hrest :=
      ih hbufs (h.filterBuf_kept hs ((bufs ++ [final]).isEmpty && (flush || buf.flush)) hbuf)
      (flush || buf.flush)
    unfold bytesOf at hrest ⊢
    rw [cons_append, flatMap_cons, ← append_assoc]
    exact hrest

theorem Tabled.calls_ended {calls : List (List SubBuf)} {bufs : List SubBuf} {final : SubBuf}
    (hcalls : calls.flatten = bufs ++ [final]) (hbufs : ∀ buf ∈ bufs, buf.last = false)
    (hfinal : final.last = true) (hs : Kept pairs tables subs text s) :
    Ended pairs tables (text ++ bytesOf calls.flatten)
      (calls.foldl (fun s chain => filterChain tables subs false chain s) s) := by
  induction calls generalizing text s bufs with
  | nil => exact absurd hcalls.symm (append_ne_nil_of_right_ne_nil bufs (cons_ne_nil final []))
  | cons chain calls ih =>
    rw [foldl_cons]
    rcases eq_nil_or_concat' calls.flatten with hnil | ⟨later, last, hlater⟩
    · rw [flatten_cons, hnil, append_nil] at hcalls
      rw [filterChain_empty tables subs hnil, flatten_cons, hnil, append_nil, hcalls]
      exact h.filterChain_ended hbufs hfinal hs false
    rw [flatten_cons, hlater, ← append_assoc] at hcalls
    obtain ⟨rfl, hlast⟩ := append_inj' hcalls rfl
    obtain rfl := singleton_inj.mp hlast
    have hrest := ih hlater (fun buf hbuf => hbufs buf (mem_append_right _ hbuf))
      (h.filterChain_kept (fun buf hbuf => hbufs buf (mem_append_left _ hbuf)) hs false)
    unfold bytesOf at hrest ⊢
    rw [flatten_cons, flatMap_append, ← append_assoc]
    exact hrest

end stream

/-! ## The response -/

theorem Ended.out_eq_iff {pairs : List SubMatch} {tables : SubTables} {subs : List SubMatch}
    (h : Tabled pairs tables subs) {text : Bytes} {s : SubState} (hs : Ended pairs tables text s) :
    s.out = substitute tolower pairs 0 text ↔
      substitute tolower pairs 0 (cutOff tolower pairs 0 text) = cutOff tolower pairs 0 text := by
  obtain ⟨passed, looked, hout, hpassed, hsettled⟩ := hs.out
  have hsubstitute := hpassed.substitute []
  have hcutOff := hpassed.cutOff []
  rw [append_nil, append_nil] at hsubstitute hcutOff
  rw [hout, hsubstitute, hcutOff, append_cancel_left_eq]
  rcases hsettled with hshort | ⟨m, hfind, hcut⟩
  · have hfree : Free tolower pairs looked := free_of_short fun m hm =>
      lt_of_lt_of_le hshort (h.min_le m hm)
    obtain ⟨n, hn⟩ := @exists_cutOff_eq_drop _ _ tolower pairs 0 looked
    rw [substitute_of_free hfree, hn, substitute_of_free (hfree.drop n)]
    exact iff_of_true rfl rfl
  · rw [cutOff_eq_self hfind hcut]
    exact eq_comm

theorem subFilter_ended {pairs : List SubMatch} (hne : pairs ≠ []) (hcount : pairs.length ≤ 255)
    (hpatterns : ∀ m ∈ pairs, m.pattern ≠ []) {calls : List (List SubBuf)}
    {bufs : List SubBuf} {final : SubBuf}
    (hcalls : calls.flatten = bufs ++ [final]) (hbufs : ∀ buf ∈ bufs, buf.last = false)
    (hfinal : final.last = true) :
    Ended pairs (initTables pairs).1 (bytesOf calls.flatten) (subFilter pairs calls) := by
  have h := tabled_initTables hne hcount hpatterns
  exact h.calls_ended hcalls hbufs hfinal h.kept_init

theorem subFilter_out_iff {pairs : List SubMatch} (hne : pairs ≠ []) (hcount : pairs.length ≤ 255)
    (hpatterns : ∀ m ∈ pairs, m.pattern ≠ []) {calls : List (List SubBuf)}
    {bufs : List SubBuf} {final : SubBuf}
    (hcalls : calls.flatten = bufs ++ [final]) (hbufs : ∀ buf ∈ bufs, buf.last = false)
    (hfinal : final.last = true) :
    ((subFilter pairs calls).out = substitute tolower pairs 0 (bytesOf calls.flatten) ↔
      substitute tolower pairs 0 (cutOff tolower pairs 0 (bytesOf calls.flatten)) =
        cutOff tolower pairs 0 (bytesOf calls.flatten)) ∧
      (subFilter pairs calls).most ≤ (initTables pairs).1.maxMatchLen - 1 := by
  have hended := subFilter_ended hne hcount hpatterns hcalls hbufs hfinal
  exact ⟨hended.out_eq_iff (tabled_initTables hne hcount hpatterns),
    Nat.le_sub_one_of_lt hended.most_lt⟩

/-- A pattern that comes in two pieces. -/
theorem subFilter_twoPieces :
    (subFilter [⟨[97, 98], [50]⟩] [[⟨[120, 97], false, false⟩],
      [⟨[66], true, false⟩, ⟨[], false, true⟩]]).out =
      [120, 50] := by
  have hout := (@subFilter_out_iff [⟨[97, 98], [50]⟩] (cons_ne_nil _ _) (by decide) (by decide)
    [[⟨[120, 97], false, false⟩], [⟨[66], true, false⟩, ⟨[], false, true⟩]]
    [⟨[120, 97], false, false⟩, ⟨[66], true, false⟩] ⟨[], false, true⟩ rfl (by decide) rfl).1.mpr
      (by decide)
  exact hout.trans (by decide)

set_option maxRecDepth 20000 in
/-- The end of the response cuts off the first pattern, and the second one is not looked for. -/
theorem subFilter_shorterAtEnd :
    (subFilter [⟨[97, 98, 99, 100], [49]⟩, ⟨[97, 98], [50]⟩] [[⟨[97, 98], false, true⟩]]).out =
      [97, 98] ∧
      substitute tolower [⟨[97, 98, 99, 100], [49]⟩, ⟨[97, 98], [50]⟩] 0 [97, 98] = [50] := by
  have hsorted : sortByKey (cmpByte 1) [⟨[97, 98, 99, 100], [49]⟩, ⟨[97, 98], [50]⟩] =
      [⟨[97, 98, 99, 100], [49]⟩, ⟨[97, 98], [50]⟩] := mergeSort_of_pairwise (by decide)
  have hmin : min [(97 : Byte), 98, 99, 100].length [(97 : Byte), 98].length - 1 = 1 := rfl
  refine ⟨?_, by decide⟩
  unfold subFilter initTables
  simp only [foldl_cons, foldl_nil]
  rw [hmin, hsorted]
  rfl

end Nginx.Http.Sub
