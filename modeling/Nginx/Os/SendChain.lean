/-
  Os/SendChain.lean --- the chain is sent: what the kernel takes is a prefix of its bytes, and
  the chain that is returned is the rest of it.

  The invariant of both loops says how many bytes are sent so far; a turn of a loop adds to
  them, or is the last one.
-/
import Nginx.Os.OutputBytes

set_option autoImplicit false

namespace Nginx.Os

open List Foundation
open Nginx.Core

/-! ## So many bytes are sent -/

/-- The chain can be sent. -/
structure Outgoing (L : Layout) (s : SendState) : Prop where
  nodup : s.chain.Nodup
  sendable : ∀ id ∈ s.chain, Sendable (s.heap.buf id)
  laid : ∀ id ∈ s.chain, Laid L id (s.heap.buf id)

/-- Of the chain of `s₀` the first `k` bytes are sent, and the rest is what `s` has. -/
structure Sent (s₀ s : SendState) (k : Nat) : Prop where
  le : k ≤ (s₀.heap.bytes s₀.chain).length
  sent : s.sent = s₀.sent + k
  wire : s.wire = s₀.wire ++ (s₀.heap.bytes s₀.chain).take k
  rest : s.heap.bytes s.chain = (s₀.heap.bytes s₀.chain).drop k
  /-- nothing is left of the buffers in front of the rest -/
  front : ∃ front, s₀.chain = front ++ s.chain ∧ ∀ id ∈ front, (s.heap.buf id).size = 0
  same : ∀ id, s.heap.buf id =
    { s₀.heap.buf id with pos := (s.heap.buf id).pos, filePos := (s.heap.buf id).filePos }

/-- The chain is at its end, or at a buffer of which something is left. -/
def AtBuffer (s : SendState) : Prop :=
  ∀ id ∈ s.chain.head?, (s.heap.buf id).special = false ∧ (s.heap.buf id).size ≠ 0

/-- No more than `limit` is sent, or else what is sent beyond it is of a buffer of a file, and
ends where the page does in which the limit is at the latest. -/
def Within (L : Layout) (limit : Nat) (s₀ s : SendState) (k : Nat) : Prop :=
  k ≤ limit ∨ ∃ f ∈ s₀.chain, (s₀.heap.buf f).inFile = true ∧ k - limit ≤ (s.heap.buf f).filePos ∧
    (s.heap.buf f).filePos ≤ alignUp L.pageSize ((s.heap.buf f).filePos - (k - limit))

variable {L : Layout} {limit k : Nat} {s₀ s : SendState}

theorem Sent.refl (s : SendState) : Sent s s 0 :=
  ⟨Nat.zero_le _, rfl, by simp, rfl, ⟨[], rfl, by simp⟩, fun _ => rfl⟩

theorem special_same {b b' : NgxBuf} (h : b' = { b with pos := b'.pos, filePos := b'.filePos }) :
    b'.special = b.special ∧ b'.inMemory = b.inMemory ∧ b'.inFile = b.inFile ∧
      b'.areaBytes = b.areaBytes ∧ b'.file = b.file := by
  rw [h]
  exact ⟨rfl, rfl, rfl, rfl, rfl⟩

theorem Outgoing.take (h : Outgoing L s) (bytes : Bytes) (n : Nat) :
    Outgoing L (s.take bytes n) := by
  have hspec := updateSent_spec h.nodup (fun id hid => (h.sendable id hid).whole) n
  have hsame := updateSent_same s.heap s.chain n
  have hsub : ∀ id ∈ (s.take bytes n).chain, id ∈ s.chain := fun id hid => hspec.suffix.subset hid
  refine ⟨h.nodup.sublist hspec.suffix.sublist, fun id hid => ?_, fun id hid => ?_⟩
  · obtain ⟨hs, hm, hf, -, -⟩ := special_same (hsame id)
    refine ⟨hspec.whole id hid, (h.sendable id (hsub id hid)).kind.imp (fun hk => ?_) fun hk => ?_⟩
    · exact hs.trans hk
    · refine ⟨hs.trans hk.1, hspec.size id hid hk.2.1, ?_⟩
      change ((updateSent s.heap s.chain n).1.buf id).inMemory =
        !((updateSent s.heap s.chain n).1.buf id).inFile
      rw [hm, hf]
      exact hk.2.2
  · obtain ⟨-, -, -, ha, hf⟩ := special_same (hsame id)
    have hl := h.laid id (hsub id hid)
    refine ⟨fun j hj => ?_, hf.trans hl.file⟩
    change j < ((updateSent s.heap s.chain n).1.buf id).areaBytes.length at hj
    change _ = ((updateSent s.heap s.chain n).1.buf id).areaBytes[j]
    simp only [ha] at hj ⊢
    exact hl.mem j hj

theorem inFile_take (s : SendState) (bytes : Bytes) (n id : Nat) :
    ((s.take bytes n).heap.buf id).inFile = (s.heap.buf id).inFile :=
  (special_same (updateSent_same s.heap s.chain n id)).2.2.1

variable {bytes : Bytes}

theorem Outgoing.mem_take (h : Outgoing L s) {n id : Nat} (hid : id ∈ (s.take bytes n).chain) :
    id ∈ s.chain :=
  (updateSent_spec h.nodup (fun id hid => (h.sendable id hid).whole) n).suffix.subset hid

theorem Sent.take (h : Sent s₀ s k) (hnodup : s₀.chain.Nodup) (hout : Outgoing L s)
    {n : Nat} (hle : n ≤ (s.heap.bytes s.chain).length)
    (hbytes : bytes.take n = (s.heap.bytes s.chain).take n) :
    Sent s₀ (s.take bytes n) (k + n) ∧ AtBuffer (s.take bytes n) := by
  have hwhole := fun id hid => (hout.sendable id hid).whole
  have hspec := updateSent_spec hout.nodup hwhole n
  have hsame := updateSent_same s.heap s.chain n
  obtain ⟨front', hfront', hzero', hhead⟩ := updateSent_rest hout.nodup hwhole
    (fun id hid => (hout.sendable id hid).kind.imp_right fun hk => ⟨hk.1, hk.2.1⟩) n
  obtain ⟨front, hfront, hzero⟩ := h.front
  rw [h.rest, length_drop] at hle
  refine ⟨⟨by have := h.le; omega, ?_, ?_, ?_, ⟨front ++ front', ?_, ?_⟩, fun id => ?_⟩, hhead⟩
  · change s.sent + n = _
    rw [h.sent]
    omega
  · change s.wire ++ bytes.take n = _
    rw [h.wire, hbytes, h.rest, append_assoc, take_add]
  · change (updateSent s.heap s.chain n).1.bytes (updateSent s.heap s.chain n).2 = _
    rw [hspec.bytes, h.rest, drop_drop]
  · rw [append_assoc]
    change _ = front ++ (front' ++ (updateSent s.heap s.chain n).2)
    rw [← hfront', ← hfront]
  · intro id hid
    rcases mem_append.mp hid with hid | hid
    · rw [hfront] at hnodup
      change ((updateSent s.heap s.chain n).1.buf id).size = 0
      rw [hspec.others id fun hc => (nodup_append.mp hnodup).2.2 id hid id hc rfl]
      exact hzero id hid
    · exact hzero' id hid
  · change (updateSent s.heap s.chain n).1.buf id = _
    rw [hsame id, h.same id]
    rfl

/-! ## What the kernel takes -/

theorem KernelResult.count_le (r : KernelResult) (size : Nat) : r.count size ≤ size := by
  cases r with
  | again => exact Nat.zero_le _
  | taken n => exact min_le_right _ _

theorem KernelResult.count_pos {r : KernelResult} (h : r ≠ .again) {size : Nat} (hsize : size ≠ 0) :
    0 < r.count size := by
  cases r with
  | again => exact absurd rfl h
  | taken n => exact lt_min (Nat.succ_pos n) (Nat.pos_of_ne_zero hsize)

/-- The loop is done, with `k` bytes sent. -/
structure Done (L : Layout) (limit : Nat) (s₀ s : SendState) (k : Nat) : Prop where
  sent : Sent s₀ s k
  atBuffer : AtBuffer s
  within : Within L limit s₀ s k

theorem Done.notReady (h : Done L limit s₀ s k) : Done L limit s₀ { s with ready := false } k :=
  ⟨⟨h.sent.le, h.sent.sent, h.sent.wire, h.sent.rest, h.sent.front, h.sent.same⟩,
    h.atBuffer, h.within⟩

/-- The loop of `step` is about to send more. -/
def Goes (step : Nat → KernelResult → SendState → SendStep) (L : Layout)
    (limit : Nat) (I : SendState → Nat → Prop)
    (s₀ : SendState) : Prop :=
  ∀ s k r, I s k → (∃ s' k', step k r s = .returned s' ∧ Done L limit s₀ s' k') ∨
    ∃ s' k', step k r s = .again k' s' ∧ k < k' ∧ k' ≤ (s₀.heap.bytes s₀.chain).length ∧ I s' k'

variable {calls : Nat}

theorem sendLoop_done {step : Nat → KernelResult → SendState → SendStep}
    {I : SendState → Nat → Prop}
    (hgoes : Goes step L limit I s₀) (kernel : Nat → KernelResult) (hI : I s k)
    (hle : k ≤ (s₀.heap.bytes s₀.chain).length)
    (hcalls : (s₀.heap.bytes s₀.chain).length < calls + k) :
    ∃ s' k', sendLoop step calls kernel k s = some (some s') ∧ Done L limit s₀ s' k' := by
  induction calls generalizing kernel s k with
  | zero => omega
  | succ calls ih =>
    unfold sendLoop
    rcases hgoes s k (kernel 0) hI with ⟨s', k', hstep, hdone⟩ | ⟨s', k', hstep, hlt, hle, hI'⟩
    · rw [hstep]
      exact ⟨s', k', rfl, hdone⟩
    · rw [hstep]
      exact ih _ hI' hle (by omega)

/-! ## `ngx_writev_chain` -/

/-- Chains of memory, with less than the limit sent. -/
structure Writing (L : Layout) (limit : Nat) (s₀ s : SendState) (k : Nat) : Prop where
  sent : Sent s₀ s k
  out : Outgoing L s
  lt : k < limit
  memory : ∀ id ∈ s.chain, (s.heap.buf id).inFile = false

theorem subWord_limit {limit k : Nat} (hle : k < limit) (hlim : limit < 2 ^ 64) :
    subWord limit k = limit - k := subWord_of_le hle.le hlim

theorem outputChainToIovec_spec {heap : Heap} {chain : List Nat}
    (hgood : ∀ id ∈ chain, Sendable (heap.buf id))
    (hlaid : ∀ id ∈ chain, Laid L id (heap.buf id)) {room : Nat} (hroom : 0 < room) :
    ∃ iovs size cl, outputChainToIovec L heap chain room = some (iovs, size, cl) ∧ size ≤ room ∧
      size ≤ (heap.bytes chain).length ∧
        (L.vecBytes iovs).take size = (heap.bytes chain).take size ∧
      (∃ front, chain = front ++ cl ∧ (size < room → (heap.bytes front).length = size)) ∧
        (size = 0 ↔ iovs.length = 0) ∧
      (size = 0 → cl = [] ∨ ∃ id rest, cl = id :: rest ∧ (heap.buf id).inFile = true) := by
  have hfilled : Filled L [] none 0 := ⟨rfl, Nat.zero_le _, le_rfl, nofun⟩
  obtain ⟨iovs, size, cl, heq, ⟨n, hn, hle, hv⟩, hmax, hshort, ⟨front, hfront, hlen⟩, hend⟩ :=
    toIovec_spec room hgood hlaid hfilled
  rw [zero_add] at hn
  subst hn
  rw [show L.vecBytes [].reverse = [] from rfl, nil_append] at hv
  rw [zero_max] at hmax
  refine ⟨iovs, size, cl, heq, hmax, hle, ?_, ⟨front, hfront, fun h => by simpa using hlen h⟩,
    ⟨fun h => by omega, fun h => ?_⟩,
    fun h => ?_⟩
  · rw [hv, take_take, min_self]
  · rw [eq_nil_of_length_eq_zero h, vecBytes_nil] at hv
    have := congrArg List.length hv
    rw [length_nil, length_take] at this
    omega
  · rcases hend with h' | h' | ⟨id, rest, hcl, hfile, -⟩ | h'
    · exact .inl h'
    · omega
    · exact .inr ⟨id, rest, hcl, hfile⟩
    · rw [h'] at hshort
      unfold iovsPreallocate at hshort
      omega

theorem chain_eq_nil (h : AtBuffer s) (hout : Outgoing L s) (hnil : s.heap.bytes s.chain = []) :
    s.chain = [] := by
  cases hc : s.chain with
  | nil => rfl
  | cons id chain =>
    rw [hc] at hnil
    have hsize := (h id (by rw [hc]; rfl)).2
    have hb := (hout.sendable id (by rw [hc]; exact mem_cons_self)).bytes_length
    rw [Heap.bytes_cons] at hnil
    rw [(append_eq_nil_iff.mp hnil).1] at hb
    exact absurd hb.symm hsize

theorem writevStep_goes (hnodup : s₀.chain.Nodup) (hlim : limit < 2 ^ 64) :
    Goes (writevStep L limit) L limit (Writing L limit s₀) s₀ := by
  intro s k r hI
  obtain ⟨iovs, size, cl, heq, hroom, hle, hv, ⟨front, hfront, hlen⟩, -, hzero⟩ :=
    outputChainToIovec_spec hI.out.sendable hI.out.laid (by have := hI.lt; omega : 0 < limit - k)
  have hnofile : cl.head?.any (fun id => (s.heap.buf id).inFile) = false := by
    cases cl with
    | nil => rfl
    | cons id cl => exact hI.memory id (by rw [hfront]; simp)
  unfold writevStep
  rw [subWord_limit hI.lt hlim, heq]
  simp only [hnofile, Bool.false_eq_true, if_false]
  have hcount := r.count_le size
  generalize r.count size = n at *
  have hvec : (L.vecBytes iovs).take n = (s.heap.bytes s.chain).take n := by
    have := congrArg (List.take n) hv
    rwa [take_take, take_take, min_eq_left hcount] at this
  obtain ⟨hsent, hat⟩ := hI.sent.take hnodup hI.out (hcount.trans hle) hvec
  have hdone : Done L limit s₀ (s.take (L.vecBytes iovs) n) (k + n) :=
    ⟨hsent, hat, .inl (by have := hI.lt; omega)⟩
  by_cases hpart : size ≠ n
  · rw [if_pos hpart]
    exact .inl ⟨_, _, rfl, hdone.notReady⟩
  rw [if_neg hpart]
  rw [not_not] at hpart
  subst hpart
  by_cases hend : k + size ≥ limit ∨ (s.take (L.vecBytes iovs) size).chain = []
  · rw [if_pos hend]
    exact .inl ⟨_, _, rfl, hdone⟩
  rw [if_neg hend]
  rw [not_or, not_le] at hend
  right
  refine ⟨_, _, rfl, ?_, hsent.le, ⟨hsent, hI.out.take _ _, hend.1, fun id hid => ?_⟩⟩
  · -- a vector is empty only where nothing but special buffers is left
    by_contra hzero'
    have hsize : size = 0 := by omega
    refine hend.2 (chain_eq_nil hat (hI.out.take _ _) ?_)
    rw [hsent.rest, hsize, add_zero, ← hI.sent.rest]
    rcases hzero hsize with hcl | ⟨id, rest, hcl, hfile⟩
    · rw [hcl, append_nil] at hfront
      rw [hfront]
      exact eq_nil_of_length_eq_zero ((hlen (by omega)).trans hsize)
    · have := hI.memory id (by rw [hfront, hcl]; simp)
      rw [hfile] at this
      exact absurd this.symm Bool.false_ne_true
  · rw [inFile_take]
    exact hI.memory id (hI.out.mem_take hid)

/-! ## `ngx_linux_sendfile_chain` -/

/-- More than the limit is sent only of a buffer of a file that is not sent whole yet. -/
structure Sending (L : Layout) (limit : Nat) (s₀ s : SendState) (k : Nat) : Prop where
  sent : Sent s₀ s k
  out : Outgoing L s
  within : Within L limit s₀ s k
  past : limit ≤ k → ∃ f rest, s.chain = f :: rest ∧ (s.heap.buf f).inFile = true

theorem sendfileResult_goes (h : Sending L limit s₀ s k) (hnodup : s₀.chain.Nodup) {size : Nat}
    (hle : size ≤ (s.heap.bytes s.chain).length)
    (hv : bytes.take size = (s.heap.bytes s.chain).take size)
    (hwithin : ∀ n, n ≤ size → Within L limit s₀ (s.take bytes n) (k + n))
    (hpast : ∀ n, n < size → limit ≤ k + n → ∃ f rest, (s.take bytes n).chain = f :: rest ∧
      ((s.take bytes n).heap.buf f).inFile = true)
    (hzero : size = 0 → limit ≤ k ∨ (s.take bytes 0).chain = []) (r : KernelResult) :
    (∃ s' k', sendfileResult limit k size bytes r s = .returned s' ∧ Done L limit s₀ s' k') ∨
      ∃ s' k', sendfileResult limit k size bytes r s = .again k' s' ∧ k < k' ∧
        k' ≤ (s₀.heap.bytes s₀.chain).length ∧ Sending L limit s₀ s' k' := by
  have htake : ∀ n, n ≤ size → Sent s₀ (s.take bytes n) (k + n) ∧ AtBuffer (s.take bytes n) := by
    intro n hn
    refine h.sent.take hnodup h.out (hn.trans hle) ?_
    have := congrArg (List.take n) hv
    rwa [take_take, take_take, min_eq_left hn] at this
  have hcount := r.count_le size
  have hpos : r ≠ .again → size ≠ 0 → 0 < r.count size := fun hr hs => KernelResult.count_pos hr hs
  unfold sendfileResult
  generalize r.count size = n at *
  obtain ⟨hsent, hat⟩ := htake n hcount
  have hdone : Done L limit s₀ (s.take bytes n) (k + n) := ⟨hsent, hat, hwithin n hcount⟩
  by_cases hr : r = .again
  · rw [if_pos hr]
    exact .inl ⟨_, _, rfl, hdone.notReady⟩
  rw [if_neg hr]
  by_cases hpart : size ≠ n
  · rw [if_pos hpart]
    right
    refine ⟨_, _, rfl, ?_, hsent.le, ⟨hsent, h.out.take _ _, hwithin n hcount, hpast n (by omega)⟩⟩
    have := hpos hr (by omega)
    omega
  rw [if_neg hpart]
  rw [not_not] at hpart
  subst hpart
  by_cases hend : k + size ≥ limit ∨ (s.take bytes size).chain = []
  · rw [if_pos hend]
    exact .inl ⟨_, _, rfl, hdone⟩
  rw [if_neg hend]
  rw [not_or, not_le] at hend
  right
  refine ⟨_, _, rfl, ?_, hsent.le, ⟨hsent, h.out.take _ _, hwithin size le_rfl, fun h => by omega⟩⟩
  by_contra hz
  have hsize : size = 0 := by omega
  rcases hzero hsize with hz | hz
  · omega
  · rw [hsize] at hend
    exact hend.2 hz

theorem sendfileStep_past (h : Sending L limit s₀ s k) (hnodup : s₀.chain.Nodup)
    (hk : limit ≤ k) (r : KernelResult) :
    ∃ s' k', sendfileStep L limit k r s = .returned s' ∧ Done L limit s₀ s' k' := by
  obtain ⟨f, rest, hchain, hfile⟩ := h.past hk
  have hspecial : (s.heap.buf f).special = false := by simp [NgxBuf.special, hfile]
  have hvec : outputChainToIovec L s.heap s.chain (subWord limit k) = some ([], 0, f :: rest) := by
    rw [hchain]
    unfold outputChainToIovec toIovec
    simp only [hspecial, hfile, Bool.false_eq_true, if_false, if_true]
    split <;> rfl
  unfold sendfileStep
  rw [hvec]
  simp only
  rw [if_neg (by omega), vecBytes_nil]
  have hsame : s.take [] 0 = s := by
    unfold SendState.take
    rw [hchain, updateSent]
    simp only [hspecial, Bool.false_eq_true, if_false, if_true, add_zero,
      take_nil, append_nil, ← hchain]
  have hwithin : ∀ n, n ≤ 0 → Within L limit s₀ (s.take [] n) (k + n) := by
    intro n hn
    obtain rfl : n = 0 := by omega
    rw [hsame]
    exact h.within
  have hcount : r.count 0 = 0 := Nat.le_zero.mp (r.count_le 0)
  rcases sendfileResult_goes h hnodup (Nat.zero_le _)
    (rfl : ([] : Bytes).take 0 = _) hwithin (fun n hn => by omega)
    (fun _ => .inl hk) r with hdone | ⟨s', k', hstep, hlt, -, -⟩
  · exact hdone
  · unfold sendfileResult at hstep
    dsimp only at hstep
    rw [hcount, if_neg (by simp : ¬(0 : Nat) ≠ 0), if_pos (.inl (by omega) : k + 0 ≥ limit ∨ _)]
      at hstep
    split at hstep <;> cases hstep

section cut

variable {pre back : List Nat} {f n : Nat}

theorem Outgoing.skip (hout : Outgoing L s) (bytes : Bytes)
    (hchain : s.chain = pre ++ f :: back) (hn : (s.heap.bytes pre).length ≤ n) :
    ∃ heap' : Heap,
      (s.take bytes n).chain = (updateSent heap' (f :: back) (n - (s.heap.bytes pre).length)).2 ∧
      (s.take bytes n).heap = (updateSent heap' (f :: back) (n - (s.heap.bytes pre).length)).1 ∧
      ∀ id ∈ f :: back, heap'.buf id = s.heap.buf id := by
  have hmem : ∀ id ∈ pre, id ∈ s.chain := fun id hid => by rw [hchain]; exact mem_append_left _ hid
  obtain ⟨heap', heq, hsame⟩ :=
    updateSent_skip (hchain ▸ hout.nodup) (fun id hid => (hout.sendable id (hmem id hid)).whole)
    (fun id hid => (hout.sendable id (hmem id hid)).kind.imp_right fun hk => ⟨hk.1, hk.2.1⟩) hn
  rw [← hchain] at heq
  exact ⟨heap', congrArg Prod.snd heq, congrArg Prod.fst heq, hsame⟩

theorem Outgoing.filePos_take (hout : Outgoing L s) (bytes : Bytes)
    (hchain : s.chain = pre ++ f :: back) (hfile : (s.heap.buf f).inFile = true)
    (hmemory : (s.heap.buf f).inMemory = false) (hn : (s.heap.bytes pre).length < n)
    (hle : n ≤ (s.heap.bytes pre).length + (s.heap.buf f).size) :
    ((s.take bytes n).heap.buf f).filePos =
      (s.heap.buf f).filePos + (n - (s.heap.bytes pre).length) := by
  obtain ⟨heap', -, hheap, hsame⟩ := hout.skip bytes hchain hn.le
  have hnodup : (f :: back).Nodup := (nodup_append.mp (hchain ▸ hout.nodup)).2.1
  have hf := hsame f mem_cons_self
  rw [hheap, ← hf]
  refine updateSent_filePos hnodup (fun id hid =>
    ?_) (by rw [hf]; exact hfile) (by rw [hf]; exact hmemory) (by omega)
    (by rw [hf]; omega)
  rw [hsame id (mem_cons_of_mem _ hid)]
  exact (hout.sendable id (by rw [hchain]; simp [hid])).whole

theorem Outgoing.chain_take (hout : Outgoing L s) (bytes : Bytes)
    (hchain : s.chain = pre ++ f :: back) (hfile : (s.heap.buf f).inFile = true)
    (hn : (s.heap.bytes pre).length ≤ n)
    (hlt : n < (s.heap.bytes pre).length + (s.heap.buf f).size) :
    (s.take bytes n).chain = f :: back := by
  obtain ⟨heap', hrest, -, hsame⟩ := hout.skip bytes hchain hn
  have hf := hsame f mem_cons_self
  rw [hrest]
  exact updateSent_inside (by rw [hf]; simp [NgxBuf.special, hfile]) (by rw [hf]; omega)

end cut

/-- A turn of the sendfile loop sends bytes of the chain in order, or ends. -/
theorem sendfileStep_goes (hnodup : s₀.chain.Nodup) (hpage : 0 < L.pageSize)
    (hlim : limit < 2 ^ 64) :
    Goes (sendfileStep L limit) L limit (Sending L limit s₀) s₀ := by
  intro s k r hI
  by_cases hk : limit ≤ k
  · exact .inl (sendfileStep_past hI hnodup hk r)
  have hroom : 0 < limit - k := by omega
  obtain ⟨iovs, size, cl, heq, hsize, hle, hv, ⟨front, hfront, hlen⟩, hnone, hzero⟩ :=
    outputChainToIovec_spec hI.out.sendable hI.out.laid hroom
  -- the vector is given to `writev`
  have hwrite :
    (∀ id rest, cl = id :: rest →
    ¬(iovs.length = 0 ∧ (s.heap.buf id).inFile = true ∧ k + size < limit)) →
      (∃ s' k', sendfileResult limit k size (L.vecBytes iovs) r s = .returned s' ∧
        Done L limit s₀ s' k') ∨
        ∃ s' k', sendfileResult limit k size (L.vecBytes iovs) r s = .again k' s' ∧ k < k' ∧
          k' ≤ (s₀.heap.bytes s₀.chain).length ∧ Sending L limit s₀ s' k' := by
    intro hno
    refine sendfileResult_goes hI hnodup hle hv (fun n hn =>
      .inl (by omega)) (fun n hn h => by omega) (fun hz => ?_) r
    right
    obtain ⟨hsent, hat⟩ := hI.sent.take hnodup hI.out (Nat.zero_le _)
      (by rw [take_zero, take_zero] : (L.vecBytes iovs).take 0 = (s.heap.bytes s.chain).take 0)
    refine chain_eq_nil hat (hI.out.take _ _) ?_
    rw [hsent.rest, add_zero, ← hI.sent.rest]
    rcases hzero hz with hcl | ⟨id, rest, hcl, hfile⟩
    · rw [hcl, append_nil] at hfront
      rw [hfront]
      exact eq_nil_of_length_eq_zero ((hlen (by omega)).trans hz)
    · exact absurd ⟨hnone.mp hz, hfile, by omega⟩ (hno id rest hcl)
  unfold sendfileStep
  rw [subWord_limit (by omega) hlim, heq]
  cases cl with
  | nil => exact hwrite nofun
  | cons id rest =>
    simp only
    by_cases hcond : iovs.length = 0 ∧ (s.heap.buf id).inFile = true ∧ k + size < limit
    swap
    · rw [if_neg hcond]
      refine hwrite fun id' rest' heq' => ?_
      obtain ⟨rfl, rfl⟩ := cons.inj heq'
      exact hcond
    rw [if_pos hcond]
    -- the buffers in front of the file are special
    obtain rfl : size = 0 := hnone.mpr hcond.1
    have hnil : s.heap.bytes front = [] := eq_nil_of_length_eq_zero (hlen hroom)
    have hbytes : s.heap.bytes s.chain = s.heap.bytes (id :: rest) := by
      rw [hfront, Heap.bytes_append, hnil, nil_append]
    have hmem : ∀ x ∈ id :: rest, x ∈ s.chain :=
      fun x hx => by rw [hfront]; exact mem_append_right _ hx
    obtain ⟨n, hn, hrun⟩ := coalesceFile_spec hpage (fun x hx => hI.out.sendable x (hmem x hx))
      (fun x hx => hI.out.laid x (hmem x hx)) hcond.2.1 hroom
    rw [add_zero, hn, zero_add, if_neg (ne_of_gt hrun.pos)]
    rw [Nat.sub_zero] at hrun
    refine sendfileResult_goes hI hnodup (hbytes ▸ hrun.le)
      (hbytes ▸ hrun.bytes) (fun j hj => ?_) (fun j hj hpast => ?_)
      (fun hz => absurd hrun.pos (by omega)) r
    · by_cases hj' : j ≤ limit - k
      · exact .inl (by omega)
      obtain ⟨front', f, hcut⟩ := hrun.limit.resolve_left (by omega)
      obtain ⟨back, hback⟩ := hcut.split
      have hchain : s.chain = (front ++ front') ++ f :: back := by rw [hfront, hback, append_assoc]
      have hpre : (s.heap.bytes (front ++ front')).length = (s.heap.bytes front').length := by
        rw [Heap.bytes_append, hnil, nil_append]
      have hbefore := hcut.before
      have hinside := hcut.inside
      have haligned := hcut.aligned
      have hpos :=
        hI.out.filePos_take
          ((L.content (L.fd id)).drop (s.heap.buf id).filePos) hchain hcut.file hcut.memory
        (by omega : (s.heap.bytes (front ++ front')).length < j) (by omega)
      rw [hpre] at hpos
      obtain ⟨front₀, hfront₀, -⟩ := hI.sent.front
      refine .inr ⟨f, by rw [hfront₀, hchain]; simp, ?_, ?_, ?_⟩
      · rw [← hcut.file, (special_same (hI.sent.same f)).2.2.1]
      · rw [hpos]
        omega
      · rw [hpos,
          show (s.heap.buf f).filePos + (j - (s.heap.bytes front').length) - (k + j - limit) =
          (s.heap.buf f).filePos + (limit - k - (s.heap.bytes front').length) by omega]
        omega
    · obtain ⟨front', f, hcut⟩ := hrun.limit.resolve_left (by omega)
      obtain ⟨back, hback⟩ := hcut.split
      have hchain : s.chain = (front ++ front') ++ f :: back := by rw [hfront, hback, append_assoc]
      have hpre : (s.heap.bytes (front ++ front')).length = (s.heap.bytes front').length := by
        rw [Heap.bytes_append, hnil, nil_append]
      have hbefore := hcut.before
      have hinside := hcut.inside
      refine ⟨f, back, hI.out.chain_take _ hchain hcut.file (by omega) (by omega), ?_⟩
      rw [inFile_take]
      exact hcut.file

/-! ## Both -/

theorem alignUp_mono (pageSize : Nat) {x y : Nat} (h : x ≤ y) :
    alignUp pageSize x ≤ alignUp pageSize y := by
  unfold alignUp
  exact Nat.mul_le_mul_right _ (Nat.div_le_div_right (by omega))

theorem Within.mono {limit' : Nat} (h : Within L limit s₀ s k) (hle : limit ≤ limit') :
    Within L limit' s₀ s k := by
  by_cases hk : k ≤ limit'
  · exact .inl hk
  · obtain ⟨f, hf, hfile, hpos, haligned⟩ := h.resolve_left (by omega)
    exact .inr ⟨f, hf, hfile, by omega, haligned.trans (alignUp_mono _ (by omega))⟩

theorem Within.lt (h : Within L limit s₀ s k) (hpage : 0 < L.pageSize) :
    k < limit + L.pageSize := by
  rcases h with h | ⟨f, -, -, hpos, haligned⟩
  · omega
  · have := alignUp_lt hpage ((s.heap.buf f).filePos - (k - limit))
    omega

variable {largest : Nat}

theorem boundLimit_le (hpos : 0 < limit) : boundLimit largest limit ≤ limit := by
  unfold boundLimit
  split <;> omega

theorem boundLimit_pos (hpos : 0 < largest) (limit : Nat) : 0 < boundLimit largest limit := by
  unfold boundLimit
  split <;> omega

theorem boundLimit_le_largest (largest limit : Nat) : boundLimit largest limit ≤ largest := by
  unfold boundLimit
  split <;> omega

/-- What the call leaves: so many bytes of the chain are sent, within the limit if there is one;
and the chain is at a buffer of which something is left, if the connection was ready. -/
structure Sends (L : Layout) (limit : Nat) (s s' : SendState) (k : Nat) : Prop where
  sent : Sent s s' k
  atBuffer : s.ready = true → AtBuffer s'
  within : 0 < limit → Within L limit s s' k
  page : 0 < limit → k < limit + L.pageSize
  notReady : s.ready = false → s' = s

theorem Done.sends (h : Done L (boundLimit largest limit) s₀ s k) (hpage : 0 < L.pageSize)
    (hready : s₀.ready = true) : Sends L limit s₀ s k where
  sent := h.sent
  atBuffer := fun _ => h.atBuffer
  within := fun hpos => h.within.mono (boundLimit_le hpos)
  page := fun hpos => (h.within.mono (boundLimit_le hpos)).lt hpage
  notReady := fun hno => by
    rw [hready] at hno
    exact absurd hno.symm Bool.false_ne_true

theorem Sends.of_notReady (hpage : 0 < L.pageSize) (hready : ¬s.ready = true) :
    Sends L limit s s 0 where
  sent := Sent.refl s
  atBuffer := fun h => absurd h hready
  within := fun _ => .inl (Nat.zero_le _)
  page := fun _ => by omega
  notReady := fun _ => rfl

theorem writevChain_memory (hout : Outgoing L s)
    (hmemory : ∀ id ∈ s.chain, (s.heap.buf id).inFile = false)
    (hpage : 0 < L.pageSize) (hmax : L.pageSize < sendfileMaxSize) (limit : Nat)
    (hcalls : (s.heap.bytes s.chain).length < calls) (kernel : Nat → KernelResult) :
    ∃ s' k, writevChain L limit calls kernel s = some (some s') ∧
      Sends L limit s s' k ∧ (0 < limit → k ≤ limit) := by
  unfold writevChain
  unfold sendfileMaxSize at hmax
  by_cases hready : s.ready = true
  · rw [if_neg (not_not.mpr hready)]
    have hlargest : 0 < maxSizeT - L.pageSize := by
      unfold maxSizeT
      omega
    have hbound := boundLimit_le_largest (maxSizeT - L.pageSize) limit
    have hlim : boundLimit (maxSizeT - L.pageSize) limit < 2 ^ 64 :=
      lt_of_le_of_lt (hbound.trans (Nat.sub_le _ _)) (by decide)
    obtain ⟨s', k, heq, hdone⟩ := sendLoop_done (writevStep_goes hout.nodup hlim) kernel
      ⟨Sent.refl s, hout, boundLimit_pos hlargest limit, hmemory⟩
        (Nat.zero_le _) (by rw [add_zero]; exact hcalls)
    refine ⟨s', k, heq, hdone.sends hpage hready, fun hpos => ?_⟩
    rcases hdone.within with h | ⟨f, hf, hfile, -⟩
    · exact h.trans (boundLimit_le hpos)
    · rw [hmemory f hf] at hfile
      exact absurd hfile Bool.false_ne_true
  · rw [if_pos hready]
    exact ⟨s, 0, rfl, Sends.of_notReady hpage hready, fun _ => Nat.zero_le _⟩

theorem linuxSendfileChain_any (hout : Outgoing L s) (hpage : 0 < L.pageSize)
    (hmax : L.pageSize < sendfileMaxSize) (limit : Nat)
    (hcalls : (s.heap.bytes s.chain).length < calls) (kernel : Nat → KernelResult) :
    ∃ s' k, linuxSendfileChain L limit calls kernel s = some (some s') ∧ Sends L limit s s' k := by
  unfold linuxSendfileChain
  by_cases hready : s.ready = true
  · rw [if_neg (not_not.mpr hready)]
    have hbound := boundLimit_le_largest (sendfileMaxSize - L.pageSize) limit
    have hpos := boundLimit_pos (by omega : 0 < sendfileMaxSize - L.pageSize) limit
    have hlim : boundLimit (sendfileMaxSize - L.pageSize) limit < 2 ^ 64 :=
      lt_of_le_of_lt (hbound.trans (Nat.sub_le _ _)) (by decide)
    obtain ⟨s', k, heq, hdone⟩ := sendLoop_done (sendfileStep_goes hout.nodup hpage hlim) kernel
      ⟨Sent.refl s, hout, .inl (Nat.zero_le _), fun h => by omega⟩
        (Nat.zero_le _) (by rw [add_zero]; exact hcalls)
    exact ⟨s', k, heq, hdone.sends hpage hready⟩
  · rw [if_pos hready]
    exact ⟨s, 0, rfl, Sends.of_notReady hpage hready⟩

/-- Both calls send a prefix of the chain, and return the rest of it. -/
theorem chain_sends (L : Layout) (s : SendState) (hout : Outgoing L s) (hpage : 0 < L.pageSize)
    (hmax : L.pageSize < sendfileMaxSize) (limit calls : Nat)
    (hcalls : (s.heap.bytes s.chain).length < calls)
    (kernel : Nat → KernelResult) :
    (∃ s' k, linuxSendfileChain L limit calls kernel s = some (some s') ∧ Sends L limit s s' k) ∧
      ((∀ id ∈ s.chain, (s.heap.buf id).inFile = false) →
        ∃ s' k, writevChain L limit calls kernel s = some (some s') ∧
          Sends L limit s s' k ∧ (0 < limit → k ≤ limit)) :=
  ⟨linuxSendfileChain_any hout hpage hmax limit hcalls kernel,
    fun hmemory => writevChain_memory hout hmemory hpage hmax limit hcalls kernel⟩

/-- A special buffer, one of memory and the end of a file. -/
def helloState (ready : Bool) : SendState where
  ready := ready
  sent := 0
  wire := []
  heap := ⟨fun id => if id = 0 then { NgxBuf.zeroed with flush := true }
    else if id = 1 then
      { NgxBuf.zeroed with start := some (ascii "hello"), last := 5, temporary := true }
    else { NgxBuf.zeroed with file := ascii "a file", filePos := 2, fileLast := 6, inFile := true },
      3⟩
  chain := [0, 1, 2]

/-- The memory, and the two descriptors. -/
def helloLayout : Layout :=
  ⟨fun a => (ascii "hello").getD a 0, fun _ => 0, fun id => if id = 2 then 1 else 0,
    fun fd => if fd = 1 then ascii "a file" else [], 4096⟩

theorem outgoing_hello (ready : Bool) : Outgoing helloLayout (helloState ready) := by
  have hbuf : ∀ id ∈ (helloState ready).chain, Sendable ((helloState ready).heap.buf id) ∧
      Laid helloLayout id ((helloState ready).heap.buf id) := by
    intro id hid
    have hid' : id = 0 ∨ id = 1 ∨ id = 2 := by simpa [helloState] using hid
    rcases hid' with rfl | rfl | rfl
    · exact ⟨⟨⟨rfl, fun _ _ => rfl⟩, .inl rfl⟩, fun j hj => absurd hj (Nat.not_lt_zero j), rfl⟩
    · refine ⟨⟨⟨rfl, nofun⟩, .inr ⟨rfl, by cases ready <;> decide, rfl⟩⟩, fun j hj => ?_, rfl⟩
      change j < (ascii "hello").length at hj
      change (ascii "hello").getD (0 + j) 0 = (ascii "hello")[j]
      simp [getD_eq_getElem?_getD, hj]
    · exact ⟨⟨⟨rfl, nofun⟩, .inr ⟨rfl, by cases ready <;> decide, rfl⟩⟩,
        fun j hj => absurd hj (Nat.not_lt_zero j), rfl⟩
  exact ⟨by cases ready <;> decide, fun id hid => (hbuf id hid).1, fun id hid => (hbuf id hid).2⟩

/-- Seven bytes are sent of the nine, with four at most in a call of the kernel. -/
theorem chain_sends_hello : ∃ s' k,
    linuxSendfileChain helloLayout 7 10 (fun _ => .taken 4) (helloState true) = some (some s') ∧
      s'.wire = ascii "hellofi" ∧ s'.chain = [2] ∧ Sends helloLayout 7 (helloState true) s' k := by
  obtain ⟨s', k, hsend, hsends⟩ := (chain_sends helloLayout (helloState true) (outgoing_hello true)
    (by decide) (by decide) 7 10 (by decide) fun _ => .taken 4).1
  have hrun : (linuxSendfileChain helloLayout 7 10 (fun _ => .taken 4) (helloState true)).map
      (Option.map fun s => (s.wire, s.chain)) = some (some (ascii "hellofi", [2])) := by decide
  rw [hsend] at hrun
  obtain ⟨hwire, hchain⟩ := Prod.mk.inj (Option.some.inj (Option.some.inj hrun))
  exact ⟨s', k, hsend, hwire, hchain, hsends⟩

/-- A connection that is not ready gets back its chain with the special buffer in front. -/
theorem chain_kept_notReady :
    ∃ s', linuxSendfileChain helloLayout 3 6 (fun _ => .taken 1)
      (helloState false) = some (some s') ∧ ¬AtBuffer s' := by
  refine ⟨helloState false, rfl, fun h => ?_⟩
  have := (h 0 rfl).1
  exact absurd this (by decide)

end Nginx.Os
