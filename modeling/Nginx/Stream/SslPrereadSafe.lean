/-
  Stream/SslPrereadSafe.lean --- the preread parser never faults, and it does not matter how
  its bytes are delivered, nor in how many reads the handler gets them.

  Between two bytes the field that is read has room where it goes and is counted in `left`,
  and the protocol names so far leave room for what `ext` still counts (`PrereadCtx.Fit`).
  A field that comes in two parts is written as one, so records may be cut anywhere.
  A call goes over the records that are complete and keeps what is behind them, so calls for
  one read after the other come to what one call for all of them does (`handlerCalls_eq`).
-/
import Nginx.Stream.SslPreread

set_option autoImplicit false

namespace Nginx.Stream

open List Foundation Option
open Nginx.Core (Rc)

/-! ## Writes -/

theorem length_overwrite {mem src : Bytes} {i : Nat} (h : i + src.length ≤ mem.length) :
    (overwrite mem i src).length = mem.length := by
  simp only [overwrite, length_append, length_take, length_drop]
  omega

theorem overwrite_append {mem a b : Bytes} {i : Nat} (h : i + (a ++ b).length ≤ mem.length) :
    overwrite (overwrite mem i a) (i + a.length) b = overwrite mem i (a ++ b) := by
  rw [length_append] at h
  have hi : (mem.take i ++ a).length = i + a.length := by
    rw [length_append, length_take]
    omega
  have hdrop : (overwrite mem i a).drop (i + a.length + b.length) =
    mem.drop (i + a.length + b.length) := by
    rw [overwrite, ← drop_drop, drop_left' hi, drop_drop]
  rw [overwrite, hdrop, overwrite, take_left' hi, overwrite, length_append, add_assoc]
  simp only [append_assoc]

/-! ## The invariant -/

/-- The field that is read has room where it goes. -/
def PrereadCtx.Room (ctx : PrereadCtx) : Prop :=
  match ctx.dst with
  | .null => True
  | .buf i => i + ctx.size ≤ ctx.buf.length
  | .version i => i + ctx.size ≤ ctx.version.length
  | .host i => i + ctx.size ≤ (ctx.host.getD []).length
  | .alpn i => i + ctx.size ≤ (ctx.alpn.getD []).length

/-- The protocol names so far leave room for those that `ext` counts, and commas between them. -/
def PrereadCtx.NamesFit (ctx : PrereadCtx) : Prop :=
  match ctx.state with
  | .alpnLen => ctx.alpnLen = 0
  | .alpnProtoLen => ctx.alpnLen + ctx.ext ≤ (ctx.alpn.getD []).length
  | .alpnProtoData =>
    ctx.alpnLen + 1 + ctx.p 0 + ctx.ext ≤ (ctx.alpn.getD []).length ∧ ∃ i, ctx.dst = .alpn i
  | _ => True

/-- The context is fit for reading on. -/
structure PrereadCtx.Fit (ctx : PrereadCtx) : Prop where
  buf : ctx.buf.length = 4
  version : ctx.version.length = 2
  room : ctx.Room
  names : ctx.NamesFit
  unset : ctx.alpn = none → ctx.alpnLen = 0

theorem fit_zeroed : PrereadCtx.zeroed.Fit := ⟨rfl, rfl, trivial, trivial, fun _ => rfl⟩

theorem PrereadCtx.NamesFit.congr {ctx next : PrereadCtx} (h : ctx.NamesFit)
    (hstate : next.state = ctx.state)
    (hlen : next.alpnLen = ctx.alpnLen) (hext : next.ext = ctx.ext)
    (halpn : (next.alpn.getD []).length = (ctx.alpn.getD []).length)
    (hdst : ∀ i, ctx.dst = .alpn i → next.buf = ctx.buf ∧ ∃ j, next.dst = .alpn j) :
    next.NamesFit := by
  unfold PrereadCtx.NamesFit at h ⊢
  rw [hstate, hlen, hext, halpn]
  cases hcase : ctx.state with
  | alpnProtoData =>
    rw [hcase] at h
    obtain ⟨hfit, i, hi⟩ := h
    obtain ⟨hbuf, j, hj⟩ := hdst i hi
    refine ⟨?_, j, hj⟩
    rwa [PrereadCtx.p, hbuf]
  | alpnLen | alpnProtoLen =>
    rw [hcase] at h
    exact h
  | _ => trivial

/-! ## A part of a field -/

/-- Bytes are written where `dst` points. -/
def PrereadCtx.written (ctx : PrereadCtx) (src : Bytes) : PrereadCtx :=
  match ctx.dst with
  | .null => ctx
  | .buf i => { ctx with buf := overwrite ctx.buf i src, dst := .buf (i + src.length) }
  | .version i =>
    { ctx with version := overwrite ctx.version i src, dst := .version (i + src.length) }
  | .host i =>
    { ctx with host := some (overwrite (ctx.host.getD []) i src), dst := .host (i + src.length) }
  | .alpn i =>
    { ctx with alpn := some (overwrite (ctx.alpn.getD []) i src), dst := .alpn (i + src.length) }

variable {ctx : PrereadCtx}

variable {src : Bytes}

theorem cpymem_eq (h : ctx.Room) (hlen : src.length ≤ ctx.size) :
    cpymem ctx src = .ok (ctx.written src) := by
  unfold cpymem PrereadCtx.written
  unfold PrereadCtx.Room at h
  cases hdst : ctx.dst with
  | null => rfl
  | buf i | version i | host i | alpn i =>
    rw [hdst] at h
    dsimp only at h ⊢
    rw [write, if_pos (by omega)]
    rfl

/-- The context behind a part of the field. -/
def PrereadCtx.taken (ctx : PrereadCtx) (src : Bytes) : PrereadCtx :=
  { ctx.written src with size := ctx.size - src.length, left := ctx.left - src.length }

theorem size_written (ctx : PrereadCtx) (src : Bytes) : (ctx.written src).size = ctx.size := by
  unfold PrereadCtx.written
  split <;> rfl

theorem left_written (ctx : PrereadCtx) (src : Bytes) : (ctx.written src).left = ctx.left := by
  unfold PrereadCtx.written
  split <;> rfl

theorem state_taken (ctx : PrereadCtx) (src : Bytes) : (ctx.taken src).state = ctx.state := by
  unfold PrereadCtx.taken PrereadCtx.written
  split <;> rfl

theorem size_taken (ctx : PrereadCtx) (src : Bytes) :
    (ctx.taken src).size = ctx.size - src.length := rfl

theorem consume_eq (h : ctx.Room) (hleft : ctx.size ≤ ctx.left) (hlen : src.length ≤ ctx.size) :
    consume ctx src = .ok (ctx.taken src) := by
  rw [consume, cpymem_eq h hlen, Except.bind, left_written, size_written,
    decrease, if_pos (Nat.le_trans hlen hleft)]
  rfl

theorem fit_taken (h : ctx.Fit) (hlen : src.length ≤ ctx.size) : (ctx.taken src).Fit := by
  obtain ⟨hbuf, hversion, hroom, hnames, hunset⟩ := h
  unfold PrereadCtx.Room at hroom
  unfold PrereadCtx.taken PrereadCtx.written
  cases hdst : ctx.dst with
  | null =>
    refine ⟨hbuf, hversion, ?_, hnames, hunset⟩
    simp only [PrereadCtx.Room, hdst]
  | buf i =>
    rw [hdst] at hroom
    have hmem := @length_overwrite ctx.buf src i (by omega)
    refine ⟨hmem.trans hbuf, hversion, ?_, hnames.congr rfl rfl rfl rfl fun j hj =>
      Dst.noConfusion (hdst.symm.trans hj), hunset⟩
    simp only [PrereadCtx.Room, hmem]
    omega
  | version i =>
    rw [hdst] at hroom
    have hmem := @length_overwrite ctx.version src i (by omega)
    refine ⟨hbuf, hmem.trans hversion, ?_, hnames.congr rfl rfl rfl rfl fun j hj =>
      Dst.noConfusion (hdst.symm.trans hj), hunset⟩
    simp only [PrereadCtx.Room, hmem]
    omega
  | host i =>
    rw [hdst] at hroom
    have hmem := @length_overwrite (ctx.host.getD []) src i (by omega)
    refine ⟨hbuf, hversion, ?_, hnames.congr rfl rfl rfl rfl fun j hj =>
      Dst.noConfusion (hdst.symm.trans hj), hunset⟩
    simp only [PrereadCtx.Room, getD_some, hmem]
    omega
  | alpn i =>
    rw [hdst] at hroom
    have hmem := @length_overwrite (ctx.alpn.getD []) src i (by omega)
    refine ⟨hbuf, hversion, ?_, hnames.congr rfl rfl rfl hmem fun j _ =>
      ⟨rfl, _, rfl⟩, fun hnone => absurd hnone (some_ne_none _)⟩
    simp only [PrereadCtx.Room, getD_some, hmem]
    omega

theorem taken_append (h : ctx.Room) {a b : Bytes} (hlen : (a ++ b).length ≤ ctx.size) :
    (ctx.taken a).taken b = ctx.taken (a ++ b) := by
  unfold PrereadCtx.Room at h
  unfold PrereadCtx.taken PrereadCtx.written
  cases hdst : ctx.dst with
  | null => simp only [hdst, length_append, Nat.sub_sub]
  | buf i | version i | host i | alpn i =>
    rw [hdst] at h
    simp only [getD_some, overwrite_append (Nat.le_trans (Nat.add_le_add_left hlen i) h),
      length_append, Nat.sub_sub,
      add_assoc]

/-! ## What the `switch` comes to -/

/-- A move to a context that is fit, or to the end. -/
def Move.Fit : Move → Prop
  | .goOn ctx => ctx.Fit
  | .ret rc _ => rc ≠ .again

theorem room_buf (hbuf : ctx.buf.length = 4) (state : PrereadState)
    {size : Nat} (hsize : size ≤ 4) :
    (ctx.expect state (.buf 0) size).Room := by
  change 0 + size ≤ ctx.buf.length
  omega

theorem extHeader_fit (h : ctx.Fit) : (extHeader ctx).Fit := by
  obtain ⟨hbuf, hversion, -, -, hunset⟩ := h
  unfold extHeader
  split
  next => exact ⟨hbuf, hversion, room_buf hbuf _ (by decide), trivial, hunset⟩
  split
  next hnone => exact ⟨hbuf, hversion, room_buf hbuf _ (by decide), hunset hnone.2.2, hunset⟩
  next =>
    split
    next => exact ⟨hbuf, hversion, room_buf hbuf _ (by decide), trivial, hunset⟩
    next => exact ⟨hbuf, hversion, trivial, trivial, hunset⟩

theorem sniHostHead_fit (pool : Pool) (h : ctx.Fit) :
    ∃ move, sniHostHead pool ctx = .ok move ∧ move.Fit := by
  obtain ⟨hbuf, hversion, -, -, hunset⟩ := h
  unfold sniHostHead
  dsimp only
  split
  next => exact ⟨_, rfl, Rc.noConfusion⟩
  split
  next => exact ⟨_, rfl, Rc.noConfusion⟩
  next hext =>
    rw [decrease, if_pos (not_lt.mp hext), Except.map]
    cases halloc : pool.pnalloc ctx.allocs (ctx.p16 1) with
    | none => exact ⟨_, rfl, Rc.noConfusion⟩
    | some data =>
      refine ⟨_, rfl, hbuf, hversion, ?_, trivial, hunset⟩
      change 0 + ctx.p16 1 ≤ data.length
      rw [pool.length_pnalloc _ _ _ halloc, zero_add]

theorem alpnLen_fit (pool : Pool) (h : ctx.Fit) (hstate : ctx.state = .alpnLen) :
    (alpnLen pool ctx).Fit := by
  obtain ⟨hbuf, hversion, -, hnames, -⟩ := h
  rw [PrereadCtx.NamesFit, hstate] at hnames
  unfold alpnLen
  cases halloc : pool.pnalloc ctx.allocs (ctx.p16 0) with
  | none => exact Rc.noConfusion
  | some data =>
    refine ⟨hbuf, hversion, room_buf hbuf .alpnProtoLen (by decide), ?_, fun hnone =>
      absurd hnone (some_ne_none _)⟩
    change ctx.alpnLen + ctx.p16 0 ≤ data.length
    rw [pool.length_pnalloc _ _ _ halloc, hnames, zero_add]

theorem alpnProtoLen_fit (h : ctx.Fit) (hstate : ctx.state = .alpnProtoLen) :
    ∃ move, alpnProtoLen ctx = .ok move ∧ move.Fit := by
  obtain ⟨hbuf, hversion, -, hnames, hunset⟩ := h
  rw [PrereadCtx.NamesFit, hstate] at hnames
  dsimp only at hnames
  unfold alpnProtoLen
  dsimp only
  split
  next => exact ⟨_, rfl, Rc.noConfusion⟩
  split
  next => exact ⟨_, rfl, Rc.noConfusion⟩
  next hext =>
    have hext : 1 + ctx.p 0 ≤ ctx.ext := not_lt.mp hext
    rw [decrease, if_pos hext, Except.map]
    refine ⟨_, rfl, hbuf, hversion, ?_, ⟨?_, _, rfl⟩, hunset⟩
    · change ctx.alpnLen + ctx.p 0 ≤ (ctx.alpn.getD []).length
      omega
    · change ctx.alpnLen + 1 + ctx.p 0 + (ctx.ext - (1 + ctx.p 0)) ≤ (ctx.alpn.getD []).length
      omega

theorem alpnProtoData_fit (h : ctx.Fit) (hstate : ctx.state = .alpnProtoData) :
    ∃ move, alpnProtoData ctx = .ok move ∧ move.Fit := by
  obtain ⟨hbuf, hversion, -, hnames, -⟩ := h
  rw [PrereadCtx.NamesFit, hstate] at hnames
  obtain ⟨hfit, -, -⟩ := hnames
  have hsome : ctx.alpn ≠ none := by
    intro hnone
    rw [hnone] at hfit
    exact absurd hfit (by simp)
  unfold alpnProtoData
  dsimp only
  split
  next hext =>
    have hroom : ctx.alpnLen + ctx.p 0 + [chr ','].length ≤ (ctx.alpn.getD []).length := by
      rw [length_singleton]
      omega
    rw [write, if_pos hroom, Except.map]
    refine ⟨_, rfl, hbuf, hversion, room_buf hbuf .alpnProtoLen (by decide), ?_, fun hnone =>
      absurd hnone (some_ne_none _)⟩
    change ctx.alpnLen + ctx.p 0 + 1 + ctx.ext ≤ (overwrite (ctx.alpn.getD []) _ _).length
    rw [length_overwrite hroom]
    omega
  next => exact ⟨_, rfl, hbuf, hversion, trivial, trivial, fun hnone => absurd hnone hsome⟩

theorem switch_fit (pool : Pool) (h : ctx.Fit) : ∃ move, switch pool ctx = .ok move ∧ move.Fit := by
  have hskip : ∀ {state : PrereadState} {size : Nat}, (ctx.expect state .null size).NamesFit →
    (Move.goOn (ctx.expect state .null size)).Fit :=
    fun hnames => ⟨h.buf, h.version, trivial, hnames, h.unset⟩
  have hbuf : ∀ {state : PrereadState} {size : Nat}, size ≤ 4 →
    (ctx.expect state (.buf 0) size).NamesFit →
      (Move.goOn (ctx.expect state (.buf 0) size)).Fit :=
    fun hsize hnames => ⟨h.buf, h.version, room_buf h.buf _ hsize, hnames, h.unset⟩
  unfold switch
  cases hstate : ctx.state with
  | start => exact ⟨_, rfl, h.buf, h.version, room_buf h.buf .header (le_refl 4), trivial, h.unset⟩
  | header =>
    dsimp only
    split
    next => exact ⟨_, rfl, Rc.noConfusion⟩
    next => exact ⟨_, rfl, h.buf, h.version, le_of_eq h.version.symm, trivial, h.unset⟩
  | version | sidLen | csLen | cmLen => exact ⟨_, rfl, hskip trivial⟩
  | random | sid | cs => exact ⟨_, rfl, hbuf (by decide) trivial⟩
  | cm | ext =>
    dsimp only
    split
    next => exact ⟨_, rfl, Rc.noConfusion⟩
    next => exact ⟨_, rfl, hbuf (by decide) trivial⟩
  | extHeader => exact ⟨_, rfl, extHeader_fit h⟩
  | sniLen =>
    exact ⟨_, rfl, h.buf, h.version, room_buf h.buf .sniHostHead (by decide), trivial, h.unset⟩
  | sniHostHead => exact sniHostHead_fit pool h
  | sniHost => exact ⟨_, rfl, h.buf, h.version, trivial, trivial, h.unset⟩
  | alpnLen => exact ⟨_, rfl, alpnLen_fit pool h hstate⟩
  | alpnProtoLen => exact alpnProtoLen_fit h hstate
  | alpnProtoData => exact alpnProtoData_fit h hstate
  | supverLen => exact ⟨_, rfl, h.buf, rfl, trivial, trivial, h.unset⟩

/-! ## The loop -/

/-- How many turns may go by before a byte is taken. -/
def PrereadState.turns : PrereadState → Nat
  | .sniHostHead => 3
  | .sidLen | .csLen | .cmLen | .extHeader | .sniHost | .alpnProtoData | .supverLen => 2
  | _ => 1

/-- How many turns go by at most. -/
def budget (ctx : PrereadCtx) (pos : Bytes) :
    Nat := 4 * pos.length + if ctx.size = 0 then ctx.state.turns else 0

theorem turns_bounds (state : PrereadState) : 1 ≤ state.turns ∧ state.turns ≤ 3 := by
  cases state <;> decide

variable {pool : Pool}

/-- A turn that needs no byte comes nearer to one that does. -/
theorem turns_of_switch {next : PrereadCtx} (h : switch pool ctx = .ok (.goOn next))
    (hsize : next.size = 0) :
    next.state.turns < ctx.state.turns := by
  have hle : PrereadState.ext.turns < 2 := Nat.lt_succ_self 1
  unfold switch at h
  cases hstate : ctx.state <;> rw [hstate] at h <;> dsimp only at h
  case start | version | random | sid | cs | sniLen =>
    obtain rfl := Move.goOn.inj (Except.ok.inj h)
    exact absurd hsize (Nat.succ_ne_zero _)
  case sidLen | csLen | cmLen | sniHost | supverLen =>
    obtain rfl := Move.goOn.inj (Except.ok.inj h)
    exact hle
  case header | cm | ext =>
    split at h
    next => cases h
    next =>
      obtain rfl := Move.goOn.inj (Except.ok.inj h)
      exact absurd hsize (Nat.succ_ne_zero _)
  case extHeader =>
    obtain rfl := Move.goOn.inj (Except.ok.inj h)
    unfold extHeader at hsize ⊢
    split
    next hsni =>
      rw [if_pos hsni] at hsize
      exact absurd hsize (Nat.succ_ne_zero _)
    next hsni =>
      rw [if_neg hsni] at hsize
      split
      next halpn =>
        rw [if_pos halpn] at hsize
        exact absurd hsize (Nat.succ_ne_zero _)
      next halpn =>
        rw [if_neg halpn] at hsize
        split
        next hsupver =>
          rw [if_pos hsupver] at hsize
          exact absurd hsize (Nat.succ_ne_zero _)
        next => exact hle
  case sniHostHead =>
    unfold sniHostHead decrease at h
    dsimp only at h
    split at h
    next => cases h
    split at h
    next => cases h
    next hext =>
      rw [if_pos (not_lt.mp hext), Except.map] at h
      cases halloc : pool.pnalloc ctx.allocs (ctx.p16 1) with
      | none =>
        rw [halloc] at h
        cases h
      | some data =>
        rw [halloc] at h
        obtain rfl := Move.goOn.inj (Except.ok.inj h)
        exact Nat.lt_succ_self 2
  case alpnLen =>
    unfold alpnLen at h
    cases halloc : pool.pnalloc ctx.allocs (ctx.p16 0) with
    | none =>
      rw [halloc] at h
      cases h
    | some data =>
      rw [halloc] at h
      obtain rfl := Move.goOn.inj (Except.ok.inj h)
      exact absurd hsize (Nat.succ_ne_zero _)
  case alpnProtoLen =>
    unfold alpnProtoLen decrease at h
    dsimp only at h
    split at h
    next => cases h
    next hzero =>
      split at h
      next => cases h
      next hext =>
        rw [if_pos (not_lt.mp hext), Except.map] at h
        obtain rfl := Move.goOn.inj (Except.ok.inj h)
        exact absurd hsize hzero
  case alpnProtoData =>
    unfold alpnProtoData write at h
    dsimp only at h
    split at h
    next =>
      split at h
      next =>
        obtain rfl := Move.goOn.inj (Except.ok.inj h)
        exact absurd hsize (Nat.succ_ne_zero _)
      next => cases h
    next =>
      obtain rfl := Move.goOn.inj (Except.ok.inj h)
      exact hle

theorem budget_of_switch {taken next : PrereadCtx} {pos : Bytes} (hstate : taken.state = ctx.state)
    (hlen : ctx.size ≤ pos.length) (h : switch pool taken = .ok (.goOn next)) :
    budget next (pos.drop ctx.size) < budget ctx pos := by
  have hbounds := turns_bounds ctx.state
  have hmove : next.size = 0 → next.state.turns < ctx.state.turns :=
    fun hsize => hstate ▸ turns_of_switch h hsize
  unfold budget
  rw [length_drop]
  split
  next hnext =>
    have hlt := hmove hnext
    split <;> omega
  next => split <;> omega

theorem parseLoop_succ (h : ctx.Fit) (hleft : ctx.size ≤ ctx.left) (turns : Nat) (pos : Bytes) :
    parseLoop pool (turns + 1) ctx pos =
      if pos.length < ctx.size then .ok (.again, ctx.taken pos)
      else
        (switch pool (ctx.taken (pos.take ctx.size))).bind fun move =>
          match move with
          | .ret rc next => .ok (rc, next)
          | .goOn next =>
            if next.left <
              next.size then .ok (.declined, next) else parseLoop pool turns next
              (pos.drop ctx.size) := by
  have hlen : (pos.take ctx.size).length ≤ ctx.size := length_take_le ..
  rw [parseLoop, consume_eq h.room hleft hlen, Except.bind]
  by_cases hpart : pos.length < ctx.size
  · have hsize : (ctx.taken (pos.take ctx.size)).size ≠ 0 := by
      rw [size_taken, take_of_length_le (Nat.le_of_lt hpart)]
      exact Nat.sub_ne_zero_of_lt hpart
    rw [if_pos hpart, if_pos hsize, take_of_length_le (Nat.le_of_lt hpart)]
  · have hsize : (ctx.taken (pos.take ctx.size)).size = 0 := by
      rw [size_taken, length_take_of_le (not_lt.mp hpart), Nat.sub_self]
    refine Eq.trans ?_ (if_neg hpart).symm
    exact if_neg (not_not.mpr hsize)

theorem parseLoop_turns (h : ctx.Fit) (hleft : ctx.size ≤ ctx.left)
    {turns turns' : Nat} {pos : Bytes}
    (hturns : budget ctx pos < turns) (hturns' : budget ctx pos < turns') :
    parseLoop pool turns ctx pos = parseLoop pool turns' ctx pos := by
  induction turns generalizing turns' ctx pos with
  | zero => exact absurd hturns (Nat.not_lt_zero _)
  | succ turns ih =>
    obtain ⟨turns', rfl⟩ := Nat.exists_eq_succ_of_ne_zero (Nat.ne_zero_of_lt hturns')
    rw [parseLoop_succ h hleft, Nat.succ_eq_add_one, parseLoop_succ h hleft]
    by_cases hpart : pos.length < ctx.size
    · rw [if_pos hpart, if_pos hpart]
    rw [if_neg hpart, if_neg hpart]
    have hlen : (pos.take ctx.size).length ≤ ctx.size := length_take_le ..
    obtain ⟨move, hmove, hfit⟩ := switch_fit pool (fit_taken h hlen)
    rw [hmove, Except.bind, Except.bind]
    cases move with
    | ret rc next => rfl
    | goOn next =>
      dsimp only
      split
      next => rfl
      next hsize =>
        have hless := budget_of_switch (state_taken ctx _) (not_lt.mp hpart) hmove
        exact ih hfit (not_lt.mp hsize) (by omega) (by omega)

/-! ## A record -/

/-- What follows a field. -/
def resume (pool : Pool) (rest : Bytes) : Move → Except PrereadFault (Rc × PrereadCtx)
  | .ret rc next => .ok (rc, next)
  | .goOn next =>
    if next.left < next.size then .ok (.declined, next) else parseRecord pool next rest

theorem budget_lt (ctx : PrereadCtx) (pos : Bytes) : budget ctx pos < 4 * pos.length + 4 := by
  have hbounds := turns_bounds ctx.state
  unfold budget
  split <;> omega

theorem parseRecord_eq (h : ctx.Fit) (hleft : ctx.size ≤ ctx.left) (pos : Bytes) :
    parseRecord pool ctx pos =
      if pos.length < ctx.size then .ok (.again, ctx.taken pos)
      else (switch pool (ctx.taken (pos.take ctx.size))).bind
        (resume pool (pos.drop ctx.size)) := by
  rw [parseRecord, parseLoop_succ h hleft]
  split
  next => rfl
  next hpart =>
    have hlen : (pos.take ctx.size).length ≤ ctx.size := length_take_le ..
    obtain ⟨move, hmove, hfit⟩ := switch_fit pool (fit_taken h hlen)
    rw [hmove, Except.bind, Except.bind]
    cases move with
    | ret rc next => rfl
    | goOn next =>
      dsimp only [resume]
      split
      next => rfl
      next hsize =>
        have hless := budget_of_switch (state_taken ctx _) (not_lt.mp hpart) hmove
        have hlt := budget_lt ctx pos
        exact parseLoop_turns hfit (not_lt.mp hsize) (by omega) (budget_lt ..)

/-- A context between two calls. -/
structure PrereadCtx.Waits (ctx : PrereadCtx) : Prop where
  fit : ctx.Fit
  left : ctx.size ≤ ctx.left

theorem waits_zeroed : PrereadCtx.zeroed.Waits := ⟨fit_zeroed, le_refl 0⟩

theorem waits_taken (h : ctx.Waits) (hlen : src.length ≤ ctx.size) : (ctx.taken src).Waits := by
  refine ⟨fit_taken h.fit hlen, ?_⟩
  change ctx.size - src.length ≤ ctx.left - src.length
  exact Nat.sub_le_sub_right h.left _

theorem parseRecord_safe (pool : Pool) (h : ctx.Waits) (pos : Bytes) :
    ∃ rc next, parseRecord pool ctx pos = .ok (rc, next) ∧
      (rc = .again → next.Waits ∧ next.size ≠ 0) := by
  induction hn : budget ctx pos using Nat.strong_induction_on generalizing ctx pos with
  | _ n ih =>
    rw [parseRecord_eq h.fit h.left]
    split
    next hpart =>
      exact ⟨_, _, rfl, fun _ => ⟨waits_taken h (Nat.le_of_lt hpart), Nat.sub_ne_zero_of_lt hpart⟩⟩
    next hpart =>
      have hlen : (pos.take ctx.size).length ≤ ctx.size := length_take_le ..
      obtain ⟨move, hmove, hfit⟩ := switch_fit pool (fit_taken h.fit hlen)
      rw [hmove, Except.bind]
      cases move with
      | ret rc next => exact ⟨rc, next, rfl, fun hrc => absurd hrc hfit⟩
      | goOn next =>
        dsimp only [resume]
        split
        next => exact ⟨_, _, rfl, Rc.noConfusion⟩
        next hsize =>
          have hless := budget_of_switch (state_taken ctx _) (not_lt.mp hpart) hmove
          exact ih _ (hn ▸ hless) ⟨hfit, not_lt.mp hsize⟩ _ rfl

/-- Parsing two reads is parsing what they make together. -/
theorem parseRecord_append (pool : Pool) (h : ctx.Waits) (a b : Bytes) :
    parseRecord pool ctx (a ++ b) =
      (parseRecord pool ctx a).bind fun result =>
        match result with
        | (.again, next) => parseRecord pool next b
        | result => .ok result := by
  induction hn : budget ctx a using Nat.strong_induction_on generalizing ctx a with
  | _ n ih =>
    rw [parseRecord_eq h.fit h.left a]
    split
    next hpart =>
      -- the field goes on in the second part
      have hnext := waits_taken h (Nat.le_of_lt hpart)
      have hsize : (ctx.taken a).size = ctx.size - a.length := rfl
      change parseRecord pool ctx (a ++ b) = parseRecord pool (ctx.taken a) b
      rw [parseRecord_eq h.fit h.left, parseRecord_eq hnext.fit hnext.left,
        size_taken, length_append]
      by_cases hmore : b.length < ctx.size - a.length
      · rw [if_pos (by omega), if_pos hmore, taken_append h.fit.room (by rw [length_append]; omega)]
      have hlen : (a ++ b.take (ctx.size - a.length)).length ≤ ctx.size := by
        rw [length_append, length_take]
        omega
      rw [if_neg (by omega), if_neg hmore, taken_append h.fit.room hlen, take_append, drop_append,
        take_of_length_le (Nat.le_of_lt hpart), drop_of_length_le (Nat.le_of_lt hpart), nil_append]
    next hpart =>
      have hpart := not_lt.mp hpart
      have hlen : (a.take ctx.size).length ≤ ctx.size := length_take_le ..
      obtain ⟨move, hmove, hfit⟩ := switch_fit pool (fit_taken h.fit hlen)
      rw [parseRecord_eq h.fit h.left, if_neg (by rw [length_append]; omega),
        take_append_of_le_length hpart,
        drop_append_of_le_length hpart, hmove, Except.bind, Except.bind]
      cases move with
      | ret rc next =>
        cases rc <;> first | rfl | exact absurd rfl hfit
      | goOn next =>
        dsimp only [resume]
        split
        next => rfl
        next hsize =>
          have hless := budget_of_switch (state_taken ctx _) hpart hmove
          exact ih _ (hn ▸ hless) ⟨hfit, not_lt.mp hsize⟩ _ rfl

/-! ## The head of a record -/

/-- What the handler sees of the bytes behind `ctx->pos`. -/
inductive Head where
  /-- less than five bytes, or less than the whole record -/
  | short
  /-- a ClientHello of version 2 -/
  | hello2 (version : Bytes)
  /-- no handshake record -/
  | foreign
  /-- a record with a fragment of `len` bytes -/
  | record (len : Nat)
  deriving DecidableEq

/-- The five bytes in front. -/
def head (p : Bytes) : Head :=
  let at' : Nat → Nat := fun i => (p.getD i 0).toNat
  if p.length < 5 then .short
  else if 128 ≤ at' 0 ∧ at' 2 = 1 ∧ (at' 3 = 0 ∨ at' 3 = 3) then .hello2 [p.getD 3 0, p.getD 4 0]
  else if at' 0 ≠ 22 ∨ at' 1 ≠ 3 then .foreign
  else if p.length < at' 3 * 256 + at' 4 + 5 then .short
  else .record (at' 3 * 256 + at' 4)

/-- A turn of the loop; `go` is the loop on the records that are left. -/
def handlerTurn (pool : Pool) (go : PrereadCtx → Bytes → Except PrereadFault (Rc × Session))
    (ctx : PrereadCtx) (p : Bytes) : Except PrereadFault (Rc × Session) :=
  match head p with
  | .short => .ok (.again, ⟨some ctx, p⟩)
  | .hello2 version => .ok (.ok, ⟨some { ctx with version := version }, []⟩)
  | .foreign => .ok (.declined, ⟨none, []⟩)
  | .record len =>
    (parseRecord pool ctx ((p.drop 5).take len)).bind fun result =>
      match result with
      | (.declined, _) => .ok (.declined, ⟨none, []⟩)
      | (.again, next) => go next (p.drop (len + 5))
      | (rc, next) => .ok (rc, ⟨some next, []⟩)

theorem handlerLoop_succ (pool : Pool) (turns : Nat) (ctx : PrereadCtx) (p : Bytes) :
    handlerLoop pool (turns + 1) ctx p = handlerTurn pool (handlerLoop pool turns) ctx p := by
  rw [handlerLoop]
  unfold handlerTurn head
  dsimp only
  split
  next => rfl
  split
  next => rfl
  by_cases htype : (p.getD 0 0).toNat ≠ 22
  · rw [if_pos htype, if_pos (.inl htype)]
  rw [if_neg htype]
  by_cases hversion : (p.getD 1 0).toNat ≠ 3
  · rw [if_pos hversion, if_pos (.inr hversion)]
  · rw [if_neg hversion, if_neg (not_or.mpr ⟨htype, hversion⟩)]
    split <;> rfl

variable {p : Bytes}

theorem length_of_record {len : Nat} (h : head p = .record len) : len + 5 ≤ p.length := by
  unfold head at h
  dsimp only at h
  repeat' split at h
  all_goals cases h
  omega

theorem head_append (h : head p ≠ .short) (q : Bytes) : head (p ++ q) = head p := by
  have hlong : 5 ≤ p.length := by
    by_contra hshort
    exact h (if_pos (not_le.mp hshort))
  have hget : ∀ i, i < 5 → (p ++ q).getD i 0 = p.getD i 0 := by
    intro i hi
    rw [getD_eq_getElem?_getD, getD_eq_getElem?_getD, getElem?_append_left (by omega)]
  unfold head at h ⊢
  dsimp only at h ⊢
  simp only [hget 0 (by decide), hget 1 (by decide), hget 2 (by decide),
    hget 3 (by decide), hget 4 (by decide), length_append]
  have hp : ¬p.length < 5 := not_lt.mpr hlong
  have hpq : ¬p.length + q.length < 5 := by omega
  rw [if_neg hpq, if_neg hp]
  rw [if_neg hp] at h
  split
  next => rfl
  next hhello =>
    rw [if_neg hhello] at h
    split
    next => rfl
    next hforeign =>
      rw [if_neg hforeign] at h
      have hwhole : ¬p.length < (p.getD 3 0).toNat * 256 + (p.getD 4 0).toNat + 5 :=
        fun hlt => h (if_pos hlt)
      have hmore : ¬p.length + q.length < (p.getD 3 0).toNat * 256 + (p.getD 4 0).toNat + 5 := by
        omega
      rw [if_neg hmore, if_neg hwhole]

/-! ## Calls -/

/-- The session between two calls. -/
def Session.Waits (s : Session) : Prop := (s.ctx.getD .zeroed).Waits

theorem waits_fresh : Session.fresh.Waits := waits_zeroed

/-- A turn goes on with fewer bytes, in a context that waits for them. -/
theorem handlerTurn_congr (h : ctx.Waits)
    {go go' : PrereadCtx → Bytes → Except PrereadFault (Rc × Session)}
    (hgo : ∀ next rest, next.Waits → rest.length < p.length → go next rest = go' next rest) :
    handlerTurn pool go ctx p = handlerTurn pool go' ctx p := by
  unfold handlerTurn
  cases hhead : head p with
  | short | hello2 version | foreign => rfl
  | record len =>
    have hlen := length_of_record hhead
    obtain ⟨rc, next, hparse, hnext⟩ := parseRecord_safe pool h ((p.drop 5).take len)
    dsimp only
    rw [hparse, Except.bind, Except.bind]
    cases rc with
    | again => exact hgo next _ (hnext rfl).1 (by rw [length_drop]; omega)
    | _ => rfl

theorem handlerLoop_turns (h : ctx.Waits) {turns turns' : Nat} (hturns : p.length < turns)
    (hturns' : p.length < turns') :
    handlerLoop pool turns ctx p = handlerLoop pool turns' ctx p := by
  induction turns generalizing turns' ctx p with
  | zero => exact absurd hturns (Nat.not_lt_zero _)
  | succ turns ih =>
    obtain ⟨turns', rfl⟩ := Nat.exists_eq_succ_of_ne_zero (Nat.ne_zero_of_lt hturns')
    rw [handlerLoop_succ, Nat.succ_eq_add_one, handlerLoop_succ]
    exact handlerTurn_congr h fun next rest hnext hrest => ih hnext (by omega) (by omega)

/-- The records of `p`, however many there are. -/
def overRecords (pool : Pool) (ctx : PrereadCtx) (p : Bytes) :
    Except PrereadFault (Rc × Session) := handlerLoop pool (p.length + 1) ctx p

theorem overRecords_eq {pool : Pool} {ctx : PrereadCtx} (h : ctx.Waits) (p : Bytes) :
    overRecords pool ctx p = handlerTurn pool (overRecords pool) ctx p := by
  rw [overRecords, handlerLoop_succ]
  exact handlerTurn_congr h fun next rest hnext hrest =>
    handlerLoop_turns hnext hrest (Nat.lt_succ_self _)

theorem overRecords_safe (pool : Pool) (h : ctx.Waits) (p : Bytes) :
    ∃ rc s, overRecords pool ctx p = .ok (rc, s) ∧ (rc = .again → s.Waits) := by
  induction hn : p.length using Nat.strong_induction_on generalizing ctx p with
  | _ n ih =>
    rw [overRecords_eq h, handlerTurn]
    cases hhead : head p with
    | short => exact ⟨_, _, rfl, fun _ => h⟩
    | hello2 version => exact ⟨_, _, rfl, Rc.noConfusion⟩
    | foreign => exact ⟨_, _, rfl, Rc.noConfusion⟩
    | record len =>
      have hlen := length_of_record hhead
      obtain ⟨rc, next, hparse, hnext⟩ := parseRecord_safe pool h ((p.drop 5).take len)
      dsimp only
      rw [hparse, Except.bind]
      cases rc with
      | again =>
        have hdrop : (p.drop (len + 5)).length = p.length - (len + 5) := length_drop
        exact ih _ (by omega) (hnext rfl).1 _ rfl
      | _ => exact ⟨_, _, rfl, fun hrc => by cases hrc⟩

theorem overRecords_append (pool : Pool) (h : ctx.Waits) (p q : Bytes) :
    overRecords pool ctx (p ++ q) =
      (overRecords pool ctx p).bind fun result =>
        match result with
        | (.again, s) => overRecords pool (s.ctx.getD .zeroed) (s.unread ++ q)
        | result => .ok result := by
  induction hn : p.length using Nat.strong_induction_on generalizing ctx p with
  | _ n ih =>
    cases hhead : head p with
    | short => rw [overRecords_eq h p, handlerTurn, hhead]; rfl
    | hello2 version | foreign =>
      have happ := head_append (by rw [hhead]; exact Head.noConfusion) q
      rw [overRecords_eq h, overRecords_eq h p, handlerTurn, handlerTurn, happ, hhead]
      rfl
    | record len =>
      have happ := head_append (by rw [hhead]; exact Head.noConfusion) q
      have hlen := length_of_record hhead
      have hdrop : (p.drop (len + 5)).length = p.length - (len + 5) := length_drop
      have htake : ((p ++ q).drop 5).take len = (p.drop 5).take len := by
        rw [drop_append_of_le_length (by omega),
          take_append_of_le_length (by rw [length_drop]; omega)]
      obtain ⟨rc, next, hparse, hnext⟩ := parseRecord_safe pool h ((p.drop 5).take len)
      rw [overRecords_eq h, overRecords_eq h p, handlerTurn, handlerTurn, happ, hhead]
      dsimp only
      rw [htake, hparse, Except.bind, Except.bind]
      cases rc with
      | again =>
        dsimp only
        rw [drop_append_of_le_length hlen]
        exact ih _ (by omega) (hnext rfl).1 _ rfl
      | _ => rfl

theorem handlerCalls_eq (pool : Pool) {s : Session} (h : s.Waits)
    {reads : List Bytes} (hne : reads ≠ []) :
    handlerCalls pool s reads = handler pool s reads.flatten := by
  induction reads generalizing s with
  | nil => exact absurd rfl hne
  | cons read reads ih =>
    have hone : ∀ read,
      handler pool s read = overRecords pool (s.ctx.getD .zeroed) (s.unread ++ read) := fun _ => rfl
    obtain ⟨rc, s', hcall, hs'⟩ := overRecords_safe pool h (s.unread ++ read)
    rw [handlerCalls, hone, hone, flatten_cons, ← append_assoc,
      overRecords_append pool h (s.unread ++ read) reads.flatten,
      hcall, Except.bind, Except.bind]
    cases rc with
    | again =>
      dsimp only
      by_cases hlast : reads = []
      · subst hlast
        have hsame := overRecords_append pool h (s.unread ++ read) []
        rw [append_nil, hcall] at hsame
        exact hsame
      · exact ih (hs' rfl) hlast
    | _ => rfl

end Nginx.Stream
