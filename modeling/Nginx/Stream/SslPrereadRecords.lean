/-
  Stream/SslPrereadRecords.lean --- a ClientHello in records, in reads of any sizes.

  The parser says `NGX_OK` only when nothing of the message is left (`left_of_ok`), so not
  before the last fragment is there; then the handler has the names of the message.
-/
import Nginx.Stream.SslPrereadHello

set_option autoImplicit false

namespace Nginx.Stream

open List Foundation
open Nginx.Core (Rc)

/-! ## The end of the message -/

/-- The states in the body of the message. -/
def PrereadState.InBody (state : PrereadState) : Prop := state ≠ .start ∧ state ≠ .header

/-- In the body nothing but what is read is taken from `left`, and the end is where it is 0. -/
def Move.Keeps (left : Nat) : Move → Prop
  | .goOn next => next.left = left ∧ next.state.InBody
  | .ret rc _ => rc = .ok → left = 0

variable {ctx : PrereadCtx}

/-- A state of the body leaves `left` alone, and the parser ends where it is 0. -/
theorem switch_keeps {pool : Pool} (hbody : ctx.state.InBody) {move : Move}
    (h : switch pool ctx = .ok move) :
    move.Keeps ctx.left := by
  unfold switch at h
  cases hstate : ctx.state <;> rw [hstate] at h <;> dsimp only at h
  case start => exact absurd hstate hbody.1
  case header => exact absurd hstate hbody.2
  case version | random | sidLen | sid | csLen | cs | cmLen | sniLen | sniHost | supverLen =>
    obtain rfl := Except.ok.inj h
    exact ⟨rfl, nofun, nofun⟩
  case cm | ext =>
    split at h
    next hzero =>
      obtain rfl := Except.ok.inj h
      exact fun _ => hzero
    next =>
      obtain rfl := Except.ok.inj h
      exact ⟨rfl, nofun, nofun⟩
  case extHeader =>
    obtain rfl := Except.ok.inj h
    unfold extHeader
    split
    next => exact ⟨rfl, nofun, nofun⟩
    next =>
      split
      next => exact ⟨rfl, nofun, nofun⟩
      next => split <;> exact ⟨rfl, nofun, nofun⟩
  case sniHostHead =>
    unfold sniHostHead decrease at h
    dsimp only at h
    split at h
    next =>
      obtain rfl := Except.ok.inj h
      exact Rc.noConfusion
    split at h
    next =>
      obtain rfl := Except.ok.inj h
      exact Rc.noConfusion
    next hext =>
      rw [if_pos (not_lt.mp hext), Except.map] at h
      cases halloc : pool.pnalloc ctx.allocs (ctx.p16 1) with
      | none =>
        rw [halloc] at h
        obtain rfl := Except.ok.inj h
        exact Rc.noConfusion
      | some data =>
        rw [halloc] at h
        obtain rfl := Except.ok.inj h
        exact ⟨rfl, nofun, nofun⟩
  case alpnLen =>
    unfold alpnLen at h
    cases halloc : pool.pnalloc ctx.allocs (ctx.p16 0) with
    | none =>
      rw [halloc] at h
      obtain rfl := Except.ok.inj h
      exact Rc.noConfusion
    | some data =>
      rw [halloc] at h
      obtain rfl := Except.ok.inj h
      exact ⟨rfl, nofun, nofun⟩
  case alpnProtoLen =>
    unfold alpnProtoLen decrease at h
    dsimp only at h
    split at h
    next =>
      obtain rfl := Except.ok.inj h
      exact Rc.noConfusion
    split at h
    next =>
      obtain rfl := Except.ok.inj h
      exact Rc.noConfusion
    next hext =>
      rw [if_pos (not_lt.mp hext), Except.map] at h
      obtain rfl := Except.ok.inj h
      exact ⟨rfl, nofun, nofun⟩
  case alpnProtoData =>
    unfold alpnProtoData write at h
    dsimp only at h
    split at h
    next =>
      split at h
      next =>
        obtain rfl := Except.ok.inj h
        exact ⟨rfl, nofun, nofun⟩
      next => cases h
    next =>
      obtain rfl := Except.ok.inj h
      exact ⟨rfl, nofun, nofun⟩

theorem left_of_ok {pool : Pool} {next : PrereadCtx} (h : ctx.Waits)
    (hbody : ctx.state.InBody) {pos : Bytes}
    (hok : parseRecord pool ctx pos = .ok (.ok, next)) : ctx.left ≤ pos.length := by
  induction hn : budget ctx pos using Nat.strong_induction_on generalizing ctx pos with
  | _ n ih =>
    rw [parseRecord_eq h.fit h.left] at hok
    split at hok
    next => cases hok
    next hpart =>
      have hpart := not_lt.mp hpart
      have hlen : (pos.take ctx.size).length = ctx.size := length_take_of_le hpart
      have hleft : (ctx.taken (pos.take ctx.size)).left = ctx.left - ctx.size :=
        congrArg (ctx.left - ·) hlen
      obtain ⟨move, hmove, hfit⟩ := switch_fit pool (fit_taken h.fit (le_of_eq hlen))
      have hkeeps := switch_keeps ((state_taken ctx _).symm ▸ hbody) hmove
      rw [hleft] at hkeeps
      rw [hmove, Except.bind] at hok
      cases move with
      | ret rc last =>
        obtain ⟨rfl, -⟩ := Prod.mk.inj (Except.ok.inj hok)
        have hzero := hkeeps rfl
        have hle := h.left
        omega
      | goOn last =>
        obtain ⟨hlast, hin⟩ := hkeeps
        dsimp only [resume] at hok
        split at hok
        next => cases hok
        next hsize =>
          have hless := budget_of_switch (state_taken ctx _) hpart hmove
          have hrest := ih _ (hn ▸ hless) ⟨hfit, not_lt.mp hsize⟩ hin hok rfl
          rw [length_drop] at hrest
          omega

theorem again_of_short (pool : Pool) {w : Bytes} (hw : w.length < 4) :
    ∃ next, parseRecord pool .zeroed w = .ok (.again, next) := by
  obtain ⟨hwaits, hparse⟩ := parse_move pool waits_zeroed (w := []) rfl rfl (le_refl 4)
  rw [← nil_append w, hparse, parseRecord_eq hwaits.fit hwaits.left]
  exact ⟨_, if_pos hw⟩

theorem parse_prefix (pool : Pool) {hello : ClientHello} (h : hello.WellFormed)
    {w v : Bytes} (hbytes : hello.bytes = w ++ v)
    (hv : v ≠ []) :
    ∃ rc ctx, parseRecord pool .zeroed w = .ok (rc, ctx) ∧
      (rc = .again ∨ rc = .error ∧ ∃ k size, pool.pnalloc k size = none) := by
  obtain ⟨rc, ctx, hparse, -⟩ := parseRecord_safe pool waits_zeroed w
  refine ⟨rc, ctx, hparse, ?_⟩
  by_cases hagain : rc = .again
  · exact .inl hagain
  right
  obtain ⟨rc', ctx', hwhole, hresult⟩ := parse_hello pool h
  have hsame : parseRecord pool .zeroed hello.bytes = .ok (rc, ctx) := by
    rw [hbytes, parseRecord_append pool waits_zeroed, hparse, Except.bind]
    cases rc <;> first | rfl | exact absurd rfl hagain
  obtain ⟨rfl, rfl⟩ := Prod.mk.inj (Except.ok.inj (hsame.symm.trans hwhole))
  rcases hresult with ⟨rfl, -⟩ | hfailed
  · exfalso
    -- the parser would have been done before it has read the body
    obtain ⟨buf, hwaits, htype⟩ := parse_type pool h
    have htypeLen : (1 :: u24 hello.body.length).length = 4 := rfl
    have hpos := length_pos_of_ne_nil hv
    have hlen := congrArg List.length hbytes
    rw [ClientHello.bytes, length_append, length_append, htypeLen] at hlen
    by_cases hshort : w.length < 4
    · obtain ⟨next, hagain⟩ := again_of_short pool hshort
      rw [hparse] at hagain
      cases hagain
    have hlong := not_lt.mp hshort
    have htake : w.take 4 = 1 :: u24 hello.body.length := by
      have htakes := congrArg (List.take 4) hbytes
      rw [ClientHello.bytes, take_left' htypeLen, take_append_of_le_length hlong] at htakes
      exact htakes.symm
    have hsplit := (take_append_drop 4 w).symm
    rw [htake] at hsplit
    rw [hsplit, htype] at hparse
    have hle : hello.body.length ≤ (w.drop 4).length :=
      left_of_ok hwaits ⟨PrereadState.noConfusion, PrereadState.noConfusion⟩ hparse
    rw [length_drop] at hle
    omega
  · exact hfailed

/-! ## Records -/

theorem length_record (r : HandshakeRecord) : r.bytes.length = r.fragment.length + 5 := by
  simp only [HandshakeRecord.bytes, u16, length_append, length_cons, length_nil]
  omega

variable {r : HandshakeRecord}

theorem head_record (hr : r.WellFormed) (q : Bytes) :
    head (r.bytes ++ q) = .record r.fragment.length := by
  have hlen : (r.bytes ++ q).length = r.fragment.length + 5 + q.length := by
    rw [length_append, length_record]
  have htype : ((r.bytes ++ q).getD 0 0).toNat = 22 := rfl
  have hversion : ((r.bytes ++ q).getD 1 0).toNat = 3 := rfl
  have hsize : ((r.bytes ++ q).getD 3 0).toNat * 256 + ((r.bytes ++ q).getD 4 0).toNat =
    r.fragment.length := toNat_u16 hr.2
  have hwhole : ¬(r.bytes ++ q).length <
    ((r.bytes ++ q).getD 3 0).toNat * 256 + ((r.bytes ++ q).getD 4 0).toNat + 5 := by omega
  unfold head
  dsimp only
  rw [if_neg (by omega), if_neg fun hhello => by omega, if_neg fun hforeign => by
    omega, if_neg hwhole, hsize]

theorem overRecords_record (pool : Pool) (h : ctx.Waits) (hr : r.WellFormed) (q : Bytes) :
    overRecords pool ctx (r.bytes ++ q) =
      (parseRecord pool ctx r.fragment).bind fun result =>
        match result with
        | (.declined, _) => .ok (.declined, ⟨none, []⟩)
        | (.again, next) => overRecords pool next q
        | (rc, next) => .ok (rc, ⟨some next, []⟩) := by
  have hsplit : r.bytes ++ q = ([22, 3, r.minor] ++ u16 r.fragment.length) ++
    (r.fragment ++ q) := by
    simp only [HandshakeRecord.bytes, append_assoc]
  have hfive : ([22, 3, r.minor] ++ u16 r.fragment.length).length = 5 := rfl
  have hfragment : ((r.bytes ++ q).drop 5).take r.fragment.length = r.fragment := by
    rw [hsplit, drop_left' hfive, take_left' rfl]
  have hrest : (r.bytes ++ q).drop (r.fragment.length + 5) = q := by
    rw [hsplit, add_comm, ← drop_drop, drop_left' hfive, drop_left' rfl]
  have hstep := @overRecords_eq pool ctx h (r.bytes ++ q)
  rw [handlerTurn, head_record hr] at hstep
  simp only [hfragment, hrest] at hstep
  exact hstep

theorem overRecords_part (pool : Pool) (h : ctx.Waits) (hr : r.WellFormed) {p v : Bytes}
    (hp : r.bytes = p ++ v) (hv : v ≠ []) :
    overRecords pool ctx p = .ok (.again, ⟨some ctx, p⟩) := by
  have hshort : head p = .short := by
    by_contra hne
    have hwhole := head_append hne v
    rw [← hp, ← append_nil r.bytes, head_record hr] at hwhole
    have hle := length_of_record hwhole.symm
    have hlen := length_record r
    have hpos := length_pos_of_ne_nil hv
    rw [hp, length_append] at hlen
    omega
  rw [overRecords_eq h, handlerTurn, hshort]

theorem overRecords_records (pool : Pool) (h : ctx.Waits) {rs : List HandshakeRecord}
    (hrs : ∀ r ∈ rs, r.WellFormed)
    (hne : rs ≠ []) {rc : Rc} {next : PrereadCtx}
    (hparse : parseRecord pool ctx (rs.flatMap HandshakeRecord.fragment) = .ok (rc, next))
    (hrc : rc = .ok ∨ rc = .error) (q : Bytes) :
    overRecords pool ctx (rs.flatMap HandshakeRecord.bytes ++ q) = .ok (rc, ⟨some next, []⟩) := by
  induction rs generalizing ctx with
  | nil => exact absurd rfl hne
  | cons r rs ih =>
    obtain ⟨rc', next', hfirst, hnext⟩ := parseRecord_safe pool h r.fragment
    rw [flatMap_cons, append_assoc, overRecords_record pool h (hrs r mem_cons_self),
      hfirst, Except.bind]
    rw [flatMap_cons, parseRecord_append pool h, hfirst, Except.bind] at hparse
    by_cases hagain : rc' = .again
    · subst hagain
      obtain ⟨hwaits, hsize⟩ := hnext rfl
      refine ih hwaits (fun r' hr' => hrs r' (mem_cons_of_mem _ hr')) (fun hnil => ?_) hparse
      -- behind the last record the parser would still ask for more
      subst hnil
      have hpos : ([] : Bytes).length < next'.size := pos_of_ne_zero hsize
      dsimp only at hparse
      rw [flatMap_nil, parseRecord_eq hwaits.fit hwaits.left, if_pos hpos] at hparse
      obtain ⟨rfl, -⟩ := Prod.mk.inj (Except.ok.inj hparse)
      rcases hrc with hrc | hrc <;> cases hrc
    · have hsame : (rc', next') = (rc, next) := by
        cases rc' <;> first | exact Except.ok.inj hparse | exact absurd rfl hagain
      obtain ⟨rfl, rfl⟩ := Prod.mk.inj hsame
      rcases hrc with rfl | rfl <;> rfl

theorem overRecords_prefix (pool : Pool) (h : ctx.Waits) {rs : List HandshakeRecord}
    (hrs : ∀ r ∈ rs, r.WellFormed)
    (hparse : ∀ w v, rs.flatMap HandshakeRecord.fragment = w ++ v → v ≠ [] →
      ∃ rc next, parseRecord pool ctx w = .ok (rc, next) ∧
      (rc = .again ∨ rc = .error ∧ ∃ k size, pool.pnalloc k size = none))
    {p v : Bytes} (hp : rs.flatMap HandshakeRecord.bytes = p ++ v) (hv : v ≠ []) :
    ∃ rc s, overRecords pool ctx p = .ok (rc, s) ∧
      (rc = .again ∨ rc = .error ∧ ∃ k size, pool.pnalloc k size = none) := by
  induction rs generalizing ctx p with
  | nil => exact absurd (append_eq_nil_iff.mp hp.symm).2 hv
  | cons r rs ih =>
    have hr := hrs r mem_cons_self
    rw [flatMap_cons] at hp
    have hsplit : (∃ p', p = r.bytes ++ p' ∧ rs.flatMap HandshakeRecord.bytes = p' ++ v) ∨
      ∃ v', r.bytes = p ++ v' ∧ v' ≠ [] := by
      rcases append_eq_append_iff.mp hp with ⟨p', hp', hrest⟩ | ⟨v', hrecord, hrest⟩
      · exact .inl ⟨p', hp', hrest⟩
      · by_cases hv' : v' = []
        · subst hv'
          exact .inl ⟨[], by rw [hrecord, append_nil, append_nil], hrest.symm⟩
        · exact .inr ⟨v', hrecord, hv'⟩
    rcases hsplit with ⟨p', rfl, hrest⟩ | ⟨v', hrecord, hv'⟩
    · -- the first record is there, and there are others behind it
      have hmore : rs.flatMap HandshakeRecord.fragment ≠ [] := by
        cases rs with
        | nil => exact absurd (append_eq_nil_iff.mp hrest.symm).2 hv
        | cons r' rs =>
          have hne := (hrs r' (mem_cons_of_mem _ mem_cons_self)).1
          exact fun hnil => hne (append_eq_nil_iff.mp hnil).1
      obtain ⟨rc, next, hfirst, hrc⟩ := hparse r.fragment _ flatMap_cons hmore
      rw [overRecords_record pool h hr, hfirst, Except.bind]
      rcases hrc with rfl | ⟨rfl, hfailed⟩
      · obtain ⟨rc', next', hsafe, hnext⟩ := parseRecord_safe pool h r.fragment
        obtain ⟨rfl, rfl⟩ := Prod.mk.inj (Except.ok.inj (hsafe.symm.trans hfirst))
        refine ih
          (hnext rfl).1 (fun r' hr' => hrs r' (mem_cons_of_mem _ hr')) (fun w v hw hv => ?_) hrest
        have hwhole := hparse (r.fragment ++ w) v (by rw [flatMap_cons, hw, append_assoc]) hv
        rwa [parseRecord_append pool h, hfirst] at hwhole
      · exact ⟨_, _, rfl, .inr ⟨rfl, hfailed⟩⟩
    · exact ⟨_, _, overRecords_part pool h hr hrecord hv', .inl rfl⟩

/-! ## The handler -/

/-- What the calls for some reads have come to: the names of the message where all of it is there,
and `NGX_AGAIN` before; or an allocation has failed. -/
def ClientHello.Preread (hello : ClientHello) (pool : Pool) (whole : Prop) (rc : Rc) (s : Session) :
    Prop :=
  (rc = .error ∧ ∃ k size, pool.pnalloc k size = none) ∨
    (¬whole ∧ rc = .again) ∨
    (whole ∧ rc = .ok ∧ ∃ ctx, s.ctx = some ctx ∧ ctx.hostName = hello.serverName ∧
      ctx.alpnNames = hello.alpnProtocols)

/-- The handler reads the names of every ClientHello, however its records and its bytes are cut;
for any bytes at all no call faults, and it does not matter how they are delivered. -/
theorem preread_hello (pool : Pool) :
    (∀ hello : ClientHello, hello.WellFormed →
      ∀ rs : List HandshakeRecord, (∀ r ∈ rs, r.WellFormed) →
      rs.flatMap HandshakeRecord.fragment = hello.bytes → ∀ reads : List Bytes, reads ≠ [] →
      (∃ v, rs.flatMap HandshakeRecord.bytes = reads.flatten ++ v) →
      ∃ rc s, handlerCalls pool .fresh reads = .ok (rc, s) ∧
        hello.Preread pool (reads.flatten = rs.flatMap HandshakeRecord.bytes) rc s) ∧
    (∀ reads : List Bytes, reads ≠ [] →
      handlerCalls pool .fresh reads = handlerCalls pool .fresh [reads.flatten]) ∧
    (∀ reads : List Bytes, ∃ rc s, handlerCalls pool .fresh reads = .ok (rc, s)) := by
  have hcalls : ∀ reads : List Bytes, reads ≠ [] →
    handlerCalls pool .fresh reads = overRecords pool .zeroed reads.flatten :=
    fun reads hne => handlerCalls_eq pool waits_fresh hne
  refine ⟨?_, fun reads hne => ?_, fun reads => ?_⟩
  · rintro hello hhello rs hrs hfragments reads hne ⟨v, hv⟩
    rw [hcalls reads hne]
    by_cases hpart : v = []
    · subst hpart
      rw [append_nil] at hv
      obtain ⟨rc, ctx, hparse, hresult⟩ := parse_hello pool hhello
      have hrs' : rs ≠ [] := by
        rintro rfl
        exact cons_ne_nil _ _ (hfragments.symm.trans flatMap_nil)
      have hall :=
        overRecords_records pool waits_zeroed hrs hrs' (hfragments ▸ hparse)
          (hresult.imp And.left And.left) []
      rw [append_nil, hv] at hall
      refine ⟨_, _, hall, ?_⟩
      rcases hresult with ⟨hok, hnames⟩ | hfailed
      · exact .inr (.inr ⟨hv.symm, hok, ctx, rfl, hnames⟩)
      · exact .inl hfailed
    · obtain ⟨rc, s, hpre, hrc⟩ := overRecords_prefix pool waits_zeroed hrs
        (fun w v hw hv => parse_prefix pool hhello (hfragments ▸ hw) hv) hv hpart
      refine ⟨rc, s, hpre, ?_⟩
      rcases hrc with hagain | hfailed
      · refine .inr (.inl ⟨fun hwhole => hpart ?_, hagain⟩)
        rw [← hwhole] at hv
        exact self_eq_append_right.mp hv
      · exact .inl hfailed
  · rw [hcalls reads hne, hcalls _ (cons_ne_nil _ _), flatten_singleton]
  · by_cases hne : reads = []
    · exact ⟨_, _, by rw [hne]; rfl⟩
    · obtain ⟨rc, s, hsafe, -⟩ := overRecords_safe pool waits_zeroed reads.flatten
      exact ⟨rc, s, (hcalls reads hne).trans hsafe⟩

/-- A pool whose allocations succeed. -/
def plentyPool :
    Pool := ⟨fun _ size => some (List.replicate size 0), fun _ _ _ h =>
    Option.some.inj h ▸ length_replicate⟩

/-- A ClientHello with a host name and two protocols. -/
def exampleHello : ClientHello :=
  { version := [3, 3]
    random := List.replicate 32 7
    sessionId := []
    cipherSuites := [19, 1]
    compressionMethods := [0]
    extensions := some [.alpn [ascii "h2", ascii "http/1.1"],
      .supportedVersions [3, 4], .serverName (ascii "a.b"), .other 21 [0]] }

theorem exampleHello_wellFormed : exampleHello.WellFormed := by
  refine ⟨rfl, rfl, by decide, by decide, by decide, by decide, fun e he => ?_, by decide⟩
  simp only [ClientHello.exts, exampleHello, Option.getD_some, mem_cons, not_mem_nil, or_false]
    at he
  rcases he with rfl | rfl | rfl | rfl
  · exact ⟨by decide, by decide, by decide⟩
  · exact ⟨by decide, by decide⟩
  · exact ⟨by decide, trivial⟩
  · exact ⟨by decide, by decide, by decide, by decide, by decide⟩

/-- The message in two records. -/
def exampleRecords : List HandshakeRecord :=
    [⟨1, exampleHello.bytes.take 10⟩, ⟨1, exampleHello.bytes.drop 10⟩]

theorem exampleRecords_wellFormed : ∀ r ∈ exampleRecords, r.WellFormed := by
  intro r hr
  simp only [exampleRecords, mem_cons, not_mem_nil, or_false] at hr
  rcases hr with rfl | rfl
  · exact ⟨by decide, by decide⟩
  · exact ⟨by decide, by decide⟩

/-- The records are cut again, into two reads. -/
theorem preread_hello_twoRecords :
    ∃ rc s, handlerCalls plentyPool .fresh
        [(exampleRecords.flatMap HandshakeRecord.bytes).take 14,
          (exampleRecords.flatMap HandshakeRecord.bytes).drop 14] = .ok (rc, s) ∧
      rc = .ok ∧ ∃ ctx, s.ctx = some ctx ∧ ctx.hostName = ascii "a.b" ∧
        ctx.alpnNames = ascii "h2,http/1.1" := by
  have hreads : [(exampleRecords.flatMap HandshakeRecord.bytes).take 14,
    (exampleRecords.flatMap HandshakeRecord.bytes).drop 14].flatten =
      exampleRecords.flatMap HandshakeRecord.bytes := by
    rw [flatten_cons, flatten_singleton, take_append_drop]
  obtain ⟨rc, s, hcalls, hresult⟩ :=
    (preread_hello plentyPool).1 exampleHello exampleHello_wellFormed exampleRecords
    exampleRecords_wellFormed (by decide) _ (cons_ne_nil _ _) ⟨[], by rw [hreads, append_nil]⟩
  refine ⟨rc, s, hcalls, ?_⟩
  rcases hresult with ⟨-, k, size, hfailed⟩ | ⟨hpart, -⟩ | ⟨-, hok⟩
  · exact absurd hfailed (Option.some_ne_none _)
  · exact absurd hreads hpart
  · exact hok

end Nginx.Stream
