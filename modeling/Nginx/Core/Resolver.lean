/-
  Core/Resolver.lean --- responses to A and AAAA queries
  (`ngx_resolver_process_a` in `src/core/ngx_resolver.c`, with IPv6).

  What the node of a name has once for each family of addresses, the second time
  with a `6` at the end, is a `QueryState`.  The tree of names is a partial map.
  Memory is always there; a handler is called, and a name or a TCP query passed
  on, where the list of actions says so.  The two loops over the records of a
  response go through the same records.
-/
import Nginx.Core.ResolverCopy

set_option autoImplicit false

namespace Nginx.Core

open Foundation

/-! ## Data -/

/-- `NGX_RESOLVE_A` and `NGX_RESOLVE_AAAA` -/
inductive QueryType where
  | a
  | aaaa
  deriving DecidableEq

namespace QueryType

def other : QueryType → QueryType
  | a => aaaa
  | aaaa => a

/-- The type that a record has on the wire. -/
def ofNat? (type : Nat) : Option QueryType :=
  if type = 1 then some a else if type = 28 then some aaaa else none

/-- The length of an address. -/
def size : QueryType → Nat
  | a => 4
  | aaaa => 16

end QueryType

/-- `NGX_RESOLVE_CNAME` -/
def resolveCname : Nat := 5

/-- `NGX_RESOLVE_NXDOMAIN` -/
def resolveNxdomain : Nat := 3

/-- `NGX_RESOLVER_MAX_RECURSION` -/
def resolverMaxRecursion : Nat := 50

/-- `(u_short) -1`, while there is no response yet. -/
def unset : Nat := 0xffff

/-- `NGX_OK` as a state of a context. -/
def stateOk : Nat := 0

/-- The unions `u` and `u6`. -/
inductive NodeAddrs where
  | addr (addr : Bytes)
  | addrs (addrs : List Bytes)
  | cname (name : Bytes)
  deriving DecidableEq

/-- The addresses that `u` or `u6` leads to. -/
def NodeAddrs.toList : NodeAddrs → List Bytes
  | addr a => [a]
  | addrs l => l
  | cname _ => []

/-- `query`, of which the first two bytes matter, `u`, `naddrs` and `tcp`. -/
structure QueryState where
  query : Option (Byte × Byte)
  u : NodeAddrs
  naddrs : Nat
  tcp : Bool
  deriving DecidableEq

/-- `ngx_resolver_ctx_t` -/
structure ResolverCtx where
  ident : Nat
  recursion : Nat
  deriving DecidableEq

/-- `ngx_resolver_node_t` -/
structure ResolverNode where
  four : QueryState
  six : QueryState
  code : Nat
  cnlen : Nat
  expire : Nat
  valid : Nat
  ttl : Nat
  waiting : List ResolverCtx
  deriving DecidableEq

/-- The family of addresses that a query is for. -/
def ResolverNode.side (rn : ResolverNode) : QueryType → QueryState
  | .a => rn.four
  | .aaaa => rn.six

def ResolverNode.setSide (rn : ResolverNode) (qtype : QueryType) (s : QueryState) : ResolverNode :=
  match qtype with
  | .a => { rn with four := s }
  | .aaaa => { rn with six := s }

def ResolverNode.setNaddrs (rn : ResolverNode) (qtype : QueryType) (naddrs : Nat) : ResolverNode :=
  rn.setSide qtype { rn.side qtype with naddrs := naddrs }

/-- `ngx_resolver_t`; a node is in one queue, under its name. -/
structure Resolver where
  names : Bytes → Option ResolverNode
  resendQueue : List Bytes
  expireQueue : List Bytes
  valid : Nat
  expire : Nat
  resendTimeout : Nat

/-- The arguments that `ngx_resolver_process_response` passes on: a message of `n` bytes. -/
structure ResolverResponse where
  buf : Nat → Byte
  n : Nat
  ident : Nat
  code : Nat
  qtype : QueryType
  nan : Nat
  trunc : Bool
  ans : Nat

/-- An element of `ctx->addrs`. -/
inductive ResolverAddr where
  | sin (addr : Bytes)
  | sin6 (addr : Bytes)
  deriving DecidableEq

/-- What is done besides changing the resolver. -/
inductive ResolverAction where
  /-- `ctx->handler(ctx)`, after `state`, `valid` and `addrs` have been set -/
  | handler (ctx : ResolverCtx) (state : Nat) (valid : Option Nat) (addrs : List ResolverAddr)
  /-- `ngx_resolve_name_locked` for a list of contexts -/
  | resolveName (ctxs : List ResolverCtx) (name : Bytes)
  /-- `ngx_resolver_send_tcp_query` -/
  | sendTcpQuery (qtype : QueryType)
  deriving DecidableEq

/-! ## Records -/

/-- The messages about a record. -/
inductive RecordError where
  /-- `"short DNS response"` -/
  | shortResponse
  /-- `"invalid name in DNS response"` -/
  | invalidName
  /-- `"unexpected RR class %ui"` -/
  | unexpectedClass (class' : Nat)
  /-- `"unexpected A record in DNS response"`, or `AAAA` -/
  | unexpectedRecord (qtype : QueryType)
  /-- `"invalid A record in DNS response"`, or `AAAA` -/
  | invalidRecord (qtype : QueryType)
  deriving DecidableEq

variable (buf : Nat → Byte) (n : Nat)

/-- Two bytes of a record, the first one the high one. -/
def anShort (i : Nat) : Nat := (buf i).toNat <<< 8 + (buf (i + 1)).toNat

/-- `ttl`, a signed number of 32 bits, and then 0 when it is negative. -/
def anTtl (i : Nat) : Nat :=
  let ttl := (buf (i + 4)).toNat <<< 24 + (buf (i + 5)).toNat <<< 16 + (buf (i + 6)).toNat <<< 8 +
    (buf (i + 7)).toNat
  if ttl < 2 ^ 31 then ttl else 0

/-- `sizeof(ngx_resolver_an_t)` -/
def anSize : Nat := 10

/-- The name of a record in the first loop, which starts at `start`. -/
def skipName (start : Nat) : Nat → Nat → Except RecordError Nat
  | 0, _ => .error .shortResponse
  | fuel + 1, i =>
    if i < n then
      if isPointer (buf i) then .ok (i + 2)
      else if buf i = 0 then
        if i + 1 - start < 2 then .error .invalidName else .ok (i + 1)
      else skipName start fuel (i + 1 + (buf i).toNat)
    else .error .shortResponse

/-- What the first loop has found. -/
structure Records where
  naddrs : Nat
  cname : Option Nat
  deriving DecidableEq

/-- The first loop, with `left` records to come; the first result is `rn->ttl`. -/
def scanRecords (qtype : QueryType) : Nat → Nat → Nat → Records → Nat × Except RecordError Records
  | 0, _, ttl, s => (ttl, .ok s)
  | left + 1, i, ttl, s =>
    match skipName buf n i (n + 1) i with
    | .error e => (ttl, .error e)
    | .ok i =>
      if n ≤ i + anSize then (ttl, .error .shortResponse)
      else if anShort buf (i + 2) ≠ 1 then (ttl, .error (.unexpectedClass (anShort buf (i + 2))))
      else
        let ttl := min ttl (anTtl buf i)
        let type := anShort buf i
        let len := anShort buf (i + 8)
        let i := i + anSize
        match QueryType.ofNat? type with
        | some t =>
          if t ≠ qtype then (ttl, .error (.unexpectedRecord t))
          else if len ≠ t.size then (ttl, .error (.invalidRecord t))
          else if n < i + t.size then (ttl, .error .shortResponse)
          else scanRecords qtype left (i + len) ttl { s with naddrs := s.naddrs + 1 }
        | none =>
          scanRecords qtype left (i + len) ttl
            (if type = resolveCname then { s with cname := some i } else s)

/-- The name of a record in the second loop. -/
def passName : Nat → Nat → Except Fault Nat
  | 0, _ => .error .outOfFuel
  | fuel + 1, i =>
    if isPointer (buf i) then .ok (i + 2)
    else if buf i = 0 then .ok (i + 1)
    else passName fuel (i + 1 + (buf i).toNat)

/-- The second loop: the addresses, and the type of the record that was the last of
`naddrs`. -/
def collectAddrs (naddrs : Nat) :
    Nat → Nat → List Bytes → Except Fault (List Bytes × Option QueryType)
  | 0, _, l => .ok (l, none)
  | left + 1, i, l => do
    let i ← passName buf copyBound i
    let type := anShort buf i
    let len := anShort buf (i + 8)
    let i := i + anSize
    match QueryType.ofNat? type with
    | some t =>
      let l := l ++ [load buf i t.size]
      if l.length = naddrs then .ok (l, some t) else collectAddrs naddrs left (i + len) l
    | none => collectAddrs naddrs left (i + len) l

/-! ## Ways out -/

namespace Resolver

variable (r : Resolver) (name : Bytes) (rn : ResolverNode) (now : Nat)

/-- The node of a name has changed. -/
def put : Resolver := { r with names := Function.update r.names name (some rn) }

/-- `ngx_queue_remove(&rn->queue)` -/
def unqueue : Resolver :=
  { r with resendQueue := r.resendQueue.erase name, expireQueue := r.expireQueue.erase name }

/-- `ngx_rbtree_delete` and `ngx_resolver_free_node` -/
def delete : Resolver := { r with names := Function.update r.names name none }

/-- The block `if (code)`. -/
def processCode (qtype : QueryType) (code : Nat) : Resolver × List ResolverAction :=
  let rn := rn.setNaddrs qtype 0
  if (rn.side qtype.other).naddrs = unset then (r.put name { rn with code := code % 256 }, [])
  else
    ((r.unqueue name).delete name, rn.waiting.map fun ctx =>
      .handler ctx code (some (now + if r.valid ≠ 0 then r.valid else 10)) [])

/-- `ngx_resolver_export` without rotation; one IPv4 address alone goes into the context
instead. -/
def exported : List ResolverAddr :=
  (rn.four.u.toList.take rn.four.naddrs).map .sin ++ (rn.six.u.toList.take rn.six.naddrs).map .sin6

/-- The node is now cached. -/
def cache : Resolver :=
  let rn := { rn with
    four := { rn.four with query := none }
    six := { rn.six with query := none }
    valid := now + if r.valid ≠ 0 then r.valid else rn.ttl
    expire := now + r.expire
    waiting := [] }
  let r := (r.unqueue name).put name rn
  { r with expireQueue := name :: r.expireQueue }

/-- The label `export` -/
def processExport : Resolver × List ResolverAction :=
  (r.cache name rn now, rn.waiting.map fun ctx =>
    .handler ctx stateOk (some (now + if r.valid ≠ 0 then r.valid else rn.ttl)) (exported rn))

/-- The end of the block `if (cname)`, when `target` has been copied. -/
def processCname (target : Bytes) : Resolver × List ResolverAction :=
  let r := r.cache name
    { rn with cnlen := target.length % 2 ^ 16, four := { rn.four with u := .cname target } } now
  match rn.waiting with
  | [] => (r, [])
  | ctx :: rest =>
    let ctxs := { ctx with recursion := ctx.recursion + 1 } :: rest
    if ctx.recursion ≥ resolverMaxRecursion then
      (r, ctxs.map fun ctx => .handler ctx resolveNxdomain none [])
    else (r, [.resolveName ctxs target])

/-! ## The function -/

/-- Both numbers of addresses are known, and one of them is not 0. -/
def hasAddrs : Prop :=
  rn.four.naddrs ≠ unset ∧ rn.six.naddrs ≠ unset ∧ 0 < rn.four.naddrs + rn.six.naddrs

instance : Decidable (hasAddrs rn) := inferInstanceAs (Decidable (_ ∧ _ ∧ _))

/-- A response without addresses has no more than that. -/
def answered (qtype : QueryType) : ResolverNode :=
  if (rn.side qtype).naddrs = unset then rn.setNaddrs qtype 0 else rn

/-- What comes after the second loop. -/
def finishAnswer (x : ResolverResponse) (cname : Option Nat) :
    Except Fault (Resolver × List ResolverAction) :=
  let rn := answered rn x.qtype
  if hasAddrs rn then .ok (r.processExport name rn now)
  else
    match cname with
    | none => .ok (r.put name rn, [])
    | some src =>
      if rn.four.naddrs = unset ∨ rn.six.naddrs = unset then .ok (r.put name rn, [])
      else do
        let copied ← resolverCopy x.buf x.n src true true
        if copied.rc ≠ .ok then .ok (r.put name rn, [])
        else .ok (r.processCname name rn now (copied.name.getD []))

/-- What comes after the block `if (code)`. -/
def processRecords (x : ResolverResponse) : Except Fault (Resolver × List ResolverAction) :=
  let (ttl, scanned) := scanRecords x.buf x.n x.qtype x.nan x.ans rn.ttl ⟨0, none⟩
  let rn := { rn with ttl := ttl }
  match scanned with
  | .error _ => .ok (r.put name rn, [])
  | .ok s =>
    if s.naddrs = 0 then r.finishAnswer name rn now x s.cname
    else do
      let (l, last) ← collectAddrs x.buf s.naddrs x.nan x.ans []
      let rn := rn.setSide x.qtype { rn.side x.qtype with
        u := if s.naddrs = 1 then .addr (l.headD []) else .addrs l
        naddrs := s.naddrs % 2 ^ 16 }
      match last with
      | none => r.finishAnswer name rn now x s.cname
      | some t =>
        if (rn.side t.other).naddrs = unset then .ok (r.put name rn, [])
        else r.finishAnswer name rn now x s.cname

/-- The response to a query is known to be one. -/
def processAnswer (x : ResolverResponse) : Except Fault (Resolver × List ResolverAction) :=
  let code := if x.code = 0 ∧ rn.code ≠ 0 then rn.code else x.code
  if code = 0 ∧ x.nan = 0 then
    let rn := rn.setNaddrs x.qtype 0
    let naddrs := (rn.side x.qtype.other).naddrs
    if naddrs = unset then .ok (r.put name rn, [])
    else if naddrs ≠ 0 then .ok (r.processExport name rn now)
    else .ok (r.processCode name rn now x.qtype resolveNxdomain)
  else if code ≠ 0 then .ok (r.processCode name rn now x.qtype code)
  else r.processRecords name rn now x

/-- The response to a query is truncated. -/
def processTrunc (x : ResolverResponse) : Resolver × List ResolverAction :=
  let r := r.unqueue name
  match rn.waiting with
  | [] => (r.delete name, [])
  | _ =>
    let rn := rn.setSide x.qtype { rn.side x.qtype with tcp := true }
    let r := r.put name { rn with expire := now + r.resendTimeout }
    ({ r with resendQueue := name :: r.resendQueue }, [.sendTcpQuery x.qtype])

/-- `ngx_resolver_process_a` -/
def processA (x : ResolverResponse) : Except Fault (Resolver × List ResolverAction) := do
  -- the question is behind the header
  let copied ← resolverCopy x.buf x.n 12 true true
  if copied.rc ≠ .ok then .ok (r, [])
  else
    let name := copied.name.getD []
    match r.names name with
    | none => .ok (r, [])
    | some rn =>
      let s := rn.side x.qtype
      match s.query with
      | none => .ok (r, [])
      | some (hi, lo) =>
        if s.naddrs ≠ unset then .ok (r, [])
        else if x.trunc = true ∧ s.tcp = true then .ok (r, [])
        else if x.ident ≠ hi.toNat <<< 8 + lo.toNat then .ok (r, [])
        else if x.trunc = true then .ok (r.processTrunc name rn now x)
        else r.processAnswer name rn now x

end Resolver

variable {buf : Nat → Byte} {n start fuel fuel' i j left ttl : Nat} {qtype : QueryType}
  {s s' : Records} {l : List Bytes}

theorem passName_of_skipName (h : skipName buf n start fuel i = .ok j) (hf : fuel ≤ fuel') :
    passName buf fuel' i = .ok j ∧ i < j := by
  induction fuel generalizing i fuel' with
  | zero => cases h
  | succ fuel ih =>
    obtain ⟨fuel', rfl⟩ : ∃ k, fuel' = k + 1 := ⟨fuel' - 1, by omega⟩
    rw [skipName] at h
    rw [passName]
    split at h
    swap
    · cases h
    split at h
    next hp =>
      cases h
      exact ⟨if_pos hp, by omega⟩
    next hp =>
      rw [if_neg hp]
      split at h
      next hz =>
        rw [if_pos hz]
        split at h
        · cases h
        · cases h
          exact ⟨rfl, by omega⟩
      next hz =>
        rw [if_neg hz]
        obtain ⟨hpass, hlt⟩ := ih h (show fuel ≤ fuel' by omega)
        exact ⟨hpass, by omega⟩

variable {ttl' : Nat}

theorem scanRecords_succ
    (h : scanRecords buf n qtype (left + 1) i ttl s = (ttl', .ok s')) :
    ∃ j, skipName buf n i (n + 1) i = .ok j ∧ j + anSize < n ∧
      ∃ s₁, (∀ t, scanRecords buf n qtype (left + 1) i t s =
          scanRecords buf n qtype left (j + anSize + anShort buf (j + 8))
            (min t (anTtl buf j)) s₁) ∧
        (QueryType.ofNat? (anShort buf j) = some qtype ∧ s₁.naddrs = s.naddrs + 1 ∧
            anShort buf (j + 8) = qtype.size ∧ j + anSize + qtype.size ≤ n ∨
          QueryType.ofNat? (anShort buf j) = none ∧ s₁.naddrs = s.naddrs) := by
  simp only [scanRecords] at h
  split at h
  next => cases h
  next j hskip =>
    refine ⟨j, hskip, ?_⟩
    split at h
    next => cases h
    next hn =>
      split at h
      next => cases h
      next hclass =>
        refine ⟨by omega, ?_⟩
        split at h
        next t ht =>
          split at h
          · cases h
          next hq =>
            rw [not_not] at hq
            subst hq
            split at h
            · cases h
            next hlen =>
              rw [not_not] at hlen
              split at h
              · cases h
              next hfit =>
                refine ⟨{ s with naddrs := s.naddrs + 1 }, fun u =>
                  ?_, .inl ⟨ht, rfl, hlen, by omega⟩⟩
                rw [scanRecords]
                simp only [hskip, if_neg hn, if_neg hclass, ht, ne_eq,
                  not_true_eq_false, if_false, hlen,
                  if_neg hfit]
        next hnone =>
          refine ⟨if anShort buf j = resolveCname then { s with cname := some (j + anSize) } else s,
            fun u => ?_, .inr ⟨hnone, ?_⟩⟩
          · rw [scanRecords]
            simp only [hskip, if_neg hn, if_neg hclass, hnone]
          · split <;> rfl

theorem scanRecords_ttl {ttl' : Nat} (h : scanRecords buf n qtype left i ttl s = (ttl', .ok s')) :
    ∃ ttls : List Nat, ∀ t, scanRecords buf n qtype left i t s = (ttls.foldl min t, .ok s') := by
  induction left generalizing i ttl s with
  | zero =>
    cases h
    exact ⟨[], fun _ => rfl⟩
  | succ left ih =>
    obtain ⟨j, -, -, s₁, heq, -⟩ := scanRecords_succ h
    rw [heq] at h
    obtain ⟨ttls, hall⟩ := ih h
    refine ⟨anTtl buf j :: ttls, fun t => ?_⟩
    rw [heq, hall]
    rfl

theorem anSize_le : 4 ≤ qtype.size := by
  cases qtype
  · exact Nat.le_refl 4
  · exact Nat.le_of_ble_eq_true rfl

theorem scanRecords_naddrs (h : scanRecords buf n qtype left i ttl s = (ttl', .ok s')) :
    s.naddrs ≤ s'.naddrs ∧ (s.naddrs < s'.naddrs → i + 14 * (s'.naddrs - s.naddrs) ≤ n) := by
  induction left generalizing i ttl s with
  | zero =>
    cases h
    exact ⟨le_rfl, fun hlt => absurd hlt (lt_irrefl _)⟩
  | succ left ih =>
    obtain ⟨j, hskip, hn, s₁, heq, hcases⟩ := scanRecords_succ h
    rw [heq] at h
    obtain ⟨hle, hbytes⟩ := ih h
    have hj := (passName_of_skipName hskip (le_rfl)).2
    have hsize := @anSize_le qtype
    rw [anSize] at *
    obtain ⟨-, hs, hlen, hfit⟩ | ⟨-, hs⟩ := hcases
    · rw [hs] at hle hbytes
      refine ⟨by omega, fun _ => ?_⟩
      obtain heq' | hlt := eq_or_lt_of_le hle
      · omega
      · have hrest := hbytes hlt
        omega
    · rw [hs] at hle hbytes
      refine ⟨hle, fun hlt => ?_⟩
      have hrest := hbytes hlt
      omega

theorem collectAddrs_of_scanRecords
    (h : scanRecords buf n qtype left i ttl s = (ttl', .ok s')) (hn : n < copyBound)
    (hl : l.length = s.naddrs) (hlt : s.naddrs < s'.naddrs) :
    ∃ l', collectAddrs buf s'.naddrs left i l = .ok (l', some qtype) ∧ l'.length = s'.naddrs := by
  induction left generalizing i ttl s l with
  | zero =>
    cases h
    exact absurd hlt (lt_irrefl _)
  | succ left ih =>
    obtain ⟨j, hskip, -, s₁, heq, hcases⟩ := scanRecords_succ h
    rw [heq] at h
    have hpass : passName buf copyBound i = .ok j := (passName_of_skipName hskip hn).1
    rw [collectAddrs, hpass]
    simp only [bind, Except.bind]
    obtain ⟨htype, hs, -, -⟩ | ⟨htype, hs⟩ := hcases
    · simp only [htype]
      have hlength : (l ++ [load buf (j + anSize) qtype.size]).length = s.naddrs + 1 := by
        rw [List.length_append, hl]
        rfl
      split
      next hlast => exact ⟨_, rfl, hlast⟩
      next hmore =>
        have hle := (scanRecords_naddrs h).1
        exact ih h (hlength.trans hs.symm) (by omega)
    · simp only [htype]
      exact ih h (hl.trans hs.symm) (by omega)

end Nginx.Core
