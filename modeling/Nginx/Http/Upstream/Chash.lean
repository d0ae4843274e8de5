/-
  Http/Upstream/Chash.lean --- consistent hashing
  (`src/http/modules/ngx_http_upstream_hash_module.c`).

  The function `ngx_crc32_update` is a parameter, and sorting is stable.  Memory is
  always there.  The products of a weight are those of 64 bits, so that an array may
  have less room than points; then there is no result.
-/
import Nginx.Foundation.Keyed
import Nginx.Foundation.Memory

set_option autoImplicit false

namespace Nginx.Http.Upstream

open List Foundation Option

/-! ## Servers and points -/

/-- `ngx_http_upstream_server_t`; `naddrs` and `weight` are never 0. -/
structure UpstreamServer where
  name : Bytes
  naddrs : Nat
  weight : Nat
  backup : Bool
  naddrs_pos : 0 < naddrs
  weight_pos : 0 < weight
  deriving DecidableEq

/-- `ngx_http_upstream_chash_point_t` -/
structure ChashPoint where
  hash : UInt32
  server : Bytes
  deriving DecidableEq

/-- The place of a point on the circle. -/
def ChashPoint.place (p : ChashPoint) : Nat := p.hash.toNat

/-- The `server` and `weight` of the primary peers that `ngx_http_upstream_init_round_robin`
makes. -/
def primaryPeers (servers : List UpstreamServer) : List (Bytes × Nat) :=
  servers.flatMap fun s => if s.backup then [] else List.replicate s.naddrs (s.name, s.weight)

/-- `ngx_strncasecmp(server->data, "unix:", 5) == 0` -/
def isUnix (server : Bytes) : Bool :=
  (server.take 5).map (fun c => if chr 'A' ≤ c ∧ c ≤ chr 'Z' then c ||| 0x20 else c) = ascii "unix:"

/-- The loop that looks for the port, over the bytes of the name from its end on; `port` is what
it has passed. -/
def splitPort (server : Bytes) : Bytes → Bytes → Bytes × Bytes
  | [], _ => (server, [])
  | c :: rest, port =>
    if c = chr ':' then (rest.reverse, port)
    else if c < chr '0' ∨ c > chr '9' then (server, [])
    else splitPort server rest (c :: port)

/-- `host` and `port` of a server. -/
def hostPort (server : Bytes) : Bytes × Bytes :=
  if server.length ≥ 5 ∧ isUnix server then (server.drop 5, [])
  else splitPort server server.reverse []

/-- `prev_hash.byte` -/
def hashBytes (hash : UInt32) : Bytes :=
  [(hash &&& 0xff).toUInt8, ((hash >>> 8) &&& 0xff).toUInt8, ((hash >>> 16) &&& 0xff).toUInt8,
    ((hash >>> 24) &&& 0xff).toUInt8]

/-- The inner loop: the points of a peer. -/
def peerPoints (crc32Update : UInt32 → Bytes → UInt32) (server : Bytes) (baseHash : UInt32) :
    Nat → UInt32 → List ChashPoint
  | 0, _ => []
  | n + 1, prevHash =>
    let hash := crc32Update baseHash (hashBytes prevHash) ^^^ 0xffffffff
    ⟨hash, server⟩ :: peerPoints crc32Update server baseHash n hash

/-- `base_hash` -/
def baseHash (crc32Update : UInt32 → Bytes → UInt32) (server : Bytes) : UInt32 :=
  let (host, port) := hostPort server
  crc32Update (crc32Update (crc32Update 0xffffffff host) [0]) port

/-- The outer loop: the points before they are sorted. -/
def allPoints (crc32Update : UInt32 → Bytes → UInt32) (peers : List (Bytes × Nat)) :
    List ChashPoint :=
  peers.flatMap fun (server, weight) =>
    peerPoints crc32Update server (baseHash crc32Update server) (weight * 160 % wordRange) 0

/-- The weights of all peers; `peers->total_weight` is its value in 64 bits. -/
def weightSum (peers : List (Bytes × Nat)) : Nat := (peers.map Prod.snd).sum

/-- `size`: a number and one point in 24 bytes, and 16 bytes for each point more. -/
def pointsSize (peers : List (Bytes × Nat)) : Nat :=
  let npoints := weightSum peers % wordRange * 160 % wordRange
  (24 + 16 * subWord npoints 1) % wordRange

/-- `ngx_http_upstream_init_chash`: the array of points, unless there is no primary server; `none`
also where a point is written behind the array, or none is written in front of the reading of the
first one. -/
def initChash (crc32Update : UInt32 → Bytes → UInt32) (servers : List UpstreamServer) :
    Option (List ChashPoint) :=
  match primaryPeers servers with
  | [] => none
  | peers =>
    let points := allPoints crc32Update peers
    if points ≠ [] ∧ 8 + 16 * points.length ≤ pointsSize peers then
      some (firstOfKeys ChashPoint.place points)
    else none

/-- The loop of `ngx_http_upstream_find_chash_point`. -/
def findChashLoop (points : List ChashPoint) (hash : UInt32) (i j : Nat) : Nat :=
  if _hlt : i < j then
    let k := (i + j) / 2
    match points[k]? with
    | none => i
    | some point =>
      if hash > point.hash then findChashLoop points hash (k + 1) j
      else if hash < point.hash then findChashLoop points hash i k
      else k
  else i
termination_by j - i
decreasing_by all_goals omega

/-- `ngx_http_upstream_find_chash_point` -/
def findChashPoint (points : List ChashPoint) (hash : UInt32) : Nat :=
  findChashLoop points hash 0 points.length

/-- The server of the first point that `ngx_http_upstream_get_chash_peer` looks at. -/
def chashServer (points : List ChashPoint) (hash : UInt32) : Option Bytes :=
  points[findChashPoint points hash % points.length]?.map ChashPoint.server

/-! ## Finding a point -/

variable {points : List ChashPoint} {hash : UInt32}

/-- The points are in the order of their hashes, which are different. -/
def Ascending (points : List ChashPoint) : Prop := points.Pairwise fun a b => a.hash < b.hash

/-- `k` is the least index with a hash that is not smaller, or the number of points. -/
structure LeastAbove (points : List ChashPoint) (hash : UInt32) (k : Nat) : Prop where
  le : k ≤ points.length
  before : ∀ i, ∀ p : ChashPoint, i < k → points[i]? = some p → p.hash < hash
  behind : ∀ i, ∀ p : ChashPoint, k ≤ i → points[i]? = some p → hash ≤ p.hash

variable {p : ChashPoint}

theorem Ascending.hash_lt (h : Ascending points) {i j : Nat} {q : ChashPoint}
    (hp : points[i]? = some p) (hq : points[j]? = some q) (hlt : i < j) : p.hash < q.hash := by
  obtain ⟨hi, rfl⟩ := List.getElem?_eq_some_iff.mp hp
  obtain ⟨hj, rfl⟩ := List.getElem?_eq_some_iff.mp hq
  exact pairwise_iff_getElem.mp h i j hi hj hlt

theorem Ascending.hash_le (h : Ascending points) {i j : Nat} {q : ChashPoint}
    (hp : points[i]? = some p) (hq : points[j]? = some q) (hle : i ≤ j) : p.hash ≤ q.hash := by
  rcases Nat.lt_or_eq_of_le hle with hlt | rfl
  · exact UInt32.le_of_lt (h.hash_lt hp hq hlt)
  · rw [some.inj (hp.symm.trans hq)]
    exact UInt32.le_refl _

/-- The binary search, with what is known on both sides as the invariant. -/
theorem findChashLoop_spec (h : Ascending points) {i j : Nat} (hij : i ≤ j) (hj : j ≤ points.length)
    (hbefore : ∀ n, ∀ p : ChashPoint, n < i → points[n]? = some p → p.hash < hash)
    (hbehind : ∀ n, ∀ p : ChashPoint, j ≤ n → points[n]? = some p → hash ≤ p.hash) :
    LeastAbove points hash (findChashLoop points hash i j) := by
  induction i, j using findChashLoop.induct points hash with
  | case1 i j hlt k hnone => exact absurd (getElem?_eq_none_iff.mp hnone) (by omega)
  | case2 i j hlt k point hpoint hgt ih =>
    have hstep : findChashLoop points hash i j = findChashLoop points hash (k + 1) j := by
      rw [findChashLoop, dif_pos hlt]
      simp only [hpoint, if_pos hgt, k]
    rw [hstep]
    refine ih (by omega) hj (fun n p hn hp => ?_) hbehind
    exact UInt32.lt_of_le_of_lt (h.hash_le hp hpoint (Nat.le_of_lt_succ hn)) hgt
  | case3 i j hlt k point hpoint hgt hless ih =>
    have hstep : findChashLoop points hash i j = findChashLoop points hash i k := by
      rw [findChashLoop, dif_pos hlt]
      simp only [hpoint, if_neg hgt, if_pos hless, k]
    rw [hstep]
    refine ih (by omega) (by omega) hbefore fun n p hn hp => ?_
    exact UInt32.le_trans (UInt32.le_of_lt hless) (h.hash_le hpoint hp hn)
  | case4 i j hlt k point hpoint hgt hless =>
    have hstep : findChashLoop points hash i j = k := by
      rw [findChashLoop, dif_pos hlt]
      simp only [hpoint, if_neg hgt, if_neg hless, k]
    have heq : hash = point.hash :=
      UInt32.le_antisymm (UInt32.not_lt.mp hgt) (UInt32.not_lt.mp hless)
    rw [hstep]
    refine ⟨by omega, fun n p hn hp => ?_, fun n p hn hp => ?_⟩
    · rw [heq]
      exact h.hash_lt hp hpoint hn
    · rw [heq]
      exact h.hash_le hpoint hp hn
  | case5 i j hnot =>
    have hstep : findChashLoop points hash i j = i := by rw [findChashLoop, dif_neg hnot]
    have heq : i = j := by omega
    rw [hstep]
    exact ⟨by omega, hbefore, fun n p hn hp => hbehind n p (heq ▸ hn) hp⟩

theorem findChashPoint_spec (h : Ascending points) (hash : UInt32) :
    LeastAbove points hash (findChashPoint points hash) :=
  findChashLoop_spec h (Nat.zero_le _) le_rfl (fun _ _ hn _ =>
    absurd hn (Nat.not_lt_zero _)) fun n p hn hp =>
    absurd (List.getElem?_eq_some_iff.mp hp).1 (by omega)

theorem ascending_firstOfKeys (points : List ChashPoint) :
    Ascending (firstOfKeys ChashPoint.place points) :=
  (@pairwise_firstOfKeys _ _ _ ChashPoint.place points).imp fun h => UInt32.lt_iff_toNat_lt.mpr h

theorem isNext_chashServer (h : Ascending points) {server : Bytes}
    (hs : chashServer points hash = some server) :
    ∃ p, IsNext ChashPoint.place points hash.toNat p ∧ p.server = server := by
  obtain ⟨p, hp, rfl⟩ := map_eq_some_iff.mp hs
  have hfound := findChashPoint_spec h hash
  set k := findChashPoint points hash
  have hmem : ∀ q ∈ points, ∃ i, points[i]? = some q := fun q hq => mem_iff_getElem?.mp hq
  refine ⟨p, ⟨mem_of_getElem? hp, ?_⟩, rfl⟩
  rcases Nat.lt_or_eq_of_le hfound.le with hlt | heq
  · rw [Nat.mod_eq_of_lt hlt] at hp
    refine .inl ⟨UInt32.le_iff_toNat_le.mp (hfound.behind k p le_rfl hp), fun q hq hle => ?_⟩
    obtain ⟨i, hi⟩ := hmem q hq
    have hki : k ≤ i := by
      by_contra hlt'
      have hless := UInt32.lt_iff_toNat_lt.mp (hfound.before i q (not_le.mp hlt') hi)
      exact absurd hle (not_le.mpr hless)
    exact UInt32.le_iff_toNat_le.mp (h.hash_le hp hi hki)
  · rw [heq, Nat.mod_self] at hp
    refine .inr ⟨fun q hq => ?_, fun q hq => ?_⟩
    · obtain ⟨i, hi⟩ := hmem q hq
      have hlt : i < k := heq ▸ (List.getElem?_eq_some_iff.mp hi).1
      exact UInt32.lt_iff_toNat_lt.mp (hfound.before i q hlt hi)
    · obtain ⟨i, hi⟩ := hmem q hq
      exact UInt32.le_iff_toNat_le.mp (h.hash_le hp hi (Nat.zero_le i))

theorem chashServer_eq_none : chashServer points hash = none ↔ points = [] := by
  rw [chashServer, map_eq_none_iff, getElem?_eq_none_iff]
  constructor
  · intro hle
    refine eq_nil_of_length_eq_zero (Nat.eq_zero_of_not_pos fun hpos => ?_)
    exact absurd (Nat.mod_lt _ hpos) (not_lt.mpr hle)
  · rintro rfl
    exact Nat.zero_le _

/-! ## One server more -/

variable {crc32Update : UInt32 → Bytes → UInt32}

theorem server_peerPoints {server : Bytes} {base : UInt32} {n : Nat} {prevHash : UInt32}
    (h : p ∈ peerPoints crc32Update server base n prevHash) : p.server = server := by
  induction n generalizing prevHash with
  | zero => exact absurd h not_mem_nil
  | succ n ih =>
    rcases mem_cons.mp h with rfl | h
    · rfl
    · exact ih h

variable {servers : List UpstreamServer}

/-- Every point has the name of a primary server. -/
theorem server_allPoints
    (h : p ∈ allPoints crc32Update (primaryPeers servers)) :
    ∃ s ∈ servers, s.backup = false ∧ p.server = s.name := by
  obtain ⟨peer, hpeer, hp⟩ := mem_flatMap.mp h
  obtain ⟨s, hs, hpeer⟩ := mem_flatMap.mp hpeer
  split at hpeer
  next => exact absurd hpeer not_mem_nil
  next hbackup =>
    obtain ⟨-, rfl⟩ := mem_replicate.mp hpeer
    exact ⟨s, hs, eq_false_of_ne_true hbackup, server_peerPoints hp⟩

theorem server_added {s : UpstreamServer}
    (h : p ∈ allPoints crc32Update (primaryPeers [s])) : p.server = s.name := by
  obtain ⟨s', hs', -, hp⟩ := server_allPoints h
  rwa [mem_singleton.mp hs'] at hp

theorem allPoints_append (peers more : List (Bytes × Nat)) :
    allPoints crc32Update (peers ++ more) = allPoints crc32Update peers ++
      allPoints crc32Update more :=
  flatMap_append

theorem primaryPeers_append (servers more : List UpstreamServer) :
    primaryPeers (servers ++ more) = primaryPeers servers ++ primaryPeers more := flatMap_append

theorem initChash_eq
    (h : initChash crc32Update servers = some points) :
    points = firstOfKeys ChashPoint.place (allPoints crc32Update (primaryPeers servers)) ∧
      points ≠ [] := by
  unfold initChash at h
  split at h
  next => exact absurd h nofun
  simp only at h
  split at h
  next hroom =>
    obtain rfl := some.inj h
    exact ⟨rfl, fun hnil => hroom.1 (firstOfKeys_eq_nil.mp hnil)⟩
  next => exact absurd h nofun

/-! ## The room of the array -/

theorem length_peerPoints (server : Bytes) (base : UInt32) (n : Nat) (prevHash : UInt32) :
    (peerPoints crc32Update server base n prevHash).length = n := by
  induction n generalizing prevHash with
  | zero => rfl
  | succ n ih => exact congrArg (· + 1) (ih _)

theorem length_allPoints {peers : List (Bytes × Nat)} (h : weightSum peers * 160 < wordRange) :
    (allPoints crc32Update peers).length = weightSum peers * 160 := by
  induction peers with
  | nil => exact (zero_mul 160).symm
  | cons peer peers ih =>
    have hsum : weightSum (peer :: peers) = peer.2 + weightSum peers := sum_cons
    rw [hsum, Nat.add_mul] at h ⊢
    have hpeer : peer.2 * 160 % wordRange = peer.2 * 160 := Nat.mod_eq_of_lt (by omega)
    rw [allPoints, flatMap_cons, length_append, length_peerPoints, hpeer]
    exact congrArg _ (ih (by omega))

theorem weightSum_pos (h : primaryPeers servers ≠ []) :
    0 < weightSum (primaryPeers servers) := by
  obtain ⟨peer, hpeer⟩ := exists_mem_of_ne_nil _ h
  have hpos : 0 < peer.2 := by
    obtain ⟨s, -, hs⟩ := mem_flatMap.mp hpeer
    split at hs
    next => exact absurd hs not_mem_nil
    next =>
      obtain ⟨-, rfl⟩ := mem_replicate.mp hs
      exact s.weight_pos
  exact List.sum_pos_iff_exists_pos_nat.mpr ⟨_, mem_map_of_mem hpeer, hpos⟩

/-- While the points and their number fit into 64 bits, there is an array. -/
theorem exists_initChash (h : primaryPeers servers ≠ [])
    (hfit : 8 + 16 * (weightSum (primaryPeers servers) * 160) < wordRange) :
    ∃ points, initChash crc32Update servers = some points := by
  have hpos := weightSum_pos h
  have hlength := @length_allPoints crc32Update (primaryPeers servers) (by omega)
  unfold initChash
  split
  next hnil => exact absurd hnil h
  refine ⟨_, if_pos ⟨fun hnil => ?_, ?_⟩⟩
  · rw [hnil, length_nil] at hlength
    omega
  have hrange : wordRange = 2 ^ 64 := rfl
  rw [hlength, pointsSize, Nat.mod_eq_of_lt (show weightSum _ < wordRange by omega),
    Nat.mod_eq_of_lt (show _ * 160 < wordRange by omega), subWord_of_le (by omega) (by omega),
    Nat.mod_eq_of_lt (by omega)]
  omega

/-! ## Where a key goes -/

/-- A key goes to one of the primary servers. -/
theorem exists_chashServer
    (h : initChash crc32Update servers = some points) (hash : UInt32) :
    ∃ s ∈ servers, s.backup = false ∧ chashServer points hash = some s.name := by
  obtain ⟨heq, hne⟩ := initChash_eq h
  cases hs : chashServer points hash with
  | none => exact absurd (chashServer_eq_none.mp hs) hne
  | some server =>
    obtain ⟨p, hnext, rfl⟩ := isNext_chashServer (heq ▸ ascending_firstOfKeys _) hs
    obtain ⟨s, hs, hbackup, hserver⟩ := server_allPoints (mem_of_mem_firstOfKeys (heq ▸ hnext.1))
    exact ⟨s, hs, hbackup, congrArg some hserver⟩

/-- The hash of a point goes to the server of the point. -/
theorem chashServer_of_mem (h : Ascending points) (hp : p ∈ points) :
    chashServer points p.hash = some p.server := by
  cases hs : chashServer points p.hash with
  | none => exact absurd (chashServer_eq_none.mp hs) (ne_nil_of_mem hp)
  | some server =>
    obtain ⟨q, ⟨hq, hnext⟩, rfl⟩ := isNext_chashServer h hs
    have hhash : p.hash = q.hash := by
      rcases hnext with ⟨hle, hleast⟩ | ⟨hnone, -⟩
      · exact UInt32.toNat_inj.mp (le_antisymm hle (hleast p hp le_rfl))
      · exact absurd (hnone p hp) (lt_irrefl _)
    have hsame : q = p := by
      obtain ⟨i, hi⟩ := mem_iff_getElem?.mp hp
      obtain ⟨j, hj⟩ := mem_iff_getElem?.mp hq
      rcases lt_trichotomy i j with hlt | rfl | hlt
      · exact absurd (h.hash_lt hi hj hlt) (hhash ▸ UInt32.lt_irrefl _)
      · exact some.inj (hj.symm.trans hi)
      · exact absurd (h.hash_lt hj hi hlt) (hhash ▸ UInt32.lt_irrefl _)
    rw [hsame]

/-- There is an array while its size fits into 64 bits.  Its points are the first ones of their
hashes, in growing order; the index that is found is the least one above the hash, and a key goes to
one of the primary servers; and with one server more a key goes where it went, or to the new one. -/
theorem chash_remaps (crc32Update : UInt32 → Bytes → UInt32) :
    (∀ servers, primaryPeers servers ≠ [] →
      8 + 16 * (weightSum (primaryPeers servers) * 160) < wordRange →
      ∃ points, initChash crc32Update servers = some points) ∧
    (∀ servers points, initChash crc32Update servers = some points →
      Ascending points ∧
      (∀ p, p ∈ points ↔ (allPoints crc32Update (primaryPeers servers)).find?
        (fun q => q.place = p.place) = some p) ∧
      ∀ hash, LeastAbove points hash (findChashPoint points hash) ∧
        ∃ s ∈ servers, s.backup = false ∧ chashServer points hash = some s.name) ∧
    ∀ before added after points points',
      initChash crc32Update (before ++ after) = some points →
      initChash crc32Update (before ++ added :: after) = some points' →
      ∀ hash, chashServer points' hash = chashServer points hash ∨
        chashServer points' hash = some added.name := by
  refine ⟨fun servers => exists_initChash, fun servers points h => ?_,
    fun before added after points points' h h' hash => ?_⟩
  · have hsorted : Ascending points := (initChash_eq h).1 ▸ ascending_firstOfKeys _
    refine ⟨hsorted, fun p => ?_, fun hash =>
      ⟨findChashPoint_spec hsorted hash, exists_chashServer h hash⟩⟩
    rw [(initChash_eq h).1]
    exact mem_firstOfKeys _ p
  obtain ⟨s, -, -, hs⟩ := exists_chashServer h hash
  obtain ⟨s', -, -, hs'⟩ := exists_chashServer h' hash
  obtain ⟨rfl, -⟩ := initChash_eq h
  obtain ⟨rfl, -⟩ := initChash_eq h'
  obtain ⟨p, hnext, hserver⟩ := isNext_chashServer (ascending_firstOfKeys _) hs
  obtain ⟨p', hnext', hserver'⟩ := isNext_chashServer (ascending_firstOfKeys _) hs'
  have hall : allPoints crc32Update (primaryPeers (before ++ added :: after)) =
      allPoints crc32Update (primaryPeers before) ++
        (allPoints crc32Update (primaryPeers [added]) ++
          allPoints crc32Update (primaryPeers after)) := by
    rw [append_cons, ← append_assoc, ← allPoints_append, ← allPoints_append,
      ← primaryPeers_append, ← primaryPeers_append]
  rw [primaryPeers_append, allPoints_append] at hnext
  rw [hall] at hnext'
  rw [hs, hs', ← hserver, ← hserver']
  rcases isNext_insert hnext hnext' with hadded | heq
  · exact .inr (congrArg some (server_added hadded))
  · exact .inl (by rw [heq])

/-- A third server between two others, with the first points of these. -/
theorem chash_remaps_third :
    let crc32Update : UInt32 → Bytes → UInt32 := fun crc text =>
      text.foldl (fun c b => (c ^^^ b.toUInt32) * 16777619) crc
    let a : UpstreamServer := ⟨ascii "a:80", 1, 2, false, by decide, by decide⟩
    let b : UpstreamServer := ⟨ascii "b", 2, 1, false, by decide, by decide⟩
    let c : UpstreamServer := ⟨ascii "unix:c", 1, 1, false, by decide, by decide⟩
    ∃ two three, initChash crc32Update [a, c] = some two ∧
      initChash crc32Update [a, b, c] = some three ∧
      (Ascending three ∧ ⟨0x127a3729, a.name⟩ ∈ three ∧
        ⟨0x9194dd43, c.name⟩ ∈ three ∧ chashServer three 0x9194dd43 = some c.name) ∧
      ∀ hash, (chashServer three hash = chashServer two hash ∨
        chashServer three hash = some b.name) ∧
        (chashServer two hash = some a.name ∨ chashServer two hash = some c.name) := by
  intro crc32Update a b c
  obtain ⟨hbuilt, hpoints, hremap⟩ := chash_remaps crc32Update
  obtain ⟨two, htwo⟩ := hbuilt [a, c] (by decide) (by decide)
  obtain ⟨three, hthree⟩ := hbuilt [a, b, c] (by decide) (by decide)
  obtain ⟨hsorted, hmem, -⟩ := hpoints _ _ hthree
  have ha : (⟨0x127a3729, a.name⟩ : ChashPoint) ∈ three := (hmem _).mpr (by decide +kernel)
  have hc : (⟨0x9194dd43, c.name⟩ : ChashPoint) ∈ three := (hmem _).mpr (by decide +kernel)
  refine ⟨two, three, htwo, hthree, ⟨hsorted, ha, hc, chashServer_of_mem hsorted hc⟩,
    fun hash => ⟨hremap [a] b [c] two three htwo hthree hash, ?_⟩⟩
  obtain ⟨s, hs, -, hserver⟩ := ((hpoints _ _ htwo).2.2 hash).2
  rcases mem_cons.mp hs with rfl | hs
  · exact .inl hserver
  · exact .inr (mem_singleton.mp hs ▸ hserver)

end Nginx.Http.Upstream
