/-
  Core/OpenFileCacheRuns.lean --- every run of the open file cache.

  Calls, pool cleanups and expirations come in any order.  As long as every call
  is regular, the descriptors and the structures are in order in every state,
  and once all cleanups have run, the cleanup of the cache closes and frees what
  is left, each exactly once (`run_sound`).  Between a `stat` and an `open` that
  do not agree a descriptor is lost (`run_lost`).
-/
import Mathlib.Data.List.Nodup
import Nginx.Core.OpenFileCacheOpen

set_option autoImplicit false

namespace Nginx.Core.OpenFileCache

open Foundation List Option

variable {Name : Type}

/-! ## The end of the cache -/

/-- The loop of the cleanup empties the queue in as many turns as it has files. -/
theorem cacheCleanupLoop_owned (now : Int) : ∀ (turns : Nat) {c : Cache Name}, Owned none [] c [] →
    c.expireQueue.length = turns →
    ∃ c', cacheCleanupLoop now turns c = some c' ∧ Owned none [] c' [] ∧ c'.expireQueue = [] ∧
      c'.handles.opened = c.handles.opened ∧ c'.files.length = c.files.length := by
  intro turns
  induction turns with
  | zero => exact fun h hturns => ⟨_, rfl, h, length_eq_zero_iff.mp hturns, rfl, rfl⟩
  | succ turns ih =>
    intro c h hturns
    rw [cacheCleanupLoop]
    cases hlast : c.expireQueue.getLast? with
    | none =>
      rw [getLast?_eq_none_iff] at hlast
      rw [hlast] at hturns
      cases hturns
    | some file =>
      have hperm : c.expireQueue.Perm c.tree := h.places.queue
      have hqueue : file ∈ c.expireQueue := mem_of_getLast? hlast
      obtain ⟨f, hget⟩ := h.books.live file (hperm.mem_iff.mp hqueue)
      -- nobody uses the file, so that its count is not changed
      have hcount : f.count = 0 := (h.books.file file f hget).2
      have hclear : { f with close := true, count := 0 } = { f with close := true } := by
        rw [← hcount]
      obtain ⟨c', hdrop, h', hqueue', hopened, hlength⟩ :=
        dropFile_owned h (hperm.mem_iff.mp hqueue) now
      have hleft : c'.expireQueue.length = turns := by
        rw [hqueue', length_erase_of_mem hqueue, hturns, Nat.add_sub_cancel]
      obtain ⟨c₂, hloop, h₂, hempty, hopened₂, hlength₂⟩ := ih h' hleft
      refine ⟨c₂, ?_, h₂, hempty, hopened₂.trans hopened, hlength₂.trans hlength⟩
      obtain ⟨hremove, hplaces⟩ := h.places.queueRemove (hperm.mem_iff.mp hqueue)
      obtain ⟨hdelete, -⟩ := hplaces.treeDelete
      have hget' : Cache.get { c with
          expireQueue := c.expireQueue.erase file
          tree := c.tree.erase file
          current := c.current - 1 } file = some f := hget
      simp only [dropFile, hremove, hdelete, hget', bind_eq_bind, bind_some] at hdrop ⊢
      by_cases hgood : f.err = 0 ∧ f.info.isDir = false
      · rw [if_pos hgood] at hdrop ⊢
        rw [hclear, hdrop, bind_some, hloop]
      · rw [if_neg hgood] at hdrop ⊢
        rw [hdrop, bind_some, hloop]

/-- At the end each descriptor is closed once and each file freed once. -/
theorem openFileCacheCleanup_owned {c : Cache Name} (h : Owned none [] c []) (now : Int) :
    ∃ c', openFileCacheCleanup now c = some c' ∧
      (∀ fd < c.handles.opened, c'.handles.closed.count fd = 1) ∧
      (∀ file < c.files.length, (c'.freed.map Prod.fst).count file = 1) ∧
      c'.tree = [] ∧ c'.current = 0 ∧ ∀ x ∈ c'.freed, x.2 = 0 := by
  obtain ⟨c', hloop, h', hempty, hopened, hlength⟩ := cacheCleanupLoop_owned now _ h rfl
  have hperm : c'.expireQueue.Perm c'.tree := h'.places.queue
  rw [hempty] at hperm
  have htree : c'.tree = [] := hperm.nil_eq.symm
  -- a structure that is left would be in use
  have hgone : ∀ file f, c'.get file ≠ some f := by
    intro file f hget
    obtain ⟨hok, hcount⟩ := h'.books.file file f hget
    rw [htree] at hok
    exact (hok.detached not_mem_nil).2.2.2 hcount
  refine ⟨c', hloop, fun fd hfd => ?_, fun file hfile => ?_, htree, ?_, h'.books.freed⟩
  · refine h'.books.fds.count_closed (fun d => ?_) (hopened ▸ hfd)
    rw [count_nil, add_zero]
    refine tally_eq_zero fun f hf => ?_
    cases f with
    | none => simp [holdsFd]
    | some f =>
      obtain ⟨file, hlt, hfile⟩ := mem_iff_getElem.mp hf
      refine absurd ?_ (hgone file f)
      rw [Cache.get_eq_some, getElem?_eq_getElem hlt, hfile]
  · rw [← hlength] at hfile
    have hmem : file ∈ c'.freed.map Prod.fst := by
      rw [h'.books.gone file]
      cases hf : c'.files[file]? with
      | none => exact absurd (getElem?_eq_none_iff.mp hf) (Nat.not_le_of_lt hfile)
      | some f =>
        cases f with
        | none => rfl
        | some f => exact absurd (Cache.get_eq_some.mpr hf) (hgone file f)
    exact count_eq_one_of_mem h'.books.once hmem
  · rw [h'.places.current, htree]
    rfl

/-! ## What holds in a state -/

theorem owned_init (max : Nat) (inactive : Int) :
    Owned none [] (init max inactive : State Name).cache
      (init max inactive : State Name).leases where
  places := ⟨List.Perm.nil, nodup_nil, rfl⟩
  books :=
  { fds := Handles.accounted_none
    live := fun file hfile => absurd hfile not_mem_nil
    file := fun file f hget => by cases file <;> cases hget
    lease := fun l hl => absurd hl not_mem_nil
    freed := fun x hx => absurd hx not_mem_nil
    gone := fun file => by simp [init]
    once := nodup_nil }

/-- Descriptors and structures are in order. -/
structure Sound (s : State Name) : Prop where
  /-- the count of a file is that of its cleanups -/
  count : ∀ file f, s.cache.get file = some f → f.count = leasesOn s.leases file
  /-- what a caller was given is open until its cleanup -/
  lease : ∀ l ∈ s.leases, ∃ fd, l.fd = some fd ∧ fd < s.cache.handles.opened ∧
    fd ∉ s.cache.handles.closed
  closed : s.cache.handles.closed.Nodup ∧ ∀ fd ∈ s.cache.handles.closed, fd < s.cache.handles.opened
  /-- a structure is freed with a count of zero, and once -/
  freed : (∀ x ∈ s.cache.freed, x.2 = 0) ∧ (s.cache.freed.map Prod.fst).Nodup
  current : s.cache.current = s.cache.tree.length
  tree : s.cache.tree.Nodup ∧ s.cache.expireQueue.Perm s.cache.tree
  /-- at the end all is closed and freed -/
  cleanup : s.leases = [] → ∀ now, ∃ c, openFileCacheCleanup now s.cache = some c ∧
    (∀ fd < s.cache.handles.opened, c.handles.closed.count fd = 1) ∧
    (∀ file < s.cache.files.length, (c.freed.map Prod.fst).count file = 1) ∧
    c.tree = [] ∧ c.current = 0 ∧ ∀ x ∈ c.freed, x.2 = 0

theorem Owned.sound {s : State Name} (h : Owned none [] s.cache s.leases) : Sound s where
  count file f hget := (h.books.file file f hget).2
  lease l hl := by
    obtain ⟨f, fd, hget, hfd, hlfd⟩ := h.books.lease l hl
    have hheld : 0 < holdsFd (some f) fd := by simp [holdsFd, hfd]
    have hmem : some f ∈ s.cache.files := mem_of_getElem? (Cache.get_eq_some.mp hget)
    have hown := Nat.lt_of_lt_of_le hheld (le_tally hmem fd)
    exact ⟨fd, hlfd, h.books.fds.open_of_owned (Nat.lt_of_lt_of_le hown (Nat.le_add_right _ _))⟩
  closed := ⟨h.books.fds.closed_once, fun _ hfd => h.books.fds.lt_of_closed hfd⟩
  freed := ⟨h.books.freed, h.books.once⟩
  current := h.places.current
  tree := ⟨h.places.nodup, h.places.queue⟩
  cleanup hnone now := by
    rw [hnone] at h
    exact openFileCacheCleanup_owned h now

/-! ## Runs -/

variable [DecidableEq Name]

/-- A call is regular where the file that it finds is. -/
def Event.Regular (s : State Name) : Event Name → Prop
  | .openCached name of now answers _ => ∀ file f, lookup s.cache name = some file →
      s.cache.get file = some f → OpenFileCache.Regular f of now answers
  | .cleanup _ _ => True
  | .expire _ _ => True

theorem step_owned {s : State Name} (h : Owned none [] s.cache s.leases) {e : Event Name}
    (hregular : e.Regular s) :
    ∃ s', step s e = some s' ∧ Owned none [] s'.cache s'.leases := by
  cases e with
  | openCached name of now answers memory =>
    obtain ⟨o, ho, howned⟩ := openCachedFile_owned h name of now answers memory hregular
    refine ⟨⟨o.cache, o.lease.toList ++ s.leases⟩, ?_, howned⟩
    simp only [step, ho, bind_eq_bind, bind_some]
    rfl
  | cleanup lease now =>
    by_cases hl : lease ∈ s.leases
    · obtain ⟨c, hc, howned⟩ := openFileCleanup_owned h hl now
      refine ⟨⟨c, s.leases.erase lease⟩, ?_, howned⟩
      rw [step, if_pos hl, hc]
      rfl
    · exact ⟨s, if_neg hl, h⟩
  | expire n now =>
    obtain ⟨c, hc, howned⟩ := expireOldCachedFiles_owned h n now
    refine ⟨⟨c, s.leases⟩, ?_, howned⟩
    rw [step, hc]
    rfl

/-- Events one after the other. -/
def run : State Name → List (Event Name) → Option (State Name)
  | s, [] => some s
  | s, e :: events => (step s e).bind fun s => run s events

/-- Every call of the run is regular where it is made. -/
def RegularRun : State Name → List (Event Name) → Prop
  | _, [] => True
  | s, e :: events => e.Regular s ∧ ∀ s', step s e = some s' → RegularRun s' events

theorem run_owned (events : List (Event Name)) :
    ∀ {s : State Name}, Owned none [] s.cache s.leases →
    RegularRun s events → ∃ s', run s events = some s' ∧ Owned none [] s'.cache s'.leases := by
  induction events with
  | nil => exact fun h _ => ⟨_, rfl, h⟩
  | cons e events ih =>
    intro s h hregular
    obtain ⟨s₁, hstep, h₁⟩ := step_owned h hregular.1
    obtain ⟨s₂, hrun, h₂⟩ := ih h₁ (hregular.2 s₁ hstep)
    refine ⟨s₂, ?_, h₂⟩
    rw [run, hstep, bind_some, hrun]

/-- **The open file cache.**  In every run whose calls are regular nothing fails
to have a result, and in the state it comes to descriptors and structures are in
order. -/
theorem run_sound (max : Nat) (inactive : Int) (events : List (Event Name))
    (hregular : RegularRun (init max inactive) events) :
    ∃ s, run (init max inactive) events = some s ∧ Sound s := by
  obtain ⟨s, hrun, howned⟩ := run_owned events (owned_init max inactive) hregular
  exact ⟨s, hrun, howned.sound⟩

/-! ## A descriptor lost -/

/-- A file with this `uniq`. -/
def fileOf (uniq : Nat) : FileInfo := ⟨uniq, 0, 100, false, true, false, false⟩

/-- The options of a caller that believes the cache for a minute. -/
def minute : OpenFileInfo :=
  { fd := none, info := ⟨0, 0, 0, false, false, false, false⟩,
    directio := 2 ^ 63 - 1, err := 0, valid := 60,
    minUses := 1, disableSymlinks := (0, 0), testDir := false, errors := false,
      isDirectio := false }

/-- Answers about one file. -/
def answersOf (stat opened : Nat) :
    Answers := ⟨.ok (fileOf stat), .ok (), some (fileOf opened), false⟩

def memoryOf : Memory Nat :=
  ⟨true, some ⟨0, 0, 0, none, fileOf 0, 0, 0, (0, 0), 0, true, false⟩, true⟩

/-- A run with an open, a hit, both cleanups and an expiration. -/
theorem run_sound_hit : ∃ s, run (init 10 60)
    [.openCached 7 minute 0 (answersOf 1 1) memoryOf,
      .openCached 7 minute 5 (answersOf 1 1) memoryOf,
      .cleanup ⟨0, some 0, 1⟩ 6, .cleanup ⟨0, some 0, 1⟩ 7, .expire 0 8] = some s ∧ Sound s := by
  refine run_sound 10 60 _ ⟨?_, fun s₁ h₁ =>
    ⟨?_, fun s₂ h₂ => ⟨trivial, fun s₃ h₃ => ⟨trivial, fun s₄ h₄ =>
    ⟨trivial, fun _ _ => trivial⟩⟩⟩⟩⟩
  · exact fun file f hlookup _ => absurd hlookup.symm (some_ne_none file)
  cases h₁
  intro file f hlookup hget
  obtain rfl : file = 0 := by
    have hzero : (0 : Nat) = file := some.inj hlookup
    exact hzero.symm
  cases hget
  exact ⟨fun _ => by decide, fun _ hstale => absurd hstale (by decide)⟩

/-- What stands under the name is another file when it is looked at, and the old
one again when it is opened: its descriptor is overwritten and never closed. -/
def lostRun : List (Event Nat) :=
  [.openCached 7 minute 0 (answersOf 1 1) memoryOf, .cleanup ⟨0, some 0, 1⟩ 1,
    .openCached 7 minute 100 (answersOf 2 1) memoryOf, .cleanup ⟨0, some 1, 1⟩ 101]

theorem run_lost : ∃ s, run (init 10 60) lostRun = some s ∧ s.leases = [] ∧
    s.cache.handles.opened = 2 ∧
    (openFileCacheCleanup 102 s.cache).map (fun c => c.handles.closed) = some [1] ∧ ¬ Sound s := by
  refine ⟨_, rfl, rfl, rfl, rfl, fun hsound => ?_⟩
  obtain ⟨c, hc, hclosed, -⟩ := hsound.cleanup rfl 102
  cases hc
  exact absurd (hclosed 0 (by decide)) (by decide)

end Nginx.Core.OpenFileCache
