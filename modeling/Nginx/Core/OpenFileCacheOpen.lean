/-
  Core/OpenFileCacheOpen.lean --- `ngx_open_cached_file` keeps the owners.

  It does but for what `Regular` excludes: a file that is being looked at again
  while what stands under its name changes, and a count that no longer fits.
-/
import Nginx.Core.OpenFileCacheCalls

set_option autoImplicit false

namespace Nginx.Core.OpenFileCache

open Foundation List Option

variable {Name : Type} {pending : List Nat} {c : Cache Name} {leases : List Lease} {file fd : Nat}
  {f : CachedFile Name} {of : OpenFileInfo} {now : Int}

/-- What a call returns keeps the owners, with the handler it has set. -/
def Keeps (leases : List Lease) (result : Option (Opened Name)) : Prop :=
  ∃ o, result = some o ∧ Owned none [] o.cache (o.lease.toList ++ leases)

/-! ## Answers of the system -/

/-- The descriptor of a call is the one that is pending; a directory and an
error to cache have none. -/
structure Fits (of : OpenFileInfo) (pending : List Nat) : Prop where
  fd : of.fd.toList = pending
  idle : of.err ≠ 0 ∨ of.info.isDir = true → of.fd = none
  file : of.err = 0 → of.info.isDir = false → of.fd ≠ none

/-- The answers do not change while a file with this `uniq` is looked at again:
what `stat` finds under the same `uniq` is no directory, and where it finds
another one, `open` does not come upon the old one. -/
structure Answers.Steady (answers : Answers) (uniq : Nat) : Prop where
  same : ∀ fi, answers.stat = .ok fi → fi.uniq = uniq → fi.isDir = false
  changed : ∀ fi fi', answers.stat = .ok fi → fi.uniq ≠ uniq → answers.opens = .ok () →
    answers.fdInfo = some fi' → fi'.isDir = false → fi'.uniq ≠ uniq

/-- What `ngx_open_and_stat_file` does. -/
inductive StatResult (of : OpenFileInfo) (answers : Answers) (out : Option Nat) (c : Cache Name)
    (leases : List Lease) : Rc × OpenFileInfo × Cache Name → Prop where
  /-- the file is the one that is open -/
  | kept {fi : FileInfo} (hfd : of.fd ≠ none) (hstat : answers.stat = .ok fi)
      (huniq : of.info.uniq = fi.uniq) : StatResult of answers out c leases
        (.ok, { of with info := fi }, c)
  | opened {of' : OpenFileInfo} {handles : Handles}
    (howned : Owned out of'.fd.toList { c with handles := handles } leases)
      (herr : of'.err = 0) (hfits : Fits of' of'.fd.toList)
      (hchanged : of.fd ≠ none → answers.Steady of.info.uniq → of'.info.isDir = false →
        of'.info.uniq ≠ of.info.uniq) :
      StatResult of answers out c leases (.ok, of', { c with handles := handles })
  | fails {of' : OpenFileInfo} {handles : Handles}
    (howned : Owned out [] { c with handles := handles } leases)
      (hfd : of'.fd = none) : StatResult of answers out c leases
        (.error, of', { c with handles := handles })

theorem openFile_result {out : Option Nat} (h : Owned out [] c leases) (herr : of.err = 0)
    (answers : Answers)
    (hlooked : of.fd ≠ none → ∃ fi, answers.stat = .ok fi ∧ fi.uniq ≠ of.info.uniq) :
    StatResult of answers out c leases (openFile of answers c) := by
  rw [openFile]
  cases hopens : answers.opens with
  | error err => exact .fails h rfl
  | ok _ =>
    cases hinfo : answers.fdInfo with
    | none => exact .fails ⟨h.places.of_eq rfl rfl rfl, h.books.openClose.of_eq rfl rfl rfl⟩ rfl
    | some fi =>
      cases hdir : fi.isDir with
      | true =>
        simp only [if_true, hdir]
        refine .opened ⟨h.places.of_eq rfl rfl rfl, h.books.openClose.of_eq rfl rfl rfl⟩ herr
          ⟨rfl, fun _ => rfl, fun _ hfile => ?_⟩ fun _ _ hfile => ?_
        · exact absurd (hdir.symm.trans hfile) Bool.noConfusion
        · exact absurd (hdir.symm.trans hfile) Bool.noConfusion
      | false =>
        simp only [Bool.false_eq_true, if_false, hdir]
        refine .opened ⟨h.places.of_eq rfl rfl rfl, h.books.openNew⟩ herr
          ⟨rfl, fun hidle => ?_, fun _ _ => some_ne_none _⟩ fun hfd hsteady _ => ?_
        · exact absurd hidle (by simp [herr, hdir])
        · obtain ⟨fi₀, hstat, hne⟩ := hlooked hfd
          exact hsteady.changed fi₀ fi hstat hne hopens hinfo hdir

theorem openAndStatFile_result {out : Option Nat} (h : Owned out [] c leases) (of : OpenFileInfo)
    (herr : of.err = 0) (answers : Answers) :
    StatResult of answers out c leases (openAndStatFile of answers c) := by
  rw [openAndStatFile]
  split
  · next fd hfd =>
    split
    · exact .fails h rfl
    next fi hstat =>
    by_cases huniq : of.info.uniq = fi.uniq
    · rw [if_pos huniq]
      exact .kept (hfd ▸ some_ne_none _) hstat huniq
    · rw [if_neg huniq]
      exact openFile_result h herr answers fun _ => ⟨fi, hstat, fun heq => huniq heq.symm⟩
  · next hfd =>
    have hopen := openFile_result h herr answers fun hne => absurd hfd hne
    by_cases htest : of.testDir = true
    · rw [if_pos htest]
      split
      · exact .fails h rfl
      next fi hstat =>
      by_cases hdir : fi.isDir = true
      · rw [if_pos hdir]
        have hfile : ∀ {p : Prop}, fi.isDir = false → p := fun hfile =>
          absurd (hdir.symm.trans hfile) Bool.noConfusion
        have howned : Owned out of.fd.toList { c with handles := c.handles } leases := by
          rw [hfd]
          exact h
        exact .opened howned herr ⟨rfl, fun _ => hfd, fun _ => hfile⟩ fun _ _ => hfile
      · rw [if_neg hdir]
        exact hopen
    · rw [if_neg htest]
      exact hopen

/-! ## The labels -/

theorem closePending_owned (h : Owned none of.fd.toList c leases) :
    Owned none [] (match of.fd with
      | none => c
      | some fd => c.closeFile fd) leases := by
  cases hfd : of.fd with
  | none =>
    rw [hfd] at h
    exact h
  | some fd =>
    rw [hfd] at h
    exact ⟨h.places.of_eq rfl rfl rfl, h.books.closePending⟩

theorem keeps_failed {found : Option Nat} (c' : Cache Name)
    (howned : Owned none of.fd.toList c' leases)
    (hfailed : failed found of c = some ⟨.error, of, none, match of.fd with
      | none => c'
      | some fd => c'.closeFile fd⟩) : Keeps leases (failed found of c) :=
  ⟨_, hfailed, closePending_owned howned⟩

theorem failed_none (h : Owned none of.fd.toList c leases) : Keeps leases (failed none of c) :=
  keeps_failed c h rfl

/-- The error path drops the file that was found: at once, or with its last lease. -/
theorem failed_some (h : Owned (some file) of.fd.toList c leases) :
    Keeps leases (failed (some file) of c) := by
  obtain ⟨hdelete, hplaces⟩ := h.places.treeDelete
  have hmem := h.places.mem_erase
  obtain ⟨f, hget⟩ := h.books.live file h.places.mem_tree
  have hbooks : Books (· ∈ c.tree) of.fd.toList
    { c with tree := c.tree.erase file, current := c.current - 1 }
    leases := h.books.of_eq rfl rfl rfl
  -- what follows is about the state without the node
  generalize hnode : { c with tree := c.tree.erase file, current := c.current - 1 } = node at *
  have hget' : node.get file = some f := by
    rw [← hnode]
    exact hget
  have htree : node.tree = c.tree.erase file := by rw [← hnode]
  rw [← htree] at hmem
  by_cases hcount : f.count = 0
  · have hreleased := hbooks.release (· ∈ node.tree) hget' hmem hcount
    refine keeps_failed { node with
      handles := f.fd.elim node.handles node.handles.close
      files := node.files.set file none
      freed := (file, 0) :: node.freed } ⟨hplaces.of_eq rfl rfl rfl, hreleased⟩ ?_
    cases hfd : f.fd with
    | none =>
      have hfree := Cache.free_eq hget'
      simp only [failed, hdelete, hget', bind_eq_bind, bind_some, hcount, if_true, hfd, hfree]
      rfl
    | some fd =>
      have hfree := Cache.free_eq (show (node.closeFile fd).get file = some f from hget')
      simp only [failed, hdelete, hget', bind_eq_bind, bind_some, hcount, if_true, hfd, hfree]
      rfl
  · have hgood := h.books.good_of_count hget hcount
    have hset := hbooks.set_same (· ∈ node.tree) { f with close := true } hget'
      (fun other hne => (hmem other).trans (and_iff_right hne)) rfl rfl
      ⟨((h.books.file file f hget).1).bound, fun hidle => absurd hidle (not_idle hgood),
        fun hin => absurd rfl ((hmem file).mp hin).1, fun _ => ⟨rfl, hgood.1, hgood.2, hcount⟩⟩
    refine keeps_failed (node.set file { f with close := true })
      ⟨hplaces.of_eq rfl rfl rfl, hset⟩ ?_
    simp only [failed, hdelete, hget', bind_eq_bind, bind_some, hcount, if_false]
    rfl

/-- What a structure holds after `update` and `found`. -/
def CachedFile.stored (f : CachedFile Name) (of : OpenFileInfo) (now : Int) : CachedFile Name :=
  { f.updated of now with accessed := now }

/-- The handler that is set for a file. -/
def OpenFileInfo.lease (of : OpenFileInfo) (file : Nat) : Option Lease :=
  if of.err = 0 ∧ of.info.isDir = false then some ⟨file, of.fd, of.minUses⟩ else none

theorem keeps_found (hplaces : Places (some file) c) (hget : c.get file = some f)
    (hbooks : Books (· ∈ c.tree) [] (c.set file { f with accessed := now })
      ((of.lease file).toList ++ leases)) :
    Keeps leases (found file of now c) := by
  have hplaces' := hplaces.queueInsertHead
  rw [found, hget, bind_eq_bind, bind_some]
  by_cases herr : of.err = 0
  · rw [if_pos herr]
    refine ⟨_, rfl, hplaces'.of_eq rfl rfl rfl, ?_⟩
    have hlease : (if of.info.isDir = true then none else some (Lease.mk file of.fd of.minUses)) =
        of.lease file := by
      cases hdir : of.info.isDir <;> simp [OpenFileInfo.lease, herr, hdir]
    simp only [hlease]
    exact hbooks.of_eq rfl rfl rfl
  · rw [if_neg herr]
    refine ⟨_, rfl, hplaces'.of_eq rfl rfl rfl, ?_⟩
    have hlease : none = of.lease file := by simp [OpenFileInfo.lease, herr]
    simp only [hlease]
    exact hbooks.of_eq rfl rfl rfl

theorem keeps_update (hplaces : Places (some file) c) (hget : c.get file = some f)
    (hbooks : Books (· ∈ c.tree) [] (c.set file (f.stored of now))
      ((of.lease file).toList ++ leases)) :
    Keeps leases (update file of now c) := by
  have hset : (c.set file (f.updated of now)).get file = some (f.updated of now) :=
    Cache.get_set_self hget
  rw [update, hget, bind_eq_bind, bind_some]
  refine keeps_found (hplaces.of_eq rfl rfl rfl) hset ?_
  rw [Cache.set_set]
  exact hbooks

theorem Books.addLease {inTree : Nat → Prop} (h : Books inTree pending c leases)
    (hget : c.get file = some f)
    (of : OpenFileInfo) (f' : CachedFile Name) {pending' : List Nat}
    (hgood : of.err = 0 ∧ of.info.isDir = false)
    (hfds : ∀ d, holdsFd (some f') d + pending'.count d = holdsFd (some f) d + pending.count d)
    (hfd : f'.fd = of.fd) (hopen : of.fd ≠ none) (hsame : f.count ≠ 0 → f.fd = of.fd)
    (hcount : f'.count = f.count + 1) (hok : FileOk (inTree file) f') :
    Books inTree pending' (c.set file f') ((of.lease file).toList ++ leases) := by
  obtain ⟨fd, hof⟩ := ne_none_iff_exists'.mp hopen
  have hcounted := (h.file file f hget).2
  have hlease : (of.lease file).toList ++ leases = ⟨file, of.fd, of.minUses⟩ :: leases := by
    rw [OpenFileInfo.lease, if_pos hgood]
    rfl
  rw [hlease]
  refine h.set hget (fun _ _ => Iff.rfl) hfds hok ?_ (fun other hne =>
    ?_) (fun l hl hfile => ?_) fun l hl hne => ?_
  · rw [leasesOn_cons, if_pos rfl, hcount, hcounted]
  · rw [leasesOn_cons, if_neg fun heq => hne heq.symm, add_zero]
  · rcases mem_cons.mp hl with rfl | hl
    · exact ⟨fd, hfd.trans hof, hof⟩
    have hwaited : f.count ≠ 0 := by
      rw [hcounted]
      exact ne_of_gt (countP_pos_iff.mpr ⟨l, hl, decide_eq_true hfile⟩)
    rw [hfd, ← hsame hwaited]
    exact h.fd_of_lease hget hl hfile
  · rcases mem_cons.mp hl with rfl | hl
    · exact absurd rfl hne
    · exact hl

/-- A file in the cache takes over what was opened. -/
theorem update_idle (h : Owned (some file) of.fd.toList c leases) (hget : c.get file = some f)
    (hfd : f.fd = none) (hcount : f.count = 0) (hfits : Fits of of.fd.toList) (now : Int) :
    Keeps leases (update file of now c) := by
  refine keeps_update h.places hget ?_
  have hin : file ∈ c.tree := h.places.mem_tree
  have hheld : ∀ d, holdsFd (some (f.stored of now)) d + ([] : List Nat).count d =
      holdsFd (some f) d + of.fd.toList.count d := by
    intro d
    have hstored : (f.stored of now).fd = of.fd := by
      simp only [CachedFile.stored, CachedFile.updated]
      split <;> rfl
    rw [holdsFd, holdsFd, bind_some, bind_some, hstored, hfd]
    cases of.fd with
    | none => simp
    | some fd => simp [count_singleton]
  by_cases hgood : of.err = 0 ∧ of.info.isDir = false
  · -- a file: it is in use
    have hstored : f.stored of now = { f with
        accessed := now, fd := of.fd, err := of.err, disableSymlinks :=
          of.disableSymlinks, created := now,
        info := of.info, isDirectio := of.isDirectio, close := false, count := 1 } := by
      simp [CachedFile.stored, CachedFile.updated, hgood.1, hgood.2, hcount, countBound]
    rw [hstored] at hheld ⊢
    exact h.books.addLease hget of _ hgood hheld rfl
      (hfits.file hgood.1 hgood.2) (fun hne => absurd hcount hne)
      (by rw [hcount]) ⟨by show 1 < countBound; decide, fun hidle =>
        absurd hidle (not_idle hgood), fun _ _ _ => rfl,
        fun hout => absurd hin hout⟩
  · -- a directory or an error
    have hidle : of.err ≠ 0 ∨ of.info.isDir = true := by
      rcases Decidable.not_and_iff_or_not.mp hgood with herr | hdir
      · exact Or.inl herr
      · exact Or.inr (Bool.eq_true_of_not_eq_false hdir)
    have hstored : (f.stored of now).fd = none ∧ (f.stored of now).count = 0 ∧
        (of.err = 0 → (f.stored of now).close = false) ∧ (f.stored of now).err = of.err := by
      by_cases herr : of.err = 0
      · have hdir : of.info.isDir = true := hidle.resolve_left fun hne => hne herr
        simp [CachedFile.stored, CachedFile.updated, herr, hdir, hcount, hfits.idle hidle]
      · simp [CachedFile.stored, CachedFile.updated, herr, hcount, hfits.idle hidle]
    obtain ⟨hnofd, hnone, hclose, herr⟩ := hstored
    have hcounted := (h.books.file file f hget).2
    have hlease : (of.lease file).toList ++ leases = leases := by
      rw [OpenFileInfo.lease, if_neg hgood]
      rfl
    rw [hlease]
    refine h.books.set hget (fun _ _ => Iff.rfl) hheld
      ⟨?_, fun _ => ⟨hnofd, hnone⟩, fun _ hzero _ => hclose (herr.symm.trans hzero),
        fun hout => absurd hin hout⟩
          (hnone.trans (hcount.symm.trans hcounted)) (fun _ _ => rfl) ?_ fun l hl _ => hl
    · rw [hnone]
      decide
    · intro l hl hfile
      have hzero : leasesOn leases file = 0 := hcounted.symm.trans hcount
      exact absurd (decide_eq_true hfile) (countP_eq_zero.mp hzero l hl)

theorem update_again (h : Owned (some file) [] c leases) (hget : c.get file = some f)
    (hfd : of.fd = f.fd) (hopen : f.fd ≠ none) (hgood : of.err = 0 ∧ of.info.isDir = false)
    (hbound : f.count + 1 < countBound) (now : Int) : Keeps leases (update file of now c) := by
  refine keeps_update h.places hget ?_
  have hin : file ∈ c.tree := h.places.mem_tree
  have hstored : f.stored of now = { f with
      accessed := now, fd := of.fd, err := of.err, disableSymlinks :=
        of.disableSymlinks, created := now,
      info := of.info, isDirectio := of.isDirectio, close := false, count := f.count + 1 } := by
    simp [CachedFile.stored, CachedFile.updated, hgood.1, hgood.2, Nat.mod_eq_of_lt hbound]
  rw [hstored]
  refine h.books.addLease hget of _ hgood (fun d => ?_) rfl (hfd ▸ hopen) (fun _ => hfd.symm) rfl
    ⟨hbound, fun hidle => absurd hidle (not_idle hgood), fun _ _ _ =>
      rfl, fun hout => absurd hin hout⟩
  simp only [holdsFd, bind_some, hfd]

theorem update_set {g : CachedFile Name} (hget : c.get file = some f)
    (hsame : g.updated of now = f.updated of now) :
    update file of now (c.set file g) = update file of now c := by
  have hset : (c.set file g).get file = some g := Cache.get_set_self hget
  rw [update, update, hset, hget, bind_eq_bind, bind_some, bind_some, Cache.set_set, hsame]

/-- The call adds a file to the cache. -/
theorem insertFile_owned (h : Owned none of.fd.toList c leases)
    (hfits : Fits of of.fd.toList) (name : Name)
    (now : Int) (memory : Memory Name) : Keeps leases (insertFile name of now memory c) := by
  rw [insertFile]
  cases memory.file with
  | none => exact failed_none h
  | some raw =>
    by_cases hname : memory.name = false
    · simp only [hname, if_true]
      exact failed_none h
    simp only [hname]
    -- what `ngx_alloc` left in the structure is overwritten
    have hout : c.files.length ∉ c.tree := by
      intro hin
      obtain ⟨g, hg⟩ := h.books.live _ hin
      exact lt_irrefl _ (List.getElem?_eq_some_iff.mp (Cache.get_eq_some.mp hg)).1
    have hbooks := h.books.alloc (· ∈ c.files.length :: c.tree)
      { raw with name := name, uses := 1, count := 0, fd := none, err := 1 }
      (fun other => mem_cons) rfl rfl
      ⟨by show 0 < countBound; decide, fun _ => ⟨rfl, rfl⟩, fun _ herr => absurd herr (by simp),
        fun hout => absurd trivial hout⟩
    have howned : Owned (some c.files.length) of.fd.toList (Cache.treeInsert { c with
        files := c.files ++
          [some { raw with name := name, uses := 1, count := 0, fd := none, err := 1 }] }
          c.files.length) leases :=
      ⟨(h.places.treeInsert hout).of_eq rfl rfl rfl, hbooks.of_eq rfl rfl rfl⟩
    have hget : (Cache.treeInsert { c with
        files := c.files ++
          [some { raw with name := name, uses := 1, count := 0, fd := none, err := 1 }] }
          c.files.length).get c.files.length =
        some { raw with name := name, uses := 1, count := 0, fd := none, err := 1 } := by
      rw [Cache.get_eq_some]
      simp [Cache.treeInsert]
    have hkeeps := update_idle howned hget rfl rfl hfits now
    rw [← @update_set _ _ _ _ _ _ { raw with name := name, uses := 1, count := 0 } hget rfl]
      at hkeeps
    have hset : (Cache.treeInsert { c with
        files := c.files ++
          [some { raw with name := name, uses := 1, count := 0, fd := none, err := 1 }] }
          c.files.length).set c.files.length { raw with name := name, uses := 1, count := 0 } =
        Cache.treeInsert { c with
          files := c.files ++ [some { raw with name := name, uses := 1, count := 0 }] }
            c.files.length := by
      simp [Cache.set, Cache.treeInsert]
    rw [hset] at hkeeps
    exact hkeeps

theorem create_owned (h : Owned none of.fd.toList c leases)
    (hfits : Fits of of.fd.toList) (name : Name)
    (now : Int) (memory : Memory Name) : Keeps leases (create name of now memory c) := by
  rw [create]
  split
  · obtain ⟨c', hexpire, h'⟩ := expireOldCachedFiles_owned h 0 now
    rw [hexpire, bind_some]
    exact insertFile_owned h' hfits name now memory
  · exact insertFile_owned h hfits name now memory

/-! ## The function -/

/-- What a retest of the file must not meet. -/
structure Regular (f : CachedFile Name) (of : OpenFileInfo) (now : Int) (answers : Answers) :
    Prop where
  /-- the count of one user more fits -/
  count : f.fresh of now = true ∨ (∃ fi, answers.stat = .ok fi ∧ fi.uniq = f.info.uniq) →
    f.count + 1 < countBound
  /-- the answers are of one state of the file system -/
  steady : f.fd ≠ none → f.fresh of now = false → answers.Steady f.info.uniq

theorem fits_of_fails (hfd : of.fd = none) (herr : of.err ≠ 0) : Fits of of.fd.toList :=
  ⟨rfl, fun _ => hfd, fun hzero => absurd hzero herr⟩

theorem retested_kept (h : Owned (some file) [] c leases) (hget : c.get file = some f)
    (hgood : f.err = 0 ∧ f.info.isDir = false) (hopen : f.fd ≠ none) (herr : of.err = 0)
    (hdir : of.info.isDir = false) (hfd : of.fd = f.fd) (huniq : of.info.uniq = f.info.uniq)
    (hbound : f.count + 1 < countBound) (name : Name) (now : Int) (memory : Memory Name) :
    Keeps leases (retested file f name .ok of now memory c) := by
  have hnot : ¬ (f.info.isDir = true ∨ f.err ≠ 0) := fun hidle => not_idle hgood hidle.symm
  rw [retested, if_neg fun hrc => hrc.1 rfl, if_neg hnot, if_pos ⟨hdir, herr, huniq⟩]
  refine update_again h hget ?_ hopen ?_ hbound now
  · exact hfd
  · exact ⟨herr, hdir⟩

/-- A file that was looked at again is kept, taken over, or replaced and closed with its last
lease. -/
theorem retested_changed (h : Owned (some file) of.fd.toList c leases) (hget : c.get file = some f)
    (hopen : f.err = 0 → f.info.isDir = false → f.fd ≠ none) {rc : Rc}
    (hfits : rc = .ok ∨ of.err ≠ 0 → Fits of of.fd.toList)
    (hchanged : f.fd ≠ none → of.info.isDir = false → of.err = 0 → rc = .ok →
      of.info.uniq ≠ f.info.uniq)
    (name : Name) (now : Int) (memory : Memory Name) :
    Keeps leases (retested file f name rc of now memory c) := by
  obtain ⟨hbound, hidle, -, -⟩ := (h.books.file file f hget).1
  rw [retested]
  by_cases hfails : rc ≠ .ok ∧ (of.err = 0 ∨ of.errors = false)
  · rw [if_pos hfails]
    exact failed_some h
  rw [if_neg hfails]
  have hfits' : Fits of of.fd.toList := by
    refine hfits ?_
    by_cases hrc : rc = .ok
    · exact Or.inl hrc
    · exact Or.inr fun herr => hfails ⟨hrc, Or.inl herr⟩
  by_cases hgood : f.info.isDir = true ∨ f.err ≠ 0
  · rw [if_pos hgood]
    obtain ⟨hfd, hcount⟩ := hidle hgood.symm
    exact update_idle h hget hfd hcount hfits' now
  rw [if_neg hgood]
  have herr : f.err = 0 := Decidable.byContradiction fun hne => hgood (Or.inr hne)
  have hdir : f.info.isDir = false := Bool.eq_false_iff.mpr fun hdir => hgood (Or.inl hdir)
  have hfd := hopen herr hdir
  have hnew : ¬ (of.info.isDir = false ∧ of.err = 0 ∧ of.info.uniq = f.info.uniq) := by
    rintro ⟨hfile, hzero, huniq⟩
    refine hchanged hfd hfile hzero ?_ huniq
    exact Decidable.byContradiction fun hrc => hfails ⟨hrc, Or.inl hzero⟩
  rw [if_neg hnew]
  obtain ⟨fd, hf⟩ := ne_none_iff_exists'.mp hfd
  by_cases hcount : f.count = 0
  · -- its descriptor is closed and overwritten
    rw [if_pos hcount, hf]
    have hbooks := h.books.closeHeld { f with fd := none } hget hf hcount rfl hcount
      ⟨hbound, fun _ => ⟨rfl, hcount⟩, ((h.books.file file f hget).1).cached,
        fun hout => absurd h.places.mem_tree hout⟩
    have hget' : ((c.closeFile fd).set file { f with fd := none }).get file = some
      { f with fd := none } :=
      Cache.get_set_self (show (c.closeFile fd).get file = some f from hget)
    have howned : Owned (some file) of.fd.toList
      ((c.closeFile fd).set file { f with fd := none }) leases :=
      ⟨h.places.of_eq rfl rfl rfl, hbooks⟩
    have hkeeps := update_idle howned hget' rfl hcount hfits' now
    have hsame : CachedFile.updated { f with fd := none } of now = f.updated of now := rfl
    rw [update_set (show (c.closeFile fd).get file = some f from hget) hsame] at hkeeps
    exact hkeeps
  · rw [if_neg hcount]
    obtain ⟨hdelete, hplaces⟩ := h.places.treeDelete
    have hmem := h.places.mem_erase
    have hbooks := h.books.set_same (· ∈ c.tree.erase file) { f with close := true } hget
      (fun other hne => (hmem other).trans (and_iff_right hne)) rfl rfl
      ⟨hbound, hidle, fun hin => absurd rfl ((hmem file).mp hin).1, fun _ =>
        ⟨rfl, herr, hdir, hcount⟩⟩
    rw [hdelete]
    refine create_owned ⟨?_, ?_⟩ hfits' name now memory
    · exact hplaces.of_eq rfl rfl rfl
    · exact hbooks.of_eq rfl rfl rfl

/-- A cached file that is due is opened or checked again. -/
theorem retest_owned (h : Owned (some file) [] c leases) (hget : c.get file = some f)
    (herr : of.err = 0)
    (hopen : f.err = 0 → f.info.isDir = false → f.fd ≠ none) (hstale : f.fresh of now = false)
    {answers : Answers} (hregular : Regular f of now answers) (name : Name) (memory : Memory Name) :
    Keeps leases (retest file f name of now answers memory c) := by
  obtain ⟨-, hidle, -, -⟩ := (h.books.file file f hget).1
  have hresult := openAndStatFile_result h { of with
    testDir := of.testDir || f.info.isDir
    fd := f.fd
    info := { of.info with uniq := f.info.uniq } } herr answers
  rw [retest]
  generalize openAndStatFile _ answers c = result at hresult ⊢
  cases hresult with
  | @kept fi hfd hstat huniq =>
    have huniq' : f.info.uniq = fi.uniq := huniq
    have hgood : f.err = 0 ∧ f.info.isDir = false := by
      refine ⟨Decidable.byContradiction fun hne => hfd (hidle (Or.inl hne)).1, ?_⟩
      exact Bool.eq_false_iff.mpr fun hdir => hfd (hidle (Or.inr hdir)).1
    refine retested_kept h hget hgood hfd ?_ ?_ ?_ ?_ ?_ name now memory
    · exact herr
    · exact (hregular.steady hfd hstale).same fi hstat huniq'.symm
    · rfl
    · exact huniq'.symm
    · exact hregular.count (Or.inr ⟨fi, hstat, huniq'.symm⟩)
  | fails howned hfd =>
    refine retested_changed ?_ ?_ hopen ?_ ?_ name now memory
    · rw [hfd]
      exact howned
    · exact hget
    · rintro (hrc | hne)
      · exact absurd hrc (by decide)
      · exact fits_of_fails hfd hne
    · exact fun _ _ _ hrc => absurd hrc (by decide)
  | opened howned herr' hfits hchanged =>
    refine retested_changed howned hget hopen (fun _ => hfits) (fun hfd hfile _ _ =>
      ?_) name now memory
    exact hchanged hfd (hregular.steady hfd hstale) hfile

theorem found_fresh (h : Owned (some file) [] c leases) (hget : c.get file = some f)
    (herr : of.err = 0)
    (hopen : f.err = 0 → f.info.isDir = false → f.fd ≠ none) (hbound : f.count + 1 < countBound) :
    Keeps leases (found file (f.give of) now (if f.err = 0 ∧ f.info.isDir = false then
      c.set file { f with count := (f.count + 1) % countBound } else c)) := by
  obtain ⟨hfits, hidle, hcached, -⟩ := (h.books.file file f hget).1
  have hin := h.places.mem_tree
  by_cases hgood : f.err = 0 ∧ f.info.isDir = false
  · rw [if_pos hgood, Nat.mod_eq_of_lt hbound]
    have hgive : f.give of = { of with fd := f.fd, info := f.info, isDirectio := f.isDirectio } :=
      if_pos hgood.1
    have hbooks :=
      h.books.addLease hget (f.give of) { f with count := f.count + 1, accessed := now }
        (by rw [hgive]; exact ⟨herr, hgood.2⟩) (fun _ => rfl)
      (by rw [hgive]) (by rw [hgive]; exact hopen hgood.1 hgood.2) (fun _ => by rw [hgive]) rfl
      ⟨hbound, fun hnot => absurd hnot (not_idle hgood), fun _ =>
        hcached hin, fun hout => absurd hin hout⟩
    refine keeps_found (h.places.of_eq rfl rfl rfl) (Cache.get_set_self hget) ?_
    rw [Cache.set_set]
    exact hbooks
  · rw [if_neg hgood]
    have hlease : (f.give of).lease file = none := by
      refine if_neg fun hgiven => hgood ?_
      rw [CachedFile.give] at hgiven
      split at hgiven
      · next hzero => exact ⟨hzero, hgiven.2⟩
      · next hne => exact absurd hgiven.1 hne
    refine keeps_found h.places hget ?_
    rw [hlease]
    exact h.books.set_same (· ∈ c.tree) { f with accessed := now } hget (fun _ _ => Iff.rfl) rfl rfl
      ⟨hfits, hidle, hcached, fun hout => absurd hin hout⟩

/-- The call finds the file in the cache. -/
theorem found_owned (h : Owned (some file) [] c leases) (hget : c.get file = some f)
    (of : OpenFileInfo)
    (hfd : of.fd = none) (herr : of.err = 0) {answers : Answers}
    (hregular : Regular f of now answers) (name : Name)
    (memory : Memory Name) :
    Keeps leases (if f.fd = none ∧ f.err = 0 ∧ f.info.isDir = false then
        if (openAndStatFile of answers c).1 ≠ .ok ∧ ((openAndStatFile of answers c).2.1.err = 0 ∨
            (openAndStatFile of answers c).2.1.errors = false) then
          failed (some file) (openAndStatFile of answers c).2.1 (openAndStatFile of answers c).2.2
        else update file (openAndStatFile of answers c).2.1 now (openAndStatFile of answers c).2.2
      else if f.fresh of now = true then
        found file (f.give of) now (if f.err = 0 ∧ f.info.isDir = false then
          c.set file { f with count := (f.count + 1) % countBound } else c)
      else retest file f name of now answers memory c) := by
  split
  · next hlow =>
    have hresult := openAndStatFile_result h of herr answers
    have hcount : f.count = 0 := by
      refine Decidable.byContradiction fun hne => ?_
      obtain ⟨fd, hsome⟩ := h.books.fd_of_count hget hne
      exact some_ne_none _ (hsome.symm.trans hlow.1)
    generalize openAndStatFile of answers c = result at hresult ⊢
    cases hresult with
    | kept hne _ _ => exact absurd hfd hne
    | @fails of' handles howned hnone =>
      have howned' : Owned (some file) of'.fd.toList { c with handles := handles } leases := by
        rw [hnone]
        exact howned
      simp only
      split
      · exact failed_some howned'
      · next hfails =>
        have hkept : of'.err ≠ 0 := fun hzero => hfails ⟨by decide, Or.inl hzero⟩
        exact update_idle howned' hget hlow.1 hcount (fits_of_fails hnone hkept) now
    | opened howned herr' hfits _ =>
      simp only
      rw [if_neg fun hrc => hrc.1 rfl]
      exact update_idle howned hget hlow.1 hcount hfits now
  · next hlow =>
    have hopen : f.err = 0 → f.info.isDir = false → f.fd ≠ none := fun hzero hdir hnone =>
      hlow ⟨hnone, hzero, hdir⟩
    split
    · next hfresh => exact found_fresh h hget herr hopen (hregular.count (Or.inl hfresh))
    · next hstale =>
        exact retest_owned h hget herr hopen (Bool.eq_false_iff.mpr hstale) hregular name memory

/-- `ngx_open_cached_file` keeps every descriptor owned, for regular files. -/
theorem openCachedFile_owned [DecidableEq Name] (h : Owned none [] c leases)
    (name : Name) (of : OpenFileInfo)
    (now : Int) (answers : Answers) (memory : Memory Name)
    (hregular : ∀ file f, lookup c name = some file → c.get file = some f →
      Regular f of now answers) :
    Keeps leases (openCachedFile name of now answers memory c) := by
  rw [openCachedFile]
  split
  · exact ⟨_, rfl, h⟩
  split
  · next file hlookup =>
    have hin : file ∈ c.tree := mem_of_find?_eq_some hlookup
    obtain ⟨f, hget⟩ := h.books.live file hin
    have hright := hregular file f hlookup hget
    obtain ⟨hbound, hidle, hcached, hdetached⟩ := (h.books.file file f hget).1
    -- the file is out of the queue, and used once more
    have hbooks := h.books.set_same (· ∈ c.tree) { f with uses := (f.uses + 1) % usesBound } hget
      (fun _ _ => Iff.rfl) rfl rfl ⟨hbound, hidle, hcached, hdetached⟩
    have howned : Owned none [] (c.set file { f with uses := (f.uses + 1) % usesBound }) leases :=
      ⟨h.places.of_eq rfl rfl rfl, hbooks⟩
    obtain ⟨hremove, hplaces⟩ := howned.places.queueRemove hin
    have hget' : (c.set file { f with uses := (f.uses + 1) % usesBound }).get file =
        some { f with uses := (f.uses + 1) % usesBound } := Cache.get_set_self hget
    have hout : Owned (some file) [] { c.set file { f with uses := (f.uses + 1) % usesBound } with
        expireQueue := (c.set file { f with uses := (f.uses + 1) % usesBound }).expireQueue.erase
          file } leases :=
      ⟨hplaces, hbooks.of_eq rfl rfl rfl⟩
    simp only [hget, bind_eq_bind, bind_some, hremove]
    exact found_owned hout hget'
      { of with fd := none, err := 0 } rfl rfl ⟨hright.count, hright.steady⟩ name memory
  · next hlookup =>
    have hresult := openAndStatFile_result h { of with fd := none, err := 0 } rfl answers
    generalize openAndStatFile _ answers c = result at hresult ⊢
    cases hresult with
    | kept hfd _ _ => exact absurd rfl hfd
    | @fails of' handles howned hfd =>
      simp only
      by_cases hfails : Rc.error ≠ Rc.ok ∧ (of'.err = 0 ∨ of'.errors = false)
      · rw [if_pos hfails]
        refine failed_none ?_
        rw [hfd]
        exact howned
      · rw [if_neg hfails]
        have herr : of'.err ≠ 0 := fun hzero => hfails ⟨by decide, Or.inl hzero⟩
        refine create_owned ?_ (fits_of_fails hfd herr) name now memory
        rw [hfd]
        exact howned
    | opened howned herr hfits _ =>
      simp only
      rw [if_neg fun hrc => hrc.1 rfl]
      exact create_owned howned hfits name now memory

end Nginx.Core.OpenFileCache
