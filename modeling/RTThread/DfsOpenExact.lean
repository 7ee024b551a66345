import RTThread.DfsFdRuns
import RTThread.DfsLookup
import RTThread.DfsOpenModel

namespace RTThread

/-- Some descriptor is open on the file that the path names. -/
def FileOpen (workingDirectory : Option CString) (mounts : List DfsFilesystem) (s : OpenFiles)
    (pathname : CString) : Prop :=
  ∃ i fullpath fs, dfsNormalizePath workingDirectory true pathname = some fullpath ∧
    mountedFs mounts fullpath = some fs ∧ s.phase i = .opened fs.index fullpath

def IsOpened (s : OpenFiles) (i : Nat) : Prop := ∃ fs fullpath, s.phase i = .opened fs fullpath

/-- What the loop of `fd_is_open` stops at. -/
def Matches (fops : Nat) (mountpath : CString) (d : DfsFd) : Prop :=
  d.file.fops = fops ∧ d.file.path = some mountpath

/-- The loop comes to the structure of this slot. -/
def Inspects (fops : Nat) (mountpath : CString) (t : DfsFdTable) (i : Nat) : Prop :=
  ∀ j < i, ∀ d, t.slot j = some d → ¬Matches fops mountpath d

/-- `fd_is_open` answers, 0 exactly for an open file, and looks at opened descriptors only. -/
def ExactAnswer (workingDirectory : Option CString) (mounts : List DfsFilesystem) (s : OpenFiles)
    (memory : Bool) (pathname : CString) : Prop :=
  ∃ answer, fdIsOpen workingDirectory mounts memory s.table pathname = some answer ∧
    (answer = 0 ↔ FileOpen workingDirectory mounts s pathname) ∧
    ∀ fullpath fs, dfsNormalizePath workingDirectory memory pathname = some fullpath →
      mountedFs mounts fullpath = some fs →
      ∀ i d, s.table.slot i = some d →
        Inspects fs.ops.fops (searchedPath fs fullpath) s.table i → IsOpened s i

/-- The file is open through a descriptor that kept the operations of its file system and a path,
and the path kept is the one looked for. -/
def FoundAsKept (s : OpenFiles) (fs : MountedFs) (fullpath : CString) : Prop :=
  keptPath fs fullpath = searchedPath fs fullpath ∧
    ∃ i d, s.table.slot i = some d ∧ s.phase i = .opened fs.index fullpath ∧
      d.file.fops = fs.ops.fops ∧ d.file.path ≠ none

/-- A descriptor of another file, with the same operations, has kept the path looked for. -/
def Confused (s : OpenFiles) (fs : MountedFs) (fullpath : CString) : Prop :=
  ∃ i d fs' fullpath', s.table.slot i = some d ∧ s.phase i = .opened fs' fullpath' ∧
    fullpath' ≠ fullpath ∧ Matches fs.ops.fops (searchedPath fs fullpath) d

/-- The copy of the path can be allocated unless the file is not open. The slots the loop comes to
are opened, and those it compares have a path. An open file is found as kept or confused with
another one, and a file that is not open is not confused. -/
def Detects (workingDirectory : Option CString) (mounts : List DfsFilesystem) (s : OpenFiles)
    (memory : Bool) (pathname : CString) : Prop :=
  ∀ fullpath fs, dfsNormalizePath workingDirectory true pathname = some fullpath →
    mountedFs mounts fullpath = some fs →
    if memory then
      (∀ i d, s.table.slot i = some d →
        Inspects fs.ops.fops (searchedPath fs fullpath) s.table i →
        IsOpened s i ∧ (d.file.fops = fs.ops.fops → d.file.path ≠ none)) ∧
      ((∃ i, s.phase i = .opened fs.index fullpath) →
        FoundAsKept s fs fullpath ∨ Confused s fs fullpath) ∧
      (Confused s fs fullpath → ∃ i, s.phase i = .opened fs.index fullpath)
    else ∀ i, s.phase i ≠ .opened fs.index fullpath

/-- A descriptor opened on a file, wholly or up to the open routine, kept no path or that of the
file. -/
structure OpenFilesOk (mounts : List DfsFilesystem) (s : OpenFiles) : Prop where
  held : ∀ i d, s.table.slot i = some d → d = heldFd d.file
  kept : ∀ i k fullpath, (s.phase i).origin = some (k, fullpath) → ∃ d fs,
    s.table.slot i = some d ∧ mountedFs mounts fullpath = some fs ∧ fs.index = k ∧
    (d.file.path = none ∨ d.file.path = some (keptPath fs fullpath))

section
variable {fops : Nat} {mountpath fullpath pathname : CString} {l : List (Option DfsFd)}
  {x : Option DfsFd} {i : Nat} {answer : Int} {t : DfsFdTable} {d : DfsFd}

theorem inspects_cons :
    Inspects fops mountpath ⟨x :: l⟩ (i + 1) ↔
      (∀ d, x = some d → ¬Matches fops mountpath d) ∧ Inspects fops mountpath ⟨l⟩ i := by
  constructor
  · intro h
    exact ⟨h 0 (Nat.succ_pos i), fun j hj => h (j + 1) (Nat.succ_lt_succ hj)⟩
  · rintro ⟨hx, hl⟩ j hj
    cases j with
    | zero => exact hx
    | succ j => exact hl j (Nat.lt_of_succ_lt_succ hj)

/-- The loop ends unless it comes to a structure with the same operations and no path. -/
theorem scanOpen_ends_iff :
    (∃ answer, scanOpen fops mountpath l = some answer) ↔
      ∀ i d, (DfsFdTable.mk l).slot i = some d → Inspects fops mountpath ⟨l⟩ i →
        d.file.fops = fops → d.file.path ≠ none := by
  induction l with
  | nil => simp [scanOpen, DfsFdTable.slot]
  | cons x l ih =>
    have hsplit : (∀ i d, (DfsFdTable.mk (x :: l)).slot i = some d →
        Inspects fops mountpath ⟨x :: l⟩ i → d.file.fops = fops → d.file.path ≠ none) ↔
        (∀ d, x = some d → d.file.fops = fops → d.file.path ≠ none) ∧
        ((∀ d, x = some d → ¬Matches fops mountpath d) →
          ∀ i d, (DfsFdTable.mk l).slot i = some d → Inspects fops mountpath ⟨l⟩ i →
            d.file.fops = fops → d.file.path ≠ none) := by
      constructor
      · intro h
        exact ⟨fun d hd => h 0 d hd fun j hj => absurd hj (Nat.not_lt_zero j),
          fun hx i d hd hi => h (i + 1) d hd (inspects_cons.mpr ⟨hx, hi⟩)⟩
      · rintro ⟨hx, hl⟩ i d hd hi
        cases i with
        | zero => exact hx d hd
        | succ i =>
          obtain ⟨hno, hi⟩ := inspects_cons.mp hi
          exact hl hno i d hd hi
    rw [hsplit, ← ih]
    cases x with
    | none => simp [scanOpen]
    | some d =>
      by_cases hfops : d.file.fops = fops
      · cases hpath : d.file.path with
        | none => simp [scanOpen, hfops, hpath]
        | some path => by_cases heq : path = mountpath <;> simp [scanOpen, Matches, hfops, hpath, heq]
      · simp [scanOpen, Matches, hfops]

theorem scanOpen_zero_iff (h : scanOpen fops mountpath l = some answer) :
    answer = 0 ↔ ∃ i d, (DfsFdTable.mk l).slot i = some d ∧ Matches fops mountpath d := by
  induction l with
  | nil =>
    cases Option.some.inj h
    simp [DfsFdTable.slot]
  | cons x l ih =>
    have hsplit : (∃ i d, (DfsFdTable.mk (x :: l)).slot i = some d ∧ Matches fops mountpath d) ↔
        (∃ d, x = some d ∧ Matches fops mountpath d) ∨
        ∃ i d, (DfsFdTable.mk l).slot i = some d ∧ Matches fops mountpath d := by
      constructor
      · rintro ⟨i, d, hd, hm⟩
        cases i with
        | zero => exact .inl ⟨d, hd, hm⟩
        | succ i => exact .inr ⟨i, d, hd, hm⟩
      · rintro (⟨d, hd, hm⟩ | ⟨i, d, hd, hm⟩)
        · exact ⟨0, d, hd, hm⟩
        · exact ⟨i + 1, d, hd, hm⟩
    rw [hsplit]
    cases x with
    | none => simpa [scanOpen] using ih h
    | some d =>
      simp only [scanOpen] at h
      split at h
      · next hfops =>
        split at h
        · cases h
        · next path hpath =>
          split at h
          · next heq =>
            cases Option.some.inj h
            simp [Matches, hfops, hpath, heq]
          · next hne => simpa [Matches, hpath, hne] using ih h
      · next hfops => simpa [Matches, hfops] using ih h

/-- Where some structure matches, the loop comes to one that does. -/
theorem exists_first_match (h : t.slot i = some d) (hm : Matches fops mountpath d) :
    ∃ j d', t.slot j = some d' ∧ Matches fops mountpath d' ∧ Inspects fops mountpath t j := by
  induction i using Nat.strong_induction_on generalizing d with
  | _ i ih =>
    by_cases hfirst : Inspects fops mountpath t i
    · exact ⟨i, d, h, hm, hfirst⟩
    · simp only [Inspects, not_forall, not_not] at hfirst
      obtain ⟨j, hj, d', hd', hm'⟩ := hfirst
      exact ih j hj hd' hm'

end

theorem dfsNormalizePath_memory {workingDirectory : Option CString} {memory : Bool}
    {pathname fullpath : CString}
    (h : dfsNormalizePath workingDirectory memory pathname = some fullpath) :
    memory = true ∧ dfsNormalizePath workingDirectory true pathname = some fullpath := by
  cases memory with
  | true => exact ⟨rfl, h⟩
  | false =>
    simp only [dfsNormalizePath] at h
    split at h <;> cases h

section
variable {fdMax : Nat} {workingDirectory : Option CString} {mounts : List DfsFilesystem}
  {s s' : OpenFiles} {a : OpenAction} {fullpath pathname : CString} {fs : MountedFs} {i k : Nat}
  {d : DfsFd}

theorem OpenFilesOk.kept_opened (hs : OpenFilesOk mounts s)
    (h : s.phase i = .opened k fullpath) : ∃ d fs, s.table.slot i = some d ∧
      mountedFs mounts fullpath = some fs ∧ fs.index = k ∧
      (d.file.path = none ∨ d.file.path = some (keptPath fs fullpath)) :=
  hs.kept i k fullpath (congrArg OpenPhase.origin h)

/-- Where the loop comes to opened descriptors only, one that matches is that of the file as it was
kept, or that of another one. -/
theorem match_iff (hs : OpenFilesOk mounts s) (hfs : mountedFs mounts fullpath = some fs)
    (hopen : ∀ i d, s.table.slot i = some d →
      Inspects fs.ops.fops (searchedPath fs fullpath) s.table i → IsOpened s i) :
    (∃ i d, s.table.slot i = some d ∧ Matches fs.ops.fops (searchedPath fs fullpath) d) ↔
      FoundAsKept s fs fullpath ∨ Confused s fs fullpath := by
  constructor
  · rintro ⟨i, d, hd, hm⟩
    obtain ⟨j, d', hd', hm', hins⟩ := exists_first_match hd hm
    obtain ⟨k, fullpath', hphase⟩ := hopen j d' hd' hins
    by_cases hsame : fullpath' = fullpath
    · subst hsame
      obtain ⟨d'', fs', hd'', hfs', rfl, hpath⟩ := hs.kept_opened hphase
      obtain rfl := Option.some.inj (hd'.symm.trans hd'')
      obtain rfl := Option.some.inj (hfs.symm.trans hfs')
      obtain ⟨hfops, hsearched⟩ := hm'
      have hkept : d'.file.path = some (keptPath fs fullpath') :=
        hpath.resolve_left (by simp [hsearched])
      exact .inl ⟨Option.some.inj (hkept.symm.trans hsearched), j, d', hd', hphase, hfops,
        by simp [hsearched]⟩
    · exact .inr ⟨j, d', k, fullpath', hd', hphase, hsame, hm'⟩
  · rintro (⟨heq, i, d, hd, hphase, hfops, hne⟩ | ⟨i, d, _, _, hd, -, -, hm⟩)
    · obtain ⟨d', fs', hd', hfs', -, hpath⟩ := hs.kept_opened hphase
      obtain rfl := Option.some.inj (hd.symm.trans hd')
      obtain rfl := Option.some.inj (hfs.symm.trans hfs')
      exact ⟨i, d, hd, hfops, heq ▸ hpath.resolve_left hne⟩
    · exact ⟨i, d, hd, hm⟩

theorem fileOpen_iff (hnorm : dfsNormalizePath workingDirectory true pathname = some fullpath)
    (hfs : mountedFs mounts fullpath = some fs) :
    FileOpen workingDirectory mounts s pathname ↔ ∃ i, s.phase i = .opened fs.index fullpath := by
  constructor
  · rintro ⟨i, fullpath', fs', hnorm', hfs', h⟩
    obtain rfl := Option.some.inj (hnorm.symm.trans hnorm')
    obtain rfl := Option.some.inj (hfs.symm.trans hfs')
    exact ⟨i, h⟩
  · rintro ⟨i, h⟩
    exact ⟨i, fullpath, fs, hnorm, hfs, h⟩

theorem fdIsOpen_mounted (hnorm : dfsNormalizePath workingDirectory true pathname = some fullpath)
    (hfs : mountedFs mounts fullpath = some fs) :
    fdIsOpen workingDirectory mounts true s.table pathname =
      scanOpen fs.ops.fops (searchedPath fs fullpath) s.table.fds := by
  simp [fdIsOpen, hnorm, hfs]

/-- A path that names no mounted file is not open, and the table is not looked at. -/
theorem exactAnswer_unmounted (memory : Bool)
    (hno : ∀ fullpath, dfsNormalizePath workingDirectory true pathname = some fullpath →
      mountedFs mounts fullpath = none) :
    ExactAnswer workingDirectory mounts s memory pathname := by
  have hnone : ∀ fullpath, dfsNormalizePath workingDirectory memory pathname = some fullpath →
      mountedFs mounts fullpath = none :=
    fun fullpath h => hno fullpath (dfsNormalizePath_memory h).2
  refine ⟨-1, ?_, iff_of_false (by decide) ?_, fun fullpath fs h hfs => ?_⟩
  · unfold fdIsOpen
    split
    · rfl
    · next fullpath h => rw [hnone fullpath h]
  · rintro ⟨i, fullpath, fs, hnorm, hfs, -⟩
    exact absurd ((hno fullpath hnorm).symm.trans hfs) nofun
  · exact absurd ((hnone fullpath h).symm.trans hfs) nofun

theorem exactAnswer_noMemory
    (hnorm : dfsNormalizePath workingDirectory true pathname = some fullpath)
    (hfs : mountedFs mounts fullpath = some fs) :
    ExactAnswer workingDirectory mounts s false pathname ↔
      ∀ i, s.phase i ≠ .opened fs.index fullpath := by
  have hnone : dfsNormalizePath workingDirectory false pathname = none := by
    cases h : dfsNormalizePath workingDirectory false pathname with
    | none => rfl
    | some fullpath => exact absurd (dfsNormalizePath_memory h).1 nofun
  have hanswer : fdIsOpen workingDirectory mounts false s.table pathname = some (-1) := by
    simp [fdIsOpen, hnone]
  unfold ExactAnswer
  rw [hanswer, hnone, fileOpen_iff hnorm hfs]
  constructor
  · rintro ⟨answer, heq, hzero, -⟩ i hi
    obtain rfl := Option.some.inj heq
    exact absurd (hzero.mpr ⟨i, hi⟩) (by decide)
  · intro hno
    exact ⟨-1, rfl, iff_of_false (by decide) fun ⟨i, hi⟩ => hno i hi, nofun⟩

theorem OpenFilesOk.exactAnswer_mounted (hs : OpenFilesOk mounts s)
    (hnorm : dfsNormalizePath workingDirectory true pathname = some fullpath)
    (hfs : mountedFs mounts fullpath = some fs) :
    ExactAnswer workingDirectory mounts s true pathname ↔
      (∀ i d, s.table.slot i = some d →
        Inspects fs.ops.fops (searchedPath fs fullpath) s.table i →
        IsOpened s i ∧ (d.file.fops = fs.ops.fops → d.file.path ≠ none)) ∧
      ((∃ i, s.phase i = .opened fs.index fullpath) →
        FoundAsKept s fs fullpath ∨ Confused s fs fullpath) ∧
      (Confused s fs fullpath → ∃ i, s.phase i = .opened fs.index fullpath) := by
  unfold ExactAnswer
  rw [fdIsOpen_mounted hnorm hfs, fileOpen_iff hnorm hfs]
  constructor
  · rintro ⟨answer, hscan, hzero, hins⟩
    have hopen := hins fullpath fs hnorm hfs
    have hends := scanOpen_ends_iff.mp ⟨answer, hscan⟩
    have hmatch := (hzero.symm.trans (scanOpen_zero_iff hscan)).trans (match_iff hs hfs hopen)
    exact ⟨fun i d hd hi => ⟨hopen i d hd hi, hends i d hd hi⟩, hmatch.mp,
      fun hconf => hmatch.mpr (.inr hconf)⟩
  · rintro ⟨hclean, hfound, hconf⟩
    have hopen := fun i d hd hi => (hclean i d hd hi).1
    obtain ⟨answer, hscan⟩ := scanOpen_ends_iff.mpr fun i d hd hi => (hclean i d hd hi).2
    refine ⟨answer, hscan, ?_, fun fullpath' fs' hnorm' hfs' => ?_⟩
    · rw [scanOpen_zero_iff hscan, match_iff hs hfs hopen]
      refine ⟨?_, hfound⟩
      rintro (⟨-, i, -, -, hphase, -⟩ | h)
      · exact ⟨i, hphase⟩
      · exact hconf h
    · obtain rfl := Option.some.inj (hnorm.symm.trans hnorm')
      obtain rfl := Option.some.inj (hfs.symm.trans hfs')
      exact hopen

theorem OpenFilesOk.exactAnswer_iff (hs : OpenFilesOk mounts s) (memory : Bool) :
    ExactAnswer workingDirectory mounts s memory pathname ↔
      Detects workingDirectory mounts s memory pathname := by
  by_cases hmounted : ∃ fullpath fs, dfsNormalizePath workingDirectory true pathname =
      some fullpath ∧ mountedFs mounts fullpath = some fs
  · obtain ⟨fullpath, fs, hnorm, hfs⟩ := hmounted
    have hdetects : Detects workingDirectory mounts s memory pathname ↔ _ :=
      ⟨fun h => h fullpath fs hnorm hfs, fun h fullpath' fs' hnorm' hfs' => by
        obtain rfl := Option.some.inj (hnorm.symm.trans hnorm')
        obtain rfl := Option.some.inj (hfs.symm.trans hfs')
        exact h⟩
    rw [hdetects]
    cases memory with
    | false => exact exactAnswer_noMemory hnorm hfs
    | true => exact hs.exactAnswer_mounted hnorm hfs
  · refine iff_of_true (exactAnswer_unmounted memory fun fullpath hnorm => ?_) ?_
    · by_contra hsome
      obtain ⟨fs, hfs⟩ := Option.ne_none_iff_exists'.mp hsome
      exact hmounted ⟨fullpath, fs, hnorm, hfs⟩
    · exact fun fullpath fs hnorm hfs => absurd ⟨fullpath, fs, hnorm, hfs⟩ hmounted

theorem dfsFileOpen_ok {m : OpenMemory} {t : DfsFdTable} {flags : Nat} {file : DfsFile}
    (h : dfsFileOpen workingDirectory mounts m t pathname flags = some (.ok (fs, fullpath, file))) :
    mountedFs mounts fullpath = some fs ∧
      (file.path = none ∨ file.path = some (keptPath fs fullpath)) := by
  unfold dfsFileOpen at h
  split at h
  · cases h
  · obtain ⟨answer, -, h⟩ := Option.map_eq_some_iff.mp h
    split at h
    · cases h
    · split at h
      · cases h
      · next hfs =>
        obtain ⟨rfl, rfl, rfl⟩ := by simpa using h
        refine ⟨hfs, ?_⟩
        simp only
        split
        · exact .inr rfl
        · exact .inl rfl

theorem OpenFilesOk.setFile (hs : OpenFilesOk mounts s) (hd : s.table.slot i = some d)
    {file : DfsFile} {phase : OpenPhase}
    (hkept : ∀ k fullpath, phase.origin = some (k, fullpath) → ∃ fs,
      mountedFs mounts fullpath = some fs ∧ fs.index = k ∧
      (file.path = none ∨ file.path = some (keptPath fs fullpath))) :
    OpenFilesOk mounts (s.setFile i file phase) := by
  have hslot : (s.setFile i file phase).table.slot =
      Function.update s.table.slot i (some (heldFd file)) := by
    simp only [OpenFiles.setFile, RTThread.setFile, hd]
    rw [slot_set (slot_lt hd), hs.held i d hd]
    rfl
  constructor
  · intro j d' hd'
    rw [hslot, Function.update_apply] at hd'
    split at hd'
    · cases Option.some.inj hd'
      rfl
    · exact hs.held j d' hd'
  · intro j k fullpath hphase
    rw [hslot]
    simp only [OpenFiles.setFile, Function.update_apply] at hphase ⊢
    split at hphase
    · next hji =>
      obtain ⟨fs, hfs, hk, hpath⟩ := hkept k fullpath hphase
      exact ⟨heldFd file, fs, by rw [if_pos hji], hfs, hk, hpath⟩
    · next hji =>
      rw [if_neg hji]
      exact hs.kept j k fullpath hphase

theorem OpenFilesOk.alloc (hs : OpenFilesOk mounts s) (m : FdMemory) :
    OpenFilesOk mounts { s with table := (fdNew fdMax m s.table).2 } := by
  rcases fdNew_cases fdMax m hs.held with ⟨t', h, hslot⟩ | ⟨i, t0, file, h, hlt, hnone, hslot⟩
  · rw [h]
    exact ⟨by simpa [hslot] using hs.held, by simpa [hslot] using hs.kept⟩
  · rw [h]
    have hset : (t0.set i (some (heldFd file))).slot =
        Function.update s.table.slot i (some (heldFd file)) := by rw [slot_set hlt, hslot]
    constructor
    · intro j d hd
      simp only [hset, Function.update_apply] at hd
      split at hd
      · cases Option.some.inj hd
        rfl
      · exact hs.held j d hd
    · intro j k fullpath hphase
      obtain ⟨d, fs, hd, hrest⟩ := hs.kept j k fullpath hphase
      have hji : j ≠ i := by
        rintro rfl
        exact absurd (hnone.symm.trans hd) nofun
      exact ⟨d, fs, by simpa [hset, hji] using hd, hrest⟩

theorem OpenFilesOk.release (hs : OpenFilesOk mounts s) {t : DfsFdTable}
    (h : fdPut s.table i = some t) :
    OpenFilesOk mounts ⟨t, Function.update s.phase i .closed⟩ := by
  cases hd : s.table.slot i with
  | none => simp [fdPut, hd] at h
  | some d =>
    have hlt := slot_lt hd
    have hput : fdPut (s.table.set i (some (heldFd d.file))) i = some (s.table.set i none) :=
      fdPut_last hlt
    rw [← hs.held i d hd, set_slot hd] at hput
    obtain rfl := Option.some.inj (hput.symm.trans h)
    have hset : (s.table.set i none).slot = Function.update s.table.slot i none := slot_set hlt
    constructor
    · intro j d' hd'
      simp only [hset, Function.update_apply] at hd'
      split at hd'
      · cases hd'
      · exact hs.held j d' hd'
    · intro j k fullpath hphase
      simp only [Function.update_apply] at hphase
      split at hphase
      · cases hphase
      · next hji =>
        obtain ⟨d', fs, hd', hrest⟩ := hs.kept j k fullpath hphase
        exact ⟨d', fs, by simpa [hset, hji] using hd', hrest⟩

theorem OpenFilesOk.step (hs : OpenFilesOk mounts s)
    (h : openStep fdMax workingDirectory mounts s a = some s') : OpenFilesOk mounts s' := by
  cases a with
  | alloc m =>
    cases Option.some.inj h
    exact hs.alloc m
  | «open» i m path flags =>
    simp only [openStep] at h
    split at h
    · next hready =>
      obtain ⟨d, hd⟩ := Option.isSome_iff_exists.mp hready.1
      obtain ⟨r, hopen, rfl⟩ := Option.map_eq_some_iff.mp h
      split
      · exact hs
      · next fs fullpath file =>
        obtain ⟨hfs, hpath⟩ := dfsFileOpen_ok hopen
        refine hs.setFile hd fun k fullpath' horigin => ?_
        cases horigin
        exact ⟨fs, hfs, rfl, hpath⟩
    · cases h
  | finish i result file =>
    simp only [openStep] at h
    split at h
    · next d fs fullpath flags hd hphase =>
      cases Option.some.inj h
      refine hs.setFile hd fun k fullpath' horigin => ?_
      obtain ⟨d', mfs, hd', hmfs, hk, hpath⟩ := hs.kept i fs fullpath (by rw [hphase]; rfl)
      obtain rfl := Option.some.inj (hd.symm.trans hd')
      split at horigin
      · cases horigin
      · next hresult =>
        cases horigin
        refine ⟨mfs, hmfs, hk, ?_⟩
        simp only [finishOpen, if_neg hresult]
        split <;> exact hpath
    · cases h
  | close i result file =>
    simp only [openStep] at h
    split at h
    · next d fs fullpath hd hphase =>
      cases Option.some.inj h
      refine hs.setFile hd fun k fullpath' horigin => ?_
      obtain ⟨d', mfs, hd', hmfs, hk, hpath⟩ := hs.kept_opened hphase
      obtain rfl := Option.some.inj (hd.symm.trans hd')
      split at horigin
      · next hresult =>
        cases horigin
        refine ⟨mfs, hmfs, hk, ?_⟩
        simp only [dfsFileClose, if_pos hresult]
        exact hpath
      · cases horigin
    · cases h
  | release i =>
    simp only [openStep] at h
    split at h
    · cases h
    · obtain ⟨t, hput, rfl⟩ := Option.map_eq_some_iff.mp h
      exact hs.release hput

end

def elmOps : DfsFilesystemOps := ⟨['e', 'l', 'm'], false, 1, true, true⟩

/-- Two file systems of one type. -/
def twoCards : List DfsFilesystem :=
  [⟨none, some ['/', 'a'], some elmOps⟩, ⟨none, some ['/', 'b'], some elmOps⟩]

/-- `/a/x` is opened in a fresh descriptor. -/
def openOnFirst : List OpenAction :=
  [.alloc ⟨true, some (heldFd ⟨.regular, none, 0, 0, 0, 0, 0⟩)⟩,
    .open 0 ⟨true, true, true⟩ ['/', 'a', '/', 'x'] 0,
    .finish 0 0 ⟨.regular, none, 1, 0, 0, 0, 0⟩]

end RTThread
