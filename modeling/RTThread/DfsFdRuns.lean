import RTThread.DfsFdModel
import RTThread.Runs

namespace RTThread

/-- A descriptor as calls leave it. -/
def heldFd (file : DfsFile) : DfsFd := ⟨dfsFdMagic, 1, file⟩

/-- Between calls the callers' descriptors are the structures of the table, each with one
reference. -/
structure FdTableOk (s : FdState) : Prop where
  held : ∀ i d, s.table.slot i = some d → d = heldFd d.file
  opened : ∀ fd, fd ∈ s.opened ↔ ∃ i : Nat, fd = i + dfsFdOffset ∧ s.table.slot i ≠ none

/-- `fd_get` returns a structure exactly for the descriptors that are open. -/
def FdGetExact (s : FdState) (fd : Int) : Prop :=
  ∃ found t, fdGet s.table fd = some (found, t) ∧ (found ≠ none ↔ fd ∈ s.opened)

def FdPromise (fdMax : Nat) (s : FdState) (c : FdCall) : Prop :=
  (∀ fd, c.descriptor = some fd → FdGetExact s fd) ∧
  ∃ answer t, c.run fdMax s.table = some (answer, t) ∧
    (c.opens = true → 0 ≤ answer → answer ∉ s.opened) ∧
    FdTableOk ⟨t, c.holds s.opened answer⟩

/-- Open, or outside the table. -/
def InReach (s : FdState) (fd : Int) : Prop :=
  fd ∈ s.opened ∨ fd < dfsFdOffset ∨ dfsFdOffset + s.table.maxfd ≤ fd

/-- A call gets a descriptor that is open or lies outside the table; a socket that is closed is
open, and `lwip_shutdown` does not fail on an open one. -/
def KnownDescriptor (s : FdState) (c : FdCall) : Prop :=
  (∀ fd, c.descriptor = some fd → InReach s fd) ∧
  match c with
  | .closesocket _ fd => fd ∈ s.opened
  | .shutdown result fd => fd ∈ s.opened → result = 0
  | _ => True

section
variable {fdMax i : Nat} {t t' : DfsFdTable} {d : DfsFd} {v w : Option DfsFd} {fd answer r : Int}
  {file file' : DfsFile} {m : FdMemory} {a : FileAnswer} {s s' : FdState} {c : FdCall}
  {opened : Finset Int} {op : DfsFile → FileAnswer} {bad : Int}

theorem slot_lt (h : t.slot i = some d) : i < t.maxfd := by
  unfold DfsFdTable.slot at h
  by_contra hge
  rw [List.getElem?_eq_none (Nat.not_lt.mp hge)] at h
  cases h

@[simp] theorem maxfd_set : (t.set i v).maxfd = t.maxfd := List.length_set

theorem slot_set (h : i < t.maxfd) : (t.set i v).slot = Function.update t.slot i v := by
  funext j
  unfold DfsFdTable.slot DfsFdTable.set
  by_cases hj : j = i
  · subst hj
    rw [List.getElem?_set_self h, Function.update_self]
    rfl
  · rw [List.getElem?_set_ne (Ne.symm hj), Function.update_of_ne hj]

@[simp] theorem slot_set_self (h : i < t.maxfd) : (t.set i v).slot i = v := by
  rw [slot_set h, Function.update_self]

@[simp] theorem set_set : (t.set i v).set i w = t.set i w := by
  simp [DfsFdTable.set]

theorem set_slot (h : t.slot i = some d) : t.set i (some d) = t := by
  have hlt := slot_lt h
  have hd : t.fds[i]? = some (some d) := Option.join_eq_some_iff.mp h
  obtain ⟨hlt', hget⟩ := List.getElem?_eq_some_iff.mp hd
  rw [DfsFdTable.set, ← hget, List.set_getElem_self]

theorem fdGet_set (r : Int) (file : DfsFile) (h : i < t.maxfd) : fdGet (t.set i (some ⟨dfsFdMagic, r, file⟩)) (i + dfsFdOffset) =
    some (some i, t.set i (some ⟨dfsFdMagic, r + 1, file⟩)) := by
  have hfd : (i : Int) + dfsFdOffset - dfsFdOffset = i := by omega
  simp [fdGet, hfd, h]

theorem fdPut_set (h : i < t.maxfd) : fdPut (t.set i (some ⟨dfsFdMagic, r, file⟩)) i =
    some (t.set i (if r - 1 = 0 then none else some ⟨dfsFdMagic, r - 1, file⟩)) := by
  simp only [fdPut, slot_set_self h, set_set]
  split <;> rfl

theorem setFile_set (h : i < t.maxfd) : setFile (t.set i (some ⟨dfsFdMagic, r, file⟩)) i file' =
    t.set i (some ⟨dfsFdMagic, r, file'⟩) := by
  simp [setFile, h]

theorem fdGet_outside (h : fd < dfsFdOffset ∨ dfsFdOffset + t.maxfd ≤ fd) :
    fdGet t fd = some (none, t) := by
  unfold fdGet
  exact if_pos (by omega)

theorem fdGet_null (hlo : dfsFdOffset ≤ fd) (hhi : fd < dfsFdOffset + t.maxfd)
    (h : t.slot (fd - dfsFdOffset).toNat = none) : fdGet t fd = none := by
  unfold fdGet
  rw [if_neg (by omega)]
  simp only [h]

theorem fdGet_held (h : t.slot i = some (heldFd file)) : fdGet t (i + dfsFdOffset) =
    some (some i, t.set i (some ⟨dfsFdMagic, 1 + 1, file⟩)) := by
  have hget := fdGet_set 1 file (slot_lt h)
  rwa [← heldFd, set_slot h] at hget

theorem fdPut_once (h : i < t.maxfd) : fdPut (t.set i (some ⟨dfsFdMagic, 1 + 1, file⟩)) i =
    some (t.set i (some (heldFd file))) :=
  fdPut_set h

theorem fdPut_last (h : i < t.maxfd) : fdPut (t.set i (some (heldFd file))) i =
    some (t.set i none) :=
  fdPut_set h

theorem useDescriptor_set (bad : Int) (op : DfsFile → FileAnswer) (file : DfsFile)
    (h : i < t.maxfd) :
    useDescriptor bad op (t.set i (some (heldFd file))) (i + dfsFdOffset) =
      some ((op file).result, t.set i (some (heldFd (op file).file))) := by
  simp [useDescriptor, heldFd, fdGet_set _ _ h, h, setFile_set h, fdPut_set h]

theorem useDescriptor_outside (h : fd < dfsFdOffset ∨ dfsFdOffset + t.maxfd ≤ fd) :
    useDescriptor bad op t fd = some (bad, t) := by
  simp only [useDescriptor, fdGet_outside h]

theorem slot_append_none (n : Nat) :
    (DfsFdTable.mk (t.fds ++ List.replicate n none)).slot = t.slot := by
  funext j
  unfold DfsFdTable.slot
  rcases Nat.lt_or_ge j t.fds.length with hlt | hge
  · rw [List.getElem?_append_left hlt]
  · rw [List.getElem?_append_right hge, List.getElem?_eq_none hge, List.getElem?_replicate]
    split <;> rfl

theorem findIdx_empty (hheld : ∀ i d, t.slot i = some d → d = heldFd d.file) :
    t.slot (t.fds.findIdx emptySlot) = none := by
  cases hslot : t.slot (t.fds.findIdx emptySlot) with
  | none => rfl
  | some d =>
    have hd : t.fds[t.fds.findIdx emptySlot]? = some (some d) := Option.join_eq_some_iff.mp hslot
    obtain ⟨hlt, hget⟩ := List.getElem?_eq_some_iff.mp hd
    have hempty : emptySlot t.fds[t.fds.findIdx emptySlot] = true := List.findIdx_getElem
    rw [hget, hheld _ d hslot] at hempty
    simp [emptySlot, heldFd] at hempty

theorem allocStruct_cases (hle : i ≤ t.maxfd) (hempty : t.slot i = none) :
    (allocStruct m i t).1 = t.maxfd ∧ (allocStruct m i t).2 = t ∨
      ∃ fresh, allocStruct m i t = (i, t.set i (some fresh)) ∧ i < t.maxfd := by
  unfold allocStruct
  split
  · next hfree =>
    cases m.malloc with
    | none => exact .inl ⟨rfl, rfl⟩
    | some fresh => exact .inr ⟨fresh, rfl, hfree.1⟩
  · next hnot =>
    have hend : i = t.maxfd := by
      by_contra hne
      exact hnot ⟨by omega, hempty⟩
    exact .inl ⟨hend, rfl⟩

theorem fdAlloc_cases (fdMax : Nat) (m : FdMemory)
    (hheld : ∀ i d, t.slot i = some d → d = heldFd d.file) :
    (fdAlloc fdMax m t).1 = (fdAlloc fdMax m t).2.maxfd ∧ (fdAlloc fdMax m t).2.slot = t.slot ∨
      ∃ (i : Nat) (t0 : DfsFdTable) (fresh : DfsFd),
        fdAlloc fdMax m t = (i, t0.set i (some fresh)) ∧ i < t0.maxfd ∧
        t.slot i = none ∧ t0.slot = t.slot := by
  have hle : t.fds.findIdx emptySlot ≤ t.maxfd := List.findIdx_le_length
  unfold fdAlloc
  simp only
  split
  · split
    · have hslots := slot_append_none (t := t) (min (t.maxfd + 4) fdMax - t.maxfd)
      have hnone := findIdx_empty hheld
      rcases allocStruct_cases (m := m) (i := t.fds.findIdx emptySlot)
        (t := ⟨t.fds ++ List.replicate (min (t.maxfd + 4) fdMax - t.maxfd) none⟩)
        (by simp only [DfsFdTable.maxfd, List.length_append] at *; omega)
        (by rw [hslots, hnone]) with ⟨h1, h2⟩ | ⟨fresh, h, hlt⟩
      · exact .inl ⟨by rw [h1, h2], by rw [h2, hslots]⟩
      · exact .inr ⟨_, _, fresh, h, hlt, hnone, hslots⟩
    · exact .inl ⟨rfl, rfl⟩
  · rcases allocStruct_cases (m := m) hle (findIdx_empty hheld) with ⟨h1, h2⟩ | ⟨fresh, h, hlt⟩
    · exact .inl ⟨by rw [h1, h2], by rw [h2]⟩
    · exact .inr ⟨_, t, fresh, h, hlt, findIdx_empty hheld, rfl⟩

/-- A new descriptor has one reference and a slot that was NULL. -/
theorem fdNew_cases (fdMax : Nat) (m : FdMemory)
    (hheld : ∀ i d, t.slot i = some d → d = heldFd d.file) :
    (∃ t', fdNew fdMax m t = (-1, t') ∧ t'.slot = t.slot) ∨
      ∃ (i : Nat) (t0 : DfsFdTable) (file : DfsFile),
        fdNew fdMax m t = (i + dfsFdOffset, t0.set i (some (heldFd file))) ∧
        i < t0.maxfd ∧ t.slot i = none ∧ t0.slot = t.slot := by
  unfold fdNew
  rcases fdAlloc_cases fdMax m hheld with ⟨hend, hslot⟩ | ⟨i, t0, fresh, h, hlt, hnone, hslot⟩
  · exact .inl ⟨_, if_pos hend, hslot⟩
  · refine .inr ⟨i, t0, fresh.file, ?_, hlt, hnone, hslot⟩
    have hne : i ≠ t0.maxfd := by omega
    simp [h, hne, hlt, initFd, heldFd]

theorem slot_set_none {t0 : DfsFdTable} (hlt : i < t0.maxfd) (hslot : t0.slot = t.slot)
    (hnone : t.slot i = none) : (t0.set i none).slot = t.slot := by
  rw [slot_set hlt, hslot, ← hnone, Function.update_eq_self]

/-- A call that opens gives a slot that was NULL to its descriptor, or leaves every slot. -/
def OpensOrLeaves (t : DfsFdTable) (r : Option (Int × DfsFdTable)) : Prop :=
  (∃ t', r = some (-1, t') ∧ t'.slot = t.slot) ∨
    ∃ (i : Nat) (t0 : DfsFdTable) (file : DfsFile),
      r = some (i + dfsFdOffset, t0.set i (some (heldFd file))) ∧ i < t0.maxfd ∧
      t.slot i = none ∧ t0.slot = t.slot

theorem newDescriptor_opens (hheld : ∀ i d, t.slot i = some d → d = heldFd d.file) :
    OpensOrLeaves t (newDescriptor fdMax m a t) := by
  unfold newDescriptor
  rcases fdNew_cases fdMax m hheld with ⟨t', h, hslot⟩ | ⟨i, t0, file, h, hlt, hnone, hslot⟩
  · exact .inl ⟨t', by simp [h], hslot⟩
  · have hpos : ¬(i : Int) + dfsFdOffset < 0 := by
      unfold dfsFdOffset
      omega
    simp only [h, hpos, if_false, heldFd, fdGet_set _ _ hlt, setFile_set hlt, fdPut_set hlt]
    by_cases hresult : a.result < 0
    · refine .inl ⟨t0.set i none, ?_, slot_set_none hlt hslot hnone⟩
      simp [hresult, fdPut_set hlt]
    · exact .inr ⟨i, t0, a.file, by simp [hresult, heldFd], hlt, hnone, hslot⟩

theorem posixOpendir_opens (hheld : ∀ i d, t.slot i = some d → d = heldFd d.file) (dir : Bool)
    (closed : FileAnswer) : OpensOrLeaves t (posixOpendir fdMax m a dir closed t) := by
  unfold posixOpendir
  rcases fdNew_cases fdMax m hheld with ⟨t', h, hslot⟩ | ⟨i, t0, file, h, hlt, hnone, hslot⟩
  · exact .inl ⟨t', by simp [h], hslot⟩
  · have hpos : (i : Int) + dfsFdOffset ≠ -1 := by
      unfold dfsFdOffset
      omega
    simp only [h, hpos, if_false, heldFd, fdGet_set _ _ hlt, setFile_set hlt, fdPut_set hlt]
    by_cases hresult : 0 ≤ a.result
    · cases dir with
      | true => exact .inr ⟨i, t0, a.file, by simp [hresult, heldFd], hlt, hnone, hslot⟩
      | false =>
        refine .inl ⟨t0.set i none, ?_, slot_set_none hlt hslot hnone⟩
        simp [hresult, fdPut_set hlt]
    · refine .inl ⟨t0.set i none, ?_, slot_set_none hlt hslot hnone⟩
      simp [hresult, fdPut_set hlt]

theorem posixMkdir_leaves (hheld : ∀ i d, t.slot i = some d → d = heldFd d.file)
    (closed : FileAnswer) :
    ∃ answer t', posixMkdir fdMax m a closed t = some (answer, t') ∧ t'.slot = t.slot := by
  unfold posixMkdir
  rcases fdNew_cases fdMax m hheld with ⟨t', h, hslot⟩ | ⟨i, t0, file, h, hlt, hnone, hslot⟩
  · exact ⟨-1, t', by simp [h], hslot⟩
  · have hpos : (i : Int) + dfsFdOffset ≠ -1 := by
      unfold dfsFdOffset
      omega
    have hslot' := slot_set_none hlt hslot hnone
    simp only [h, hpos, if_false, heldFd, fdGet_set _ _ hlt, setFile_set hlt, fdPut_set hlt]
    by_cases hresult : a.result < 0
    · exact ⟨-1, t0.set i none, by simp [hresult, fdPut_set hlt], hslot'⟩
    · exact ⟨0, t0.set i none, by simp [hresult, fdPut_set hlt], hslot'⟩

theorem FdTableOk.same (hs : FdTableOk ⟨t, opened⟩) (hslot : t'.slot = t.slot) :
    FdTableOk ⟨t', opened⟩ :=
  ⟨fun i d h => hs.held i d (hslot ▸ h), fun fd => by
    have hopened := hs.opened fd
    simp only [hslot] at hopened ⊢
    exact hopened⟩

theorem FdTableOk.write (hs : FdTableOk ⟨t, opened⟩) (h : t.slot i = some (heldFd file)) :
    FdTableOk ⟨t.set i (some (heldFd file')), opened⟩ := by
  have hlt := slot_lt h
  constructor
  · intro j d hj
    rw [slot_set hlt, Function.update_apply] at hj
    split at hj
    · obtain rfl := Option.some.inj hj
      rfl
    · exact hs.held j d hj
  · intro fd
    rw [hs.opened fd]
    refine exists_congr fun j => and_congr_right fun _ => ?_
    rw [slot_set hlt, Function.update_apply]
    split
    · next hji => simp [hji, h]
    · exact Iff.rfl

variable (file) in
theorem FdTableOk.open (hs : FdTableOk ⟨t, opened⟩) (hlt : i < t'.maxfd)
    (hnone : t.slot i = none) (hslot : t'.slot = t.slot) :
    (i : Int) + dfsFdOffset ∉ opened ∧
      FdTableOk ⟨t'.set i (some (heldFd file)), insert ((i : Int) + dfsFdOffset) opened⟩ := by
  constructor
  · intro hmem
    obtain ⟨j, hj, hne⟩ := (hs.opened _).mp hmem
    obtain rfl : i = j := by omega
    exact hne hnone
  constructor
  · intro j d hj
    rw [slot_set hlt, Function.update_apply] at hj
    split at hj
    · obtain rfl := Option.some.inj hj
      rfl
    · exact hs.held j d (hslot ▸ hj)
  · intro fd
    rw [Finset.mem_insert, hs.opened fd]
    simp only [slot_set hlt, Function.update_apply, hslot]
    constructor
    · rintro (rfl | ⟨j, rfl, hj⟩)
      · exact ⟨i, rfl, by simp⟩
      · exact ⟨j, rfl, by split <;> simp_all⟩
    · rintro ⟨j, rfl, hj⟩
      by_cases hji : j = i
      · exact .inl (by rw [hji])
      · exact .inr ⟨j, rfl, by simpa [hji] using hj⟩

theorem FdTableOk.close (hs : FdTableOk ⟨t, opened⟩) (hlt : i < t.maxfd) :
    FdTableOk ⟨t.set i none, opened.erase ((i : Int) + dfsFdOffset)⟩ := by
  constructor
  · intro j d hj
    rw [slot_set hlt, Function.update_apply] at hj
    split at hj
    · cases hj
    · exact hs.held j d hj
  · intro fd
    rw [Finset.mem_erase, hs.opened fd]
    simp only [slot_set hlt, Function.update_apply]
    constructor
    · rintro ⟨hne, j, rfl, hj⟩
      have hji : j ≠ i := fun h => hne (by rw [h])
      exact ⟨j, rfl, by simpa [hji] using hj⟩
    · rintro ⟨j, rfl, hj⟩
      by_cases hji : j = i
      · simp [hji] at hj
      · exact ⟨by omega, j, rfl, by simpa [hji] using hj⟩

theorem FdTableOk.slot_of_mem (hs : FdTableOk s) (h : fd ∈ s.opened) :
    ∃ (i : Nat) (file : DfsFile), fd = i + dfsFdOffset ∧ s.table.slot i = some (heldFd file) := by
  obtain ⟨i, rfl, hne⟩ := (hs.opened fd).mp h
  obtain ⟨d, hd⟩ := Option.ne_none_iff_exists'.mp hne
  exact ⟨i, d.file, rfl, hd.trans (congrArg some (hs.held i d hd))⟩

theorem FdTableOk.null_of_not_mem (hs : FdTableOk s) (h : fd ∉ s.opened) (hlo : dfsFdOffset ≤ fd) :
    s.table.slot (fd - dfsFdOffset).toNat = none := by
  by_contra hne
  exact h ((hs.opened fd).mpr ⟨_, by omega, hne⟩)

theorem FdTableOk.fdGet_exact_iff (hs : FdTableOk s) : FdGetExact s fd ↔ InReach s fd := by
  constructor
  · rintro ⟨found, t, hget, -⟩
    by_contra hout
    obtain ⟨hmem, hin⟩ := not_or.mp hout
    have hnull := fdGet_null (by omega) (by omega) (hs.null_of_not_mem hmem (by omega))
    rw [hnull] at hget
    cases hget
  · rintro (hmem | hout)
    · obtain ⟨i, file, rfl, hslot⟩ := hs.slot_of_mem hmem
      exact ⟨_, _, fdGet_held hslot, by simp [hmem]⟩
    · refine ⟨none, s.table, fdGet_outside hout, ?_⟩
      simp only [ne_eq, not_true_eq_false, false_iff]
      intro hmem
      obtain ⟨i, file, rfl, hslot⟩ := hs.slot_of_mem hmem
      have hlt := slot_lt hslot
      omega

theorem FdTableOk.use (hs : FdTableOk s) (h : InReach s fd) (bad : Int)
    (op : DfsFile → FileAnswer) :
    ∃ answer t', useDescriptor bad op s.table fd = some (answer, t') ∧
      FdTableOk ⟨t', s.opened⟩ := by
  rcases h with hmem | hout
  · obtain ⟨i, file, rfl, hslot⟩ := hs.slot_of_mem hmem
    have huse := useDescriptor_set bad op file (slot_lt hslot)
    rw [set_slot hslot] at huse
    exact ⟨_, _, huse, FdTableOk.write hs hslot⟩
  · exact ⟨_, _, useDescriptor_outside hout, hs⟩

theorem FdTableOk.closed (hs : FdTableOk s) (h : InReach s fd) (closed : FileAnswer) :
    ∃ answer t', posixClose closed s.table fd = some (answer, t') ∧
      FdTableOk ⟨t', if answer = 0 then s.opened.erase fd else s.opened⟩ := by
  rcases h with hmem | hout
  · obtain ⟨i, file, rfl, hslot⟩ := hs.slot_of_mem hmem
    have hlt := slot_lt hslot
    simp only [posixClose, fdGet_held hslot, setFile_set hlt, fdPut_once hlt, Option.bind_some]
    by_cases hresult : closed.result < 0
    · exact ⟨-1, _, if_pos hresult, FdTableOk.write hs hslot⟩
    · refine ⟨0, s.table.set i none, ?_, hs.close hlt⟩
      rw [if_neg hresult, fdPut_last hlt]
      rfl
  · refine ⟨-1, s.table, by simp only [posixClose, fdGet_outside hout], ?_⟩
    rw [if_neg (by decide)]
    exact hs

theorem FdTableOk.erase_outside (hs : FdTableOk s)
    (h : fd < dfsFdOffset ∨ dfsFdOffset + s.table.maxfd ≤ fd) : s.opened.erase fd = s.opened := by
  refine Finset.erase_eq_of_notMem fun hmem => ?_
  obtain ⟨i, file, rfl, hslot⟩ := hs.slot_of_mem hmem
  have hlt := slot_lt hslot
  omega

theorem FdTableOk.closedDir (hs : FdTableOk s) (h : InReach s fd) (closed : FileAnswer) :
    ∃ answer t', posixClosedir closed s.table fd = some (answer, t') ∧
      FdTableOk ⟨t', s.opened.erase fd⟩ := by
  rcases h with hmem | hout
  · obtain ⟨i, file, rfl, hslot⟩ := hs.slot_of_mem hmem
    have hlt := slot_lt hslot
    refine ⟨if closed.result < 0 then -1 else 0, s.table.set i none, ?_, hs.close hlt⟩
    simp only [posixClosedir, fdGet_held hslot, setFile_set hlt, fdPut_once hlt, Option.bind_some,
      fdPut_last hlt, Option.map_some]
  · rw [hs.erase_outside hout]
    exact ⟨-1, s.table, by simp only [posixClosedir, fdGet_outside hout], hs⟩

/-- `dfs_net_getsocket` on a descriptor that is looked up already. -/
theorem getsocket_set (file : DfsFile) (h : i < t.maxfd) :
    ∃ sock, dfsNetGetsocket (t.set i (some ⟨dfsFdMagic, 1 + 1, file⟩)) (i + dfsFdOffset) =
      some (sock, t.set i (some ⟨dfsFdMagic, 1 + 1, file⟩)) := by
  have hput : fdPut (t.set i (some ⟨dfsFdMagic, 1 + 1 + 1, file⟩)) i =
      some (t.set i (some ⟨dfsFdMagic, 1 + 1, file⟩)) := fdPut_set h
  refine ⟨if file.type = .socket then file.data else -1, ?_⟩
  simp only [dfsNetGetsocket, useDescriptor, fdGet_set _ _ h, slot_set_self h, setFile_set h, hput,
    Option.map_some]

theorem FdTableOk.shutdown_iff (hs : FdTableOk s) (h : InReach s fd) (result : Int) :
    (∃ answer t', netShutdown result s.table fd = some (answer, t') ∧
      FdTableOk ⟨t', if answer = 0 then s.opened.erase fd else s.opened⟩) ↔
    (fd ∈ s.opened → result = 0) := by
  rcases h with hmem | hout
  · obtain ⟨i, file, rfl, hslot⟩ := hs.slot_of_mem hmem
    have hlt := slot_lt hslot
    obtain ⟨sock, hsock⟩ := getsocket_set file hlt
    simp only [netShutdown, fdGet_held hslot, hsock, Option.bind_some]
    by_cases hresult : result = 0
    · refine iff_of_true ⟨0, s.table.set i none, ?_, hs.close hlt⟩ fun _ => hresult
      simp only [if_pos hresult, fdPut_once hlt, Option.bind_some, fdPut_last hlt, Option.map_some]
    · refine iff_of_false ?_ fun hzero => hresult (hzero hmem)
      rintro ⟨answer, t', hrun, hok⟩
      rw [if_neg hresult] at hrun
      cases hrun
      -- the reference of the call stays
      have href := hok.held i _ (slot_set_self hlt)
      simp [heldFd] at href
  · have hnot : fd ∉ s.opened := fun hmem => by
      obtain ⟨i, file, rfl, hslot⟩ := hs.slot_of_mem hmem
      have hlt := slot_lt hslot
      omega
    refine iff_of_true ⟨-1, s.table, by simp only [netShutdown, fdGet_outside hout], ?_⟩
      fun hmem => absurd hmem hnot
    rw [if_neg (by decide)]
    exact hs

theorem FdTableOk.closesocket_iff (hs : FdTableOk s) (h : InReach s fd) (result : Int) :
    (∃ answer t', netClosesocket result s.table fd = some (answer, t') ∧
      FdTableOk ⟨t', s.opened.erase fd⟩) ↔ fd ∈ s.opened := by
  rcases h with hmem | hout
  · refine iff_of_true ?_ hmem
    obtain ⟨i, file, rfl, hslot⟩ := hs.slot_of_mem hmem
    have hlt := slot_lt hslot
    have huse : ∃ sock, dfsNetGetsocket s.table (i + dfsFdOffset) = some (sock, s.table) := by
      have hset := useDescriptor_set (-1)
        (fun file => ⟨if file.type = .socket then file.data else -1, file⟩) file hlt
      rw [set_slot hslot] at hset
      exact ⟨_, hset⟩
    obtain ⟨sock, hsock⟩ := huse
    refine ⟨result, s.table.set i none, ?_, hs.close hlt⟩
    simp only [netClosesocket, hsock, Option.bind_some, fdGet_held hslot, fdPut_once hlt,
      fdPut_last hlt, Option.map_some]
  · refine iff_of_false ?_ fun hmem => ?_
    · rintro ⟨answer, t', hrun, -⟩
      simp only [netClosesocket, dfsNetGetsocket, useDescriptor_outside hout, Option.bind_some,
        fdGet_outside hout] at hrun
      cases hrun
    · obtain ⟨i, file, rfl, hslot⟩ := hs.slot_of_mem hmem
      have hlt := slot_lt hslot
      omega

theorem FdTableOk.opens (hs : FdTableOk s) {r : Option (Int × DfsFdTable)}
    (hr : OpensOrLeaves s.table r) :
    ∃ answer t', r = some (answer, t') ∧ (0 ≤ answer → answer ∉ s.opened) ∧
      FdTableOk ⟨t', if 0 ≤ answer then insert answer s.opened else s.opened⟩ := by
  rcases hr with ⟨t', rfl, hslot⟩ | ⟨i, t0, file, rfl, hlt, hnone, hslot⟩
  · exact ⟨-1, t', rfl, fun h => absurd h (by decide), hs.same hslot⟩
  · have hpos : 0 ≤ (i : Int) + dfsFdOffset := by
      unfold dfsFdOffset
      omega
    obtain ⟨hnew, hok⟩ := FdTableOk.open file hs hlt hnone hslot
    refine ⟨_, _, rfl, fun _ => hnew, ?_⟩
    rw [if_pos hpos]
    exact hok

theorem FdTableOk.accepts (hs : FdTableOk s) (h : InReach s fd) (m : FdMemory) (accepted : Bool)
    (file : DfsFile) :
    ∃ answer t', netAccept fdMax m accepted file s.table fd = some (answer, t') ∧
      (0 ≤ answer → answer ∉ s.opened) ∧
      FdTableOk ⟨t', if 0 ≤ answer then insert answer s.opened else s.opened⟩ := by
  obtain ⟨sock, t1, hsock, hok⟩ := hs.use h (-1)
    fun file => ⟨if file.type = .socket then file.data else -1, file⟩
  have hrun : netAccept fdMax m accepted file s.table fd =
      if accepted then newDescriptor fdMax m ⟨0, file⟩ t1 else some (-1, t1) := by
    rw [netAccept, dfsNetGetsocket, hsock]
    rfl
  rw [hrun]
  cases accepted with
  | true => exact hok.opens (newDescriptor_opens hok.held)
  | false => exact ⟨-1, t1, rfl, fun hpos => absurd hpos (by decide), hok⟩

theorem fdPromise_iff (hs : FdTableOk s) (c : FdCall) :
    FdPromise fdMax s c ↔ KnownDescriptor s c := by
  unfold FdPromise KnownDescriptor
  simp only [hs.fdGet_exact_iff]
  refine and_congr_right fun hreach => ?_
  cases c with
  | openFile m a =>
    obtain ⟨answer, t', hrun, hnew, hok⟩ := hs.opens (newDescriptor_opens hs.held)
    exact iff_of_true ⟨answer, t', hrun, fun _ => hnew, hok⟩ trivial
  | socket m a =>
    obtain ⟨answer, t', hrun, hnew, hok⟩ := hs.opens (newDescriptor_opens hs.held)
    exact iff_of_true ⟨answer, t', hrun, fun _ => hnew, hok⟩ trivial
  | opendir m a dir closed =>
    obtain ⟨answer, t', hrun, hnew, hok⟩ := hs.opens (posixOpendir_opens hs.held dir closed)
    exact iff_of_true ⟨answer, t', hrun, fun _ => hnew, hok⟩ trivial
  | accept m accepted file fd =>
    obtain ⟨answer, t', hrun, hnew, hok⟩ := hs.accepts (hreach fd rfl) m accepted file
    exact iff_of_true ⟨answer, t', hrun, fun _ => hnew, hok⟩ trivial
  | mkdir m a closed =>
    obtain ⟨answer, t', hrun, hslot⟩ := posixMkdir_leaves hs.held closed
    exact iff_of_true ⟨answer, t', hrun, nofun, hs.same hslot⟩ trivial
  | close closed fd =>
    obtain ⟨answer, t', hrun, hok⟩ := hs.closed (hreach fd rfl) closed
    exact iff_of_true ⟨answer, t', hrun, nofun, hok⟩ trivial
  | closedir closed fd =>
    obtain ⟨answer, t', hrun, hok⟩ := hs.closedDir (hreach fd rfl) closed
    exact iff_of_true ⟨answer, t', hrun, nofun, hok⟩ trivial
  | shutdown result fd =>
    refine Iff.trans ?_ (hs.shutdown_iff (hreach fd rfl) result)
    exact exists_congr fun answer => exists_congr fun t' =>
      and_congr_right fun _ => ⟨And.right, fun hok => ⟨nofun, hok⟩⟩
  | closesocket result fd =>
    refine Iff.trans ?_ (hs.closesocket_iff (hreach fd rfl) result)
    exact exists_congr fun answer => exists_congr fun t' =>
      and_congr_right fun _ => ⟨And.right, fun hok => ⟨nofun, hok⟩⟩
  | poll a fd =>
    refine iff_of_true ?_ trivial
    by_cases hpos : 0 ≤ fd
    · obtain ⟨answer, t', hrun, hok⟩ := hs.use (hreach fd rfl) 0x10 fun _ => a
      exact ⟨answer, t', (if_pos hpos).trans hrun, nofun, hok⟩
    · exact ⟨0, s.table, if_neg hpos, nofun, hs⟩
  | read a fd | write a fd | lseek offset whence a fd | fstat fd | fsync a fd | fcntl a fd
  | readdir a fd | telldir num cur fd | seekdir a fd | getsocket fd =>
    refine iff_of_true ?_ trivial
    simp only [FdCall.run, FdCall.opens, FdCall.holds, posixRead, posixWrite, posixLseek, posixFstat,
      posixFsync, posixFcntl, posixReaddir, posixTelldir, posixSeekdir, dfsNetGetsocket,
      Bool.false_eq_true, if_false, false_imp_iff, true_and]
    exact hs.use (hreach fd rfl) _ _

theorem FdTableOk.step (hkeeps : FdPromise fdMax s c) (h : fdStep fdMax s c = some s') :
    FdTableOk s' := by
  obtain ⟨-, answer, t', hrun, -, hok⟩ := hkeeps
  simp only [fdStep, hrun, Option.map_some] at h
  obtain rfl := Option.some.inj h
  exact hok

/-- In a run from the empty table every call keeps the descriptors as promised exactly when every
call is given a known one. -/
theorem fdTable_keeps_iff (fdMax : Nat) (calls : List FdCall) :
    RunMeets (fdStep fdMax) (FdPromise fdMax) calls ⟨⟨[]⟩, ∅⟩ ↔
      RunMeets (fdStep fdMax) KnownDescriptor calls ⟨⟨[]⟩, ∅⟩ :=
  runMeets_congr (fun _ c _ hs => fdPromise_iff hs c) (fun _ _ _ _ _ hkeeps h => .step hkeeps h)
    ⟨fun i d h => by simp [DfsFdTable.slot] at h, fun fd => by simp [DfsFdTable.slot]⟩

end

def plainFile : DfsFile := ⟨.regular, some ['/', 'f'], 1, 0, 0, 0, 0⟩

/-- A descriptor is closed twice. -/
theorem fdTable_reads_null :
    ¬RunMeets (fdStep 4) (FdPromise 4)
      [.openFile ⟨true, some ⟨0, 0, plainFile⟩⟩ ⟨0, plainFile⟩, .close ⟨0, plainFile⟩ 3,
        .close ⟨0, plainFile⟩ 3] ⟨⟨[]⟩, ∅⟩ := by
  rintro ⟨-, h⟩
  obtain ⟨-, h⟩ := h _ rfl
  obtain ⟨⟨-, answer, t', hrun, -⟩, -⟩ := h _ rfl
  cases hrun

end RTThread
