import RTThread.DfsFdRuns
import RTThread.DfsOpenModel

namespace RTThread

def fGetfl : Int := 3

def fSetfl : Int := 4

/-- `-EBADF` and `-ENOSYS`. -/
def badDescriptor : Int := -9

def noSuchCall : Int := -38

/-- `O_NONBLOCK | O_APPEND`. -/
def statusFlags : Nat := 0o4000 ||| 0o2000

/-- `O_ACCMODE` and the markers that `dfs_file_open` sets. -/
def openFlags : Nat := 0o10000003 ||| dfsFOpen ||| dfsFDirectory

/-- `fops->ioctl` of a file system, if it has one. -/
abbrev FopsIoctl := Option (DfsFile → Int → Int → FileAnswer)

def fopsIoctl (ioctl : FopsIoctl) (file : DfsFile) (cmd args : Int) : FileAnswer :=
  match ioctl with
  | some ioctl => ioctl file cmd args
  | none => ⟨noSuchCall, file⟩

/-- A C `int` as the bits of `fd->flags`, and `fd->flags` as an `int`. -/
def flagBits (x : Int) : Nat := (BitVec.ofInt 32 x).toNat

def flagInt (flags : Nat) : Int := (BitVec.ofNat 32 flags).toInt

def dfsFileIoctl (ioctl : FopsIoctl) (file : DfsFile) (cmd args : Int) : FileAnswer :=
  if file.type = .regular then
    if cmd = fGetfl then ⟨flagInt file.flags, file⟩
    else if cmd = fSetfl then
      ⟨0, { file with flags := file.flags &&& statusFlags ||| flagBits args &&& statusFlags }⟩
    else fopsIoctl ioctl file cmd args
  else fopsIoctl ioctl file cmd args

/-- The descriptors and the `errno` of the calling thread. -/
structure FcntlState where
  table : DfsFdTable
  errno : Int

/-- `fcntl`; it returns 0 even where it has set `ret` to -1. -/
def fcntl (ioctl : FopsIoctl) (s : FcntlState) (fildes cmd arg : Int) : Option (Int × FcntlState) :=
  (useDescriptor badDescriptor (fun file => dfsFileIoctl ioctl file cmd arg) s.table fildes).map
    fun (ret, table) => (0, ⟨table, if ret ≠ 0 then ret else s.errno⟩)

inductive FcntlCall where
  | getfl
  | setfl (x : Int)

def FcntlCall.run (ioctl : FopsIoctl) (fd : Int) (s : FcntlState) : FcntlCall → Option (Int × FcntlState)
  | .getfl => fcntl ioctl s fd fGetfl 0
  | .setfl x => fcntl ioctl s fd fSetfl x

def fcntlRun (ioctl : FopsIoctl) (fd : Int) : List FcntlCall → FcntlState → Option FcntlState
  | [], s => some s
  | c :: cs, s => (c.run ioctl fd s).bind fun r => fcntlRun ioctl fd cs r.2

/-- The argument of the last `F_SETFL`. -/
def lastSetfl (calls : List FcntlCall) : Option Int :=
  calls.reverse.findSome? fun
    | .setfl x => some x
    | .getfl => none

/-- The flags of the descriptor in a slot. -/
def FcntlState.flags (s : FcntlState) (i : Nat) : Option Nat := (s.table.slot i).map fun d => d.file.flags

/-- A sequence of calls on the descriptor of slot `i`, opened with some flags: at any point of it the
flags of the opening are there, the status flags are those of the last `F_SETFL`, and a `F_GETFL`
returns them. -/
structure FcntlFaithful (ioctl : FopsIoctl) (i : Nat) (opened : Nat) (s : FcntlState)
    (calls : List FcntlCall) : Prop where
  keeps : ∀ before after, calls = before ++ after → ∃ s' flags,
    fcntlRun ioctl (i + dfsFdOffset) before s = some s' ∧ s'.flags i = some flags ∧
      flags &&& openFlags = opened &&& openFlags ∧
      ∀ x, lastSetfl before = some x → flags &&& statusFlags = flagBits x &&& statusFlags
  answers : ∀ before after, calls = before ++ .getfl :: after → ∃ s' flags answer s'',
    fcntlRun ioctl (i + dfsFdOffset) before s = some s' ∧ s'.flags i = some flags ∧
      FcntlCall.getfl.run ioctl (i + dfsFdOffset) s' = some (answer, s'') ∧ answer = flagInt flags

section
variable {ioctl : FopsIoctl} {i : Nat} {s : FcntlState} {file : DfsFile} {calls : List FcntlCall}

/-- What a call leaves in the flags of a regular file. -/
def FcntlCall.leaves (flags : Nat) : FcntlCall → Nat
  | .getfl => flags
  | .setfl x => flags &&& statusFlags ||| flagBits x &&& statusFlags

theorem fcntl_held (cmd arg : Int) (hslot : s.table.slot i = some (heldFd file)) :
    ∃ s', fcntl ioctl s (i + dfsFdOffset) cmd arg = some (0, s') ∧
      s'.table.slot i = some (heldFd (dfsFileIoctl ioctl file cmd arg).file) := by
  have hlt := slot_lt hslot
  have huse := useDescriptor_set badDescriptor (fun f => dfsFileIoctl ioctl f cmd arg) file hlt
  rw [set_slot hslot] at huse
  unfold fcntl
  rw [huse]
  exact ⟨_, rfl, slot_set_self hlt⟩

theorem FcntlCall.run_held (c : FcntlCall) (hslot : s.table.slot i = some (heldFd file))
    (htype : file.type = .regular) : ∃ s', c.run ioctl (i + dfsFdOffset) s = some (0, s') ∧
      s'.table.slot i = some (heldFd { file with flags := c.leaves file.flags }) := by
  cases c with
  | getfl =>
    obtain ⟨s', hrun, hslot'⟩ := @fcntl_held ioctl i s file fGetfl 0 hslot
    refine ⟨s', hrun, ?_⟩
    rw [hslot', dfsFileIoctl, if_pos htype, if_pos rfl]
    rfl
  | setfl x =>
    obtain ⟨s', hrun, hslot'⟩ := @fcntl_held ioctl i s file fSetfl x hslot
    refine ⟨s', hrun, ?_⟩
    rw [hslot', dfsFileIoctl, if_pos htype, if_neg (by decide), if_pos rfl]
    rfl

/-- `F_SETFL` masks out the flags of the opening. -/
theorem setfl_open (x : Int) (flags : Nat) : (FcntlCall.setfl x).leaves flags &&& openFlags = 0 := by
  have hnone : statusFlags &&& openFlags = 0 := by decide
  simp only [FcntlCall.leaves, Nat.and_or_distrib_right, Nat.and_assoc, hnone, Nat.and_zero, Nat.or_zero]

theorem opened_flags (flags : Nat) : (flags ||| dfsFOpen) &&& openFlags ≠ 0 := by
  intro h
  have hbit := congrArg (Nat.testBit · 24) h
  simp only [Nat.testBit_and, Nat.testBit_or] at hbit
  have hopen : Nat.testBit dfsFOpen 24 = true := by decide
  have hkept : Nat.testBit openFlags 24 = true := by decide
  rw [hopen, hkept] at hbit
  simp at hbit

theorem flagInt_ne_zero {flags : Nat} (hlt : flags < 2 ^ 32) (hne : flags ≠ 0) : flagInt flags ≠ 0 := by
  intro h
  apply hne
  have hzero : BitVec.ofNat 32 flags = 0 := BitVec.eq_of_toInt_eq h
  have hnat := congrArg BitVec.toNat hzero
  rw [BitVec.toNat_ofNat, Nat.mod_eq_of_lt hlt] at hnat
  exact hnat

/-- On a regular file opened through `open` no call at all does what it is asked to. -/
theorem fcntl_faithful_iff {result : Int} {oflags : Nat} {left : DfsFile} {path : Option CString}
    (hfile : file = finishOpen result oflags left path) (hresult : 0 ≤ result)
    (htype : file.type = .regular) (hflags : file.flags < 2 ^ 32)
    (hslot : s.table.slot i = some (heldFd file)) :
    FcntlFaithful ioctl i file.flags s calls ↔ calls = [] := by
  have hopened : file.flags &&& openFlags ≠ 0 := by
    rw [hfile, finishOpen, if_neg (by omega)] at htype ⊢
    split at htype
    · cases htype
    next hdir =>
      rw [if_neg hdir]
      exact opened_flags left.flags
  have hat : s.flags i = some file.flags := by
    unfold FcntlState.flags
    rw [hslot]
    rfl
  constructor
  · intro h
    cases calls with
    | nil => rfl
    | cons c rest =>
      obtain ⟨s1, hrun, hslot1⟩ := @FcntlCall.run_held ioctl i s file c hslot htype
      cases c with
      | getfl =>
        obtain ⟨s', flags, answer, s'', hbefore, hnow, hcall, hanswer⟩ := h.answers [] rest rfl
        obtain rfl := Option.some.inj hbefore
        obtain rfl := Option.some.inj (hat.symm.trans hnow)
        obtain ⟨rfl, -⟩ := Prod.mk.inj (Option.some.inj (hcall.symm.trans hrun))
        have hne : file.flags ≠ 0 := by
          intro hzero
          rw [hzero] at hopened
          exact hopened rfl
        exact absurd hanswer.symm (flagInt_ne_zero hflags hne)
      | setfl x =>
        obtain ⟨s', flags, hbefore, hnow, hkept, -⟩ := h.keeps [.setfl x] rest rfl
        rw [fcntlRun, hrun] at hbefore
        obtain rfl := Option.some.inj hbefore
        unfold FcntlState.flags at hnow
        rw [hslot1] at hnow
        obtain rfl := Option.some.inj hnow
        exact absurd (hkept.symm.trans (setfl_open x file.flags)) hopened
  · rintro rfl
    constructor
    · intro before after hsplit
      obtain ⟨rfl, rfl⟩ := List.append_eq_nil_iff.mp hsplit.symm
      exact ⟨s, file.flags, rfl, hat, rfl, fun x hx => by cases hx⟩
    · intro before after hsplit
      exact absurd hsplit.symm (by simp)

end

/-- A file opened with `O_RDWR`, in the first slot. -/
def openedFile : DfsFile := ⟨.regular, some ['/', 'a'], 0, 2 ||| dfsFOpen, 0, 0, 0⟩

def openedTable : FcntlState := ⟨⟨[some (heldFd openedFile)]⟩, 0⟩

theorem fcntl_faithful_none :
    FcntlFaithful none 0 openedFile.flags openedTable [] :=
  (@fcntl_faithful_iff none 0 openedTable openedFile [] 0 2 ⟨.regular, none, 0, 2, 0, 0, 0⟩
    (some ['/', 'a']) rfl (by decide) rfl (by decide) rfl).mpr rfl

/-- `fcntl(fd, F_SETFL, O_APPEND)` on it takes the access mode and the open marker away. -/
theorem setfl_append_unfaithful :
    ¬FcntlFaithful none 0 openedFile.flags openedTable [.setfl 0o2000] := by
  intro h
  obtain ⟨s', flags, hrun, hflags, hkept, -⟩ := h.keeps [.setfl 0o2000] [] rfl
  obtain rfl := Option.some.inj hrun
  obtain rfl := Option.some.inj hflags
  exact absurd hkept (by decide)

end RTThread
