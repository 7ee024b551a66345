import RTThread.DfsPaths

namespace RTThread

inductive FdType where
  | regular | directory | socket
  deriving DecidableEq

/-- The fields of `struct dfs_fd` that the file operations use. -/
structure DfsFile where
  type : FdType
  path : Option CString
  fops : Nat
  flags : Nat
  size : Nat
  pos : Int
  data : Int
  deriving DecidableEq

structure DfsFd where
  magic : Nat
  refCount : Int
  file : DfsFile
  deriving DecidableEq

def dfsFdMagic : Nat := 0xfdfd

def dfsFdOffset : Int := 3

/-- `struct dfs_fdtable`: a structure is known by the one slot that points to it, a NULL slot is
`none`, and `maxfd` is the length. -/
structure DfsFdTable where
  fds : List (Option DfsFd)
  deriving DecidableEq

def DfsFdTable.maxfd (t : DfsFdTable) : Nat := t.fds.length

def DfsFdTable.slot (t : DfsFdTable) (i : Nat) : Option DfsFd := (t.fds[i]?).join

def DfsFdTable.set (t : DfsFdTable) (i : Nat) (d : Option DfsFd) : DfsFdTable := ⟨t.fds.set i d⟩

/-- What the allocations of `fd_alloc` answer; fresh memory holds anything. -/
structure FdMemory where
  realloc : Bool
  malloc : Option DfsFd

def emptySlot : Option DfsFd → Bool
  | none => true
  | some d => d.refCount = 0

def allocStruct (m : FdMemory) (idx : Nat) (t : DfsFdTable) : Nat × DfsFdTable :=
  if idx < t.maxfd ∧ t.slot idx = none then
    match m.malloc with
    | none => (t.maxfd, t)
    | some fresh => (idx, t.set idx (some fresh))
  else (idx, t)

def fdAlloc (fdMax : Nat) (m : FdMemory) (t : DfsFdTable) : Nat × DfsFdTable :=
  let idx := t.fds.findIdx emptySlot
  if idx = t.maxfd ∧ t.maxfd < fdMax then
    if m.realloc then
      let cnt := min (t.maxfd + 4) fdMax
      allocStruct m idx ⟨t.fds ++ List.replicate (cnt - t.maxfd) none⟩
    else (t.maxfd, t)
  else allocStruct m idx t

def initFd (d : DfsFd) : DfsFd := { d with refCount := 1, magic := dfsFdMagic }

def fdNew (fdMax : Nat) (m : FdMemory) (t : DfsFdTable) : Int × DfsFdTable :=
  let (idx, t) := fdAlloc fdMax m t
  if idx = t.maxfd then (-(1 + dfsFdOffset) + dfsFdOffset, t)
  else (idx + dfsFdOffset, t.set idx ((t.slot idx).map initFd))

/-- `fd_get`: the slot of the structure returned; `none` where it reads through a NULL slot. -/
def fdGet (t : DfsFdTable) (fd : Int) : Option (Option Nat × DfsFdTable) :=
  let i := fd - dfsFdOffset
  if i < 0 ∨ t.maxfd ≤ i then some (none, t)
  else
    match t.slot i.toNat with
    | none => none
    | some d =>
      if d.magic ≠ dfsFdMagic then some (none, t)
      else some (some i.toNat, t.set i.toNat (some { d with refCount := d.refCount + 1 }))

/-- `fd_put`; `none` where the structure is freed already. -/
def fdPut (t : DfsFdTable) (i : Nat) : Option DfsFdTable :=
  match t.slot i with
  | none => none
  | some d =>
    if d.refCount - 1 = 0 then some (t.set i none)
    else some (t.set i (some { d with refCount := d.refCount - 1 }))

def setFile (t : DfsFdTable) (i : Nat) (file : DfsFile) : DfsFdTable :=
  match t.slot i with
  | none => t
  | some d => t.set i (some { d with file := file })

/-- What an operation on a file returns and leaves in the descriptor. -/
structure FileAnswer where
  result : Int
  file : DfsFile

/-- The calls that look a descriptor up, work on it and put it back on every path. -/
def useDescriptor (bad : Int) (op : DfsFile → FileAnswer) (t : DfsFdTable) (fd : Int) :
    Option (Int × DfsFdTable) :=
  match fdGet t fd with
  | none => none
  | some (none, t) => some (bad, t)
  | some (some i, t) =>
    match t.slot i with
    | none => none
    | some d => (fdPut (setFile t i (op d.file).file) i).map ((op d.file).result, ·)

def posixRead (a : FileAnswer) : DfsFdTable → Int → Option (Int × DfsFdTable) :=
  useDescriptor (-1) fun _ => ⟨if a.result < 0 then -1 else a.result, a.file⟩

def posixWrite (a : FileAnswer) : DfsFdTable → Int → Option (Int × DfsFdTable) :=
  useDescriptor (-1) fun _ => ⟨if a.result < 0 then -1 else a.result, a.file⟩

inductive SeekWhence where
  | set | cur | atEnd | other
  deriving DecidableEq

def posixLseek (offset : Int) (whence : SeekWhence) (a : FileAnswer) :
    DfsFdTable → Int → Option (Int × DfsFdTable) :=
  useDescriptor (-1) fun file =>
    let start : Int := match whence with
      | .cur => file.pos
      | .atEnd => file.size
      | _ => 0
    if whence = .other ∨ offset + start < 0 then ⟨-1, file⟩
    else if a.result < 0 then ⟨-1, a.file⟩
    else ⟨offset + start, a.file⟩

def posixFstat : DfsFdTable → Int → Option (Int × DfsFdTable) :=
  useDescriptor (-1) fun file => ⟨0, file⟩

def posixFsync (a : FileAnswer) : DfsFdTable → Int → Option (Int × DfsFdTable) :=
  useDescriptor (-1) fun _ => a

/-- `fcntl` and `ioctl` return 0 whatever the operation answers. -/
def posixFcntl (a : FileAnswer) : DfsFdTable → Int → Option (Int × DfsFdTable) :=
  useDescriptor 0 fun _ => ⟨0, a.file⟩

/-- `readdir` of a directory whose descriptor is `fd`; 0 is NULL. -/
def posixReaddir (a : FileAnswer) : DfsFdTable → Int → Option (Int × DfsFdTable) :=
  useDescriptor 0 fun _ => a

def posixTelldir (num cur : Int) : DfsFdTable → Int → Option (Int × DfsFdTable) :=
  useDescriptor 0 fun file => ⟨file.pos - num + cur, file⟩

/-- `seekdir` and, with offset 0, `rewinddir`. -/
def posixSeekdir (a : FileAnswer) : DfsFdTable → Int → Option (Int × DfsFdTable) :=
  useDescriptor 0 fun _ => ⟨0, a.file⟩

def doPollfd (a : FileAnswer) (t : DfsFdTable) (fd : Int) : Option (Int × DfsFdTable) :=
  if 0 ≤ fd then useDescriptor 0x10 (fun _ => a) t fd else some (0, t)

def dfsNetGetsocket : DfsFdTable → Int → Option (Int × DfsFdTable) :=
  useDescriptor (-1) fun file => ⟨if file.type = .socket then file.data else -1, file⟩

section
variable (fdMax : Nat)

/-- A new descriptor in which an operation fills the fields; where that fails, the descriptor is
released. -/
def newDescriptor (m : FdMemory) (a : FileAnswer) (t : DfsFdTable) : Option (Int × DfsFdTable) :=
  let (fd, t) := fdNew fdMax m t
  if fd < 0 then some (-1, t)
  else
    match fdGet t fd with
    | some (some i, t) =>
      let t := setFile t i a.file
      if a.result < 0 then ((fdPut t i).bind (fdPut · i)).map (-1, ·)
      else (fdPut t i).map (fd, ·)
    | _ => none

/-- `open`; `dfs_file_open` answers `a`. -/
def posixOpen (m : FdMemory) (a : FileAnswer) : DfsFdTable → Option (Int × DfsFdTable) :=
  newDescriptor fdMax m a

/-- `socket`; `lwip_socket` answers `a`. -/
def netSocket (m : FdMemory) (a : FileAnswer) : DfsFdTable → Option (Int × DfsFdTable) :=
  newDescriptor fdMax m a

/-- `mkdir` keeps no descriptor, whatever `dfs_file_close` answers. -/
def posixMkdir (m : FdMemory) (a closed : FileAnswer) (t : DfsFdTable) :
    Option (Int × DfsFdTable) :=
  let (fd, t) := fdNew fdMax m t
  if fd = -1 then some (-1, t)
  else
    match fdGet t fd with
    | some (some i, t) =>
      let t := setFile t i a.file
      if a.result < 0 then ((fdPut t i).bind (fdPut · i)).map (-1, ·)
      else ((fdPut (setFile t i closed.file) i).bind (fdPut · i)).map (0, ·)
    | _ => none

/-- `opendir`: the descriptor of the stream, or -1 for NULL; `dir` is whether the stream can be
allocated. -/
def posixOpendir (m : FdMemory) (a : FileAnswer) (dir : Bool) (closed : FileAnswer)
    (t : DfsFdTable) : Option (Int × DfsFdTable) :=
  let (fd, t) := fdNew fdMax m t
  if fd = -1 then some (-1, t)
  else
    match fdGet t fd with
    | some (some i, t) =>
      let t := setFile t i a.file
      if 0 ≤ a.result then
        if dir then (fdPut t i).map (fd, ·)
        else ((fdPut (setFile t i closed.file) i).bind (fdPut · i)).map (-1, ·)
      else ((fdPut t i).bind (fdPut · i)).map (-1, ·)
    | _ => none

/-- `accept`; `accepted` is whether `lwip_accept` gives a new connection. -/
def netAccept (m : FdMemory) (accepted : Bool) (file : DfsFile) (t : DfsFdTable) (s : Int) :
    Option (Int × DfsFdTable) :=
  (dfsNetGetsocket t s).bind fun (_, t) =>
    if accepted then newDescriptor fdMax m ⟨0, file⟩ t else some (-1, t)

end

/-- `close`; the answer of `dfs_file_close` decides whether the descriptor goes. -/
def posixClose (closed : FileAnswer) (t : DfsFdTable) (fd : Int) : Option (Int × DfsFdTable) :=
  match fdGet t fd with
  | none => none
  | some (none, t) => some (-1, t)
  | some (some i, t) =>
    (fdPut (setFile t i closed.file) i).bind fun t =>
      if closed.result < 0 then some (-1, t) else (fdPut t i).map (0, ·)

/-- `closedir` of a stream whose descriptor is `fd`; the descriptor goes in any case. -/
def posixClosedir (closed : FileAnswer) (t : DfsFdTable) (fd : Int) : Option (Int × DfsFdTable) :=
  match fdGet t fd with
  | none => none
  | some (none, t) => some (-1, t)
  | some (some i, t) =>
    ((fdPut (setFile t i closed.file) i).bind (fdPut · i)).map
      (if closed.result < 0 then -1 else 0, ·)

/-- `shutdown`; the descriptor goes only where `lwip_shutdown` answers 0. -/
def netShutdown (result : Int) (t : DfsFdTable) (s : Int) : Option (Int × DfsFdTable) :=
  match fdGet t s with
  | none => none
  | some (none, t) => some (-1, t)
  | some (some i, t) =>
    (dfsNetGetsocket t s).bind fun (_, t) =>
      if result = 0 then ((fdPut t i).bind (fdPut · i)).map (0, ·) else some (-1, t)

/-- `closesocket`, which puts what `fd_get` returns without a test. -/
def netClosesocket (result : Int) (t : DfsFdTable) (s : Int) : Option (Int × DfsFdTable) :=
  (dfsNetGetsocket t s).bind fun (_, t) =>
    match fdGet t s with
    | some (some i, t) => ((fdPut t i).bind (fdPut · i)).map (result, ·)
    | _ => none

inductive FdCall where
  | openFile (m : FdMemory) (a : FileAnswer)
  | socket (m : FdMemory) (a : FileAnswer)
  | mkdir (m : FdMemory) (a closed : FileAnswer)
  | opendir (m : FdMemory) (a : FileAnswer) (dir : Bool) (closed : FileAnswer)
  | accept (m : FdMemory) (accepted : Bool) (file : DfsFile) (fd : Int)
  | close (closed : FileAnswer) (fd : Int)
  | closedir (closed : FileAnswer) (fd : Int)
  | shutdown (result fd : Int)
  | closesocket (result fd : Int)
  | read (a : FileAnswer) (fd : Int)
  | write (a : FileAnswer) (fd : Int)
  | lseek (offset : Int) (whence : SeekWhence) (a : FileAnswer) (fd : Int)
  | fstat (fd : Int)
  | fsync (a : FileAnswer) (fd : Int)
  | fcntl (a : FileAnswer) (fd : Int)
  | readdir (a : FileAnswer) (fd : Int)
  | telldir (num cur fd : Int)
  | seekdir (a : FileAnswer) (fd : Int)
  | poll (a : FileAnswer) (fd : Int)
  | getsocket (fd : Int)

def FdCall.run (fdMax : Nat) (t : DfsFdTable) : FdCall → Option (Int × DfsFdTable)
  | .openFile m a => posixOpen fdMax m a t
  | .socket m a => netSocket fdMax m a t
  | .mkdir m a closed => posixMkdir fdMax m a closed t
  | .opendir m a dir closed => posixOpendir fdMax m a dir closed t
  | .accept m accepted file fd => netAccept fdMax m accepted file t fd
  | .close closed fd => posixClose closed t fd
  | .closedir closed fd => posixClosedir closed t fd
  | .shutdown result fd => netShutdown result t fd
  | .closesocket result fd => netClosesocket result t fd
  | .read a fd => posixRead a t fd
  | .write a fd => posixWrite a t fd
  | .lseek offset whence a fd => posixLseek offset whence a t fd
  | .fstat fd => posixFstat t fd
  | .fsync a fd => posixFsync a t fd
  | .fcntl a fd => posixFcntl a t fd
  | .readdir a fd => posixReaddir a t fd
  | .telldir num cur fd => posixTelldir num cur t fd
  | .seekdir a fd => posixSeekdir a t fd
  | .poll a fd => doPollfd a t fd
  | .getsocket fd => dfsNetGetsocket t fd

/-- The descriptor a call is given. -/
def FdCall.descriptor : FdCall → Option Int
  | .openFile .. | .socket .. | .mkdir .. | .opendir .. => none
  | .accept _ _ _ fd | .close _ fd | .closedir _ fd | .shutdown _ fd | .closesocket _ fd
  | .read _ fd | .write _ fd | .lseek _ _ _ fd | .fstat fd | .fsync _ fd | .fcntl _ fd
  | .readdir _ fd | .telldir _ _ fd | .seekdir _ fd | .poll _ fd | .getsocket fd => some fd

def FdCall.opens : FdCall → Bool
  | .openFile .. | .socket .. | .opendir .. | .accept .. => true
  | _ => false

/-- The table, and the descriptors the callers hold: returned by a call that opens one and not
closed since. -/
structure FdState where
  table : DfsFdTable
  opened : Finset Int

def FdCall.holds (opened : Finset Int) (answer : Int) (c : FdCall) : Finset Int :=
  if c.opens then if 0 ≤ answer then insert answer opened else opened
  else
    match c with
    | .close _ fd | .shutdown _ fd => if answer = 0 then opened.erase fd else opened
    | .closedir _ fd | .closesocket _ fd => opened.erase fd
    | _ => opened

def fdStep (fdMax : Nat) (s : FdState) (c : FdCall) : Option FdState :=
  (c.run fdMax s.table).map fun (answer, t) => ⟨t, c.holds s.opened answer⟩

end RTThread
