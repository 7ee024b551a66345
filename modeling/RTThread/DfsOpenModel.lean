import RTThread.DfsFdModel
import RTThread.DfsMountModel

namespace RTThread

/-- A mounted file system: its index, where it is mounted, and its type. -/
structure MountedFs where
  index : Nat
  path : CString
  ops : DfsFilesystemOps

/-- What `dfs_filesystem_lookup` points to. -/
def mountedFs (mounts : List DfsFilesystem) (fullpath : CString) : Option MountedFs :=
  (dfsFilesystemLookup mounts fullpath).bind fun k =>
    match mounts[k]? with
    | some ⟨_, some path, some ops⟩ => some ⟨k, path, ops⟩
    | _ => none

/-- The path that `fd_is_open` looks for. -/
def searchedPath (fs : MountedFs) (fullpath : CString) : CString :=
  if fs.path = ['/'] then fullpath else fullpath.drop fs.path.length

/-- The path that `dfs_file_open` keeps in the descriptor. -/
def keptPath (fs : MountedFs) (fullpath : CString) : CString :=
  if fs.ops.fullpath then fullpath else (dfsSubdir fs.path fullpath).getD ['/']

/-- The loop of `fd_is_open`; `none` where it compares with a NULL path. -/
def scanOpen (fops : Nat) (mountpath : CString) : List (Option DfsFd) → Option Int
  | [] => some (-1)
  | none :: rest => scanOpen fops mountpath rest
  | some d :: rest =>
    if d.file.fops = fops then
      match d.file.path with
      | none => none
      | some path => if path = mountpath then some 0 else scanOpen fops mountpath rest
    else scanOpen fops mountpath rest

def dfsFOpen : Nat := 0x01000000

def dfsFDirectory : Nat := 0x02000000

/-- `O_DIRECTORY` where the C library brings none of its own. -/
def oDirectory : Nat := 0o200000

/-- What the allocations of `dfs_file_open` answer: for the path, for the path in `fd_is_open`, and
for the path kept. -/
structure OpenMemory where
  normalize : Bool
  isOpen : Bool
  strdup : Bool

inductive OpenErrno where
  | enomem | ebusy | enoent
  deriving DecidableEq

section
variable (workingDirectory : Option CString) (mounts : List DfsFilesystem)

def fdIsOpen (memory : Bool) (t : DfsFdTable) (pathname : CString) : Option Int :=
  match dfsNormalizePath workingDirectory memory pathname with
  | none => some (-1)
  | some fullpath =>
    match mountedFs mounts fullpath with
    | none => some (-1)
    | some fs => scanOpen fs.ops.fops (searchedPath fs fullpath) t.fds

/-- `dfs_file_open` up to the open routine of the file system: an error, or the file system, the
full path and the descriptor filled in. -/
def dfsFileOpen (m : OpenMemory) (t : DfsFdTable) (path : CString) (flags : Nat) :
    Option (Except OpenErrno (MountedFs × CString × DfsFile)) :=
  match dfsNormalizePath workingDirectory m.normalize path with
  | none => some (.error .enomem)
  | some fullpath =>
    (fdIsOpen workingDirectory mounts m.isOpen t fullpath).map fun (answer : Int) =>
      if answer = 0 then .error .ebusy
      else
        match mountedFs mounts fullpath with
        | none => .error .enoent
        | some fs =>
          .ok (fs, fullpath,
            { type := .regular
              path := if fs.ops.fullpath || m.strdup then some (keptPath fs fullpath) else none
              fops := fs.ops.fops
              flags := flags
              size := 0
              pos := 0
              data := fs.index })

end

/-- The end of `dfs_file_open`: the open routine has returned `result` and left `file`, in which it
may have changed all but the path; without such a routine the result is negative. -/
def finishOpen (result : Int) (flags : Nat) (file : DfsFile) (path : Option CString) : DfsFile :=
  if result < 0 then { file with path := none }
  else if flags &&& oDirectory ≠ 0 then
    { file with
      path := path
      type := .directory
      flags := file.flags ||| dfsFOpen ||| dfsFDirectory }
  else { file with path := path, flags := file.flags ||| dfsFOpen }

/-- `dfs_file_close`; the close routine has returned `result` and left `file`. -/
def dfsFileClose (result : Int) (file : DfsFile) (path : Option CString) : DfsFile :=
  if result < 0 then { file with path := path } else { file with path := none }

/-- How far the descriptor of a slot is opened: on which file system, and with which full path. -/
inductive OpenPhase where
  | closed
  | opening (fs : Nat) (fullpath : CString) (flags : Nat)
  | opened (fs : Nat) (fullpath : CString)
  deriving DecidableEq

/-- The file that a descriptor is opened on or being opened on. -/
def OpenPhase.origin : OpenPhase → Option (Nat × CString)
  | .closed => none
  | .opening fs fullpath _ => some (fs, fullpath)
  | .opened fs fullpath => some (fs, fullpath)

structure OpenFiles where
  table : DfsFdTable
  phase : Nat → OpenPhase

inductive OpenAction where
  /-- `fd_new` -/
  | alloc (m : FdMemory)
  /-- `dfs_file_open` up to the open routine -/
  | open (i : Nat) (m : OpenMemory) (path : CString) (flags : Nat)
  /-- the open routine and what follows it -/
  | finish (i : Nat) (result : Int) (file : DfsFile)
  | close (i : Nat) (result : Int) (file : DfsFile)
  /-- the last `fd_put` -/
  | release (i : Nat)

def OpenFiles.setFile (s : OpenFiles) (i : Nat) (file : DfsFile) (phase : OpenPhase) : OpenFiles :=
  ⟨RTThread.setFile s.table i file, Function.update s.phase i phase⟩

section
variable (fdMax : Nat) (workingDirectory : Option CString) (mounts : List DfsFilesystem)

def openStep (s : OpenFiles) : OpenAction → Option OpenFiles
  | .alloc m => some { s with table := (fdNew fdMax m s.table).2 }
  | .open i m path flags =>
    if (s.table.slot i).isSome ∧ s.phase i = .closed then
      (dfsFileOpen workingDirectory mounts m s.table path flags).map fun
        | .error _ => s
        | .ok (fs, fullpath, file) => s.setFile i file (.opening fs.index fullpath flags)
    else none
  | .finish i result file =>
    match s.table.slot i, s.phase i with
    | some d, .opening fs fullpath flags =>
      some (s.setFile i (finishOpen result flags file d.file.path)
        (if result < 0 then .closed else .opened fs fullpath))
    | _, _ => none
  | .close i result file =>
    match s.table.slot i, s.phase i with
    | some d, .opened fs fullpath =>
      some (s.setFile i (dfsFileClose result file d.file.path)
        (if result < 0 then .opened fs fullpath else .closed))
    | _, _ => none
  | .release i =>
    match s.phase i with
    | .opening .. => none
    | _ => (fdPut s.table i).map fun t => ⟨t, Function.update s.phase i .closed⟩

end

end RTThread
