import RTThread.DfsPaths

namespace RTThread

/-- A file system type; two types are one where their tables of operations are. -/
structure DfsFilesystemOps where
  name : CString
  /-- `DFS_FS_FLAG_FULLPATH` -/
  fullpath : Bool
  /-- which table of file operations -/
  fops : Nat
  hasMount : Bool
  hasUnmount : Bool
  deriving DecidableEq

structure DfsFilesystem where
  devId : Option Nat
  path : Option CString
  ops : Option DfsFilesystemOps
  deriving DecidableEq

/-- What `memset` leaves. -/
def clearedEntry : DfsFilesystem := ⟨none, none, none⟩

inductive DfsErrno where
  | enodev | enosys | enotdir | einval | enospc
  deriving DecidableEq

def lookupFrom (path : CString) : List DfsFilesystem → Nat → Option Nat → Nat → Option Nat
  | [], _, fs, _ => fs
  | iter :: rest, i, fs, prefixlen =>
    match iter.path, iter.ops with
    | some mountpath, some _ =>
      let fspath := mountpath.length
      if fspath < prefixlen ∨ strncmpEq mountpath path fspath = false then
        lookupFrom path rest (i + 1) fs prefixlen
      else if 1 < fspath ∧ fspath < path.length ∧ path[fspath]? ≠ some '/' then
        lookupFrom path rest (i + 1) fs prefixlen
      else lookupFrom path rest (i + 1) (some i) fspath
    | _, _ => lookupFrom path rest (i + 1) fs prefixlen

/-- The index of the entry found. -/
def dfsFilesystemLookup (table : List DfsFilesystem) (path : CString) : Option Nat :=
  lookupFrom path table 0 none 0

/-- The arguments of `dfs_mount` and what the calls it makes answer. -/
structure MountRequest where
  /-- `none` where `device_name` is NULL, else what `rt_device_find` returns -/
  device : Option (Option Nat)
  path : CString
  filesystemtype : CString
  memory : Bool
  /-- the open routine of the file system that holds the path succeeds -/
  pathOpens : Bool
  deviceOpens : Bool
  mounts : Bool

structure UnmountRequest where
  specialfile : CString
  memory : Bool
  unmounts : Bool

/-- The device of the call, where there is one or none is named. -/
def mountDevice (r : MountRequest) : Option (Option Nat) :=
  match r.device with
  | none => some none
  | some none => none
  | some (some dev) => some (some dev)

def findType (types : List (Option DfsFilesystemOps)) (filesystemtype : CString) :
    Option DfsFilesystemOps :=
  match types with
  | [] => none
  | some ops :: rest => if ops.name = filesystemtype then some ops else findType rest filesystemtype
  | none :: rest => findType rest filesystemtype

/-- The raw open and close that see whether the mount point exists. -/
def mountPointExists (workingDirectory : Option CString) (table : List DfsFilesystem)
    (fullpath : CString) (pathOpens : Bool) : Bool :=
  fullpath = ['/'] || fullpath = ['/', 'd', 'e', 'v'] ||
    match dfsNormalizePath workingDirectory true fullpath with
    | none => false
    | some path => (dfsFilesystemLookup table path).isSome && pathOpens

/-- The scan for a free entry; the path compared is the one the caller gave. -/
def reserveEntry (path : CString) : List DfsFilesystem → Nat → Option Nat → Except DfsErrno Nat
  | [], _, some fs => .ok fs
  | [], _, none => .error .enospc
  | iter :: rest, i, fs =>
    if iter.ops = none then reserveEntry path rest (i + 1) (fs.or (some i))
    else if iter.path = some path then .error .einval
    else reserveEntry path rest (i + 1) fs

/-- From the registration of the entry on: its device and its file system may still refuse. -/
def mountEntry (r : MountRequest) (ops : DfsFilesystemOps) (devId : Option Nat)
    (fullpath : CString) (fs : Nat) (table : List DfsFilesystem) :
    Except (Option DfsErrno) Unit × List DfsFilesystem :=
  let registered := table.set fs ⟨devId, some fullpath, some ops⟩
  if devId ≠ none ∧ r.deviceOpens = false then (.error none, registered.set fs clearedEntry)
  else if r.mounts = false then (.error none, registered.set fs clearedEntry)
  else (.ok (), registered)

section
variable (types : List (Option DfsFilesystemOps)) (workingDirectory : Option CString)

/-- `dfs_mount`; an error without a number is one that sets none. -/
def dfsMount (r : MountRequest) (table : List DfsFilesystem) :
    Except (Option DfsErrno) Unit × List DfsFilesystem :=
  match mountDevice r with
  | none => (.error (some .enodev), table)
  | some devId =>
    match findType types r.filesystemtype with
    | none => (.error (some .enodev), table)
    | some ops =>
      if ops.hasMount = false then (.error (some .enosys), table)
      else
        match dfsNormalizePath workingDirectory r.memory r.path with
        | none => (.error (some .enotdir), table)
        | some fullpath =>
          if mountPointExists workingDirectory table fullpath r.pathOpens = false then
            (.error (some .enotdir), table)
          else
            match reserveEntry r.path table 0 none with
            | .error e => (.error (some e), table)
            | .ok fs => mountEntry r ops devId fullpath fs table

/-- `dfs_unmount`; `none` where it reads the operations of an entry that has none. -/
def dfsUnmount (r : UnmountRequest) (table : List DfsFilesystem) :
    Option (Except (Option DfsErrno) Unit × List DfsFilesystem) :=
  match dfsNormalizePath workingDirectory r.memory r.specialfile with
  | none => some (.error (some .enotdir), table)
  | some fullpath =>
    match table.findIdx? (·.path = some fullpath) with
    | none => some (.error none, table)
    | some fs =>
      match (table[fs]?.bind (·.ops)) with
      | none => none
      | some ops =>
        if ops.hasUnmount = false ∨ r.unmounts = false then some (.error none, table)
        else some (.ok (), table.set fs clearedEntry)

end

end RTThread
