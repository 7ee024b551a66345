import RTThread.Runs
import RTThread.Threads

namespace RTThread

/-- The operations of a file system on the content of a regular file. `lseek` is given the content,
the descriptor's flags and an offset, and gives the content and the position; `read` and `write` are
given the content, the flags, the position, and a length or the bytes. Offsets are of a signed type
of 32 bits, so a file is shorter than 2 GiB. -/
structure RegularFs where
  lseek : List UInt8 → BitVec 32 → Nat → Except Int (List UInt8 × Nat)
  read : List UInt8 → BitVec 32 → Nat → Nat → Except Int (List UInt8)
  write : List UInt8 → BitVec 32 → Nat → List UInt8 → Except Int (List UInt8 × Nat)

/-- `struct dfs_fd` of a regular file. -/
structure AioFd where
  file : ObjectId
  flags : BitVec 32
  size : Nat
  pos : Nat
deriving DecidableEq, Repr

/-- The function of `aio_work`. -/
inductive AioWork where
  | read
  | write
  | fsync
deriving DecidableEq, Repr

/-- What the caller fills in of a `struct aiocb`. -/
structure AioRequest where
  fildes : Int
  offset : Int
  buf : BitVec 32
  nbytes : Nat
deriving DecidableEq, Repr

structure Aiocb extends AioRequest where
  result : Int
  work : AioWork
deriving DecidableEq, Repr

/-- `fds` is what `fd_get` gives; `stores` are the bytes stored to memory so far; `current` is
`work_current` of the queue, and whether its function has returned; `pending` are the requests
submitted and not executed. -/
structure AioState where
  fds : Int → Option AioFd
  files : ObjectId → List UInt8
  mem : BitVec 32 → UInt8
  stores : List (BitVec 32 × UInt8)
  errno : ThreadId → Int
  cbs : ObjectId → Aiocb
  queue : List ObjectId
  current : Option (ObjectId × Bool)
  pending : ObjectId → Bool

def ebadf : Int := 9

def einval : Int := 22

def einprogress : Int := 115

def oWronly : BitVec 32 := 1

def oRdwr : BitVec 32 := 2

def oAppend : BitVec 32 := 0o2000

/-- `03 | O_SEARCH`. -/
def oAccmode : BitVec 32 := 0o10000003

def dfsFEof : BitVec 32 := 0x04000000

/-- The bytes of a transfer with their addresses. -/
def bytesAt (p : BitVec 32) (data : List UInt8) : List (BitVec 32 × UInt8) :=
  data.zipIdx.map fun x => (p + BitVec.ofNat 32 x.2, x.1)

namespace AioState

def rtSetErrno (s : AioState) (t : ThreadId) (e : Int) : AioState :=
  { s with errno := Function.update s.errno t e }

def setFd (s : AioState) (fd : Int) (d : AioFd) : AioState :=
  { s with fds := Function.update s.fds fd (some d) }

def setFile (s : AioState) (f : ObjectId) (content : List UInt8) : AioState :=
  { s with files := Function.update s.files f content }

def store (s : AioState) (p : BitVec 32) (data : List UInt8) : AioState :=
  { s with
    mem := (bytesAt p data).foldl (fun m x => Function.update m x.1 x.2) s.mem
    stores := s.stores ++ bytesAt p data }

/-- The offset that `lseek` asks of the file; `none` if `whence` is not one of its three. -/
def seekTarget (d : AioFd) (offset whence : Int) : Option Int :=
  if whence = 0 then some offset
  else if whence = 1 then some (offset + d.pos)
  else if whence = 2 then some (offset + d.size)
  else none

def lseek (fs : RegularFs) (s : AioState) (t : ThreadId) (fd offset whence : Int) : Int × AioState :=
  match s.fds fd with
  | none => (-1, s.rtSetErrno t (-ebadf))
  | some d =>
    match seekTarget d offset whence with
    | none => (-1, s.rtSetErrno t (-einval))
    | some target =>
      if target < 0 then (-1, s.rtSetErrno t (-einval))
      else
        match fs.lseek (s.files d.file) d.flags target.toNat with
        | .error e => (-1, s.rtSetErrno t e)
        | .ok (content, pos) => (target, (s.setFile d.file content).setFd fd { d with pos := pos })

def read (fs : RegularFs) (s : AioState) (t : ThreadId) (fd : Int) (buf : BitVec 32) (len : Nat) :
    Int × AioState :=
  match s.fds fd with
  | none => (-1, s.rtSetErrno t (-ebadf))
  | some d =>
    match fs.read (s.files d.file) d.flags d.pos len with
    | .error e => (-1, (s.setFd fd { d with flags := d.flags ||| dfsFEof }).rtSetErrno t e)
    | .ok data => (data.length, (s.setFd fd { d with pos := d.pos + data.length }).store buf data)

def write (fs : RegularFs) (s : AioState) (t : ThreadId) (fd : Int) (buf : BitVec 32) (len : Nat) :
    Int × AioState :=
  match s.fds fd with
  | none => (-1, s.rtSetErrno t (-ebadf))
  | some d =>
    let data := (List.range len).map fun i => s.mem (buf + BitVec.ofNat 32 i)
    match fs.write (s.files d.file) d.flags d.pos data with
    | .error e => (-1, s.rtSetErrno t e)
    | .ok (content, count) =>
      (count, (s.setFile d.file content).setFd fd
        { d with pos := d.pos + count, size := content.length })

/-- `fcntl` with `F_GETFL`: `dfs_file_ioctl` gives the flags, and they go to `errno`. -/
def fcntlGetfl (s : AioState) (t : ThreadId) (fd : Int) : Int × AioState :=
  let ret := match s.fds fd with
    | none => -ebadf
    | some d => d.flags.toInt
  (0, if ret ≠ 0 then s.rtSetErrno t ret else s)

def setCb (s : AioState) (cb : ObjectId) (x : Aiocb) : AioState :=
  { s with cbs := Function.update s.cbs cb x }

/-- `rt_workqueue_dowork` after `rt_work_init`; nobody looks at -RT_EBUSY. -/
def rtWorkqueueDowork (s : AioState) (cb : ObjectId) : AioState :=
  if s.current.map Prod.fst = some cb then s else { s with queue := s.queue ++ [cb] }

/-- The end of a submission. -/
def submit (s : AioState) (cb : ObjectId) (work : AioWork) : AioState :=
  { s.setCb cb { s.cbs cb with result := -einprogress, work := work } with
    pending := Function.update s.pending cb true }.rtWorkqueueDowork cb

def aioRead (s : AioState) : Option ObjectId → Int × AioState
  | none => (-einval, s)
  | some cb => if (s.cbs cb).offset < 0 then (-einval, s) else (0, s.submit cb .read)

def aioWrite (s : AioState) (t : ThreadId) : Option ObjectId → Int × AioState
  | none => (-einval, s)
  | some cb =>
    if (s.cbs cb).buf = 0 then (-einval, s)
    else
      let (oflags, s') := s.fcntlGetfl t (s.cbs cb).fildes
      if BitVec.ofInt 32 oflags &&& oAccmode ≠ oWronly ∨ BitVec.ofInt 32 oflags &&& oAccmode ≠ oRdwr then
        (-einval, s')
      else (0, s'.submit cb .write)

def aioFsync (s : AioState) : Option ObjectId → Int × AioState
  | none => (-einval, s)
  | some cb => (0, s.submit cb .fsync)

def aioError (s : AioState) : Option ObjectId → Int
  | none => -einval
  | some cb => (s.cbs cb).result

/-- The status that `aio_return` answers; a negative one goes to `errno` too. -/
def aioReturn (s : AioState) (t : ThreadId) : Option ObjectId → Int × AioState
  | none => (-einval, s)
  | some cb =>
    ((s.cbs cb).result, if (s.cbs cb).result < 0 then s.rtSetErrno t (s.cbs cb).result else s)

def setResult (s : AioState) (cb : ObjectId) (result : Int) : AioState :=
  { s.setCb cb { s.cbs cb with result := result } with pending := Function.update s.pending cb false }

/-- `aio_read_work` on the worker `t`. -/
def aioReadWork (fs : RegularFs) (s : AioState) (t : ThreadId) (cb : ObjectId) : AioState :=
  let x := s.cbs cb
  let s1 := (s.lseek fs t x.fildes x.offset 0).2
  let (len, s2) := s1.read fs t x.fildes (x.buf + BitVec.ofInt 32 x.offset) x.nbytes
  s2.setResult cb (if len ≤ 0 then s2.errno t else 0)

/-- `aio_write_work`; the arguments of its `lseek` are `SEEK_SET` for the offset and the offset for
`whence`. -/
def aioWriteWork (fs : RegularFs) (s : AioState) (t : ThreadId) (cb : ObjectId) : AioState :=
  let x := s.cbs cb
  let (oflags, s1) := s.fcntlGetfl t x.fildes
  let s2 := if BitVec.ofInt 32 oflags &&& oAppend = 0 then (s1.lseek fs t x.fildes 0 x.offset).2 else s1
  let (len, s3) := s2.write fs t x.fildes x.buf x.nbytes
  s3.setResult cb (if len ≤ 0 then s3.errno t else len)

/-- `aio_fync_work` with the result of `fsync`, which leaves its error in `errno`. -/
def aioFyncWork (s : AioState) (t : ThreadId) (cb : ObjectId) (flush : Int) : AioState :=
  let s1 := if flush < 0 then s.rtSetErrno t flush else s
  s1.setResult cb (if flush < 0 then s1.errno t else 0)

def work (fs : RegularFs) (s : AioState) (t : ThreadId) (cb : ObjectId) (flush : Int) : AioState :=
  match (s.cbs cb).work with
  | .read => s.aioReadWork fs t cb
  | .write => s.aioWriteWork fs t cb
  | .fsync => s.aioFyncWork t cb flush

/-- The control block is in no request that is still to be executed. -/
def Free (s : AioState) (cb : ObjectId) : Prop := cb ∉ s.queue ∧ s.current ≠ some (cb, false)

instance decidableFree (s : AioState) (cb : ObjectId) : Decidable (s.Free cb) :=
  inferInstanceAs (Decidable (_ ∧ _))

/-- The caller fills in its control block. -/
def fill (s : AioState) (cb : Option ObjectId) (req : AioRequest) : AioState :=
  match cb with
  | none => s
  | some cb => s.setCb cb { s.cbs cb with toAioRequest := req }

end AioState

/-- Requests of any threads; the worker takes the first work, its function returns and it goes on.
Other calls leave their results in `errno`. -/
inductive AioAction where
  | read (cb : Option ObjectId) (req : AioRequest)
  | write (t : ThreadId) (cb : Option ObjectId) (req : AioRequest)
  | fsync (cb : Option ObjectId) (req : AioRequest)
  | take
  | run (flush : Int)
  | finish
  | errno (t : ThreadId) (e : Int)

/-- `worker` is the thread of `aio_queue`. -/
def aioStep (fs : RegularFs) (worker : ThreadId) (s : AioState) : AioAction → Option AioState
  | .read cb req => if ∀ c ∈ cb, s.Free c then some ((s.fill cb req).aioRead cb).2 else none
  | .write t cb req => if ∀ c ∈ cb, s.Free c then some ((s.fill cb req).aioWrite t cb).2 else none
  | .fsync cb req => if ∀ c ∈ cb, s.Free c then some ((s.fill cb req).aioFsync cb).2 else none
  | .take =>
    match s.current, s.queue with
    | none, cb :: rest => some { s with queue := rest, current := some (cb, false) }
    | _, _ => none
  | .run flush =>
    match s.current with
    | some (cb, false) => some { s.work fs worker cb flush with current := some (cb, true) }
    | _ => none
  | .finish =>
    match s.current with
    | some (_, true) => some { s with current := none }
    | _ => none
  | .errno t e => some (s.rtSetErrno t e)

/-- `aio_system_init`: no request so far. -/
structure AioStart (s : AioState) : Prop where
  queue : s.queue = []
  current : s.current = none
  pending : ∀ cb, s.pending cb = false

def AioFd.accessMode (d : AioFd) : BitVec 32 := d.flags &&& oAccmode

def AioFd.Readable (d : AioFd) : Prop := d.accessMode = 0 ∨ d.accessMode = oRdwr

instance decidableReadable (d : AioFd) : Decidable d.Readable := inferInstanceAs (Decidable (_ ∨ _))

def AioFd.Writable (d : AioFd) : Prop := d.accessMode = oWronly ∨ d.accessMode = oRdwr

instance decidableWritable (d : AioFd) : Decidable d.Writable := inferInstanceAs (Decidable (_ ∨ _))

/-- A file system seeks to every offset in a file, may refuse one behind its end or put the position
at the end, and reads the bytes from the position on. -/
structure RegularFs.Lawful (fs : RegularFs) : Prop where
  within : ∀ content flags offset, offset ≤ content.length →
    fs.lseek content flags offset = .ok (content, offset)
  past : ∀ content flags offset content' pos, content.length < offset →
    fs.lseek content flags offset = .ok (content', pos) → content'.length ≤ pos
  refuses : ∀ content flags offset e, fs.lseek content flags offset = .error e → e < 0
  reads : ∀ content (d : AioFd) len, d.Readable →
    fs.read content d.flags d.pos len = .ok ((content.drop d.pos).take len)

/-- The bytes of the file that a request asks for. -/
def asked (s : AioState) (req : AioRequest) (d : AioFd) : List UInt8 :=
  ((s.files d.file).drop req.offset.toNat).take req.nbytes

/-- An executed read has stored the bytes of the file at the head of the buffer, and nothing else,
and `aio_return` gives their number. -/
def ReadDone (s s' : AioState) (cb : ObjectId) : Prop :=
  ∀ d ∈ s.fds (s.cbs cb).fildes, d.Readable →
    s'.stores = s.stores ++ bytesAt (s.cbs cb).buf (asked s (s.cbs cb).toAioRequest d) ∧
      ∀ t, (s'.aioReturn t (some cb)).1 = (asked s (s.cbs cb).toAioRequest d).length

/-- An executed write has put the bytes of the buffer at the offset, or at the end with `O_APPEND`, and
`aio_return` gives their number. -/
def WriteDone (s s' : AioState) (cb : ObjectId) : Prop :=
  ∀ d ∈ s.fds (s.cbs cb).fildes,
    (((s'.files d.file).drop
        (if d.flags &&& oAppend = 0 then (s.cbs cb).offset.toNat else (s.files d.file).length)).take
        (s.cbs cb).nbytes =
      (List.range (s.cbs cb).nbytes).map fun i => s.mem ((s.cbs cb).buf + BitVec.ofNat 32 i)) ∧
      ∀ t, (s'.aioReturn t (some cb)).1 = (s.cbs cb).nbytes

/-- A write to a descriptor opened for writing is queued. -/
def WriteQueued (s : AioState) (t : ThreadId) (cb : ObjectId) : Prop :=
  (s.cbs cb).buf ≠ 0 → ∀ d ∈ s.fds (s.cbs cb).fildes, d.Writable →
    (s.aioWrite t (some cb)).1 = 0 ∧ cb ∈ (s.aioWrite t (some cb)).2.queue

/-- The request whose function runs. -/
def AioState.running (s : AioState) : Option ObjectId :=
  match s.current with
  | some (cb, false) => some cb
  | _ => none

/-- A step answers as the synchronous calls do, and a request that is not executed is in progress. -/
structure AioRight (fs : RegularFs) (worker : ThreadId) (s : AioState) (a : AioAction) : Prop where
  progress : ∀ s' ∈ aioStep fs worker s a, ∀ cb, s'.pending cb = true →
    s'.aioError (some cb) = -einprogress
  queued : ∀ t cb req, a = .write t (some cb) req → WriteQueued (s.fill (some cb) req) t cb
  done : ∀ s' ∈ aioStep fs worker s a, ∀ flush, a = .run flush → ∀ cb ∈ s.running,
    ((s.cbs cb).work = .read → ReadDone s s' cb) ∧ ((s.cbs cb).work = .write → WriteDone s s' cb)

/-- A read finds nothing to read at an offset that the file system accepts, with no old error in the
worker's `errno`. -/
def ReadsNothing (fs : RegularFs) (worker : ThreadId) (s : AioState) (cb : ObjectId) : Prop :=
  ∀ d ∈ s.fds (s.cbs cb).fildes, d.Readable →
    ((s.cbs cb).nbytes = 0 ∨ (s.files d.file).length ≤ (s.cbs cb).offset.toNat) ∧ s.errno worker = 0 ∧
      (fs.lseek (s.files d.file) d.flags (s.cbs cb).offset.toNat).isOk = true

instance decidableReadsNothing (fs : RegularFs) (worker : ThreadId) (s : AioState) (cb : ObjectId) :
    Decidable (ReadsNothing fs worker s cb) :=
  inferInstanceAs (Decidable (∀ d ∈ s.fds (s.cbs cb).fildes, _ → _))

def KeepsAio (fs : RegularFs) (worker : ThreadId) (s : AioState) : AioAction → Prop
  | .run _ => ∀ cb ∈ s.running, (s.cbs cb).work = .read → ReadsNothing fs worker s cb
  | .write _ (some _) req => req.buf ≠ 0 → ∀ d ∈ s.fds req.fildes, ¬d.Writable
  | _ => True

instance decidableKeepsAio (fs : RegularFs) (worker : ThreadId) (s : AioState) (a : AioAction) :
    Decidable (KeepsAio fs worker s a) := by
  unfold KeepsAio
  split <;> infer_instance

structure AioInv (s : AioState) : Prop where
  progress : ∀ cb, s.pending cb = true → (s.cbs cb).result = -einprogress
  offset : ∀ cb, ¬s.Free cb → (s.cbs cb).work = .read → 0 ≤ (s.cbs cb).offset
  work : ∀ cb, ¬s.Free cb → (s.cbs cb).work ≠ .write

/-- Only files, memory and `errno` may differ. -/
structure SameRequests (s s' : AioState) : Prop where
  cbs : s'.cbs = s.cbs
  queue : s'.queue = s.queue
  current : s'.current = s.current
  pending : s'.pending = s.pending

section
variable {fs : RegularFs} {worker t : ThreadId} {s s' : AioState} {cb c : ObjectId} {d : AioFd}
  {fd offset whence : Int} {buf : BitVec 32} {len : Nat} {flush : Int} {work : AioWork}

theorem SameRequests.refl : SameRequests s s := ⟨rfl, rfl, rfl, rfl⟩

theorem SameRequests.trans {s1 : AioState} (h : SameRequests s s1) (h1 : SameRequests s1 s') :
    SameRequests s s' :=
  ⟨h1.cbs.trans h.cbs, h1.queue.trans h.queue, h1.current.trans h.current, h1.pending.trans h.pending⟩

theorem lseek_same : SameRequests s (s.lseek fs t fd offset whence).2 := by
  unfold AioState.lseek
  split
  next => exact ⟨rfl, rfl, rfl, rfl⟩
  next =>
    split
    next => exact ⟨rfl, rfl, rfl, rfl⟩
    next =>
      split
      next => exact ⟨rfl, rfl, rfl, rfl⟩
      next =>
        split
        next => exact ⟨rfl, rfl, rfl, rfl⟩
        next => exact ⟨rfl, rfl, rfl, rfl⟩

theorem read_same : SameRequests s (s.read fs t fd buf len).2 := by
  unfold AioState.read
  split
  next => exact ⟨rfl, rfl, rfl, rfl⟩
  next =>
    split
    next => exact ⟨rfl, rfl, rfl, rfl⟩
    next => exact ⟨rfl, rfl, rfl, rfl⟩

theorem write_same : SameRequests s (s.write fs t fd buf len).2 := by
  unfold AioState.write
  split
  next => exact ⟨rfl, rfl, rfl, rfl⟩
  next =>
    dsimp only
    split
    next => exact ⟨rfl, rfl, rfl, rfl⟩
    next => exact ⟨rfl, rfl, rfl, rfl⟩

theorem rtSetErrno_same {p : Prop} [Decidable p] {e : Int} :
    SameRequests s (if p then s.rtSetErrno t e else s) := by
  split
  next => exact ⟨rfl, rfl, rfl, rfl⟩
  next => exact .refl

theorem fcntlGetfl_same : SameRequests s (s.fcntlGetfl t fd).2 := rtSetErrno_same

/-- `fcntl` returns 0 whatever the flags are, and that is neither access mode at once. -/
theorem aioWrite_einval (s : AioState) (t : ThreadId) (cb : Option ObjectId) :
    (s.aioWrite t cb).1 = -einval ∧ SameRequests s (s.aioWrite t cb).2 := by
  cases cb with
  | none => exact ⟨rfl, .refl⟩
  | some cb =>
    unfold AioState.aioWrite
    dsimp only
    split
    next => exact ⟨rfl, .refl⟩
    next =>
      have hmode : BitVec.ofInt 32 (s.fcntlGetfl t (s.cbs cb).fildes).1 &&& oAccmode ≠ oWronly ∨
          BitVec.ofInt 32 (s.fcntlGetfl t (s.cbs cb).fildes).1 &&& oAccmode ≠ oRdwr := 
        .inl (show BitVec.ofInt 32 0 &&& oAccmode ≠ oWronly by decide)
      rw [if_pos hmode]
      exact ⟨rfl, fcntlGetfl_same⟩

/-- What a work function does to the requests. -/
theorem work_effect (fs : RegularFs) (s : AioState) (t : ThreadId) (cb : ObjectId) (flush : Int) :
    ∃ s1 result, SameRequests s s1 ∧ s.work fs t cb flush = s1.setResult cb result := by
  unfold AioState.work
  split
  next => exact ⟨_, _, lseek_same.trans read_same, rfl⟩
  next =>
    refine ⟨_, _, ?_, rfl⟩
    refine SameRequests.trans ?_ write_same
    split
    next => exact fcntlGetfl_same.trans lseek_same
    next => exact fcntlGetfl_same
  next => exact ⟨_, _, rtSetErrno_same, rfl⟩

theorem AioInv.same (h : AioInv s) (hs : SameRequests s s') : AioInv s' := by
  have hfree : ∀ c, s'.Free c ↔ s.Free c := by
    intro c
    unfold AioState.Free
    rw [hs.queue, hs.current]
  refine ⟨fun c hc => ?_, fun c hc hw => ?_, fun c hc => ?_⟩
  · rw [hs.pending] at hc
    rw [hs.cbs]
    exact h.progress c hc
  · rw [hfree] at hc
    rw [hs.cbs] at hw ⊢
    exact h.offset c hc hw
  · rw [hfree] at hc
    rw [hs.cbs]
    exact h.work c hc

theorem fill_inv (h : AioInv s) (cb : Option ObjectId) (hfree : ∀ c ∈ cb, s.Free c) (req : AioRequest) :
    AioInv (s.fill cb req) := by
  cases cb with
  | none => exact h
  | some cb =>
    have hne : ∀ c, ¬s.Free c → c ≠ cb := by
      rintro c hc rfl
      exact hc (hfree c rfl)
    refine ⟨fun c hc => ?_, fun c hc hw => ?_, fun c hc => ?_⟩
    · show (Function.update s.cbs cb _ c).result = _
      by_cases heq : c = cb
      · subst heq
        rw [Function.update_self]
        exact h.progress c hc
      · rw [Function.update_of_ne heq]
        exact h.progress c hc
    · change (Function.update s.cbs cb _ c).work = .read at hw
      show 0 ≤ (Function.update s.cbs cb _ c).offset
      rw [Function.update_of_ne (hne c hc)] at hw ⊢
      exact h.offset c hc hw
    · show (Function.update s.cbs cb _ c).work ≠ .write
      rw [Function.update_of_ne (hne c hc)]
      exact h.work c hc

/-- A request is submitted. -/
theorem submit_inv (h : AioInv s) (hwork : work ≠ .write) (hoffset : work = .read → 0 ≤ (s.cbs cb).offset) :
    AioInv (s.submit cb work) := by
  have hcbs : (s.submit cb work).cbs = Function.update s.cbs cb
      { s.cbs cb with result := -einprogress, work := work } := by
    unfold AioState.submit AioState.rtWorkqueueDowork
    split <;> rfl
  have hpending : (s.submit cb work).pending = Function.update s.pending cb true := by
    unfold AioState.submit AioState.rtWorkqueueDowork
    split <;> rfl
  have hwaits : ∀ c, c ≠ cb → ¬(s.submit cb work).Free c → ¬s.Free c := by
    intro c hc hnot hfree
    refine hnot ⟨?_, ?_⟩
    · unfold AioState.submit AioState.rtWorkqueueDowork
      split
      next => exact hfree.1
      next =>
        intro hmem
        rcases List.mem_append.mp hmem with hmem | hmem
        · exact hfree.1 hmem
        · exact hc (List.mem_singleton.mp hmem)
    · unfold AioState.submit AioState.rtWorkqueueDowork
      split
      next => exact hfree.2
      next => exact hfree.2
  refine ⟨fun c hc => ?_, fun c hc hw => ?_, fun c hc => ?_⟩
  · rw [hpending] at hc
    rw [hcbs]
    by_cases heq : c = cb
    · subst heq
      rw [Function.update_self]
    · rw [Function.update_of_ne heq] at hc ⊢
      exact h.progress c hc
  · rw [hcbs] at hw ⊢
    by_cases heq : c = cb
    · subst heq
      rw [Function.update_self] at hw ⊢
      exact hoffset hw
    · rw [Function.update_of_ne heq] at hw ⊢
      exact h.offset c (hwaits c heq hc) hw
  · rw [hcbs]
    by_cases heq : c = cb
    · subst heq
      rw [Function.update_self]
      exact hwork
    · rw [Function.update_of_ne heq]
      exact h.work c (hwaits c heq hc)

theorem run_inv (h : AioInv s) (hcurrent : s.current = some (cb, false)) :
    AioInv { s.work fs t cb flush with current := some (cb, true) } := by
  obtain ⟨s1, result, hsame, heq⟩ := work_effect fs s t cb flush
  rw [heq]
  have hwaits : ∀ c, ¬AioState.Free { s1.setResult cb result with current := some (cb, true) } c →
      ¬s.Free c := by
    intro c hnot hfree
    refine hnot ⟨?_, by simp⟩
    show c ∉ s1.queue
    rw [hsame.queue]
    exact hfree.1
  have hcbs : ∀ c, ({ s1.setResult cb result with current := some (cb, true) } : AioState).cbs c =
      if c = cb then { s.cbs cb with result := result } else s.cbs c := by
    intro c
    show Function.update s1.cbs cb { s1.cbs cb with result := result } c = _
    rw [hsame.cbs]
    exact Function.update_apply ..
  refine ⟨fun c hc => ?_, fun c hc hw => ?_, fun c hc => ?_⟩
  · change Function.update s1.pending cb false c = true at hc
    by_cases hccb : c = cb
    · subst hccb
      rw [Function.update_self] at hc
      exact absurd hc Bool.false_ne_true
    · rw [Function.update_of_ne hccb, hsame.pending] at hc
      rw [hcbs, if_neg hccb]
      exact h.progress c hc
  · have hold := h.offset c (hwaits c hc)
    rw [hcbs] at hw ⊢
    by_cases hccb : c = cb
    · subst hccb
      rw [if_pos rfl] at hw ⊢
      exact hold hw
    · rw [if_neg hccb] at hw ⊢
      exact hold hw
  · have hold := h.work c (hwaits c hc)
    rw [hcbs]
    by_cases hccb : c = cb
    · subst hccb
      rw [if_pos rfl]
      exact hold
    · rw [if_neg hccb]
      exact hold

theorem aioStep_inv {a : AioAction} (h : AioInv s) (hs : aioStep fs worker s a = some s') : AioInv s' := by
  cases a with
  | read cb req =>
    obtain ⟨hfree, hs⟩ := Option.ite_none_right_eq_some.mp hs
    obtain rfl := Option.some.inj hs
    have hfilled := fill_inv h cb hfree req
    cases cb with
    | none => exact hfilled
    | some cb =>
      unfold AioState.aioRead
      dsimp only
      split
      next => exact hfilled
      next hoffset => exact submit_inv hfilled (by decide) fun _ => by omega
  | write t cb req =>
    obtain ⟨hfree, hs⟩ := Option.ite_none_right_eq_some.mp hs
    obtain rfl := Option.some.inj hs
    exact (fill_inv h cb hfree req).same (aioWrite_einval _ t cb).2
  | fsync cb req =>
    obtain ⟨hfree, hs⟩ := Option.ite_none_right_eq_some.mp hs
    obtain rfl := Option.some.inj hs
    have hfilled := fill_inv h cb hfree req
    cases cb with
    | none => exact hfilled
    | some cb => exact submit_inv hfilled (by decide) fun hw => absurd hw (by decide)
  | take =>
    unfold aioStep at hs
    dsimp only at hs
    split at hs
    next cb rest hcurrent hqueue =>
      obtain rfl := Option.some.inj hs
      have hwaits : ∀ c, ¬AioState.Free { s with queue := rest, current := some (cb, false) } c →
          ¬s.Free c := by
        intro c hnot hfree
        rw [AioState.Free, hqueue] at hfree
        refine hnot ⟨fun hmem => hfree.1 (List.mem_cons_of_mem _ hmem), fun heq => hfree.1 ?_⟩
        obtain ⟨rfl, -⟩ := Prod.mk.inj (Option.some.inj heq)
        exact List.mem_cons_self
      exact ⟨h.progress, fun c hc => h.offset c (hwaits c hc), fun c hc => h.work c (hwaits c hc)⟩
    next => exact absurd hs (by simp)
  | run flush =>
    unfold aioStep at hs
    dsimp only at hs
    split at hs
    next cb hcurrent =>
      obtain rfl := Option.some.inj hs
      exact run_inv h hcurrent
    next => exact absurd hs (by simp)
  | finish =>
    unfold aioStep at hs
    dsimp only at hs
    split at hs
    next cb hcurrent =>
      obtain rfl := Option.some.inj hs
      have hwaits : ∀ c, ¬AioState.Free { s with current := none } c → ¬s.Free c :=
        fun c hnot hfree => hnot ⟨hfree.1, by simp⟩
      exact ⟨h.progress, fun c hc => h.offset c (hwaits c hc), fun c hc => h.work c (hwaits c hc)⟩
    next => exact absurd hs (by simp)
  | errno t e =>
    obtain rfl := Option.some.inj hs
    exact h.same ⟨rfl, rfl, rfl, rfl⟩

theorem AioStart.inv (h : AioStart s) : AioInv s := by
  have hfree : ∀ c, s.Free c := fun c => ⟨by simp [h.queue], by simp [h.current]⟩
  refine ⟨fun c hc => ?_, fun c hc => absurd (hfree c) hc, fun c hc => absurd (hfree c) hc⟩
  rw [h.pending] at hc
  exact absurd hc Bool.false_ne_true

theorem bytesAt_ne (p : BitVec 32) {data : List UInt8} (h : data ≠ []) : bytesAt p data ≠ [] := by
  intro hnil
  have hlength := congrArg List.length hnil
  rw [bytesAt, List.length_map, List.length_zipIdx, List.length_nil] at hlength
  exact h (List.length_eq_zero_iff.mp hlength)

/-- What `aio_read_work` stores and reports, once its `read` finds `data`. -/
theorem aioReadWork_eq {s1 : AioState} {data : List UInt8} {d1 : AioFd}
    (hstores : s1.stores = s.stores)
    (hseek : (s.lseek fs t (s.cbs cb).fildes (s.cbs cb).offset 0).2 = s1)
    (hfd : s1.fds (s.cbs cb).fildes = some d1)
    (hread : fs.read (s1.files d1.file) d1.flags d1.pos (s.cbs cb).nbytes = .ok data) :
    (s.aioReadWork fs t cb).stores = s.stores ++
        bytesAt ((s.cbs cb).buf + BitVec.ofInt 32 (s.cbs cb).offset) data ∧
      ((s.aioReadWork fs t cb).cbs cb).result = if data = [] then s1.errno t else 0 := by
  have hdata : s1.read fs t (s.cbs cb).fildes ((s.cbs cb).buf + BitVec.ofInt 32 (s.cbs cb).offset)
      (s.cbs cb).nbytes = ((data.length : Int), (s1.setFd (s.cbs cb).fildes
        { d1 with pos := d1.pos + data.length }).store
          ((s.cbs cb).buf + BitVec.ofInt 32 (s.cbs cb).offset) data) := by
    unfold AioState.read
    rw [hfd]
    dsimp only
    rw [hread]
  unfold AioState.aioReadWork
  dsimp only
  rw [hseek, hdata]
  refine ⟨?_, ?_⟩
  · show s1.stores ++ _ = _
    rw [hstores]
  · rw [AioState.setResult, AioState.setCb]
    dsimp only
    rw [Function.update_self]
    by_cases hnil : data = []
    · subst hnil
      rfl
    · have hpos := List.length_pos_of_ne_nil hnil
      rw [if_neg hnil]
      exact if_neg (by omega)

/-- `lseek` to an offset of a request. -/
theorem lseek_set (hfd : s.fds fd = some d) (hoffset : 0 ≤ offset) :
    (s.lseek fs t fd offset 0).2 =
      match fs.lseek (s.files d.file) d.flags offset.toNat with
      | .error e => s.rtSetErrno t e
      | .ok (content, pos) => (s.setFile d.file content).setFd fd { d with pos := pos } := by
  unfold AioState.lseek AioState.seekTarget
  rw [hfd]
  dsimp only
  rw [if_pos rfl]
  dsimp only
  rw [if_neg (by omega)]
  cases fs.lseek (s.files d.file) d.flags offset.toNat with
  | error e => rfl
  | ok r => rfl

theorem take_drop_eq_nil {content : List UInt8} {pos n : Nat} :
    (content.drop pos).take n = [] ↔ n = 0 ∨ content.length ≤ pos := by
  rw [List.take_eq_nil_iff, List.drop_eq_nil_iff]

/-- The answer of a read that has been executed is right just if there was nothing to read. -/
theorem readDone_iff (hfs : fs.Lawful) (hoffset : 0 ≤ (s.cbs cb).offset) :
    ReadDone s (s.aioReadWork fs t cb) cb ↔ ReadsNothing fs t s cb := by
  refine forall₂_congr fun d hfd => imp_congr_right fun hreadable => ?_
  have hseek : (s.lseek fs t (s.cbs cb).fildes (s.cbs cb).offset 0).2 = _ := lseek_set hfd hoffset
  have hasked : asked s (s.cbs cb).toAioRequest d = [] ↔
      (s.cbs cb).nbytes = 0 ∨ (s.files d.file).length ≤ (s.cbs cb).offset.toNat := take_drop_eq_nil
  cases hl : fs.lseek (s.files d.file) d.flags (s.cbs cb).offset.toNat with
  | error e =>
    rw [hl] at hseek
    have hkept : (s.rtSetErrno t e).stores = s.stores := rfl
    obtain ⟨hstores, hresult⟩ := aioReadWork_eq hkept hseek hfd
      (hfs.reads (s.files d.file) d (s.cbs cb).nbytes hreadable)
    have hpast : (s.files d.file).length < (s.cbs cb).offset.toNat := by
      by_contra hle
      rw [hfs.within _ d.flags _ (Nat.le_of_not_lt hle)] at hl
      exact absurd hl (by simp)
    refine iff_of_false ?_ fun hright => Bool.false_ne_true hright.2.2
    rintro ⟨hright, hcount⟩
    have hcount := hcount t
    rw [hasked.mpr (.inr hpast.le)] at hright hcount
    change ((s.aioReadWork fs t cb).cbs cb).result = 0 at hcount
    rw [hstores] at hright
    by_cases hnil : ((s.files d.file).drop d.pos).take (s.cbs cb).nbytes = []
    · rw [hresult, if_pos hnil] at hcount
      have hneg := hfs.refuses _ _ _ _ hl
      have herrno : (s.rtSetErrno t e).errno t = e := Function.update_self ..
      omega
    · exact bytesAt_ne _ hnil (List.append_cancel_left hright)
  | ok r =>
    obtain ⟨content, pos⟩ := r
    rw [hl] at hseek
    dsimp only at hseek
    obtain ⟨s1, hs1⟩ : ∃ s1, s1 = (s.setFile d.file content).setFd (s.cbs cb).fildes { d with pos := pos } :=
      ⟨_, rfl⟩
    have hkept : s1.stores = s.stores := by rw [hs1]; rfl
    have herrno : s1.errno = s.errno := by rw [hs1]; rfl
    have hfd1 : s1.fds (s.cbs cb).fildes = some { d with pos := pos } := by
      rw [hs1]
      exact Function.update_self ..
    have hread : fs.read (s1.files d.file) d.flags pos (s.cbs cb).nbytes =
        .ok ((content.drop pos).take (s.cbs cb).nbytes) := by
      have hfile : s1.files d.file = content := by
        rw [hs1]
        exact Function.update_self ..
      rw [hfile]
      exact hfs.reads content { d with pos := pos } (s.cbs cb).nbytes hreadable
    rw [← hs1] at hseek
    obtain ⟨hstores, hresult⟩ := aioReadWork_eq hkept hseek hfd1 hread
    have hdata : (content.drop pos).take (s.cbs cb).nbytes = asked s (s.cbs cb).toAioRequest d := by
      by_cases hle : (s.cbs cb).offset.toNat ≤ (s.files d.file).length
      · obtain ⟨rfl, rfl⟩ := Prod.mk.inj (Except.ok.inj ((hfs.within _ d.flags _ hle).symm.trans hl))
        rfl
      · rw [hasked.mpr (.inr (by omega)), take_drop_eq_nil]
        exact .inr (hfs.past _ _ _ _ _ (by omega) hl)
    rw [hdata] at hstores hresult
    rw [herrno] at hresult
    by_cases hnil : asked s (s.cbs cb).toAioRequest d = []
    · rw [if_pos hnil] at hresult
      rw [← hasked, hnil, hstores, hnil]
      constructor
      · rintro ⟨-, hcount⟩
        exact ⟨rfl, hresult.symm.trans (hcount t), rfl⟩
      · rintro ⟨-, herrno, -⟩
        exact ⟨rfl, fun _ => hresult.trans herrno⟩
    · refine iff_of_false ?_ fun hright => hnil (hasked.mpr hright.1)
      rintro ⟨-, hcount⟩
      have hcount := hcount t
      change ((s.aioReadWork fs t cb).cbs cb).result = _ at hcount
      rw [hresult, if_neg hnil] at hcount
      have hpos := List.length_pos_of_ne_nil hnil
      omega

theorem writeQueued_iff : WriteQueued s t cb ↔
    ((s.cbs cb).buf ≠ 0 → ∀ d ∈ s.fds (s.cbs cb).fildes, ¬d.Writable) := by
  refine imp_congr_right fun _ => forall₂_congr fun d _ => imp_congr_right fun _ => ?_
  refine iff_of_false ?_ id
  rintro ⟨hzero, -⟩
  rw [(aioWrite_einval s t (some cb)).1] at hzero
  exact absurd hzero (by decide)

/-- A step is right exactly if it meets the condition. -/
theorem aioRight_iff {a : AioAction} (hfs : fs.Lawful) (h : AioInv s) (hs : aioStep fs worker s a = some s') :
    KeepsAio fs worker s a ↔ AioRight fs worker s a := by
  have hprogress : ∀ s1 ∈ aioStep fs worker s a, ∀ c, s1.pending c = true →
      s1.aioError (some c) = -einprogress := fun s1 hs1 c hc => (aioStep_inv h hs1).progress c hc
  cases a with
  | write t cb req =>
    cases cb with
    | none => exact iff_of_true trivial ⟨hprogress, by simp, by simp⟩
    | some cb =>
      have hiff : WriteQueued (s.fill (some cb) req) t cb ↔ KeepsAio fs worker s (.write t (some cb) req) := by
        rw [writeQueued_iff]
        show ((Function.update s.cbs cb { s.cbs cb with toAioRequest := req } cb).buf ≠ 0 →
          ∀ d ∈ s.fds (Function.update s.cbs cb { s.cbs cb with toAioRequest := req } cb).fildes,
            ¬d.Writable) ↔ _
        rw [Function.update_self]
        exact Iff.rfl
      constructor
      · intro hkeeps
        refine ⟨hprogress, fun t' cb' req' heq => ?_, by simp⟩
        obtain ⟨rfl, hcb, rfl⟩ := AioAction.write.inj heq
        obtain rfl := Option.some.inj hcb
        exact hiff.mpr hkeeps
      · exact fun hright => hiff.mp (hright.queued t cb req rfl)
  | run flush =>
    unfold aioStep at hs
    dsimp only at hs
    split at hs
    next cb hcurrent =>
      obtain rfl := Option.some.inj hs
      have hrunning : s.running = some cb := by
        unfold AioState.running
        rw [hcurrent]
      have hwaits : ¬s.Free cb := fun hfree => hfree.2 hcurrent
      have hdone : (s.cbs cb).work = .read →
          (ReadDone s { s.work fs worker cb flush with current := some (cb, true) } cb ↔
            ReadsNothing fs worker s cb) := by
        intro hw
        have hwork : s.work fs worker cb flush = s.aioReadWork fs worker cb := by
          unfold AioState.work
          rw [hw]
        rw [hwork]
        exact readDone_iff hfs (h.offset cb hwaits hw)
      constructor
      · intro hkeeps
        refine ⟨hprogress, by simp, fun s1 hs1 flush' heq cb' hcb' => ?_⟩
        obtain rfl := AioAction.run.inj heq
        obtain rfl := Option.some.inj (hrunning.symm.trans hcb')
        have hstep : aioStep fs worker s (.run flush) =
            some { s.work fs worker cb flush with current := some (cb, true) } := by
          unfold aioStep
          dsimp only
          rw [hcurrent]
        obtain rfl := Option.some.inj (hstep.symm.trans hs1)
        exact ⟨fun hw => (hdone hw).mpr (hkeeps cb hrunning hw), fun hw => absurd hw (h.work cb hwaits)⟩
      · intro hright cb' hcb' hw
        obtain rfl := Option.some.inj (hrunning.symm.trans hcb')
        have hstep : aioStep fs worker s (.run flush) =
            some { s.work fs worker cb flush with current := some (cb, true) } := by
          unfold aioStep
          dsimp only
          rw [hcurrent]
        exact (hdone hw).mp ((hright.done _ hstep flush rfl cb hrunning).1 hw)
    next => exact absurd hs (by simp)
  | _ => exact iff_of_true trivial ⟨hprogress, by simp, by simp⟩

/-- A run of asynchronous requests is right at every step exactly if it meets the condition. -/
theorem aioRun_right_iff {as : List AioAction} (hfs : fs.Lawful) (hstart : AioStart s)
    (hrun : runFrom (aioStep fs worker) as s = some s') :
    RunMeets (aioStep fs worker) (AioRight fs worker) as s ↔
      RunMeets (aioStep fs worker) (KeepsAio fs worker) as s := by
  refine runMeets_iff (I := AioInv) (fun s a s' h hs => (aioRight_iff hfs h hs).symm)
    (fun s a s' h _ hs => aioStep_inv h hs) hstart.inv hrun

end

/-- `dfs_romfs_lseek` and `dfs_romfs_read`; there is no `write`. -/
def romFs : RegularFs where
  lseek content _ offset := if offset ≤ content.length then .ok (content, offset) else .error (-5)
  read content _ pos len := .ok ((content.drop pos).take len)
  write _ _ _ _ := .error (-38)

theorem romFs_lawful : romFs.Lawful where
  within _ _ _ hle := if_pos hle
  past _ _ _ _ _ hlt hok := absurd ((if_neg (by omega)).symm.trans hok) (by simp)
  refuses content flags offset e herror := by
    change (if offset ≤ content.length then _ else _) = _ at herror
    split at herror
    next => exact absurd herror (by simp)
    next =>
      obtain rfl := Except.error.inj herror
      decide
  reads _ _ _ _ := rfl

/-- Descriptor 3 reads a file of three bytes. -/
def aioIdle : AioState where
  fds fd := if fd = 3 then some ⟨0, 0, 3, 0⟩ else none
  files _ := [97, 98, 99]
  mem _ := 0
  stores := []
  errno _ := 0
  cbs _ := ⟨⟨0, 0, 0, 0⟩, 0, .fsync⟩
  queue := []
  current := none
  pending _ := false

theorem aioIdle_start : AioStart aioIdle := ⟨rfl, rfl, fun _ => rfl⟩

/-- A read of two bytes at the end of the file. -/
def endRead : List AioAction := [.read (some 1) ⟨3, 3, 4096, 2⟩, .take, .run 0, .finish]

theorem endRead_some : (runFrom (aioStep romFs 9) endRead aioIdle).isSome = true := by
  decide +kernel

theorem aioRun_right_iff_end : RunMeets (aioStep romFs 9) (AioRight romFs 9) endRead aioIdle :=
  (aioRun_right_iff romFs_lawful aioIdle_start (Option.some_get endRead_some).symm).mpr
    (by decide +kernel)

/-- A read of the three bytes, up to where the worker calls its function. -/
def wholeRead : List AioAction := [.read (some 1) ⟨3, 0, 4096, 3⟩, .take]

theorem wholeRead_some : (runFrom (aioStep romFs 9) (wholeRead ++ [.run 0]) aioIdle).isSome = true := by
  decide +kernel

/-- All three bytes are read and `aio_return` gives 0. -/
theorem wholeRead_wrong : ¬∀ fs worker s as s', RegularFs.Lawful fs → AioStart s →
    runFrom (aioStep fs worker) as s = some s' → RunMeets (aioStep fs worker) (AioRight fs worker) as s := by
  intro hclaim
  have hmeets := hclaim romFs 9 aioIdle (wholeRead ++ [.run 0]) _ romFs_lawful aioIdle_start
    (Option.some_get wholeRead_some).symm
  have hbefore : (runFrom (aioStep romFs 9) wholeRead aioIdle).isSome = true := by decide +kernel
  obtain ⟨s, hs⟩ := Option.isSome_iff_exists.mp hbefore
  have hright := hmeets.last hs
  have hlast : ∃ s' ∈ aioStep romFs 9 s (.run 0), s.running = some 1 ∧ (s.cbs 1).work = .read ∧
      s.fds (s.cbs 1).fildes = some ⟨0, 0, 3, 0⟩ ∧ (s'.cbs 1).result = 0 ∧
      (asked s (s.cbs 1).toAioRequest ⟨0, 0, 3, 0⟩).length = 3 := by
    have hall : ∀ s ∈ runFrom (aioStep romFs 9) wholeRead aioIdle, ∃ s' ∈ aioStep romFs 9 s (.run 0),
        s.running = some 1 ∧ (s.cbs 1).work = .read ∧
        s.fds (s.cbs 1).fildes = some ⟨0, 0, 3, 0⟩ ∧ (s'.cbs 1).result = 0 ∧
        (asked s (s.cbs 1).toAioRequest ⟨0, 0, 3, 0⟩).length = 3 := by
      decide +kernel
    exact hall s hs
  obtain ⟨s', hs', hrunning, hwork, hfd, hresult, hlength⟩ := hlast
  have hcount := (((hright.done s' hs' 0 rfl 1 hrunning).1 hwork) _ hfd (.inl (by decide))).2 0
  change (s'.cbs 1).result = _ at hcount
  rw [hresult, hlength] at hcount
  exact absurd hcount (by decide)

end RTThread
