import RTThread.HeapModel
import RTThread.Threads
import RTThread.Runs

namespace RTThread

/-- `struct rt_mempool`; the list of its suspended threads is kept with the threads. -/
structure MemPool where
  startAddress : Nat
  size : Nat
  blockSize : Nat
  blockList : Nat
  blockTotalCount : Nat
  blockFreeCount : Nat
  suspendThreadCount : Nat
deriving DecidableEq, Repr

/-- The loop that links each block to the next; `stride` is the block size with its pointer. -/
def linkBlocks (m : Memory) (blockPtr stride : Nat) : Nat → Memory
  | 0 => m
  | count + 1 =>
    write32 (linkBlocks m blockPtr stride count) (word (blockPtr + count * stride))
      (word (blockPtr + (count + 1) * stride))

/-- The block list built in place, with the last block's link cleared. -/
def initBlockList (m : Memory) (blockPtr stride count : Nat) : Memory :=
  write32 (linkBlocks m blockPtr stride count) (word (blockPtr + wordSub count 1 * stride)) 0

def rtMpInit (A : AlignSize) (m : Memory) (start size blockSize : Nat) : Memory × MemPool :=
  let size := rtAlignDown A size
  let blockSize := rtAlign A blockSize
  let total := size / word (blockSize + 4)
  (initBlockList m start (word (blockSize + 4)) total,
    ⟨start, size, blockSize, start, total, total, 0⟩)

/-- `start` is what `rt_malloc` returned for the blocks. -/
def rtMpCreate (A : AlignSize) (m : Memory) (start blockCount blockSize : Nat) :
    Option (Memory × MemPool) :=
  let blockSize := rtAlign A blockSize
  if start = 0 then none
  else
    some (initBlockList m start (word (blockSize + 4)) blockCount,
      ⟨start, word (word (blockSize + 4) * blockCount), blockSize, start, blockCount, blockCount, 0⟩)

/-- Where a thread stands inside `rt_mp_alloc`: in `rt_schedule()`, or back from it and about to
disable interrupts for the next turn of the loop. -/
inductive AllocFrame where
  | outside
  | waiting (pool : ObjectId) (time : Int) (beforeSleep : Nat)
  | again (pool : ObjectId) (time : Int)
deriving DecidableEq, Repr

structure PoolState extends Threads where
  pool : ObjectId → MemPool
  mem : Memory
  tick : Nat
  frame : ThreadId → AllocFrame

def PoolState.setPool (s : PoolState) (p : ObjectId) (f : MemPool → MemPool) : PoolState :=
  { s with pool := Function.update s.pool p (f (s.pool p)) }

def PoolState.setFrame (s : PoolState) (t : ThreadId) (f : AllocFrame) : PoolState :=
  { s with frame := Function.update s.frame t f }

/-- Suspend the thread and insert it after the list head, that is first. -/
def suspendOnPool (s : Threads) (p : ObjectId) (t : ThreadId) : Threads :=
  let s := rtThreadSuspend (setError s t .eok) t
  { s with waiters := Function.update s.waiters p (t :: s.waiters p) }

/-- A turn of the loop of `rt_mp_alloc` that finds no free block and waits. -/
def mpWait (s : PoolState) (p : ObjectId) (t : ThreadId) (time : Int) : PoolState :=
  let threads := suspendOnPool s.toThreads p t
  let s' := s.setPool p fun x => { x with suspendThreadCount := word (x.suspendThreadCount + 1) }
  { s' with toThreads := if 0 < time then startThreadTimer threads t else threads }.setFrame t
    (.waiting p time (if 0 < time then s.tick else 0))

/-- Take the first block of the list and leave the pool's address in its link. -/
def mpTakeBlock (s : PoolState) (p : ObjectId) : Option PoolState := do
  let blockPtr := (s.pool p).blockList
  rtAssert (blockPtr ≠ 0)
  some { s.setPool p fun x =>
      { x with blockFreeCount := x.blockFreeCount - 1, blockList := read32 s.mem blockPtr } with
    mem := write32 s.mem blockPtr p }

/-- `rt_mp_alloc` from where it has interrupts disabled to `rt_schedule()` or its return. -/
def mpAllocSection (s : PoolState) (p : ObjectId) (t : ThreadId) (time : Int) : Option PoolState :=
  if (s.pool p).blockFreeCount = 0 then
    if time = 0 then some (s.setFrame t .outside) else some (mpWait s p t time)
  else (mpTakeBlock s p).map fun s => s.setFrame t .outside

/-- `time -= rt_tick_get() - before_sleep`, and no less than zero. -/
def remainingTime (time : Int) (tick beforeSleep : Nat) : Int :=
  if 0 < time then max 0 (Int.bmod (time - wordSub tick beforeSleep) 4294967296) else time

/-- `rt_schedule()` has returned inside `rt_mp_alloc`. -/
def mpWake (s : PoolState) (t : ThreadId) : Option PoolState :=
  match s.frame t with
  | .waiting p time beforeSleep =>
    if (s.thread t).error ≠ .eok then some (s.setFrame t .outside)
    else some (s.setFrame t (.again p (remainingTime time s.tick beforeSleep)))
  | _ => none

/-- Wake the first suspended thread. On an empty list the entry taken would be the list head, which
is no thread. -/
def mpResumeFirst (s : PoolState) (p : ObjectId) : Option PoolState :=
  match s.waiters p with
  | [] => none
  | n :: _ =>
    let s' := s.setPool p fun x => { x with suspendThreadCount := wordSub x.suspendThreadCount 1 }
    some { s' with toThreads := rtThreadResume (setError s.toThreads n .eok) n }

/-- The pool is found through the link word in front of the block. -/
def rtMpFree (s : PoolState) (block : Nat) : Option PoolState :=
  let blockPtr := wordSub block 4
  let p := read32 s.mem blockPtr
  let s' := s.setPool p fun x =>
    { x with blockFreeCount := word (x.blockFreeCount + 1), blockList := blockPtr }
  let s' := { s' with mem := write32 s.mem blockPtr (s.pool p).blockList }
  if 0 < (s.pool p).suspendThreadCount then mpResumeFirst s' p else some s'

/-- What can happen next; `free` also comes from interrupts. -/
inductive PoolAction where
  | alloc (t : ThreadId) (p : ObjectId) (time : Int)
  | wake (t : ThreadId)
  | again (t : ThreadId)
  | free (block : Nat)
  | timeout (t : ThreadId)
  | tick

def poolStep (s : PoolState) : PoolAction → Option PoolState
  | .alloc t p time =>
    if (s.thread t).stat = .ready ∧ s.frame t = .outside then mpAllocSection s p t time else none
  | .wake t => if (s.thread t).stat = .ready then mpWake s t else none
  | .again t =>
    match s.frame t with
    | .again p time => if (s.thread t).stat = .ready then mpAllocSection s p t time else none
    | _ => none
  | .free block => rtMpFree s block
  | .timeout t => (rtThreadTimeout s.toThreads t).map fun threads => { s with toThreads := threads }
  | .tick => some { s with tick := word (s.tick + 1) }

/-- Every pool just initialised or created, and nobody inside `rt_mp_alloc`. -/
structure PoolStart (A : AlignSize) (s : PoolState) : Prop where
  frame : ∀ t, s.frame t = .outside
  timer : ∀ t, (s.thread t).timerActive = false
  waiters : ∀ p, s.waiters p = []
  pool : ∀ p, ∃ m start size blockSize, s.pool p = (rtMpInit A m start size blockSize).2 ∨
    ∃ m', rtMpCreate A m start size blockSize = some (m', s.pool p)

end RTThread
