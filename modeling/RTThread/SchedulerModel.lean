import RTThread.BitSets
import RTThread.Threads
import RTThread.Runs

namespace RTThread

/-- `__lowest_bit_bitmap`. -/
def lowestBitBitmap : List Nat :=
  [0, 0, 1, 0, 2, 0, 1, 0, 3, 0, 1, 0, 2, 0, 1, 0,
   4, 0, 1, 0, 2, 0, 1, 0, 3, 0, 1, 0, 2, 0, 1, 0,
   5, 0, 1, 0, 2, 0, 1, 0, 3, 0, 1, 0, 2, 0, 1, 0,
   4, 0, 1, 0, 2, 0, 1, 0, 3, 0, 1, 0, 2, 0, 1, 0,
   6, 0, 1, 0, 2, 0, 1, 0, 3, 0, 1, 0, 2, 0, 1, 0,
   4, 0, 1, 0, 2, 0, 1, 0, 3, 0, 1, 0, 2, 0, 1, 0,
   5, 0, 1, 0, 2, 0, 1, 0, 3, 0, 1, 0, 2, 0, 1, 0,
   4, 0, 1, 0, 2, 0, 1, 0, 3, 0, 1, 0, 2, 0, 1, 0,
   7, 0, 1, 0, 2, 0, 1, 0, 3, 0, 1, 0, 2, 0, 1, 0,
   4, 0, 1, 0, 2, 0, 1, 0, 3, 0, 1, 0, 2, 0, 1, 0,
   5, 0, 1, 0, 2, 0, 1, 0, 3, 0, 1, 0, 2, 0, 1, 0,
   4, 0, 1, 0, 2, 0, 1, 0, 3, 0, 1, 0, 2, 0, 1, 0,
   6, 0, 1, 0, 2, 0, 1, 0, 3, 0, 1, 0, 2, 0, 1, 0,
   4, 0, 1, 0, 2, 0, 1, 0, 3, 0, 1, 0, 2, 0, 1, 0,
   5, 0, 1, 0, 2, 0, 1, 0, 3, 0, 1, 0, 2, 0, 1, 0,
   4, 0, 1, 0, 2, 0, 1, 0, 3, 0, 1, 0, 2, 0, 1, 0]

def lowestBit (byte : BitVec 32) : Nat := lowestBitBitmap.getD byte.toNat 0

/-- `__rt_ffs`. -/
def rtFfs (value : BitVec 32) : Nat :=
  if value = 0 then 0
  else if value &&& 0xff ≠ 0 then lowestBit (value &&& 0xff) + 1
  else if value &&& 0xff00 ≠ 0 then lowestBit ((value &&& 0xff00) >>> 8) + 9
  else if value &&& 0xff0000 ≠ 0 then lowestBit ((value &&& 0xff0000) >>> 16) + 17
  else lowestBit ((value &&& 0xff000000) >>> 24) + 25

/-- `RT_THREAD_PRIORITY_MAX`, which selects one of the two layouts. -/
structure SchedConfig where
  priorityMax : Nat
  pos : 0 < priorityMax
  le : priorityMax ≤ 256

/-- The priority attributes of a thread; the layout for at most 32 priorities has only the first. -/
structure PriorityMasks where
  numberMask : BitVec 32
  number : Nat
  highMask : BitVec 8
deriving DecidableEq, Repr

def noMasks : PriorityMasks := ⟨0, 0, 0⟩

def priorityMasks (cfg : SchedConfig) (priority : Nat) : PriorityMasks :=
  if cfg.priorityMax ≤ 32 then ⟨1#32 <<< priority, 0, 0⟩
  else ⟨1#32 <<< (priority / 8), priority / 8, 1#8 <<< (priority % 8)⟩

/-- `rt_thread_ready_priority_group` and `rt_thread_ready_table`. -/
structure ReadyMap where
  group : BitVec 32
  table : Nat → BitVec 8

def ReadyMap.setMask (cfg : SchedConfig) (m : ReadyMap) (x : PriorityMasks) : ReadyMap :=
  { group := m.group ||| x.numberMask
    table := if cfg.priorityMax ≤ 32 then m.table
      else Function.update m.table x.number (m.table x.number ||| x.highMask) }

def ReadyMap.clearMask (cfg : SchedConfig) (m : ReadyMap) (x : PriorityMasks) : ReadyMap :=
  if cfg.priorityMax ≤ 32 then { m with group := m.group &&& ~~~x.numberMask }
  else
    let table := Function.update m.table x.number (m.table x.number &&& ~~~x.highMask)
    { group := if table x.number = 0 then m.group &&& ~~~x.numberMask else m.group
      table := table }

/-- The index `rt_schedule` computes. -/
def ReadyMap.highest (cfg : SchedConfig) (m : ReadyMap) : Nat :=
  if cfg.priorityMax ≤ 32 then rtFfs m.group - 1
  else
    let number := rtFfs m.group - 1
    number * 8 + rtFfs ((m.table number).setWidth 32) - 1

/-- The lists a thread's `tlist` node can be on. -/
inductive ListHead where
  | ready (priority : Nat)
  | suspended (q : ObjectId)
  | defunct
deriving DecidableEq, Repr

structure SchedThread extends Thread where
  masks : PriorityMasks
  cleanup : Bool
  systemObject : Bool

structure Scheduler where
  thread : ThreadId → SchedThread
  list : ListHead → List ThreadId
  readyMap : ReadyMap
  currentThread : Option ThreadId
  currentPriority : Nat
  lockNest : BitVec 16

namespace Scheduler

def set (s : Scheduler) (t : ThreadId) (f : SchedThread → SchedThread) : Scheduler :=
  { s with thread := Function.update s.thread t (f (s.thread t)) }

/-- `rt_list_remove(&(thread->tlist))`. -/
def rtListRemove (s : Scheduler) (t : ThreadId) : Scheduler :=
  { s with list := fun h => (s.list h).filter (· ≠ t) }

/-- `rt_list_insert_before(head, &(thread->tlist))`. -/
def insertBefore (s : Scheduler) (h : ListHead) (t : ThreadId) : Scheduler :=
  { s with list := Function.update s.list h (s.list h ++ [t]) }

/-- `rt_list_insert_after(head, &(thread->tlist))`. -/
def insertAfter (s : Scheduler) (h : ListHead) (t : ThreadId) : Scheduler :=
  { s with list := Function.update s.list h (t :: s.list h) }

def rtScheduleInsertThread (cfg : SchedConfig) (s : Scheduler) (t : ThreadId) : Scheduler :=
  let s := s.set t fun x => { x with stat := .ready }
  let s := s.insertBefore (.ready (s.thread t).currentPriority) t
  { s with readyMap := s.readyMap.setMask cfg (s.thread t).masks }

def rtScheduleRemoveThread (cfg : SchedConfig) (s : Scheduler) (t : ThreadId) : Scheduler :=
  let s := s.rtListRemove t
  if s.list (.ready (s.thread t).currentPriority) = [] then
    { s with readyMap := s.readyMap.clearMask cfg (s.thread t).masks }
  else s

/-- With no ready thread the index points outside the ready lists. -/
def rtSchedule (cfg : SchedConfig) (s : Scheduler) : Option Scheduler :=
  if s.lockNest = 0 then
    let highest := s.readyMap.highest cfg
    (s.list (.ready highest)).head?.map fun toThread =>
      if s.currentThread = some toThread then s
      else { s with currentPriority := highest, currentThread := some toThread }
  else some s

/-- `rt_timer_stop` or `rt_timer_detach` on the thread timer. -/
def stopThreadTimer (s : Scheduler) (t : ThreadId) : Scheduler :=
  s.set t fun x => { x with timerActive := false }

def rtThreadSuspend (cfg : SchedConfig) (s : Scheduler) (t : ThreadId) : Err × Scheduler :=
  if (s.thread t).stat = .ready then
    (.eok, ((s.set t fun x => { x with stat := .suspend }).rtScheduleRemoveThread cfg t).stopThreadTimer t)
  else (.error, s)

def rtThreadResume (cfg : SchedConfig) (s : Scheduler) (t : ThreadId) : Err × Scheduler :=
  if (s.thread t).stat = .suspend then
    (.eok, ((s.rtListRemove t).stopThreadTimer t).rtScheduleInsertThread cfg t)
  else (.error, s)

def rtThreadStartup (cfg : SchedConfig) (s : Scheduler) (t : ThreadId) : Option Scheduler :=
  if (s.thread t).stat = .init then
    let s := s.set t fun x =>
      { x with
        currentPriority := x.initPriority
        masks := priorityMasks cfg x.initPriority
        stat := .suspend }
    let s := (s.rtThreadResume cfg t).2
    if s.currentThread = none then some s else s.rtSchedule cfg
  else none

/-- `rt_thread_exit`; `rt_object_detach` leaves the node on no list. -/
def rtThreadExit (cfg : SchedConfig) (s : Scheduler) : Option Scheduler :=
  s.currentThread.bind fun t =>
    let s := (s.rtScheduleRemoveThread cfg t).set t fun x => { x with stat := .close }
    let s := s.stopThreadTimer t
    let s := if (s.thread t).systemObject = true ∧ (s.thread t).cleanup = false then s
      else s.insertAfter .defunct t
    s.rtSchedule cfg

/-- What `rt_thread_detach` and `rt_thread_delete` begin with. -/
def closeThread (cfg : SchedConfig) (s : Scheduler) (t : ThreadId) : Scheduler :=
  let s := if (s.thread t).stat ≠ .init then s.rtScheduleRemoveThread cfg t else s
  (s.stopThreadTimer t).set t fun x => { x with stat := .close }

def rtThreadDetach (cfg : SchedConfig) (s : Scheduler) (t : ThreadId) : Scheduler :=
  let s := s.closeThread cfg t
  if (s.thread t).cleanup = true then s.insertAfter .defunct t else s

def rtThreadDelete (cfg : SchedConfig) (s : Scheduler) (t : ThreadId) : Scheduler :=
  (s.closeThread cfg t).insertAfter .defunct t

/-- The node of a ready thread is on its ready list; with another node there next and prev differ. -/
def rtThreadYield (cfg : SchedConfig) (s : Scheduler) : Option Scheduler :=
  s.currentThread.bind fun t =>
    let head := ListHead.ready (s.thread t).currentPriority
    if (s.thread t).stat = .ready ∧ s.list head ≠ [t] then
      ((s.rtListRemove t).insertBefore head t).rtSchedule cfg
    else some s

/-- `rt_thread_sleep` up to the switch; the thread timer is started with any tick. -/
def rtThreadSleep (cfg : SchedConfig) (s : Scheduler) : Option Scheduler :=
  s.currentThread.bind fun t =>
    ((s.rtThreadSuspend cfg t).2.set t fun x => { x with timerActive := true }).rtSchedule cfg

/-- The timer check unlinks the expired thread timer and calls this. -/
def rtThreadTimeout (cfg : SchedConfig) (s : Scheduler) (t : ThreadId) : Option Scheduler :=
  if (s.thread t).stat = .suspend then
    let s := s.set t fun x => { x with error := .etimeout, timerActive := false }
    ((s.rtListRemove t).rtScheduleInsertThread cfg t).rtSchedule cfg
  else none

def setPriority (cfg : SchedConfig) (s : Scheduler) (t : ThreadId) (priority : Nat) : Scheduler :=
  s.set t fun x =>
    { x with currentPriority := priority, masks := priorityMasks cfg priority }

/-- `RT_THREAD_CTRL_CHANGE_PRIORITY`. -/
def changePriority (cfg : SchedConfig) (s : Scheduler) (t : ThreadId) (priority : Nat) : Scheduler :=
  if (s.thread t).stat = .ready then
    ((s.rtScheduleRemoveThread cfg t).setPriority cfg t priority).rtScheduleInsertThread cfg t
  else s.setPriority cfg t priority

def insertWaiter (s : Scheduler) (q : ObjectId) (t : ThreadId) : IpcFlag → List ThreadId
  | .fifo => s.list (.suspended q) ++ [t]
  | .prio => insertByPriority (fun n => (s.thread n).currentPriority) t (s.list (.suspended q))

def rtIpcListSuspend (cfg : SchedConfig) (s : Scheduler) (q : ObjectId) (t : ThreadId)
    (flag : IpcFlag) : Scheduler :=
  let s := (s.rtThreadSuspend cfg t).2
  { s with list := Function.update s.list (.suspended q) (s.insertWaiter q t flag) }

def rtSystemSchedulerStart (cfg : SchedConfig) (s : Scheduler) : Option Scheduler :=
  (s.list (.ready (s.readyMap.highest cfg))).head?.map fun toThread =>
    { s with currentThread := some toThread }

def rtEnterCritical (s : Scheduler) : Scheduler := { s with lockNest := s.lockNest + 1 }

def rtExitCritical (cfg : SchedConfig) (s : Scheduler) : Option Scheduler :=
  if (s.lockNest - 1).sle 0 then rtSchedule cfg { s with lockNest := 0 }
  else some { s with lockNest := s.lockNest - 1 }

end Scheduler

/-- `block` is the section of an IPC call in which the running thread suspends itself on `q`. -/
inductive SchedCall where
  | startup (t : ThreadId)
  | suspend (t : ThreadId)
  | resume (t : ThreadId)
  | yield
  | sleep
  | timeout (t : ThreadId)
  | changePriority (t : ThreadId) (priority : Nat)
  | detach (t : ThreadId)
  | delete (t : ThreadId)
  | exit
  | block (q : ObjectId) (flag : IpcFlag)
  | schedule
  | schedulerStart
  | enterCritical
  | exitCritical
deriving DecidableEq, Repr

def schedStep (cfg : SchedConfig) (s : Scheduler) : SchedCall → Option Scheduler
  | .startup t => s.rtThreadStartup cfg t
  | .suspend t => some (s.rtThreadSuspend cfg t).2
  | .resume t => some (s.rtThreadResume cfg t).2
  | .yield => s.rtThreadYield cfg
  | .sleep => s.rtThreadSleep cfg
  | .timeout t => s.rtThreadTimeout cfg t
  | .changePriority t priority => some (s.changePriority cfg t priority)
  | .detach t => some (s.rtThreadDetach cfg t)
  | .delete t => some (s.rtThreadDelete cfg t)
  | .exit => s.rtThreadExit cfg
  | .block q flag => s.currentThread.bind fun t =>
    if (s.thread t).stat = .ready then some (s.rtIpcListSuspend cfg q t flag) else none
  | .schedule => s.rtSchedule cfg
  | .schedulerStart => s.rtSystemSchedulerStart cfg
  | .enterCritical => some s.rtEnterCritical
  | .exitCritical => s.rtExitCritical cfg

/-- After `rt_system_scheduler_init`, with threads as `_rt_thread_init` leaves them. -/
structure SchedulerInit (cfg : SchedConfig) (s : Scheduler) : Prop where
  list : ∀ h, s.list h = []
  group : s.readyMap.group = 0
  table : s.readyMap.table = fun _ => 0
  currentThread : s.currentThread = none
  currentPriority : s.currentPriority = cfg.priorityMax - 1
  lockNest : s.lockNest = 0
  stat : ∀ t, (s.thread t).stat = .init
  priority : ∀ t, (s.thread t).initPriority < cfg.priorityMax ∧
    (s.thread t).currentPriority = (s.thread t).initPriority
  masks : ∀ t, (s.thread t).masks = noMasks

end RTThread
