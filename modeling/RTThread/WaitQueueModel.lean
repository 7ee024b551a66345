import RTThread.Threads
import RTThread.Runs

namespace RTThread

/-- Where a thread stands with a wait queue: its condition was false and it is about to call
`rt_wqueue_wait`, `missed` if the queue was woken up since; it is in `rt_schedule()`; or it has
cleared the flag and is about to unlink its entry. -/
inductive WqFrame where
  | outside
  | tested (q : ObjectId) (missed : Bool)
  | waiting (q : ObjectId)
  | leaving (q : ObjectId)
deriving DecidableEq, Repr

/-- `flag q` is `RT_WQ_FLAG_WAKEUP`; an entry of a `waiting_list` is named by its
`polling_thread`. -/
structure WqState extends Threads where
  flag : ObjectId → Bool
  waitingList : ObjectId → List ThreadId
  frame : ThreadId → WqFrame

namespace WqState

def setFlag (s : WqState) (q : ObjectId) (b : Bool) : WqState :=
  { s with flag := Function.update s.flag q b }

def setFrame (s : WqState) (t : ThreadId) (f : WqFrame) : WqState :=
  { s with frame := Function.update s.frame t f }

def rtWqueueAdd (s : WqState) (q : ObjectId) (t : ThreadId) : WqState :=
  { s with waitingList := Function.update s.waitingList q (s.waitingList q ++ [t]) }

def rtWqueueRemove (s : WqState) (t : ThreadId) : WqState :=
  { s with waitingList := fun q => (s.waitingList q).filter (· ≠ t) }

/-- `rt_wqueue_wait` up to `rt_schedule()`, or to where it has cleared the flag of a queue that is
already woken up; `RT_WAITING_FOREVER` is -1. -/
def rtWqueueWait (s : WqState) (q : ObjectId) (t : ThreadId) (tick : Int) : WqState :=
  if tick = 0 then s.setFrame t .outside
  else if s.flag q then (s.setFlag q false).setFrame t (.leaving q)
  else
    let threads := rtThreadSuspend s.toThreads t
    { s.rtWqueueAdd q t with
      toThreads := if tick = -1 then threads else startThreadTimer threads t }.setFrame t (.waiting q)

/-- `rt_wqueue_wait` after `rt_schedule()`, with interrupts disabled again. -/
def waitLeave (s : WqState) (t : ThreadId) (q : ObjectId) : WqState :=
  (s.setFlag q false).setFrame t (.leaving q)

/-- A thread that has tested its condition hears of the wake-up. -/
def hear (q : ObjectId) : WqFrame → WqFrame
  | .tested r missed => .tested r (missed || r = q)
  | f => f

/-- `rt_wqueue_wakeup`; `__wqueue_default_wake` accepts every key. -/
def rtWqueueWakeup (s : WqState) (q : ObjectId) : WqState :=
  let s := { s.setFlag q true with frame := fun t => hear q (s.frame t) }
  match s.waitingList q with
  | [] => s
  | t :: _ => { s with toThreads := rtThreadResume s.toThreads t }.rtWqueueRemove t

end WqState

inductive WqAction where
  | test (t : ThreadId) (q : ObjectId)
  | wait (t : ThreadId) (tick : Int)
  | leave (t : ThreadId)
  | remove (t : ThreadId)
  | wakeup (q : ObjectId)
  | timeout (t : ThreadId)

/-- A thread runs when it is ready; `rt_wqueue_wakeup` is called by threads and interrupts. -/
def wqStep (s : WqState) : WqAction → Option WqState
  | .test t q =>
    if (s.thread t).stat = .ready ∧ s.frame t = .outside then some (s.setFrame t (.tested q false))
    else none
  | .wait t tick =>
    match s.frame t with
    | .tested q _ => if (s.thread t).stat = .ready then some (s.rtWqueueWait q t tick) else none
    | _ => none
  | .leave t =>
    match s.frame t with
    | .waiting q => if (s.thread t).stat = .ready then some (s.waitLeave t q) else none
    | _ => none
  | .remove t =>
    match s.frame t with
    | .leaving _ =>
      if (s.thread t).stat = .ready then some ((s.rtWqueueRemove t).setFrame t .outside) else none
    | _ => none
  | .wakeup q => some (s.rtWqueueWakeup q)
  | .timeout t =>
    (rtThreadTimeout s.toThreads t).map fun threads => { s with toThreads := threads }

/-- Wait queues after `rt_wqueue_init`, and no thread at one. -/
structure WqStart (s : WqState) : Prop where
  flag : ∀ q, s.flag q = false
  waitingList : ∀ q, s.waitingList q = []
  frame : ∀ t, s.frame t = .outside

/-- A waiting thread of the queue has not timed out: it is still suspended. -/
def Waits (s : WqState) (q : ObjectId) (t : ThreadId) : Prop :=
  t ∈ s.waitingList q ∧ (s.thread t).stat = .suspend

/-- If a thread waits at the queue, one that does becomes ready. -/
def WakesWaiter (q : ObjectId) (s s' : WqState) : Prop :=
  (∃ t, Waits s q t) → ∃ t, Waits s q t ∧ (s'.thread t).stat = .ready

/-- The flag is set for a thread that has missed a wake-up since it tested its condition. -/
def NotErased (s : WqState) : Prop := ∀ t q, s.frame t = .tested q true → s.flag q = true

/-- A wake-up reaches a waiting thread, and none that a thread has missed is erased. -/
def WakeupReaches (s : WqState) (a : WqAction) : Prop :=
  ∀ s' ∈ wqStep s a, (∀ q, a = .wakeup q → WakesWaiter q s s') ∧ NotErased s'

/-- No thread but `t` has missed a wake-up of the queue since it tested its condition. -/
def NoneMissed (s : WqState) (q : ObjectId) (t : ThreadId) : Prop :=
  ∀ u, u ≠ t → s.frame u ≠ .tested q true

/-- A queue is woken up with a suspended thread in front if there is one in the list at all, and a
thread clears the flag while no other has missed a wake-up. -/
def KeepsWakeup (s : WqState) : WqAction → Prop
  | .wakeup q => (∃ t, Waits s q t) → ∃ t, (s.waitingList q).head? = some t ∧ (s.thread t).stat = .suspend
  | .wait t tick =>
    ∀ q missed, s.frame t = .tested q missed → tick = 0 ∨ s.flag q = false ∨ NoneMissed s q t
  | .leave t => ∀ q, s.frame t = .waiting q → NoneMissed s q t
  | _ => True

end RTThread
