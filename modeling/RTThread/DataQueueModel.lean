import RTThread.IpcLists
import RTThread.Runs

namespace RTThread

structure DataItem where
  dataPtr : Nat
  dataSize : Nat
deriving DecidableEq, Repr

/-- `struct rt_data_queue`; its two lists of suspended threads are kept with the threads, and of the
notify function only whether there is one. -/
structure DataQueue where
  size : Nat
  lwm : Nat
  getIndex : Nat
  putIndex : Nat
  queue : Nat → DataItem
  evtNotify : Bool

/-- The numbers are 16 bits wide; `queue` is what `rt_malloc` returned, unless it returned null. -/
def rtDataQueueInit (queue : Nat → DataItem) (size lwm : Nat) (evtNotify : Bool) : DataQueue :=
  ⟨size % 65536, lwm % 65536, 0, 0, queue, evtNotify⟩

/-- A call of `rt_data_queue_push` or of `rt_data_queue_pop`. -/
inductive DqCall where
  | push (item : DataItem)
  | pop
deriving DecidableEq

/-- `RT_DATAQUEUE_EVENT_POP`, `RT_DATAQUEUE_EVENT_PUSH` and `RT_DATAQUEUE_EVENT_LWM`. -/
inductive DqNotify where
  | pop
  | push
  | lwm
deriving DecidableEq

/-- A return of a call, or a call of the notify function. -/
inductive DqEvent where
  | pushed (q : ObjectId) (item : DataItem)
  | popped (q : ObjectId) (item : DataItem)
  | peaked (q : ObjectId) (item : Option DataItem)
  | failed (q : ObjectId) (call : DqCall) (e : Err)
  | notified (q : ObjectId) (event : DqNotify)
deriving DecidableEq

/-- Where a thread stands inside a call: in `rt_schedule()`, or back from it and about to disable
interrupts for the next turn of the loop. -/
inductive DqFrame where
  | outside
  | waiting (q : ObjectId) (call : DqCall) (timeout : Int)
  | again (q : ObjectId) (call : DqCall) (timeout : Int)
deriving DecidableEq

structure DqState extends Threads where
  dataQueue : ObjectId → DataQueue
  tick : Nat
  frame : ThreadId → DqFrame

def DqState.setQueue (s : DqState) (q : ObjectId) (f : DataQueue → DataQueue) : DqState :=
  { s with dataQueue := Function.update s.dataQueue q (f (s.dataQueue q)) }

def DqState.setFrame (s : DqState) (t : ThreadId) (f : DqFrame) : DqState :=
  { s with frame := Function.update s.frame t f }

/-- `suspended_push_list`. -/
def pushList (q : ObjectId) : ObjectId := 2 * q

/-- `suspended_pop_list`. -/
def popList (q : ObjectId) : ObjectId := 2 * q + 1

def dqList (q : ObjectId) : DqCall → ObjectId
  | .push _ => pushList q
  | .pop => popList q

/-- The condition of the loop; the indices are compared as the integers they are promoted to. -/
def DataQueue.blocked (x : DataQueue) : DqCall → Bool
  | .push _ => (x.putIndex : Int) - x.getIndex = x.size
  | .pop => x.getIndex = x.putIndex

def DataQueue.put (x : DataQueue) (item : DataItem) : DataQueue :=
  { x with
    queue := Function.update x.queue (x.putIndex % x.size) item
    putIndex := (x.putIndex + 1) % 65536 }

def DataQueue.first (x : DataQueue) : DataItem := x.queue (x.getIndex % x.size)

def DataQueue.take (x : DataQueue) : DataQueue := { x with getIndex := (x.getIndex + 1) % 65536 }

def DataQueue.notify (x : DataQueue) (q : ObjectId) (event : DqNotify) : List DqEvent :=
  if x.evtNotify then [.notified q event] else []

/-- `rt_data_queue_push` from the end of its loop: a thread that waits is resumed, or else the event
is notified. -/
def dqPush (s : DqState) (q : ObjectId) (item : DataItem) : DqState × List DqEvent :=
  let s' := s.setQueue q (·.put item)
  match s.waiters (popList q) with
  | n :: _ => ({ s' with toThreads := rtThreadResume s.toThreads n }, [.pushed q item])
  | [] => (s', (s.dataQueue q).notify q .push ++ [.pushed q item])

/-- `rt_data_queue_pop` from the end of its loop: a thread that waits is resumed only at the low
water mark. -/
def dqPop (s : DqState) (q : ObjectId) : DqState × List DqEvent :=
  let x := (s.dataQueue q).take
  let s' := s.setQueue q fun _ => x
  if (x.putIndex : Int) - x.getIndex ≤ x.lwm then
    let s' := match s.waiters (pushList q) with
      | n :: _ => { s' with toThreads := rtThreadResume s.toThreads n }
      | [] => s'
    (s', x.notify q .lwm ++ [.popped q (s.dataQueue q).first])
  else (s', x.notify q .pop ++ [.popped q (s.dataQueue q).first])

/-- The calling thread is suspended on the list of its call, behind the others. -/
def dqWait (s : DqState) (q : ObjectId) (t : ThreadId) (call : DqCall) (timeout : Int) : DqState :=
  { s with
    toThreads := suspendFor (setError s.toThreads t .eok) (dqList q call) t .fifo timeout }.setFrame t
    (.waiting q call timeout)

def DqState.leave (s : DqState) : Caller → DqState
  | .thread t => s.setFrame t .outside
  | .interrupt _ => s

/-- A call from the test of its loop to `rt_schedule()` or its return; only a thread can wait. -/
def dqLoop (s : DqState) (q : ObjectId) (c : Caller) (call : DqCall) (timeout : Int) :
    Option (DqState × List DqEvent) :=
  if (s.dataQueue q).blocked call then
    if timeout = 0 then some (s.leave c, [.failed q call .etimeout])
    else
      match c with
      | .interrupt _ => none
      | .thread t => some (dqWait s q t call timeout, [])
  else
    match call with
    | .push item => some (dqPush (s.leave c) q item)
    | .pop => some (dqPop (s.leave c) q)

def rtDataQueuePush (s : DqState) (q : ObjectId) (c : Caller) (item : DataItem) (timeout : Int) :
    Option (DqState × List DqEvent) := dqLoop s q c (.push item) timeout

def rtDataQueuePop (s : DqState) (q : ObjectId) (c : Caller) (timeout : Int) :
    Option (DqState × List DqEvent) := dqLoop s q c .pop timeout

def rtDataQueuePeak (s : DqState) (q : ObjectId) : Option DataItem :=
  if (s.dataQueue q).getIndex = (s.dataQueue q).putIndex then none else some (s.dataQueue q).first

/-- `rt_schedule()` has returned inside a call. -/
def dqWake (s : DqState) (t : ThreadId) : Option (DqState × List DqEvent) :=
  match s.frame t with
  | .waiting q call timeout =>
    if (s.thread t).error ≠ .eok then
      some (s.setFrame t .outside, [.failed q call (s.thread t).error])
    else some (s.setFrame t (.again q call timeout), [])
  | _ => none

/-- The next turn of the loop. -/
def dqAgain (s : DqState) (t : ThreadId) : Option (DqState × List DqEvent) :=
  match s.frame t with
  | .again q call timeout => dqLoop s q (.thread t) call timeout
  | _ => none

inductive DqAction where
  | push (c : Caller) (q : ObjectId) (item : DataItem) (timeout : Int)
  | pop (c : Caller) (q : ObjectId) (timeout : Int)
  | peak (q : ObjectId)
  | wake (t : ThreadId)
  | again (t : ThreadId)
  | timeout (t : ThreadId)
  | tick

/-- An interrupt calls when it comes, a thread when it is ready and in no other call. -/
def DqState.canCall (s : DqState) : Caller → Bool
  | .thread t => (s.thread t).stat = .ready ∧ s.frame t = .outside
  | .interrupt _ => true

def dqStep (s : DqState) : DqAction → Option (DqState × List DqEvent)
  | .push c q item timeout => if s.canCall c then rtDataQueuePush s q c item timeout else none
  | .pop c q timeout => if s.canCall c then rtDataQueuePop s q c timeout else none
  | .peak q => some (s, [.peaked q (rtDataQueuePeak s q)])
  | .wake t => if (s.thread t).stat = .ready then dqWake s t else none
  | .again t => if (s.thread t).stat = .ready then dqAgain s t else none
  | .timeout t =>
    (rtThreadTimeout s.toThreads t).map fun threads => ({ s with toThreads := threads }, [])
  | .tick => some ({ s with tick := (s.tick + 1) % 4294967296 }, [])

/-- A step of the queues and all that has happened so far, the last event first. -/
def dqLogStep (x : DqState × List DqEvent) (a : DqAction) : Option (DqState × List DqEvent) :=
  (dqStep x.1 a).map fun (s, e) => (s, e ++ x.2)

section
variable {s : DqState} {q : ObjectId} {f : DataQueue → DataQueue}

@[simp] theorem setQueue_self : (s.setQueue q f).dataQueue q = f (s.dataQueue q) :=
  Function.update_self ..

end

end RTThread
