import RTThread.Signals
import RTThread.Runs

namespace RTThread

structure Mutex where
  flag : IpcFlag
  value : Nat
  originalPriority : Nat
  hold : Nat
  owner : Option ThreadId
deriving DecidableEq, Repr

def rtMutexInit (flag : IpcFlag) : Mutex := ⟨flag, 1, 0xff, 0, none⟩

/-- Where a thread stands inside `rt_mutex_take`, or that it is running a signal handler. After a
wait ended by a signal the code goes to `__again` with interrupts enabled, so its test, its taking
and its blocking are separate steps there. -/
inductive Frame where
  | waiting (mutex : ObjectId) (time : Int)
  | again (mutex : ObjectId) (time : Int)
  | acquire (mutex : ObjectId)
  | block (mutex : ObjectId) (time : Int)
  | handler (signo : Nat)
deriving DecidableEq, Repr

/-- The innermost frame of a thread comes first; a handler may itself call the mutex functions. -/
structure MutexState extends Threads where
  mutex : ObjectId → Mutex
  frames : ThreadId → List Frame

def MutexState.setMutex (s : MutexState) (m : ObjectId) (f : Mutex → Mutex) : MutexState :=
  { s with mutex := Function.update s.mutex m (f (s.mutex m)) }

def MutexState.setFrames (s : MutexState) (t : ThreadId) (fs : List Frame) : MutexState :=
  { s with frames := Function.update s.frames t fs }

def MutexState.setThread (s : MutexState) (t : ThreadId) (f : Thread → Thread) : MutexState :=
  { s with toThreads := s.toThreads.set t f }

/-- The thread is in its own code or in a handler's, not inside a mutex call. -/
def outsideCall : List Frame → Bool
  | [] => true
  | .handler _ :: _ => true
  | _ => false

def canCall (s : MutexState) (t : ThreadId) : Bool :=
  (s.thread t).stat = .ready && outsideCall (s.frames t)

/-- The mutex is available: decrease `value` and set owner and original priority. -/
def takeAvailable (s : MutexState) (m : ObjectId) (t : ThreadId) : MutexState :=
  s.setMutex m fun x =>
    { x with
      value := (x.value + 65535) % 65536
      owner := some t
      originalPriority := (s.thread t).currentPriority
      hold := (x.hold + 1) % 256 }

/-- Change the owner's priority before blocking; a null owner is no thread to read from. -/
def boostOwner (s : MutexState) (m : ObjectId) (t : ThreadId) : Option MutexState :=
  (s.mutex m).owner.map fun o =>
    if (s.thread t).currentPriority < (s.thread o).currentPriority then
      { s with toThreads := changePriority s.toThreads o (s.thread t).currentPriority }
    else s

/-- The mutex is unavailable: boost the owner, push to the suspend list, start the timer. -/
def suspendOnMutex (s : MutexState) (m : ObjectId) (t : ThreadId) (time : Int) : Option MutexState :=
  (boostOwner s m t).map fun s =>
    let threads := rtIpcListSuspend s.toThreads m t (s.mutex m).flag
    { s with toThreads := if 0 < time then startThreadTimer threads t else threads }

/-- `rt_mutex_take` up to its first `rt_schedule()` or return, all with interrupts disabled. -/
def rtMutexTake (s : MutexState) (m : ObjectId) (t : ThreadId) (time : Int) : Option MutexState :=
  let s := s.setThread t fun x => { x with error := .eok }
  if (s.mutex m).owner = some t then
    some (s.setMutex m fun x => { x with hold := (x.hold + 1) % 256 })
  else if 0 < (s.mutex m).value then some (takeAvailable s m t)
  else if time = 0 then some (s.setThread t fun x => { x with error := .etimeout })
  else (suspendOnMutex s m t time).map fun s' => s'.setFrames t (.waiting m time :: s.frames t)

/-- What `rt_mutex_take` returns when its wait ends with this error, unless it tries again. -/
def waitResult : Err → Option Err
  | .eintr => none
  | e => some e

/-- `rt_schedule()` has returned inside `rt_mutex_take`. -/
def wakeMutexTake (s : MutexState) (t : ThreadId) : Option MutexState :=
  match s.frames t with
  | .waiting m time :: fs =>
    match waitResult (s.thread t).error with
    | none => some (s.setFrames t (.again m time :: fs))
    | some _ => some (s.setFrames t fs)
  | _ => none

/-- One step of the code from `__again` on, reached by its `goto`. -/
def retryMutexTake (s : MutexState) (t : ThreadId) : Option MutexState :=
  match s.frames t with
  | .again m time :: fs =>
    if 0 < (s.mutex m).value then some (s.setFrames t (.acquire m :: fs))
    else if time = 0 then
      some ((s.setThread t fun x => { x with error := .etimeout }).setFrames t fs)
    else some (s.setFrames t (.block m time :: fs))
  | .acquire m :: fs => some ((takeAvailable s m t).setFrames t fs)
  | .block m time :: fs =>
    (suspendOnMutex s m t time).map fun s => s.setFrames t (.waiting m time :: fs)
  | _ => none

/-- Set the new owner and its priority and resume it; the list head is read again to do so. -/
def handOver (s : MutexState) (m : ObjectId) (n : ThreadId) : MutexState :=
  let s := s.setMutex m fun x =>
    { x with
      owner := some n
      originalPriority := (s.thread n).currentPriority
      hold := (x.hold + 1) % 256 }
  { s with toThreads := rtThreadResume s.toThreads n }

/-- The owner goes back to the priority saved when it took the mutex. -/
def restorePriority (s : MutexState) (m : ObjectId) (t : ThreadId) : MutexState :=
  if (s.mutex m).originalPriority ≠ (s.thread t).currentPriority then
    { s with toThreads := changePriority s.toThreads t (s.mutex m).originalPriority }
  else s

/-- The end of `rt_mutex_release` when nothing is held any more. -/
def giveUpMutex (s : MutexState) (m : ObjectId) (t : ThreadId) : MutexState :=
  let s := restorePriority s m t
  match s.waiters m with
  | n :: _ => handOver s m n
  | [] =>
    s.setMutex m fun x =>
      { x with value := (x.value + 1) % 65536, owner := none, originalPriority := 0xff }

def rtMutexRelease (s : MutexState) (m : ObjectId) (t : ThreadId) : MutexState :=
  if (s.mutex m).owner ≠ some t then s.setThread t fun x => { x with error := .error }
  else
    let s := s.setMutex m fun x => { x with hold := (x.hold + 255) % 256 }
    if (s.mutex m).hold = 0 then giveUpMutex s m t else s

/-- `_signal_deliver`: a suspended thread is resumed to handle the signal; a ready one handles it
in its own context. -/
def signalDeliver (s : MutexState) (t : ThreadId) : MutexState :=
  if (s.thread t).sigPending &&& (s.thread t).sigMask = 0 then s
  else if (s.thread t).stat = .suspend then { s with toThreads := rtThreadResume s.toThreads t }
  else s

/-- The first half of an iteration of `rt_thread_handle_sig`: take the first node and call its
handler. -/
def handleSigBegin (s : MutexState) (t : ThreadId) : Option MutexState :=
  if (s.thread t).stat = .ready ∧ (s.thread t).sigPending &&& (s.thread t).sigMask ≠ 0 then
    match (s.thread t).siList with
    | [] => none
    | signo :: rest =>
      some ((s.setThread t fun x => { x with siList := rest }).setFrames t
        (.handler signo :: s.frames t))
  else none

/-- The second half: the handler has returned. -/
def handleSigEnd (s : MutexState) (t : ThreadId) : Option MutexState :=
  match s.frames t with
  | .handler signo :: fs =>
    some ((s.setThread t fun x =>
      { x with
        sigPending := x.sigPending &&& (4294967295 ^^^ sigBit signo)
        error := .eintr }).setFrames t fs)
  | _ => none

/-- What can happen next. The three sections of `rt_thread_kill` are separate, and any thread
that is ready may be the one that runs. -/
inductive MutexAction where
  | take (t : ThreadId) (m : ObjectId) (time : Int)
  | release (t : ThreadId) (m : ObjectId)
  | timeout (t : ThreadId)
  | wake (t : ThreadId)
  | retry (t : ThreadId)
  | killPend (t : ThreadId) (signo : Nat)
  | killAppend (t : ThreadId) (signo : Nat)
  | killDeliver (t : ThreadId)
  | sigBegin (t : ThreadId)
  | sigEnd (t : ThreadId)

def mutexStep (s : MutexState) : MutexAction → Option MutexState
  | .take t m time => if canCall s t then rtMutexTake s m t time else none
  | .release t m => if canCall s t then some (rtMutexRelease s m t) else none
  | .timeout t => (rtThreadTimeout s.toThreads t).map fun threads => { s with toThreads := threads }
  | .wake t => if (s.thread t).stat = .ready then wakeMutexTake s t else none
  | .retry t => if (s.thread t).stat = .ready then retryMutexTake s t else none
  | .killPend t signo =>
    some (s.setThread t fun x => { x with sigPending := x.sigPending ||| sigBit signo })
  | .killAppend t signo => some (s.setThread t fun x => { x with siList := x.siList ++ [signo] })
  | .killDeliver t => some (signalDeliver s t)
  | .sigBegin t => handleSigBegin s t
  | .sigEnd t => if (s.thread t).stat = .ready then handleSigEnd s t else none

def MutexAction.isSignal : MutexAction → Bool
  | .killPend .. | .killAppend .. | .killDeliver .. | .sigBegin .. | .sigEnd .. => true
  | _ => false

/-- Every mutex as `rt_mutex_init` leaves it, nobody inside a mutex call and no timer running. -/
structure MutexStart (s : MutexState) : Prop where
  priority : ∀ t, (s.thread t).currentPriority = (s.thread t).initPriority
  error : ∀ t, (s.thread t).error = .eok
  timer : ∀ t, (s.thread t).timerActive = false
  frames : ∀ t, s.frames t = []
  free : ∀ m, ∃ flag, s.mutex m = rtMutexInit flag
  waiters : ∀ m, s.waiters m = []

end RTThread
