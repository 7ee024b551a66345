import RTThread.Signals
import RTThread.MemPoolModel
import RTThread.RingBuffer

namespace RTThread

/-- `struct rt_mailbox`; the two lists of its suspended threads are kept with the threads. -/
structure Mailbox where
  flag : IpcFlag
  msgPool : Nat → BitVec 32
  size : Nat
  entry : Nat
  inOffset : Nat
  outOffset : Nat

def rtMbInit (flag : IpcFlag) (msgPool : Nat → BitVec 32) (size : Nat) : Mailbox :=
  ⟨flag, msgPool, size % 65536, 0, 0, 0⟩

/-- The side of a mailbox on which a call works. -/
inductive Side where
  | send
  | recv
deriving DecidableEq, Repr

/-- A call of `rt_mb_send_wait` or of `rt_mb_recv`. -/
inductive MbCall where
  | send (value : BitVec 32)
  | recv
deriving DecidableEq

def MbCall.side : MbCall → Side
  | .send _ => .send
  | .recv => .recv

/-- What a call returns other than `RT_EOK`; only the senders' code is no thread error. -/
inductive MbCode where
  | efull
  | error (e : Err)
deriving DecidableEq, Repr

/-- A return of a call, or a reset. -/
inductive MbEvent where
  | sent (m : ObjectId) (value : BitVec 32)
  | received (m : ObjectId) (value : BitVec 32)
  | failed (m : ObjectId) (call : MbCall) (code : MbCode)
  | reset (m : ObjectId)
deriving DecidableEq

/-- Where a thread stands inside a call: in `rt_schedule()`, or back from it and about to disable
interrupts for the next turn of the loop. Or it is running a signal handler. -/
inductive MbFrame where
  | waiting (m : ObjectId) (call : MbCall) (timeout : Int) (tickDelta : Nat)
  | again (m : ObjectId) (call : MbCall) (timeout : Int) (tickDelta : Nat)
  | handler (signo : Nat)
deriving DecidableEq

/-- The innermost frame of a thread comes first; a handler may itself call the mailbox functions. -/
structure MbState extends Threads where
  mailbox : ObjectId → Mailbox
  tick : Nat
  frames : ThreadId → List MbFrame

def MbState.setMailbox (s : MbState) (m : ObjectId) (f : Mailbox → Mailbox) : MbState :=
  { s with mailbox := Function.update s.mailbox m (f (s.mailbox m)) }

def MbState.setFrames (s : MbState) (t : ThreadId) (fs : List MbFrame) : MbState :=
  { s with frames := Function.update s.frames t fs }

/-- `parent.suspend_thread` for the receivers, `suspend_sender_thread` for the senders. -/
def mbList (m : ObjectId) : Side → ObjectId
  | .recv => 2 * m
  | .send => 2 * m + 1

/-- How many calls can go through: messages to receive, free slots to send to. -/
def Mailbox.available (x : Mailbox) : Side → Nat
  | .recv => x.entry
  | .send => x.size - x.entry

/-- The condition of the loop: `mb->entry == mb->size`, or `mb->entry == 0`. -/
def Mailbox.blocked (x : Mailbox) : Side → Bool
  | .send => x.entry = x.size
  | .recv => x.entry = 0

/-- The fields are 16 bits wide. -/
def Mailbox.put (x : Mailbox) (value : BitVec 32) : Mailbox :=
  { x with
    msgPool := Function.update x.msgPool x.inOffset value
    inOffset := if (x.inOffset + 1) % 65536 ≥ x.size then 0 else (x.inOffset + 1) % 65536
    entry := (x.entry + 1) % 65536 }

def Mailbox.take (x : Mailbox) : Mailbox :=
  { x with
    outOffset := if (x.outOffset + 1) % 65536 ≥ x.size then 0 else (x.outOffset + 1) % 65536
    entry := (x.entry + 65535) % 65536 }

/-- Resume the first thread of a list unless it is empty. -/
def wakeFirst (s : MbState) (q : ObjectId) : MbState :=
  { s with toThreads := (rtIpcListResume s.toThreads q).getD s.toThreads }

/-- From the end of the loop to the return: put or take a message and wake one thread of the other
side. -/
def mbTransfer (s : MbState) (m : ObjectId) : MbCall → MbState × MbEvent
  | .send value => (wakeFirst (s.setMailbox m (·.put value)) (mbList m .recv), .sent m value)
  | .recv => (wakeFirst (s.setMailbox m (·.take)) (mbList m .send),
      .received m ((s.mailbox m).msgPool (s.mailbox m).outOffset))

/-- The code returned when there is no time to wait. -/
def noWaitCode : Side → MbCode
  | .send => .efull
  | .recv => .error .etimeout

/-- The error that a turn of the loop without time to wait leaves in the thread. -/
def noWaitError : Side → Err
  | .send => .eok
  | .recv => .etimeout

/-- Suspend the calling thread and start its timer. -/
def mbWait (s : MbState) (m : ObjectId) (t : ThreadId) (call : MbCall) (timeout : Int)
    (tickDelta : Nat) (fs : List MbFrame) : MbState :=
  { s with
    toThreads := suspendFor (setError s.toThreads t .eok) (mbList m call.side) t (s.mailbox m).flag
      timeout }.setFrames t (.waiting m call timeout (if 0 < timeout then s.tick else tickDelta) :: fs)

/-- The call from the test of its loop to `rt_schedule()` or its return, with interrupts disabled;
`fs` are the frames of the caller. -/
def mbLoop (s : MbState) (m : ObjectId) (t : ThreadId) (call : MbCall) (timeout : Int)
    (tickDelta : Nat) (fs : List MbFrame) : MbState × Option MbEvent :=
  if (s.mailbox m).blocked call.side then
    if timeout = 0 then
      ({ s with toThreads := setError s.toThreads t (noWaitError call.side) }.setFrames t fs,
        some (.failed m call (noWaitCode call.side)))
    else (mbWait s m t call timeout tickDelta fs, none)
  else
    let (s', e) := mbTransfer s m call
    (s'.setFrames t fs, some e)

/-- A call up to its first `rt_schedule()` or its return. -/
def mbCall (s : MbState) (m : ObjectId) (t : ThreadId) (call : MbCall) (timeout : Int) :
    MbState × Option MbEvent :=
  if (s.mailbox m).blocked call.side ∧ timeout = 0 then
    (s, some (.failed m call (noWaitCode call.side)))
  else mbLoop s m t call timeout 0 (s.frames t)

def rtMbSendWait (s : MbState) (m : ObjectId) (t : ThreadId) (value : BitVec 32) (timeout : Int) :
    MbState × Option MbEvent := mbCall s m t (.send value) timeout

def rtMbSend (s : MbState) (m : ObjectId) (t : ThreadId) (value : BitVec 32) :
    MbState × Option MbEvent := rtMbSendWait s m t value 0

def rtMbRecv (s : MbState) (m : ObjectId) (t : ThreadId) (timeout : Int) : MbState × Option MbEvent :=
  mbCall s m t .recv timeout

/-- `rt_schedule()` has returned inside a call. -/
def mbWake (s : MbState) (t : ThreadId) : Option (MbState × Option MbEvent) :=
  match s.frames t with
  | .waiting m call timeout tickDelta :: fs =>
    if (s.thread t).error ≠ .eok then
      some (s.setFrames t fs, some (.failed m call (.error (s.thread t).error)))
    else some (s.setFrames t (.again m call timeout tickDelta :: fs), none)
  | _ => none

/-- The rest of the turn, with the time still left, and the next turn of the loop. -/
def mbAgain (s : MbState) (t : ThreadId) : Option (MbState × Option MbEvent) :=
  match s.frames t with
  | .again m call timeout tickDelta :: fs =>
    some (mbLoop s m t call (remainingTime timeout s.tick tickDelta) tickDelta fs)
  | _ => none

/-- `RT_IPC_CMD_RESET`; every other command returns an error. -/
def rtMbReset (s : MbState) (m : ObjectId) : MbState :=
  let threads := rtIpcListResumeAll s.toThreads (mbList m .recv)
  { s with toThreads := rtIpcListResumeAll threads (mbList m .send) }.setMailbox m fun x =>
    { x with entry := 0, inOffset := 0, outOffset := 0 }

/-- What can happen next. A call without time to wait also comes from an interrupt, on top of any
thread; the three sections of `rt_thread_kill` are separate. -/
inductive MbAction where
  | call (t : ThreadId) (m : ObjectId) (call : MbCall) (timeout : Int)
  | wake (t : ThreadId)
  | again (t : ThreadId)
  | timeout (t : ThreadId)
  | reset (m : ObjectId)
  | tick
  | killPend (t : ThreadId) (signo : Nat)
  | killAppend (t : ThreadId) (signo : Nat)
  | killDeliver (t : ThreadId)
  | sigBegin (t : ThreadId)
  | sigEnd (t : ThreadId)

/-- The thread is in its own code or in a handler's, not inside a call. -/
def MbState.outside (s : MbState) (t : ThreadId) : Bool :=
  match s.frames t with
  | [] => true
  | .handler _ :: _ => true
  | _ => false

/-- The call of a thread or of an interrupt under the source's names. -/
def mbCallOf (s : MbState) (m : ObjectId) (t : ThreadId) (timeout : Int) :
    MbCall → MbState × Option MbEvent
  | .send value => rtMbSendWait s m t value timeout
  | .recv => rtMbRecv s m t timeout

def mbStep (s : MbState) : MbAction → Option (MbState × Option MbEvent)
  | .call t m call timeout =>
    if (s.thread t).stat = .ready ∧ s.outside t ∨ timeout = 0 then
      some (mbCallOf s m t timeout call)
    else none
  | .wake t => if (s.thread t).stat = .ready then mbWake s t else none
  | .again t => if (s.thread t).stat = .ready then mbAgain s t else none
  | .timeout t =>
    (rtThreadTimeout s.toThreads t).map fun threads => ({ s with toThreads := threads }, none)
  | .reset m => some (rtMbReset s m, some (.reset m))
  | .tick => some ({ s with tick := word (s.tick + 1) }, none)
  | .killPend t signo => some ({ s with toThreads := pendSignal s.toThreads t signo }, none)
  | .killAppend t signo => some ({ s with toThreads := appendSignal s.toThreads t signo }, none)
  | .killDeliver t => some ({ s with toThreads := deliverSignal s.toThreads t }, none)
  | .sigBegin t =>
    (takeSignal s.toThreads t).map fun (threads, signo) =>
      ({ s with toThreads := threads }.setFrames t (.handler signo :: s.frames t), none)
  | .sigEnd t =>
    match s.frames t with
    | .handler signo :: fs =>
      if (s.thread t).stat = .ready then
        some ({ s with toThreads := finishSignal s.toThreads t signo }.setFrames t fs, none)
      else none
    | _ => none

/-- A step of the mailboxes and all returns and resets so far, the last one first. -/
def mbLogStep (x : MbState × List MbEvent) (a : MbAction) : Option (MbState × List MbEvent) :=
  (mbStep x.1 a).map fun (s, e) => (s, e.toList ++ x.2)

/-- Every mailbox just initialised with one of the sizes its field can hold, nobody in a call. -/
structure MbStart (s : MbState) : Prop where
  mailbox : ∀ m, ∃ flag msgPool size, 0 < size ∧ size ≤ 65535 ∧
    s.mailbox m = rtMbInit flag msgPool size
  waiters : ∀ q, s.waiters q = []
  frames : ∀ t, s.frames t = []

/-- The values sent to `m` since it was last reset, in order. -/
def sentSince (m : ObjectId) : List MbEvent → List (BitVec 32)
  | [] => []
  | .reset r :: log => if r = m then [] else sentSince m log
  | .sent r value :: log => if r = m then sentSince m log ++ [value] else sentSince m log
  | _ :: log => sentSince m log

/-- The values received from `m` since it was last reset, in order. -/
def receivedSince (m : ObjectId) : List MbEvent → List (BitVec 32)
  | [] => []
  | .reset r :: log => if r = m then [] else receivedSince m log
  | .received r value :: log =>
    if r = m then receivedSince m log ++ [value] else receivedSince m log
  | _ :: log => receivedSince m log

/-- A step in which a call transfers a value or a mailbox is emptied. -/
def MbEvent.transfers : MbEvent → Bool
  | .failed .. => false
  | _ => true

end RTThread
