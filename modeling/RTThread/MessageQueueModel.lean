import RTThread.IpcLists
import RTThread.MemPoolModel
import RTThread.NodeLists

namespace RTThread

/-- `struct rt_messagequeue`; pointers are addresses, 0 is null. The list of its suspended threads is
kept with the threads. -/
structure MsgQueue where
  flag : IpcFlag
  msgPool : Nat
  msgSize : Nat
  maxMsgs : Nat
  entry : Nat
  msgQueueHead : Nat
  msgQueueTail : Nat
  msgQueueFree : Nat
deriving DecidableEq, Repr

/-- The address of the message with number `i` in the pool. -/
def MsgQueue.node (x : MsgQueue) (i : Nat) : Nat := x.msgPool + i * (x.msgSize + 4)

def MsgQueue.nodes (x : MsgQueue) : List Nat := (List.range x.maxMsgs).map x.node

/-- The loop that puts the first `count` messages of the pool on the free list. -/
def initFree (x : MsgQueue) (next : Nat → Nat) : Nat → (Nat → Nat) × Nat
  | 0 => (next, 0)
  | count + 1 =>
    let (next, free) := initFree x next count
    (Function.update next (x.node count) free, x.node count)

/-- The common end of `rt_mq_init` and `rt_mq_create`. -/
def initLists (x : MsgQueue) (next : Nat → Nat) : (Nat → Nat) × MsgQueue :=
  let (next, free) := initFree x next x.maxMsgs
  (next, { x with msgQueueHead := 0, msgQueueTail := 0, msgQueueFree := free, entry := 0 })

/-- The fields are 16 bits wide. -/
def rtMqInit (A : AlignSize) (next : Nat → Nat) (flag : IpcFlag) (msgpool msgSize poolSize : Nat) :
    (Nat → Nat) × MsgQueue :=
  let size := rtAlign A msgSize % 65536
  initLists ⟨flag, msgpool, size, poolSize / (size + 4) % 65536, 0, 0, 0, 0⟩ next

/-- `msgpool` is what `rt_malloc` returned for the messages. -/
def rtMqCreate (A : AlignSize) (next : Nat → Nat) (flag : IpcFlag) (msgpool msgSize maxMsgs : Nat) :
    Option ((Nat → Nat) × MsgQueue) :=
  if msgpool = 0 then none
  else
    some (initLists ⟨flag, msgpool, rtAlign A msgSize % 65536, maxMsgs % 65536, 0, 0, 0, 0⟩ next)

/-- Where a caller stands inside a call: with a message of its own to fill and then to link, in
`rt_schedule()` or back from it, or with a message of its own to copy out and then to free. -/
inductive MqFrame where
  | outside
  | filling (q : ObjectId) (msg : Nat) (urgent : Bool) (buffer : List (BitVec 8))
  | linking (q : ObjectId) (msg : Nat) (urgent : Bool) (buffer : List (BitVec 8))
  | waiting (q : ObjectId) (size : Nat) (timeout : Int) (tickDelta : Nat)
  | again (q : ObjectId) (size : Nat) (timeout : Int) (tickDelta : Nat)
  | copying (q : ObjectId) (msg : Nat) (size : Nat)
  | freeing (q : ObjectId) (msg : Nat)
deriving DecidableEq

/-- A message linked, unlinked, or copied to its receiver's buffer; a reset. -/
inductive MqEvent where
  | linked (q : ObjectId) (urgent : Bool) (buffer : List (BitVec 8))
  | unlinked (q : ObjectId) (c : Caller)
  | received (q : ObjectId) (c : Caller) (buffer : List (BitVec 8))
  | reset (q : ObjectId)
deriving DecidableEq

/-- `next` is the first word of each message, `body` the bytes behind it. -/
structure MqState extends Threads where
  mq : ObjectId → MsgQueue
  next : Nat → Nat
  body : Nat → Nat → BitVec 8
  tick : Nat
  frame : Caller → MqFrame

def MqState.setMq (s : MqState) (q : ObjectId) (f : MsgQueue → MsgQueue) : MqState :=
  { s with mq := Function.update s.mq q (f (s.mq q)) }

def MqState.setFrame (s : MqState) (c : Caller) (f : MqFrame) : MqState :=
  { s with frame := Function.update s.frame c f }

def MqState.setNext (s : MqState) (msg p : Nat) : MqState :=
  { s with next := Function.update s.next msg p }

/-- `rt_mq_send` or `rt_mq_urgent` up to the end of its first section: take a message off the free
list. Too long a message, or an empty free list, is an error. -/
def mqTakeFree (s : MqState) (q : ObjectId) (c : Caller) (urgent : Bool) (buffer : List (BitVec 8)) :
    Option MqState := do
  rtAssert (buffer.length ≠ 0)
  if buffer.length > (s.mq q).msgSize then some s
  else
    let msg := (s.mq q).msgQueueFree
    if msg = 0 then some s
    else
      some ((s.setMq q fun x => { x with msgQueueFree := s.next msg }).setFrame c
        (.filling q msg urgent buffer))

/-- Copy the caller's buffer behind the link of the message; only `rt_mq_send` clears the link. -/
def mqFill (s : MqState) (c : Caller) : Option MqState :=
  match s.frame c with
  | .filling q msg urgent buffer =>
    let s := if urgent then s else s.setNext msg 0
    some { s.setFrame c (.linking q msg urgent buffer) with
      body := Function.update s.body msg fun i => buffer.getD i (s.body msg i) }
  | _ => none

/-- Resume the first thread waiting for a message, if there is one. -/
def resumeReceiverOf (s : MqState) (q : ObjectId) : MqState :=
  { s with toThreads := (rtIpcListResume s.toThreads q).getD s.toThreads }

/-- Link the message behind the tail. -/
def linkTail (s : MqState) (q : ObjectId) (msg : Nat) : MqState :=
  let s := if (s.mq q).msgQueueTail ≠ 0 then s.setNext (s.mq q).msgQueueTail msg else s
  s.setMq q fun x =>
    { x with
      msgQueueTail := msg
      msgQueueHead := if x.msgQueueHead = 0 then msg else x.msgQueueHead
      entry := (x.entry + 1) % 65536 }

/-- Link the message in front of the head. -/
def linkHead (s : MqState) (q : ObjectId) (msg : Nat) : MqState :=
  (s.setNext msg (s.mq q).msgQueueHead).setMq q fun x =>
    { x with
      msgQueueHead := msg
      msgQueueTail := if x.msgQueueTail = 0 then msg else x.msgQueueTail
      entry := (x.entry + 1) % 65536 }

/-- The second section of `rt_mq_send` and `rt_mq_urgent`. -/
def mqLink (s : MqState) (c : Caller) : Option (MqState × Option MqEvent) :=
  match s.frame c with
  | .linking q msg urgent buffer =>
    let s := if urgent then linkHead s q msg else linkTail s q msg
    some (resumeReceiverOf (s.setFrame c .outside) q, some (.linked q urgent buffer))
  | _ => none

/-- The end of the first section of `rt_mq_recv`: unlink the head. -/
def mqUnlink (s : MqState) (q : ObjectId) (c : Caller) (size : Nat) : MqState × Option MqEvent :=
  let msg := (s.mq q).msgQueueHead
  let s := s.setMq q fun x =>
    { x with
      msgQueueHead := s.next msg
      msgQueueTail := if x.msgQueueTail = msg then 0 else x.msgQueueTail
      entry := (x.entry + 65535) % 65536 }
  (s.setFrame c (.copying q msg size), some (.unlinked q c))

/-- `rt_mq_recv` from the test of its loop to `rt_schedule()`, its return, or the end of its first
section; only a thread can wait. -/
def mqLoop (s : MqState) (q : ObjectId) (c : Caller) (size : Nat) (timeout : Int) (tickDelta : Nat) :
    Option (MqState × Option MqEvent) :=
  if (s.mq q).entry = 0 then
    match c with
    | .interrupt _ => none
    | .thread t =>
      if timeout = 0 then
        some ({ s with toThreads := setError s.toThreads t .etimeout }.setFrame c .outside, none)
      else
        some ({ s with
          toThreads := suspendFor (setError s.toThreads t .eok) q t (s.mq q).flag timeout }.setFrame c
          (.waiting q size timeout (if 0 < timeout then s.tick else tickDelta)), none)
  else some (mqUnlink s q c size)

def rtMqRecv (s : MqState) (q : ObjectId) (c : Caller) (size : Nat) (timeout : Int) :
    Option (MqState × Option MqEvent) := do
  rtAssert (size ≠ 0)
  if (s.mq q).entry = 0 ∧ timeout = 0 then some (s, none)
  else mqLoop s q c size timeout 0

/-- `rt_schedule()` has returned inside `rt_mq_recv`. -/
def mqWake (s : MqState) (t : ThreadId) : Option MqState :=
  match s.frame (.thread t) with
  | .waiting q size timeout tickDelta =>
    if (s.thread t).error ≠ .eok then some (s.setFrame (.thread t) .outside)
    else some (s.setFrame (.thread t) (.again q size timeout tickDelta))
  | _ => none

/-- The rest of the turn, with the time still left, and the next turn of the loop. -/
def mqAgain (s : MqState) (t : ThreadId) : Option (MqState × Option MqEvent) :=
  match s.frame (.thread t) with
  | .again q size timeout tickDelta =>
    mqLoop s q (.thread t) size (remainingTime timeout s.tick tickDelta) tickDelta
  | _ => none

/-- Copy the message to the receiver's buffer. -/
def mqCopy (s : MqState) (c : Caller) : Option (MqState × Option MqEvent) :=
  match s.frame c with
  | .copying q msg size =>
    let count := if size > (s.mq q).msgSize then (s.mq q).msgSize else size
    some (s.setFrame c (.freeing q msg),
      some (.received q c ((List.range count).map (s.body msg))))
  | _ => none

/-- The second section of `rt_mq_recv`: put the message on the free list. -/
def mqPutFree (s : MqState) (c : Caller) : Option MqState :=
  match s.frame c with
  | .freeing q msg =>
    some (((s.setNext msg (s.mq q).msgQueueFree).setMq q fun x =>
      { x with msgQueueFree := msg }).setFrame c .outside)
  | _ => none

/-- A turn of the loop that releases all messages of the queue. -/
def releaseHead (s : MqState) (q : ObjectId) : MqState :=
  let msg := (s.mq q).msgQueueHead
  (s.setNext msg (s.mq q).msgQueueFree).setMq q fun x =>
    { x with
      msgQueueHead := s.next msg
      msgQueueTail := if x.msgQueueTail = msg then 0 else x.msgQueueTail
      msgQueueFree := msg }

/-- The loop, for as many turns as `fuel`. -/
def releaseAll (q : ObjectId) : Nat → MqState → Option MqState
  | 0, s => if (s.mq q).msgQueueHead = 0 then some s else none
  | fuel + 1, s =>
    if (s.mq q).msgQueueHead = 0 then some s else releaseAll q fuel (releaseHead s q)

/-- `RT_IPC_CMD_RESET`; every other command returns an error. -/
def rtMqReset (s : MqState) (q : ObjectId) : Option MqState :=
  (releaseAll q (s.mq q).maxMsgs { s with toThreads := rtIpcListResumeAll s.toThreads q }).map
    fun s => s.setMq q fun x => { x with entry := 0 }

/-- What can happen next; each step is a section with interrupts disabled, or what a call does
between two of them with the message it has taken. -/
inductive MqAction where
  | send (c : Caller) (q : ObjectId) (urgent : Bool) (buffer : List (BitVec 8))
  | fill (c : Caller)
  | link (c : Caller)
  | recv (c : Caller) (q : ObjectId) (size : Nat) (timeout : Int)
  | wake (t : ThreadId)
  | again (t : ThreadId)
  | copy (c : Caller)
  | free (c : Caller)
  | timeout (t : ThreadId)
  | tick
  | reset (q : ObjectId)

/-- An interrupt runs when it comes, a thread when it is ready. -/
def MqState.canRun (s : MqState) : Caller → Bool
  | .thread t => (s.thread t).stat = .ready
  | .interrupt _ => true

def mqStep (s : MqState) : MqAction → Option (MqState × Option MqEvent)
  | .send c q urgent buffer =>
    if s.canRun c ∧ s.frame c = .outside then (mqTakeFree s q c urgent buffer).map (·, none) else none
  | .fill c => if s.canRun c then (mqFill s c).map (·, none) else none
  | .link c => if s.canRun c then mqLink s c else none
  | .recv c q size timeout =>
    if s.canRun c ∧ s.frame c = .outside then rtMqRecv s q c size timeout else none
  | .wake t => if (s.thread t).stat = .ready then (mqWake s t).map (·, none) else none
  | .again t => if (s.thread t).stat = .ready then mqAgain s t else none
  | .copy c => if s.canRun c then mqCopy s c else none
  | .free c => if s.canRun c then (mqPutFree s c).map (·, none) else none
  | .timeout t =>
    (rtThreadTimeout s.toThreads t).map fun threads => ({ s with toThreads := threads }, none)
  | .tick => some ({ s with tick := word (s.tick + 1) }, none)
  | .reset q => (rtMqReset s q).map (·, some (.reset q))

/-- A step of the queues and all that has happened to messages so far, the last event first. -/
def mqLogStep (x : MqState × List MqEvent) (a : MqAction) : Option (MqState × List MqEvent) :=
  (mqStep x.1 a).map fun (s, e) => (s, e.toList ++ x.2)

section
variable {s : MqState} {q r : ObjectId} {c c' : Caller} {f : MsgQueue → MsgQueue} {fr : MqFrame}

@[simp] theorem setMq_self : (s.setMq q f).mq q = f (s.mq q) := Function.update_self ..

@[simp] theorem setMq_ne (h : r ≠ q) : (s.setMq q f).mq r = s.mq r := Function.update_of_ne h ..

@[simp] theorem setFrame_self : (s.setFrame c fr).frame c = fr := Function.update_self ..

@[simp] theorem setFrame_ne (h : c' ≠ c) : (s.setFrame c fr).frame c' = s.frame c' :=
  Function.update_of_ne h ..

end

end RTThread
