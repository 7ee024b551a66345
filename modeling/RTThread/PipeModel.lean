import RTThread.RingbufferQueue
import RTThread.Threads

namespace RTThread

/-- `fd->flags & O_ACCMODE`. -/
inductive AccMode where
  | rdonly
  | wronly
  | rdwr
deriving DecidableEq, Repr

def AccMode.reads : AccMode → Bool
  | .rdonly | .rdwr => true
  | .wronly => false

def AccMode.writes : AccMode → Bool
  | .wronly | .rdwr => true
  | .rdonly => false

/-- Where a thread stands in `pipe_fops_read` or `pipe_fops_write`: about to take the lock for a
turn of the loop, or in `rt_wqueue_wait`. A writer keeps what `pbuf` points to and `ret`. -/
inductive PipeFrame where
  | outside
  | reading (count : Nat) (nonblock : Bool)
  | readWaiting (count : Nat) (nonblock : Bool)
  | writing (pbuf : List Byte) (ret : Nat) (nonblock : Bool)
  | writeWaiting (pbuf : List Byte) (ret : Nat) (nonblock : Bool)
deriving DecidableEq, Repr

/-- `opened` are the access modes of the open file descriptors. -/
structure Pipe where
  fifo : Option RtRingbuffer
  bufsz : Nat
  readers : Nat
  writers : Nat
  refCount : Nat
  opened : List AccMode
  frame : ThreadId → PipeFrame

inductive PipeResult where
  | count (n : Nat)
  | eagain
  | epipe
deriving DecidableEq, Repr

/-- The ring buffer takes bytes of a write; a read of `count` bytes or a write returns. -/
inductive PipeEvent where
  | accepted (bytes : List Byte)
  | read (count : Nat) (result : PipeResult) (bytes : List Byte)
  | wrote (result : PipeResult)
deriving DecidableEq, Repr

/-- `rt_ringbuffer_create`, where memory is left; the size becomes an `rt_int16_t`. -/
def rtRingbufferCreate (A : AlignSize) (pool : Nat → Byte) (size : Nat) : Option RtRingbuffer :=
  let size := rtAlignDown A size
  rtRingbufferInit A pool (if size < 32768 then size else (size : Int) - 65536)

namespace Pipe

def setFrame (s : Pipe) (t : ThreadId) (f : PipeFrame) : Pipe :=
  { s with frame := Function.update s.frame t f }

def pipeFopsOpen (A : AlignSize) (pool : Nat → Byte) (s : Pipe) (mode : AccMode) : Pipe :=
  { s with
    fifo := if s.refCount = 0 then rtRingbufferCreate A pool s.bufsz else s.fifo
    readers := if mode.reads then s.readers + 1 else s.readers
    writers := if mode.writes then s.writers + 1 else s.writers
    refCount := s.refCount + 1
    opened := mode :: s.opened }

/-- `pipe_fops_close`; a wake-up only lets the waiting threads go on. -/
def pipeFopsClose (s : Pipe) (mode : AccMode) : Pipe :=
  { s with
    fifo := if s.refCount = 1 then none else s.fifo
    readers := if mode.reads then s.readers - 1 else s.readers
    writers := if mode.writes then s.writers - 1 else s.writers
    refCount := s.refCount - 1
    opened := s.opened.erase mode }

/-- `pipe_fops_read` up to its loop. -/
def pipeFopsRead (s : Pipe) (t : ThreadId) (count : Nat) (nonblock : Bool) : Pipe × List PipeEvent :=
  if s.writers = 0 then (s, [.read count (.count 0) []])
  else (s.setFrame t (.reading count nonblock), [])

/-- A turn of the loop in `pipe_fops_read`, from the taking of the lock to its release; the count is
passed as an `rt_uint16_t`. -/
def readTurn (s : Pipe) (t : ThreadId) (fifo : RtRingbuffer) (count : Nat) (nonblock : Bool) :
    Pipe × List PipeEvent :=
  if s.writers = 0 then (s.setFrame t .outside, [.read count (.count 0) []])
  else
    let (answer, fifo') := rtRingbufferGet fifo (count % 65536)
    let s' := { s with fifo := some fifo' }
    if 0 < answer.count then
      (s'.setFrame t .outside, [.read count (.count answer.count) answer.bytes])
    else if nonblock then (s'.setFrame t .outside, [.read count .eagain []])
    else (s'.setFrame t (.readWaiting count nonblock), [])

/-- `pipe_fops_write` up to its loop. -/
def pipeFopsWrite (s : Pipe) (t : ThreadId) (buf : List Byte) (nonblock : Bool) :
    Pipe × List PipeEvent :=
  if s.readers = 0 then (s, [.wrote .epipe])
  else if buf = [] then (s, [.wrote (.count 0)])
  else (s.setFrame t (.writing buf 0 nonblock), [])

/-- The bytes that the ring buffer takes in a turn of the loop in `pipe_fops_write`. -/
def acceptedBytes (fifo : RtRingbuffer) (pbuf : List Byte) : List Byte :=
  pbuf.take (rtRingbufferPut fifo (pbuf.take (pbuf.length % 65536))).1

/-- A turn of the loop in `pipe_fops_write`. -/
def writeTurn (s : Pipe) (t : ThreadId) (fifo : RtRingbuffer) (pbuf : List Byte) (ret : Nat)
    (nonblock : Bool) : Pipe × List PipeEvent :=
  if s.readers = 0 then
    (s.setFrame t .outside, [.wrote (if ret = 0 then .epipe else .count ret)])
  else
    let (len, fifo') := rtRingbufferPut fifo (pbuf.take (pbuf.length % 65536))
    let s' := { s with fifo := some fifo' }
    let bytes := acceptedBytes fifo pbuf
    if pbuf.length = len then (s'.setFrame t .outside, [.accepted bytes, .wrote (.count (ret + len))])
    else if nonblock then
      (s'.setFrame t .outside,
        [.accepted bytes, .wrote (if ret + len = 0 then .eagain else .count (ret + len))])
    else (s'.setFrame t (.writeWaiting (pbuf.drop len) (ret + len) nonblock), [.accepted bytes])

/-- The bytes in the ring buffer. -/
def contents (s : Pipe) : List Byte := (s.fifo.map RtRingbuffer.contents).getD []

end Pipe

inductive PipeAction where
  | read (t : ThreadId) (count : Nat) (nonblock : Bool)
  | write (t : ThreadId) (buf : List Byte) (nonblock : Bool)
  | turn (t : ThreadId)
  | wake (t : ThreadId)
  | close (mode : AccMode)

/-- A turn of the loop that the thread is in. -/
def pipeTurn (s : Pipe) (t : ThreadId) : Option (Pipe × List PipeEvent) :=
  s.fifo.bind fun fifo =>
    match s.frame t with
    | .reading count nonblock => some (s.readTurn t fifo count nonblock)
    | .writing pbuf ret nonblock => some (s.writeTurn t fifo pbuf ret nonblock)
    | _ => none

/-- `rt_wqueue_wait` returns. -/
def pipeWake (s : Pipe) (t : ThreadId) : Option Pipe :=
  match s.frame t with
  | .readWaiting count nonblock => some (s.setFrame t (.reading count nonblock))
  | .writeWaiting pbuf ret nonblock => some (s.setFrame t (.writing pbuf ret nonblock))
  | _ => none

/-- A descriptor is closed while a reader stays open. -/
def pipeStep (s : Pipe) : PipeAction → Option (Pipe × List PipeEvent)
  | .read t count nonblock =>
    if s.frame t = .outside then some (s.pipeFopsRead t count nonblock) else none
  | .write t buf nonblock =>
    if s.frame t = .outside then some (s.pipeFopsWrite t buf nonblock) else none
  | .turn t => pipeTurn s t
  | .wake t => (pipeWake s t).map fun s' => (s', [])
  | .close mode =>
    if mode ∈ s.opened ∧ (s.opened.erase mode).any AccMode.reads then some (s.pipeFopsClose mode, [])
    else none

/-- A step and all that has happened so far, the first event first. -/
def pipeLogStep (x : Pipe × List PipeEvent) (a : PipeAction) : Option (Pipe × List PipeEvent) :=
  (pipeStep x.1 a).map fun (s, e) => (s, x.2 ++ e)

/-- A pipe after `rt_pipe_create`. -/
def createdPipe (bufsz : Nat) : Pipe := ⟨none, bufsz, 0, 0, 0, [], fun _ => .outside⟩

/-- A created pipe after the calls of `pipe_fops_open`, a reader among them, and a ring buffer. -/
structure PipeStart (A : AlignSize) (s : Pipe) : Prop where
  opens : ∃ pool bufsz modes, bufsz < 65535 ∧
    s = List.foldl (Pipe.pipeFopsOpen A pool) (createdPipe bufsz) modes
  reader : s.opened.any AccMode.reads = true
  fifo : s.fifo ≠ none

/-- The event is an end of file: a read of a non-zero count returns 0. -/
def PipeEvent.isEof : PipeEvent → Bool
  | .read count (.count 0) _ => decide (count ≠ 0)
  | _ => false

def PipeEvent.takes : PipeEvent → List Byte
  | .accepted bytes => bytes
  | _ => []

def PipeEvent.gives : PipeEvent → List Byte
  | .read _ _ bytes => bytes
  | _ => []

/-- The bytes the writes have put into the pipe. -/
def acceptedOf (log : List PipeEvent) : List Byte := log.flatMap PipeEvent.takes

/-- The bytes of all reads up to the first end of file. -/
def deliveredOf (log : List PipeEvent) : List Byte :=
  (log.takeWhile fun e => !e.isEof).flatMap PipeEvent.gives

/-- If there has been an end of file, every byte accepted had been delivered before it. -/
def DeliversAll (log : List PipeEvent) : Prop :=
  log.any PipeEvent.isEof = true → deliveredOf log = acceptedOf log

end RTThread
