import RTThread.HeapModel
import RTThread.RingBuffer

namespace RTThread

abbrev Byte := BitVec 8

/-- `struct rt_ringbuffer`: the mirrors are one bit wide, the indices fifteen; `bufferPtr` gives the
bytes from the pool's address on. -/
structure RtRingbuffer where
  bufferPtr : Nat → Byte
  readMirror : Bool
  readIndex : Nat
  writeMirror : Bool
  writeIndex : Nat
  bufferSize : Nat

/-- What a call returns, and the bytes it stores at the caller's pointer. -/
structure RingAnswer where
  count : Nat
  bytes : List Byte
deriving DecidableEq, Repr

/-- What is assigned to a 15-bit index. -/
def index15 (n : Nat) : Nat := n % 32768

inductive RtRingbufferState where
  | empty
  | full
  | halffull
deriving DecidableEq, Repr

def rtRingbufferStatus (rb : RtRingbuffer) : RtRingbufferState :=
  if rb.readIndex = rb.writeIndex then
    if rb.readMirror = rb.writeMirror then .empty else .full
  else .halffull

def rtRingbufferDataLen (rb : RtRingbuffer) : Nat :=
  match rtRingbufferStatus rb with
  | .empty => 0
  | .full => rb.bufferSize
  | .halffull =>
    if rb.readIndex < rb.writeIndex then rb.writeIndex - rb.readIndex
    else rb.bufferSize - (rb.readIndex - rb.writeIndex)

def rtRingbufferSpaceLen (rb : RtRingbuffer) : Nat := rb.bufferSize - rtRingbufferDataLen rb

/-- `none` where the assertion on the size fails. -/
def rtRingbufferInit (A : AlignSize) (pool : Nat → Byte) (size : Int) : Option RtRingbuffer :=
  if 0 < size then some ⟨pool, false, 0, false, 0, rtAlignDown A size.toNat⟩ else none

def rtRingbufferReset (rb : RtRingbuffer) : RtRingbuffer :=
  { rb with readMirror := false, readIndex := 0, writeMirror := false, writeIndex := 0 }

/-- `memcpy` to offset `i` of the buffer. -/
def copyIn (buffer : Nat → Byte) (i : Nat) : List Byte → Nat → Byte
  | [] => buffer
  | x :: xs => copyIn (Function.update buffer i x) (i + 1) xs

/-- `memcpy` of `n` bytes from offset `i` of the buffer. -/
def copyOut (buffer : Nat → Byte) (i n : Nat) : List Byte :=
  (List.range n).map fun k => buffer (i + k)

/-- The block transfer of `rt_ringbuffer_put` and `rt_ringbuffer_put_force`, in two pieces where it
reaches the end of the buffer. -/
def writeBlock (rb : RtRingbuffer) (ptr : List Byte) (length : Nat) : RtRingbuffer :=
  let room := rb.bufferSize - rb.writeIndex
  if length < room then
    { rb with
      bufferPtr := copyIn rb.bufferPtr rb.writeIndex (ptr.take length)
      writeIndex := index15 (rb.writeIndex + length) }
  else
    { rb with
      bufferPtr := copyIn (copyIn rb.bufferPtr rb.writeIndex (ptr.take room)) 0
        ((ptr.drop room).take (length - room))
      writeMirror := !rb.writeMirror
      writeIndex := index15 (length - room) }

/-- The length passed in the code is that of `ptr`. -/
def rtRingbufferPut (rb : RtRingbuffer) (ptr : List Byte) : Nat × RtRingbuffer :=
  let size := rtRingbufferSpaceLen rb
  if size = 0 then (0, rb)
  else
    let length := if size < ptr.length then size else ptr.length
    (length, writeBlock rb ptr length)

def rtRingbufferPutForce (rb : RtRingbuffer) (str : List Byte) : Nat × RtRingbuffer :=
  let spaceLength := rtRingbufferSpaceLen rb
  let ptr := if rb.bufferSize < str.length then str.drop (str.length - rb.bufferSize) else str
  let length := if rb.bufferSize < str.length then rb.bufferSize else str.length
  let rb' := writeBlock rb ptr length
  if length < rb.bufferSize - rb.writeIndex then
    (length, if spaceLength < length then { rb' with readIndex := rb'.writeIndex } else rb')
  else
    (length, if spaceLength < length then
      { rb' with readMirror := !rb'.readMirror, readIndex := rb'.writeIndex } else rb')

def rtRingbufferGet (rb : RtRingbuffer) (length : Nat) : RingAnswer × RtRingbuffer :=
  let size := rtRingbufferDataLen rb
  if size = 0 then (⟨0, []⟩, rb)
  else
    let length := if size < length then size else length
    let room := rb.bufferSize - rb.readIndex
    if length < room then
      (⟨length, copyOut rb.bufferPtr rb.readIndex length⟩,
        { rb with readIndex := index15 (rb.readIndex + length) })
    else
      (⟨length, copyOut rb.bufferPtr rb.readIndex room ++ copyOut rb.bufferPtr 0 (length - room)⟩,
        { rb with readMirror := !rb.readMirror, readIndex := index15 (length - room) })

/-- The store of `rt_ringbuffer_putchar` and `rt_ringbuffer_putchar_force`. -/
def writeChar (rb : RtRingbuffer) (ch : Byte) : RtRingbuffer :=
  if rb.writeIndex = rb.bufferSize - 1 then
    { rb with
      bufferPtr := Function.update rb.bufferPtr rb.writeIndex ch
      writeMirror := !rb.writeMirror
      writeIndex := 0 }
  else
    { rb with
      bufferPtr := Function.update rb.bufferPtr rb.writeIndex ch
      writeIndex := index15 (rb.writeIndex + 1) }

def rtRingbufferPutchar (rb : RtRingbuffer) (ch : Byte) : Nat × RtRingbuffer :=
  if rtRingbufferSpaceLen rb = 0 then (0, rb) else (1, writeChar rb ch)

def rtRingbufferPutcharForce (rb : RtRingbuffer) (ch : Byte) : Nat × RtRingbuffer :=
  let oldState := rtRingbufferStatus rb
  let rb' := writeChar rb ch
  if rb.writeIndex = rb.bufferSize - 1 then
    (1, if oldState = .full then
      { rb' with readMirror := !rb'.readMirror, readIndex := rb'.writeIndex } else rb')
  else (1, if oldState = .full then { rb' with readIndex := rb'.writeIndex } else rb')

def rtRingbufferGetchar (rb : RtRingbuffer) : RingAnswer × RtRingbuffer :=
  if rtRingbufferDataLen rb = 0 then (⟨0, []⟩, rb)
  else
    (⟨1, [rb.bufferPtr rb.readIndex]⟩,
      if rb.readIndex = rb.bufferSize - 1 then
        { rb with readMirror := !rb.readMirror, readIndex := 0 }
      else { rb with readIndex := index15 (rb.readIndex + 1) })

inductive RingbufferCall where
  | put (ptr : List Byte)
  | putchar (ch : Byte)
  | get (length : Nat)
  | getchar
  | dataLen
  | reset
deriving DecidableEq, Repr

def ringbufferCall (rb : RtRingbuffer) : RingbufferCall → RingAnswer × RtRingbuffer
  | .put ptr => (⟨(rtRingbufferPut rb ptr).1, []⟩, (rtRingbufferPut rb ptr).2)
  | .putchar ch => (⟨(rtRingbufferPutchar rb ch).1, []⟩, (rtRingbufferPutchar rb ch).2)
  | .get length => rtRingbufferGet rb length
  | .getchar => rtRingbufferGetchar rb
  | .dataLen => (⟨rtRingbufferDataLen rb, []⟩, rb)
  | .reset => (⟨0, []⟩, rtRingbufferReset rb)

/-- The stored bytes, oldest first. -/
def RtRingbuffer.contents (rb : RtRingbuffer) : List Byte :=
  ringContents rb.bufferPtr rb.bufferSize rb.readIndex (rtRingbufferDataLen rb)

/-- Abstract model: a queue that holds at most `capacity` bytes. -/
def queueCall (capacity : Nat) (q : List Byte) : RingbufferCall → RingAnswer × List Byte
  | .put ptr =>
    (⟨(ptr.take (capacity - q.length)).length, []⟩, q ++ ptr.take (capacity - q.length))
  | .putchar ch =>
    (⟨([ch].take (capacity - q.length)).length, []⟩, q ++ [ch].take (capacity - q.length))
  | .get length => (⟨min length q.length, q.take length⟩, q.drop length)
  | .getchar => (⟨min 1 q.length, q.take 1⟩, q.drop 1)
  | .dataLen => (⟨q.length, []⟩, q)
  | .reset => (⟨0, []⟩, [])

/-- A call, or one of the writes that overwrite the oldest bytes. -/
inductive RingbufferStep where
  | call (c : RingbufferCall)
  | putForce (str : List Byte)
  | putcharForce (ch : Byte)
deriving DecidableEq, Repr

def ringbufferStep (rb : RtRingbuffer) : RingbufferStep → RtRingbuffer
  | .call c => (ringbufferCall rb c).2
  | .putForce str => (rtRingbufferPutForce rb str).2
  | .putcharForce ch => (rtRingbufferPutcharForce rb ch).2

end RTThread
