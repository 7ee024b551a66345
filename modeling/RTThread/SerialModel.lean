import RTThread.RingBuffer

namespace RTThread

/-- `struct rt_serial_rx_fifo`; the indices are 16 bits wide. -/
structure SerialRxFifo where
  buffer : Nat → UInt8
  putIndex : Nat
  getIndex : Nat
  isFull : Bool

/-- What is assigned to an index. -/
def index16 (n : Nat) : Nat := n % 65536

/-- `rt_serial_open` clears the buffer. -/
def openedFifo : SerialRxFifo := ⟨fun _ => 0, 0, 0, false⟩

/-- `memcpy` of `n` bytes from index `i` of the buffer. -/
def fifoBytes (f : SerialRxFifo) (i n : Nat) : List UInt8 :=
  (List.range n).map fun k => f.buffer (i + k)

section
variable (bufsz : Nat)

def serialFifoCalcRecvedLen (f : SerialRxFifo) : Nat :=
  if f.putIndex = f.getIndex then if f.isFull then bufsz else 0
  else if f.getIndex < f.putIndex then f.putIndex - f.getIndex
  else bufsz - (f.getIndex - f.putIndex)

def rtDmaCalcRecvedLen (f : SerialRxFifo) : Nat := serialFifoCalcRecvedLen bufsz f

/-- One turn of the loop of `_serial_int_rx`, which runs with interrupts disabled; `none` where
there is no data. -/
def serialIntRxTurn (f : SerialRxFifo) : Option (UInt8 × SerialRxFifo) :=
  if f.getIndex = f.putIndex ∧ f.isFull = false then none
  else
    let get := index16 (f.getIndex + 1)
    some (f.buffer f.getIndex,
      { f with getIndex := if bufsz ≤ get then 0 else get, isFull := false })

/-- `RT_SERIAL_EVENT_RX_IND` for one character from `getc`. -/
def serialRxInd (f : SerialRxFifo) (ch : UInt8) : SerialRxFifo :=
  let put := index16 (f.putIndex + 1)
  let f := { f with
    buffer := Function.update f.buffer f.putIndex ch
    putIndex := if bufsz ≤ put then 0 else put }
  if f.putIndex = f.getIndex then
    let get := index16 (f.getIndex + 1)
    { f with getIndex := if bufsz ≤ get then 0 else get, isFull := true }
  else f

/-- The length given to `rx_indicate` after the last character. -/
def serialRxLength (f : SerialRxFifo) : Nat :=
  if f.getIndex ≤ f.putIndex then f.putIndex - f.getIndex else bufsz - (f.getIndex - f.putIndex)

def rtDmaRecvUpdateGetIndex (f : SerialRxFifo) (len : Nat) : SerialRxFifo :=
  let get := index16 (f.getIndex + len)
  { f with
    isFull := if f.isFull ∧ len ≠ 0 then false else f.isFull
    getIndex := if bufsz < get then get % bufsz else get }

def rtDmaRecvUpdatePutIndex (f : SerialRxFifo) (len : Nat) : SerialRxFifo :=
  let put := index16 (f.putIndex + len)
  let f :=
    if f.getIndex ≤ f.putIndex then
      if bufsz ≤ put then
        { f with
          putIndex := put % bufsz
          isFull := if f.getIndex ≤ put % bufsz then true else f.isFull }
      else { f with putIndex := put }
    else if f.getIndex ≤ put then
      { f with putIndex := if bufsz ≤ put then put % bufsz else put, isFull := true }
    else { f with putIndex := put }
  let f := if f.isFull then { f with getIndex := f.putIndex } else f
  if bufsz ≤ f.getIndex then { f with getIndex := 0 } else f

/-- `_serial_dma_rx` with a buffer: the bytes stored at `data`, and the FIFO after. -/
def serialDmaRx (f : SerialRxFifo) (length : Nat) : List UInt8 × SerialRxFifo :=
  let fifoRecvedLen := rtDmaCalcRecvedLen bufsz f
  let recvLen := if length < fifoRecvedLen then length else fifoRecvedLen
  let data :=
    if f.getIndex + recvLen < bufsz then fifoBytes f f.getIndex recvLen
    else fifoBytes f f.getIndex (bufsz - f.getIndex) ++
      fifoBytes f 0 (recvLen + f.getIndex - bufsz)
  (data, rtDmaRecvUpdateGetIndex bufsz f recvLen)

/-- `RT_SERIAL_EVENT_RX_DMADONE` for bytes that the hardware wrote from `put_index` on. -/
def serialDmaDone (f : SerialRxFifo) (bytes : List UInt8) : SerialRxFifo :=
  rtDmaRecvUpdatePutIndex bufsz
    { f with buffer := ringWrite f.buffer bufsz f.putIndex bytes } bytes.length

end

/-- A FIFO as the loop of reads and the interrupts use it. -/
structure ByteFifo (φ : Type) where
  pop : φ → Option (UInt8 × φ)
  push : φ → UInt8 → φ
  length : φ → Nat

def serialIntFifo (bufsz : Nat) : ByteFifo SerialRxFifo where
  pop := serialIntRxTurn bufsz
  push := serialRxInd bufsz
  length := serialRxLength bufsz

/-- Abstract model: a queue that drops its oldest bytes when it is full. -/
def newestBytes (capacity : Nat) : ByteFifo (List UInt8) where
  pop
    | [] => none
    | ch :: rest => some (ch, rest)
  push q ch := keepLast capacity (q ++ [ch])
  length := List.length

/-- A read under way: what it still wants and what it has. -/
structure SerialRead where
  length : Nat
  data : List UInt8

/-- The FIFO and the reads under way, each of another thread. -/
structure SerialReads (φ : Type) where
  fifo : φ
  reads : Nat → Option SerialRead

inductive SerialIntAction where
  | read (t length : Nat)
  | turn (t : Nat)
  | receive (ch : UInt8)
  | indicate

inductive SerialAnswer where
  | none
  | data (bytes : List UInt8)
  | length (n : Nat)

/-- `_serial_int_rx` and the interrupt, one section with interrupts disabled after the other. -/
def serialIntCall {φ : Type} (F : ByteFifo φ) (s : SerialReads φ) :
    SerialIntAction → SerialAnswer × SerialReads φ
  | .read t length =>
    match s.reads t with
    | none => (.none, { s with reads := Function.update s.reads t (some ⟨length, []⟩) })
    | some _ => (.none, s)
  | .turn t =>
    match s.reads t with
    | none => (.none, s)
    | some r =>
      if r.length = 0 then (.data r.data, { s with reads := Function.update s.reads t none })
      else
        match F.pop s.fifo with
        | none => (.data r.data, { s with reads := Function.update s.reads t none })
        | some (ch, fifo) =>
          (.none, ⟨fifo, Function.update s.reads t (some ⟨r.length - 1, r.data ++ [ch]⟩)⟩)
  | .receive ch => (.none, { s with fifo := F.push s.fifo ch })
  | .indicate => (.length (F.length s.fifo), s)

inductive SerialDmaAction where
  | read (length : Nat)
  | done (bytes : List UInt8)
  | recvedLen

def serialDmaCall (bufsz : Nat) (f : SerialRxFifo) : SerialDmaAction → SerialAnswer × SerialRxFifo
  | .read length =>
    let (data, f') := serialDmaRx bufsz f length
    (.data data, f')
  | .done bytes => (.none, serialDmaDone bufsz f bytes)
  | .recvedLen => (.length (rtDmaCalcRecvedLen bufsz f), f)

/-- The queue of the newest `capacity` bytes. -/
def newestCall (capacity : Nat) (q : List UInt8) : SerialDmaAction → SerialAnswer × List UInt8
  | .read length => (.data (q.take length), q.drop length)
  | .done bytes => (.none, keepLast capacity (q ++ bytes))
  | .recvedLen => (.length q.length, q)

end RTThread
