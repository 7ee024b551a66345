import Mathlib.Tactic

namespace RTThread

inductive AtSocketState where
  | none | listen | connect | closed
  deriving DecidableEq

inductive AtSocketType where
  | invalid | tcp | udp
  deriving DecidableEq

/-- `struct at_recv_pkt`; `bfsz_totle` is the length of `buff`. -/
structure AtRecvPkt where
  buff : List UInt8
  bfszIndex : Nat
  deriving DecidableEq

/-- `struct at_socket`: the value of `recv_notice` and whether `recv_lock` exists stand for the
kernel objects. -/
structure AtSocket where
  magic : Bool
  socket : Nat
  type : AtSocketType
  state : AtSocketState
  recvNotice : Option Nat
  recvLock : Bool
  recvpktList : List AtRecvPkt
  recvTimeout : Int
  rcvevent : Nat
  sendevent : Nat
  errevent : Nat
  deriving DecidableEq

/-- What `memset` leaves. -/
def clearedSocket : AtSocket := ⟨false, 0, .invalid, .none, none, false, [], 0, 0, 0, 0⟩

inductive AtEvent where
  | send | recv | error
  deriving DecidableEq

/-- The counters are 16 bits wide. -/
def atDoEventChanges (s : AtSocket) (event : AtEvent) (isPlus : Bool) : AtSocket :=
  match event with
  | .send => { s with sendevent := if isPlus then 1 else 0 }
  | .recv => { s with
      rcvevent := if isPlus then (s.rcvevent + 1) % 65536 else s.rcvevent - 1 }
  | .error => { s with
      errevent := if isPlus then (s.errevent + 1) % 65536 else s.errevent - 1 }

def atDoEventClean (s : AtSocket) : AtEvent → AtSocket
  | .send => { s with sendevent := 0 }
  | .recv => { s with rcvevent := 0 }
  | .error => { s with errevent := 0 }

/-- `at_recvpkt_put`; without memory for the node the packet is dropped. -/
def atRecvpktPut (rlist : List AtRecvPkt) (ptr : List UInt8) (memory : Bool) : List AtRecvPkt :=
  if memory then rlist ++ [⟨ptr, 0⟩] else rlist

/-- `at_recvpkt_get`: the bytes copied and the list left. The loop follows the link of a node it
has freed; `none` where the freed memory does not keep it. -/
def atRecvpktGet (linkKept : Bool) :
    List AtRecvPkt → Nat → Option (List UInt8 × List AtRecvPkt)
  | [], _ => some ([], [])
  | pkt :: rest, len =>
    let unread := pkt.buff.drop pkt.bfszIndex
    if len ≤ unread.length then
      let index := pkt.bfszIndex + len
      some (unread.take len,
        if index = pkt.buff.length then rest else { pkt with bfszIndex := index } :: rest)
    else if linkKept then
      (atRecvpktGet linkKept rest (len - unread.length)).map fun (bytes, left) =>
        (unread ++ bytes, left)
    else none

/-- The sockets, and the semaphores and mutexes that exist for them. -/
structure AtSockets where
  sockets : List AtSocket
  /-- the lock of the table is created -/
  slock : Bool
  sems : Nat
  mutexes : Nat
  /-- a device is registered -/
  devOps : Bool
  deriving DecidableEq

/-- The index of the socket found. -/
def atGetSocket (s : AtSockets) (socket : Int) : Option Nat :=
  if socket < 0 ∨ s.sockets.length ≤ socket then none
  else
    match s.sockets[socket.toNat]? with
    | some sock => if sock.magic then some socket.toNat else none
    | none => none

def AtSockets.modify (s : AtSockets) (idx : Nat) (f : AtSocket → AtSocket) : AtSockets :=
  { s with sockets := s.sockets.modify idx f }

/-- What the creations of kernel objects answer. -/
structure AtSocketMemory where
  slock : Bool
  sem : Bool
  mutex : Bool

def claimedSocket (idx : Nat) (old : AtSocket) : AtSocket :=
  { old with
    magic := true
    socket := idx
    state := .none
    rcvevent := 0
    sendevent := 0
    errevent := 0
    recvpktList := [] }

/-- `alloc_socket` once the lock of the table exists. -/
def claimSocket (m : AtSocketMemory) (s : AtSockets) : Option Nat × AtSockets :=
  let idx := s.sockets.findIdx (!·.magic)
  if idx = s.sockets.length then (none, s)
  else
    let s := s.modify idx (claimedSocket idx)
    if m.sem = false then (none, s.modify idx fun sock => { sock with recvNotice := none })
    else
      let s := { s.modify idx (fun sock => { sock with recvNotice := some 0 }) with
        sems := s.sems + 1 }
      if m.mutex = false then (none, s.modify idx fun sock => { sock with recvLock := false })
      else
        (some idx, { s.modify idx (fun sock => { sock with recvLock := true }) with
          mutexes := s.mutexes + 1 })

def allocSocket (m : AtSocketMemory) (s : AtSockets) : Option Nat × AtSockets :=
  if s.slock then claimSocket m s
  else if m.slock then claimSocket m { s with slock := true }
  else (none, s)

inductive SockType where
  | stream | dgram | other
  deriving DecidableEq

/-- `at_socket`; where no socket can be allocated it returns `RT_NULL`. -/
def atSocket (type : SockType) (m : AtSocketMemory) (s : AtSockets) : Int × AtSockets :=
  if type = .other then (-1, s)
  else
    match allocSocket m s with
    | (none, s) => (0, s)
    | (some idx, s) =>
      (idx, s.modify idx fun sock =>
        { sock with type := if type = .stream then .tcp else .udp })

def freeSocket (s : AtSockets) (idx : Nat) : AtSockets :=
  match s.sockets[idx]? with
  | none => s
  | some sock =>
    { s.modify idx (fun _ => clearedSocket) with
      sems := if sock.recvNotice.isSome then s.sems - 1 else s.sems
      mutexes := if sock.recvLock then s.mutexes - 1 else s.mutexes }

/-- `at_closesocket` and `at_shutdown`, which differ in the delay before the look-up and in the
state set before the device closes; the device's answer is `closed`. -/
def closeWith (closed : Int) (s : AtSockets) (socket : Int) : Int × AtSockets :=
  if s.devOps = false then (-1, s)
  else
    match atGetSocket s socket with
    | none => (-1, s)
    | some idx =>
      let connected := (s.sockets[idx]?.map (·.state)) = some .connect
      (if connected ∧ closed ≠ 0 then -1 else 0, freeSocket s idx)

def atClosesocket (closed : Int) : AtSockets → Int → Int × AtSockets := closeWith closed

def atShutdown (closed : Int) : AtSockets → Int → Int × AtSockets := closeWith closed

/-- An error epilogue: the pointer may be null or never set. -/
def failWith (s : AtSockets) (sock : Option Nat) : Option (Int × AtSockets) :=
  sock.map fun idx => (-1, s.modify idx (atDoEventChanges · .error true))

/-- `at_connect`; `connected` is what the device answers. -/
def atConnect (connected : Int) (s : AtSockets) (socket : Int) : Option (Int × AtSockets) :=
  if s.devOps = false then some (-1, s)
  else
    match atGetSocket s socket with
    | none => failWith s none
    | some idx =>
      let refused := (s.sockets[idx]?.map (·.state)) ≠ some .none
      if refused ∨ connected < 0 then
        (failWith s idx).map fun (result, s) =>
          (result, s.modify idx (atDoEventChanges · .send true))
      else
        some (0, s.modify idx fun sock =>
          atDoEventChanges { sock with state := .connect } .send true)

/-- What `at_sendto` does with the socket: the state it leaves, and whether it fails. -/
def sendOn (toGiven : Bool) (connected sent : Int) (sock : AtSocket) : Bool × AtSocket :=
  match sock.type with
  | .tcp => (sock.state ≠ .connect || decide (sent < 0), sock)
  | .udp =>
    if toGiven ∧ sock.state = .none then
      if connected < 0 then (true, sock) else (decide (sent < 0), { sock with state := .connect })
    else (decide (sent < 0), sock)
  | .invalid => (true, sock)

def atSendto (hasData toGiven : Bool) (connected sent : Int) (s : AtSockets) (socket : Int) :
    Option (Int × AtSockets) :=
  if s.devOps = false ∨ hasData = false then failWith s none
  else
    match atGetSocket s socket with
    | none => failWith s none
    | some idx =>
      let failed := (s.sockets[idx]?.map fun sock => (sendOn toGiven connected sent sock).1) ≠
        some false
      let s := s.modify idx fun sock => (sendOn toGiven connected sent sock).2
      if failed then failWith s idx else some (sent, s)

inductive RecvEntry where
  | failed | closed | reads
  deriving DecidableEq

/-- `at_recvfrom` up to the test of the state. -/
def recvEnter (fromGiven : Bool) (connected : Int) (sock : AtSocket) : RecvEntry × AtSocket :=
  if fromGiven ∧ sock.type = .udp ∧ sock.state = .none then
    if connected < 0 then (.failed, sock) else (.reads, { sock with state := .connect })
  else
    match sock.state with
    | .closed => (.closed, sock)
    | .connect => (.reads, sock)
    | _ => (.failed, sock)

/-- `__exit` of `at_recvfrom`. -/
def recvExit (recvLen : Nat) (sock : AtSocket) : AtSocket :=
  if 0 < recvLen then
    let sock := atDoEventChanges sock .recv false
    if sock.recvpktList ≠ [] then atDoEventChanges sock .recv true else atDoEventClean sock .recv
  else atDoEventChanges sock .error true

/-- How the wait of `at_recvfrom` ends: its result, the bytes it got, and the socket after the
callbacks that ran meanwhile. -/
structure RecvWait where
  result : Int
  recvLen : Nat
  state : AtSocketState
  recvNotice : Nat
  recvpktList : List AtRecvPkt
  rcvevent : Nat
  errevent : Nat

def RecvWait.apply (w : RecvWait) (sock : AtSocket) : AtSocket :=
  { sock with
    state := w.state
    recvNotice := some w.recvNotice
    recvpktList := w.recvpktList
    rcvevent := w.rcvevent
    errevent := w.errevent }

/-- The part of `at_recvfrom` that has a socket. -/
def recvOn (linkKept dontWait fromGiven : Bool) (connected : Int) (len : Nat) (wait : RecvWait)
    (sock : AtSocket) : Option (Int × AtSocket) :=
  match recvEnter fromGiven connected sock with
  | (.failed, sock) => some (-1, recvExit 0 sock)
  | (.closed, sock) => some (0, recvExit 0 sock)
  | (.reads, sock) =>
    (atRecvpktGet linkKept sock.recvpktList len).map fun (bytes, left) =>
      let sock := { sock with recvpktList := left }
      if 0 < bytes.length then (bytes.length, recvExit bytes.length sock)
      else if dontWait then (0, recvExit 0 sock)
      else
        (if 0 < wait.recvLen then wait.recvLen else wait.result,
          recvExit wait.recvLen (wait.apply sock))

def atRecvfrom (hasMem linkKept dontWait fromGiven : Bool) (connected : Int) (len : Nat)
    (wait : RecvWait) (s : AtSockets) (socket : Int) : Option (Int × AtSockets) :=
  if hasMem = false ∨ len = 0 then some (-1, s)
  else if s.devOps = false then some (-1, s)
  else
    match atGetSocket s socket with
    | none => failWith s none
    | some idx =>
      match s.sockets[idx]? with
      | none => none
      | some sock =>
        (recvOn linkKept dontWait fromGiven connected len wait sock).map fun (result, sock) =>
          (result, s.modify idx fun _ => sock)

end RTThread
