import RTThread.Threads
import RTThread.Runs
import RTThread.NodeLists

namespace RTThread

/-- A word, or the address of one. -/
abbrev Word := BitVec 32

/-- What `sig_vectors` can hold for a signal; `wild` is what a null table reads. -/
inductive SigHandler where
  | ignore
  | default
  | user (k : Nat)
  | wild
deriving DecidableEq, Repr

structure SigThread where
  stat : ThreadStat
  sigWait : Bool
  error : Err
  timerActive : Bool
  sigPending : Word
  sigMask : Word
  sigVectors : Option (Nat → SigHandler)
  siList : Word

/-- Where a call of `rt_thread_kill` stands between its sections. -/
inductive KillFrame where
  | search (t : ThreadId) (signo : Nat) (node : Word)
  | alloc (t : ThreadId) (signo : Nat)
  | append (t : ThreadId) (signo : Nat) (node : Word)
  | deliver (t : ThreadId)
  | wake (t : ThreadId)
deriving DecidableEq, Repr

/-- What runs on a thread, the innermost first: `rt_signal_wait` in `rt_schedule()`, or
`rt_thread_handle_sig` with a node off the list, before and in the call of the handler. -/
inductive SigFrame where
  | waiting (set : Word)
  | taken (signo : Nat) (node : Word) (handler : SigHandler)
  | handling (signo : Nat) (node : Word)
deriving DecidableEq, Repr

/-- `pool` are the nodes of `_rt_siginfo_pool` and `free` its free blocks, the next one first. -/
structure SigState where
  thread : ThreadId → SigThread
  mem : Word → Word
  pool : List Word
  free : List Word
  kills : List KillFrame
  frames : ThreadId → List SigFrame

/-- The words of `*si` if `rt_signal_wait` has filled it. -/
abbrev SigInfo := Option (Word × Word)

inductive SigWaitResult where
  | eok (si : SigInfo)
  | einval
  | etimeout
deriving DecidableEq, Repr

/-- A handler is called while its signal is unblocked or not; `rt_signal_wait` returns. -/
inductive SigEvent where
  | invoked (t : ThreadId) (signo : Nat) (handler : SigHandler) (unblocked : Bool)
  | waited (t : ThreadId) (result : SigWaitResult)
deriving DecidableEq, Repr

def rtSigMax : Nat := 32

def sigMask (signo : Nat) : Word := 1#32 <<< signo

def sigValid (signo : Nat) : Bool := decide (signo < rtSigMax)

/-- The `list` field of a node. -/
def listField (node : Word) : Word := node + 8

/-- `rt_slist_entry(field, struct siginfo_node, list)`. -/
def slistEntry (field : Word) : Word := field - 8

/-- `si.si_signo`, the lower half of a node's first word. -/
def siSigno (mem : Word → Word) (node : Word) : Nat := (mem node).toNat % 65536

/-- The first word of a `siginfo_t` with `si_code` `SI_USER`. -/
def siUser (signo : Nat) : Word := BitVec.ofNat 32 (signo + 65536)

namespace SigState

def set (s : SigState) (t : ThreadId) (f : SigThread → SigThread) : SigState :=
  { s with thread := Function.update s.thread t (f (s.thread t)) }

def write (s : SigState) (p v : Word) : SigState :=
  { s with mem := Function.update s.mem p v }

/-- `memcpy(&(node->si), &si, sizeof(siginfo_t))` in `rt_thread_kill`. -/
def writeInfo (s : SigState) (node : Word) (signo : Nat) : SigState :=
  (s.write node (siUser signo)).write (node + 4) 0

def setFrames (s : SigState) (t : ThreadId) (fs : List SigFrame) : SigState :=
  { s with frames := Function.update s.frames t fs }

/-- A call of `rt_thread_kill` goes on. -/
def killTo (s : SigState) (f g : KillFrame) : SigState := { s with kills := g :: s.kills.erase f }

/-- A call of `rt_thread_kill` returns. -/
def killReturns (s : SigState) (f : KillFrame) : SigState := { s with kills := s.kills.erase f }

/-- `rt_mp_free`. -/
def rtMpFree (s : SigState) (node : Word) : SigState := { s with free := node :: s.free }

def clearPending (s : SigState) (t : ThreadId) (signo : Nat) : SigState :=
  s.set t fun x => { x with sigPending := x.sigPending &&& ~~~sigMask signo }

/-- `rt_thread_resume`. -/
def resume (s : SigState) (t : ThreadId) : SigState :=
  if (s.thread t).stat = .suspend then
    s.set t fun x => { x with stat := .ready, timerActive := false }
  else s

/-- The vectors of `rt_thread_alloc_sig`. -/
def rtThreadAllocSig : Nat → SigHandler := fun _ => .default

/-- `sig_vectors[signo]`. -/
def handler (s : SigState) (t : ThreadId) (signo : Nat) : SigHandler :=
  match (s.thread t).sigVectors with
  | some vectors => if sigValid signo then vectors signo else .wild
  | none => .wild

def rtSignalInstall (s : SigState) (t : ThreadId) (signo : Nat) (handler : SigHandler) : SigState :=
  if sigValid signo then
    let vectors := (s.thread t).sigVectors.getD rtThreadAllocSig
    s.set t fun x => { x with sigVectors := some (Function.update vectors signo handler) }
  else s

def rtSignalMask (s : SigState) (t : ThreadId) (signo : Nat) : SigState :=
  s.set t fun x => { x with sigMask := x.sigMask &&& ~~~sigMask signo }

/-- `rt_signal_unmask`; the pended signals are then handled on the thread, as at any time it runs. -/
def rtSignalUnmask (s : SigState) (t : ThreadId) (signo : Nat) : SigState :=
  s.set t fun x => { x with sigMask := x.sigMask ||| sigMask signo }

/-- `rt_signal_wait` takes the signal of a node that its loop has reached from `prev`. -/
def waitFound (s : SigState) (t : ThreadId) (prev : Option Word) (node : Word) :
    SigState × SigInfo :=
  let next := s.mem (listField node)
  let s' := match prev with
    | some p => s.write (listField p) next
    | none => s.set t fun x => { x with siList := next }
  ((s'.clearPending t (siSigno s.mem node)).rtMpFree node, some (s.mem node, s.mem (node + 4)))

def wanted (s : SigState) (set node : Word) : Bool :=
  decide (sigMask (siSigno s.mem node) &&& set ≠ 0)

/-- The loop of `rt_signal_wait` over the pending signals; `none` where it walks on further than
the pool has nodes. -/
def waitSearch (s : SigState) (t : ThreadId) (set : Word) :
    Nat → Option Word → Word → Option (SigState × SigInfo)
  | 0, _, node => if node = 0 then some (s, none) else none
  | fuel + 1, prev, node =>
    if node = 0 then some (s, none)
    else if s.wanted set node then some (s.waitFound t prev node)
    else waitSearch s t set fuel (some node) (slistEntry (s.mem (listField node)))

/-- The end of `rt_signal_wait` from `__done`. -/
def waitDone (s : SigState) (t : ThreadId) (set : Word) : Option (SigState × List SigEvent) :=
  (s.waitSearch t set s.pool.length none (s.thread t).siList).map fun (s', si) =>
    (s', [.waited t (.eok si)])

/-- `rt_signal_wait` up to `rt_schedule()` or its return; `RT_WAITING_FOREVER` is -1. -/
def rtSignalWait (s : SigState) (t : ThreadId) (set : Word) (timeout : Int) :
    Option (SigState × List SigEvent) :=
  if set = 0 then some (s, [.waited t .einval])
  else if (s.thread t).sigPending &&& set ≠ 0 then s.waitDone t set
  else if timeout = 0 then some (s, [.waited t .etimeout])
  else
    some ((s.set t fun x =>
      { x with stat := .suspend, sigWait := true, timerActive := decide (timeout ≠ -1) }).setFrames t
        (.waiting set :: s.frames t), [])

/-- `rt_signal_wait` after `rt_schedule()`. -/
def waitWoken (s : SigState) (t : ThreadId) : Option (SigState × List SigEvent) :=
  match s.frames t with
  | .waiting set :: fs =>
    let s' := (s.set t fun x => { x with sigWait := false }).setFrames t fs
    if (s.thread t).error = .etimeout then
      some (s'.set t fun x => { x with error := .eok }, [.waited t .etimeout])
    else s'.waitDone t set
  | _ => none

/-- A turn of the loop in `rt_thread_handle_sig`, up to where interrupts are enabled. -/
def handleTake (s : SigState) (t : ThreadId) : Option SigState :=
  let x := s.thread t
  if x.sigPending &&& x.sigMask ≠ 0 ∧ x.sigWait = false ∧ x.siList ≠ 0 then
    let next := s.mem (listField x.siList)
    let signo := siSigno s.mem x.siList
    some ((s.set t fun y =>
      { y with siList := if next = 0 then 0 else slistEntry next }).setFrames t
        (.taken signo x.siList (s.handler t signo) :: s.frames t))
  else none

/-- `if (handler) handler(signo);` -/
def handleInvoke (s : SigState) (t : ThreadId) : Option (SigState × List SigEvent) :=
  match s.frames t with
  | .taken signo node handler :: fs =>
    some (s.setFrames t (.handling signo node :: fs),
      if handler = .ignore then []
      else [.invoked t signo handler (decide ((s.thread t).sigMask &&& sigMask signo ≠ 0))])
  | _ => none

/-- The rest of the turn, after the handler. -/
def handleFinish (s : SigState) (t : ThreadId) : Option SigState :=
  match s.frames t with
  | .handling signo node :: fs =>
    some ((((s.clearPending t signo).rtMpFree node).set t fun x =>
      { x with error := .eintr }).setFrames t fs)
  | _ => none

/-- The first section of `rt_thread_kill`; the list is then searched from `si_list` taken for a
`struct rt_slist_node *`. -/
def rtThreadKill (s : SigState) (t : ThreadId) (signo : Nat) : SigState :=
  if sigValid signo then
    if (s.thread t).sigPending &&& sigMask signo ≠ 0 then
      { s with kills := .search t signo (s.thread t).siList :: s.kills }
    else
      { s.set t fun x => { x with sigPending := x.sigPending ||| sigMask signo } with
        kills := .alloc t signo :: s.kills }
  else s

/-- A turn of the search in `rt_thread_kill`, which writes the signal's `siginfo_t` where it finds
the number. -/
def killSearch (s : SigState) (t : ThreadId) (signo : Nat) (node : Word) : SigState :=
  if node = 0 then s.killTo (.search t signo node) (.alloc t signo)
  else if siSigno s.mem (slistEntry node) = signo then
    (s.writeInfo (slistEntry node) signo).killReturns (.search t signo node)
  else s.killTo (.search t signo node) (.search t signo (s.mem node))

/-- `rt_mp_alloc(_rt_siginfo_pool, 0)`, with the node filled if there is one. -/
def killAlloc (s : SigState) (t : ThreadId) (signo : Nat) : SigState :=
  match s.free with
  | [] => s.killTo (.alloc t signo) (.deliver t)
  | node :: rest =>
    (({ s with free := rest }.write (listField node) 0).writeInfo node signo).killTo
      (.alloc t signo) (.append t signo node)

/-- The last node of the list in `rt_slist_append`. -/
def slistLast (mem : Word → Word) : Nat → Word → Option Word
  | 0, _ => none
  | fuel + 1, field => if mem field = 0 then some field else slistLast mem fuel (mem field)

/-- The last section of `rt_thread_kill` before the delivery. -/
def killAppend (s : SigState) (t : ThreadId) (signo : Nat) (node : Word) : Option SigState :=
  let f := KillFrame.append t signo node
  if (s.thread t).siList = 0 then
    some ((s.set t fun x => { x with siList := node }).killTo f (.deliver t))
  else
    (slistLast s.mem s.pool.length (listField (s.thread t).siList)).map fun last =>
      ((s.write last (listField node)).write (listField node) 0).killTo f (.deliver t)

/-- `_signal_deliver`: its test, and then its section. A thread that is not suspended handles its
signals in a context of their own. -/
def signalDeliver (s : SigState) (t : ThreadId) : SigState :=
  if (s.thread t).sigPending &&& (s.thread t).sigMask = 0 then s.killReturns (.deliver t)
  else s.killTo (.deliver t) (.wake t)

/-- A turn of a call of `rt_thread_kill`. -/
def killNext (s : SigState) : KillFrame → Option SigState
  | .search t signo node => some (s.killSearch t signo node)
  | .alloc t signo => some (s.killAlloc t signo)
  | .append t signo node => s.killAppend t signo node
  | .deliver t => some (s.signalDeliver t)
  | .wake t => some ((s.resume t).killReturns (.wake t))

/-- The thread runs code that may call the signal functions. -/
def Calls (s : SigState) (t : ThreadId) : Prop :=
  (s.thread t).stat = .ready ∧
    match s.frames t with
    | .waiting _ :: _ | .taken .. :: _ => False
    | _ => True

instance decidableCalls (s : SigState) (t : ThreadId) : Decidable (s.Calls t) := by
  unfold Calls
  split <;> infer_instance

end SigState

/-- A thread also blocks elsewhere, is resumed, and times out. -/
inductive SigAction where
  | install (t : ThreadId) (signo : Nat) (handler : SigHandler)
  | mask (t : ThreadId) (signo : Nat)
  | unmask (t : ThreadId) (signo : Nat)
  | wait (t : ThreadId) (set : Word) (timeout : Int)
  | woken (t : ThreadId)
  | kill (t : ThreadId) (signo : Nat)
  | killNext (f : KillFrame)
  | take (t : ThreadId)
  | invoke (t : ThreadId)
  | finish (t : ThreadId)
  | block (t : ThreadId) (timed : Bool)
  | resume (t : ThreadId)
  | timeout (t : ThreadId)

def sigStep (s : SigState) : SigAction → Option (SigState × List SigEvent)
  | .install t signo handler =>
    if s.Calls t then some (s.rtSignalInstall t signo handler, []) else none
  | .mask t signo => if s.Calls t then some (s.rtSignalMask t signo, []) else none
  | .unmask t signo => if s.Calls t then some (s.rtSignalUnmask t signo, []) else none
  | .wait t set timeout => if s.Calls t then s.rtSignalWait t set timeout else none
  | .woken t => if (s.thread t).stat = .ready then s.waitWoken t else none
  | .kill t signo => some (s.rtThreadKill t signo, [])
  | .killNext f => if f ∈ s.kills then (s.killNext f).map fun s' => (s', []) else none
  | .take t =>
    if (s.thread t).stat = .ready then (s.handleTake t).map fun s' => (s', []) else none
  | .invoke t => if (s.thread t).stat = .ready then s.handleInvoke t else none
  | .finish t =>
    if (s.thread t).stat = .ready then (s.handleFinish t).map fun s' => (s', []) else none
  | .block t timed =>
    if s.Calls t then
      some (s.set t fun x => { x with stat := .suspend, timerActive := timed }, [])
    else none
  | .resume t => some (s.resume t, [])
  | .timeout t =>
    if (s.thread t).timerActive = true ∧ (s.thread t).stat = .suspend then
      some (s.set t fun x => { x with stat := .ready, timerActive := false, error := .etimeout }, [])
    else none

/-- A step and all that has happened so far, the last event first. -/
def sigLogStep (x : SigState × List SigEvent) (a : SigAction) :
    Option (SigState × List SigEvent) :=
  (sigStep x.1 a).map fun (s, e) => (s, e ++ x.2)

/-- `rt_mp_create("signal", n, sizeof(struct siginfo_node))`: each node follows the header of its
block. -/
def siginfoNodes (base : Word) (n : Nat) : List Word :=
  (List.range n).map fun i => base + 4 + BitVec.ofNat 32 (16 * i)

/-- Threads after `rt_thread_create` and the pool of `rt_system_signal_init`. -/
structure SigStart (s : SigState) : Prop where
  pool : ∃ base n, base.toNat + 16 * n ≤ 4294967296 ∧ s.pool = siginfoNodes base n
  free : s.free = s.pool
  kills : s.kills = []
  frames : ∀ t, s.frames t = []
  siList : ∀ t, (s.thread t).siList = 0
  sigPending : ∀ t, (s.thread t).sigPending = 0
  sigMask : ∀ t, (s.thread t).sigMask = 0
  sigVectors : ∀ t, (s.thread t).sigVectors = none
  sigWait : ∀ t, (s.thread t).sigWait = false

end RTThread
