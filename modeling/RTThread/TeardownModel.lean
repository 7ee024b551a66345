import RTThread.SchedulerModel

namespace RTThread

/-- The calls that end a thread. -/
inductive EndCall where
  | exit
  | detach
  | delete
deriving DecidableEq, Repr

/-- How far `rt_thread_detach` or `rt_thread_delete` has come with a thread; they disable interrupts
for one section at a time. `tested` keeps whether the thread was found started. -/
inductive CloseStage where
  | tested (started : Bool)
  | removed
  | timerOff
  | closed
  | detached
deriving DecidableEq, Repr

/-- Where `rt_thread_idle_excute` stands: between two turns of its loop, or about to free the stack
or the control block of a thread. -/
inductive IdleFrame where
  | outside
  | freeing (t : ThreadId)
  | deleting (t : ThreadId)
deriving DecidableEq, Repr

/-- The scheduler's state with the thread object container, the calls under way, and how often each
thread was cleaned up and its memory freed. -/
structure TeardownState extends Scheduler where
  inContainer : ThreadId → Bool
  ended : ThreadId → Option EndCall
  closing : ThreadId → Option CloseStage
  idle : IdleFrame
  cleanupCalls : ThreadId → Nat
  stackFrees : ThreadId → Nat
  controlFrees : ThreadId → Nat

namespace TeardownState

/-- `rt_object_detach`. -/
def rtObjectDetach (s : TeardownState) (t : ThreadId) : TeardownState :=
  { s with inContainer := Function.update s.inContainer t false }

def setClosing (s : TeardownState) (t : ThreadId) (stage : Option CloseStage) : TeardownState :=
  { s with closing := Function.update s.closing t stage }

def setEnded (s : TeardownState) (t : ThreadId) (call : EndCall) : TeardownState :=
  { s with ended := Function.update s.ended t (some call) }

def rtThreadExit (cfg : SchedConfig) (s : TeardownState) : Option TeardownState :=
  s.currentThread.bind fun t =>
    (s.toScheduler.rtThreadExit cfg).map fun scheduler =>
      let s' := { s with toScheduler := scheduler }.setEnded t .exit
      if (s.thread t).systemObject = true ∧ (s.thread t).cleanup = false then s'.rtObjectDetach t
      else s'

/-- The test that `rt_thread_detach` and `rt_thread_delete` begin with. -/
def beginClose (s : TeardownState) (t : ThreadId) (call : EndCall) : TeardownState :=
  (s.setEnded t call).setClosing t (some (.tested (decide ((s.thread t).stat ≠ .init))))

/-- The next section of `rt_thread_detach` or `rt_thread_delete`. -/
def closeNext (cfg : SchedConfig) (s : TeardownState) (t : ThreadId) : Option TeardownState :=
  match s.closing t with
  | some (.tested started) =>
    let scheduler := if started then s.rtScheduleRemoveThread cfg t else s.toScheduler
    some ({ s with toScheduler := scheduler }.setClosing t (some .removed))
  | some .removed =>
    some ({ s with toScheduler := s.stopThreadTimer t }.setClosing t (some .timerOff))
  | some .timerOff =>
    let scheduler := s.set t fun x => { x with stat := .close }
    some ({ s with toScheduler := scheduler }.setClosing t (some .closed))
  | some .closed =>
    if s.ended t = some .detach then some ((s.rtObjectDetach t).setClosing t (some .detached))
    else some ({ s with toScheduler := s.insertAfter .defunct t }.setClosing t none)
  | some .detached =>
    if (s.thread t).cleanup = true then
      some ({ s with toScheduler := s.insertAfter .defunct t }.setClosing t none)
    else some (s.setClosing t none)
  | none => none

/-- A turn of the loop in `rt_thread_idle_excute` until interrupts are enabled again; after a system
object the function returns. -/
def idleTake (s : TeardownState) : Option TeardownState :=
  match s.idle, s.list .defunct with
  | .outside, t :: _ =>
    let s' := { s with
      toScheduler := s.rtListRemove t
      cleanupCalls := if (s.thread t).cleanup = true then
        Function.update s.cleanupCalls t (s.cleanupCalls t + 1) else s.cleanupCalls }
    if (s.thread t).systemObject = true then some s' else some { s' with idle := .freeing t }
  | _, _ => none

/-- The rest of the turn: the stack is freed, and then `rt_object_delete`. -/
def idleFree (s : TeardownState) : Option TeardownState :=
  match s.idle with
  | .outside => none
  | .freeing t =>
    some { s with
      idle := .deleting t
      stackFrees := Function.update s.stackFrees t (s.stackFrees t + 1) }
  | .deleting t =>
    some { s.rtObjectDetach t with
      idle := .outside
      controlFrees := Function.update s.controlFrees t (s.controlFrees t + 1) }

/-- A thread that has suspended itself in a call with a timeout starts its timer. -/
def startTimer (s : TeardownState) : Option TeardownState :=
  s.currentThread.bind fun t =>
    if (s.thread t).stat = .suspend then
      some { s with toScheduler := s.set t fun x => { x with timerActive := true } }
    else none

/-- `thread->cleanup` is set by its owner. -/
def setCleanup (s : TeardownState) (t : ThreadId) (cleanup : Bool) : TeardownState :=
  { s with toScheduler := s.set t fun x => { x with cleanup := cleanup } }

end TeardownState

inductive TeardownAction where
  | call (c : SchedCall)
  | startTimer
  | setCleanup (t : ThreadId) (cleanup : Bool)
  | exit
  | detach (t : ThreadId)
  | delete (t : ThreadId)
  | closeNext (t : ThreadId)
  | idleTake
  | idleFree
deriving DecidableEq, Repr

/-- The thread a call works on. -/
def SchedCall.target (s : Scheduler) : SchedCall → Option ThreadId
  | .startup t | .suspend t | .resume t | .timeout t | .changePriority t _ | .detach t
  | .delete t => some t
  | .yield | .sleep | .exit | .block _ _ => s.currentThread
  | .schedule | .schedulerStart | .enterCritical | .exitCritical => none

/-- The calls that end a thread are actions of their own, and only a timer that runs expires. -/
def SchedCall.allowed (s : Scheduler) : SchedCall → Bool
  | .detach _ | .delete _ | .exit => false
  | .timeout t => (s.thread t).timerActive
  | _ => true

def teardownStep (cfg : SchedConfig) (s : TeardownState) : TeardownAction → Option TeardownState
  | .call c =>
    if c.allowed s.toScheduler then
      (schedStep cfg s.toScheduler c).map fun scheduler => { s with toScheduler := scheduler }
    else none
  | .startTimer => s.startTimer
  | .setCleanup t cleanup => some (s.setCleanup t cleanup)
  | .exit => s.rtThreadExit cfg
  | .detach t => some (s.beginClose t .detach)
  | .delete t => some (s.beginClose t .delete)
  | .closeNext t => s.closeNext cfg t
  | .idleTake => s.idleTake
  | .idleFree => s.idleFree

/-- Threads that have been initialised and not started. -/
structure TeardownStart (s : TeardownState) : Prop where
  list : ∀ h, s.list h = []
  stat : ∀ t, (s.thread t).stat = .init
  inContainer : ∀ t, s.inContainer t = true
  ended : ∀ t, s.ended t = none
  closing : ∀ t, s.closing t = none
  idle : s.idle = .outside
  cleanupCalls : ∀ t, s.cleanupCalls t = 0
  stackFrees : ∀ t, s.stackFrees t = 0
  controlFrees : ∀ t, s.controlFrees t = 0

/-- `rt_thread_detach` or `rt_thread_delete` counts on the thread's node to stay unlinked. -/
def Unlinked (s : TeardownState) (t : ThreadId) : Prop :=
  s.closing t = some (.tested false) ∨ s.closing t = some .removed ∨ s.closing t = some .timerOff

instance decidableUnlinked (s : TeardownState) (t : ThreadId) : Decidable (Unlinked s t) :=
  inferInstanceAs (Decidable (_ ∨ _ ∨ _))

/-- A thread that is not ended yet. -/
def Living (s : TeardownState) (t : ThreadId) : Prop := s.ended t = none

instance decidableLiving (s : TeardownState) (t : ThreadId) : Decidable (Living s t) :=
  inferInstanceAs (Decidable (_ = _))

/-- A thread is ended once, by the call for its kind; meanwhile nothing but `rt_thread_suspend`
works on it, and once it is closed it does not go to sleep. -/
def EndsThreads (s : TeardownState) : TeardownAction → Prop
  | .call c =>
    ∀ t ∈ c.target s.toScheduler,
      (Unlinked s t → c = .suspend t) ∧ ((s.thread t).stat = .close → c ≠ .sleep)
  | .startTimer => ∀ t ∈ s.currentThread, ¬Unlinked s t
  | .setCleanup t _ => Living s t
  | .exit => ∀ t ∈ s.currentThread, Living s t
  | .detach t => Living s t ∧ (s.thread t).systemObject = true
  | .delete t => Living s t ∧ (s.thread t).systemObject = false
  | _ => True

instance decidableEndsThreads (s : TeardownState) : ∀ a, Decidable (EndsThreads s a)
  | .call c => Option.decidableForallMem (c.target s.toScheduler)
  | .startTimer => Option.decidableForallMem s.currentThread
  | .setCleanup t _ => decidableLiving s t
  | .exit => Option.decidableForallMem s.currentThread
  | .detach t => inferInstanceAs (Decidable (Living s t ∧ (s.thread t).systemObject = true))
  | .delete t => inferInstanceAs (Decidable (Living s t ∧ (s.thread t).systemObject = false))
  | .closeNext _ => isTrue trivial
  | .idleTake => isTrue trivial
  | .idleFree => isTrue trivial

/-- What the end of a thread should leave. -/
structure TornDown (s : TeardownState) (t : ThreadId) : Prop where
  unlinked : ∀ h, t ∉ s.list h
  timer : (s.thread t).timerActive = false
  container : s.inContainer t = false
  cleanup : s.cleanupCalls t = if (s.thread t).cleanup = true then 1 else 0
  stack : s.stackFrees t = if (s.thread t).systemObject = true then 0 else 1
  control : s.controlFrees t = if (s.thread t).systemObject = true then 0 else 1

end RTThread
