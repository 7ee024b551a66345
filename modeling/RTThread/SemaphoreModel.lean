import RTThread.IpcLists
import RTThread.Runs
import RTThread.Totals

namespace RTThread

/-- `struct rt_semaphore`; the list of its suspended threads is kept with the threads. -/
structure Semaphore where
  flag : IpcFlag
  value : Nat
deriving DecidableEq, Repr

/-- The value is 16 bits wide. `rt_sem_create` sets the same fields. -/
def rtSemInit (flag : IpcFlag) (value : Nat) : Semaphore := ⟨flag, value % 65536⟩

/-- A call of `rt_sem_take` has returned; `rt_sem_release` has been called. -/
inductive SemEvent where
  | returned (q : ObjectId) (code : Err)
  | released (q : ObjectId)
deriving DecidableEq

/-- A thread in `rt_schedule()` inside `rt_sem_take`, or back from it, has the semaphore as its
frame. -/
structure SemState extends Threads where
  sem : ObjectId → Semaphore
  frame : ThreadId → Option ObjectId

def SemState.setValue (s : SemState) (q : ObjectId) (value : Nat) : SemState :=
  { s with sem := Function.update s.sem q { s.sem q with value := value } }

def SemState.setFrame (s : SemState) (t : ThreadId) (f : Option ObjectId) : SemState :=
  { s with frame := Function.update s.frame t f }

/-- `rt_sem_take` up to its return or to `rt_schedule()`; only a thread can wait. -/
def rtSemTake (s : SemState) (q : ObjectId) (c : Caller) (time : Int) :
    Option (SemState × Option SemEvent) :=
  if (s.sem q).value > 0 then
    some (s.setValue q ((s.sem q).value - 1), some (.returned q .eok))
  else if time = 0 then some (s, some (.returned q .etimeout))
  else
    match c with
    | .interrupt _ => none
    | .thread t =>
      some ({ s with
        toThreads := suspendFor (setError s.toThreads t .eok) q t (s.sem q).flag time }.setFrame t
        (some q), none)

def rtSemTrytake (s : SemState) (q : ObjectId) (c : Caller) : Option (SemState × Option SemEvent) :=
  rtSemTake s q c 0

/-- `rt_schedule()` has returned inside `rt_sem_take`, which returns what the thread's error says. -/
def semWake (s : SemState) (t : ThreadId) : Option (SemState × Option SemEvent) :=
  match s.frame t with
  | some q => some (s.setFrame t none, some (.returned q (s.thread t).error))
  | none => none

def rtSemRelease (s : SemState) (q : ObjectId) : SemState :=
  match s.waiters q with
  | n :: _ => { s with toThreads := rtThreadResume s.toThreads n }
  | [] => s.setValue q (((s.sem q).value + 1) % 65536)

inductive SemAction where
  | take (c : Caller) (q : ObjectId) (time : Int)
  | trytake (c : Caller) (q : ObjectId)
  | release (q : ObjectId)
  | wake (t : ThreadId)
  | timeout (t : ThreadId)

/-- An interrupt calls when it comes, a thread when it is ready and in no other call. -/
def SemState.canCall (s : SemState) : Caller → Bool
  | .thread t => (s.thread t).stat = .ready ∧ s.frame t = none
  | .interrupt _ => true

def semStep (s : SemState) : SemAction → Option (SemState × Option SemEvent)
  | .take c q time => if s.canCall c then rtSemTake s q c time else none
  | .trytake c q => if s.canCall c then rtSemTrytake s q c else none
  | .release q => some (rtSemRelease s q, some (.released q))
  | .wake t => if (s.thread t).stat = .ready then semWake s t else none
  | .timeout t =>
    (rtThreadTimeout s.toThreads t).map fun threads => ({ s with toThreads := threads }, none)

/-- A step of the semaphores and all that has happened so far, the last event first. -/
def semLogStep (x : SemState × List SemEvent) (a : SemAction) : Option (SemState × List SemEvent) :=
  (semStep x.1 a).map fun (s, e) => (s, e.toList ++ x.2)

/-- Semaphores with these values, nobody inside a call. -/
structure SemStart (init : ObjectId → Nat) (s : SemState) : Prop where
  sem : ∀ q, ∃ flag, s.sem q = rtSemInit flag (init q)
  waiters : ∀ q, s.waiters q = []
  frame : ∀ t, s.frame t = none

def releases (q : ObjectId) (log : List SemEvent) : Nat := log.count (.released q)

/-- Calls of `rt_sem_take` that have returned `RT_EOK`. -/
def takes (q : ObjectId) (log : List SemEvent) : Nat := log.count (.returned q .eok)

/-- The thread has been handed a token and has not yet returned `RT_EOK` from `rt_sem_take`. -/
def SemState.aboutToTake (s : SemState) (q : ObjectId) (t : ThreadId) : Bool :=
  s.frame t = some q ∧ (s.thread t).stat = .ready ∧ (s.thread t).error = .eok

/-- How many calls are about to return `RT_EOK`. -/
def SemState.takesToCome (s : SemState) (q : ObjectId) : Nat :=
  total fun t => (s.aboutToTake q t).toNat

/-- A release finds a waiting thread, or room in the counter. -/
def KeepsToken (x : SemState × List SemEvent) : SemAction → Prop
  | .release q => x.1.waiters q ≠ [] ∨ (x.1.sem q).value ≠ 65535
  | _ => True

instance : DecidableRel KeepsToken
  | _, .release _ => inferInstanceAs (Decidable (_ ∨ _))
  | _, .take .. | _, .trytake .. | _, .wake _ | _, .timeout _ => isTrue trivial

/-- Runs of semaphores that were initialised with values that fit. -/
def SemReach (ok : SemState × List SemEvent → SemAction → Prop) (init : ObjectId → Nat)
    (x : SemState × List SemEvent) : Prop :=
  Reach semLogStep ok (fun x => SemStart init x.1 ∧ x.2 = []) x

end RTThread
