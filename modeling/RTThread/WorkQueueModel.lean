import RTThread.Runs

namespace RTThread

/-- A work is the address of its `struct rt_work`. -/
abbrev WorkId := Nat

/-- What `rt_list_entry` makes of the head of an empty `work_list`. -/
def headWork : WorkId := 0

/-- Where `_workqueue_thread_entry` stands: about to test the list; about to suspend itself, after
it found the list empty; in `rt_schedule()`; about to dequeue; in `work_func`; about to call
`_workqueue_work_completion`. -/
inductive WorkerFrame where
  | testing
  | suspending
  | scheduling
  | dequeuing
  | working (w : WorkId)
  | completing
deriving DecidableEq, Repr

/-- `suspended` says that the worker is; `resuming` counts the submitters that have enabled
interrupts and not called `rt_thread_resume` yet; `cancelling` holds the `node` of each loop in
`rt_workqueue_cancel_all_work`, `none` for the head of the list. -/
structure WorkQueue where
  workList : List WorkId
  workCurrent : Option WorkId
  worker : WorkerFrame
  suspended : Bool
  resuming : Nat
  cancelling : List (Option WorkId)

inductive WorkErr where
  | eok
  | ebusy
deriving DecidableEq, Repr

namespace WorkQueue

def listRemove (s : WorkQueue) (w : WorkId) : WorkQueue :=
  { s with workList := s.workList.filter (· ≠ w) }

/-- `rt_workqueue_dowork` until interrupts are enabled again. -/
def rtWorkqueueDowork (s : WorkQueue) (w : WorkId) : WorkErr × WorkQueue :=
  if s.workCurrent = some w then (.ebusy, s)
  else
    let s' := { s with workList := (s.listRemove w).workList ++ [w] }
    if s.workCurrent = none then (.eok, { s' with resuming := s.resuming + 1 }) else (.eok, s')

/-- `rt_workqueue_critical_work` has the same body. -/
def rtWorkqueueCriticalWork (s : WorkQueue) (w : WorkId) : WorkErr × WorkQueue :=
  s.rtWorkqueueDowork w

/-- `rt_thread_resume(queue->work_thread)` in the submitter. -/
def resumeWorker (s : WorkQueue) : Option WorkQueue :=
  if s.resuming = 0 then none else some { s with resuming := s.resuming - 1, suspended := false }

def rtWorkqueueCancelWork (s : WorkQueue) (w : WorkId) : WorkErr × WorkQueue :=
  if s.workCurrent = some w then (.ebusy, s) else (.eok, s.listRemove w)

/-- `rt_workqueue_cancel_all_work` up to its loop. -/
def rtWorkqueueCancelAllWork (s : WorkQueue) : WorkQueue :=
  { s with cancelling := s.workList.head? :: s.cancelling }

/-- `node->next`; a work that is in no list is linked to itself. -/
def nextNode (s : WorkQueue) (w : WorkId) : Option WorkId :=
  if w ∈ s.workList then ((s.workList.dropWhile (· ≠ w)).drop 1).head? else some w

/-- A turn of the loop in `rt_workqueue_cancel_all_work`, or its end. -/
def cancelNext (s : WorkQueue) (node : Option WorkId) : WorkQueue :=
  match node with
  | none => { s with cancelling := s.cancelling.erase none }
  | some w => { s.listRemove w with cancelling := s.nextNode w :: s.cancelling.erase (some w) }

/-- The test of the list at the head of the worker's loop. -/
def workerTest (s : WorkQueue) : Option WorkQueue :=
  if s.worker = .testing then
    some { s with worker := if s.workList = [] then .suspending else .dequeuing }
  else none

/-- `rt_thread_suspend(rt_thread_self())`. -/
def workerSuspend (s : WorkQueue) : Option WorkQueue :=
  if s.worker = .suspending then some { s with worker := .scheduling, suspended := true } else none

/-- The worker is behind its test, or back from `rt_schedule()`. -/
def MayDequeue (s : WorkQueue) : Prop :=
  s.worker = .dequeuing ∨ s.worker = .scheduling ∧ s.suspended = false

instance decidableMayDequeue (s : WorkQueue) : Decidable s.MayDequeue :=
  inferInstanceAs (Decidable (_ ∨ _ ∧ _))

/-- The section that takes the first work. -/
def workerDequeue (s : WorkQueue) : Option WorkQueue :=
  if s.MayDequeue then
    let w := s.workList.headD headWork
    some { s.listRemove w with workCurrent := some w, worker := .working w }
  else none

/-- `work_func` has returned, and the current work is cleaned. -/
def workerClean (s : WorkQueue) : Option WorkQueue :=
  match s.worker with
  | .working _ => some { s with workCurrent := none, worker := .completing }
  | _ => none

/-- `_workqueue_work_completion`. -/
def workerComplete (s : WorkQueue) : Option WorkQueue :=
  if s.worker = .completing then some { s with worker := .testing } else none

end WorkQueue

inductive WorkAction where
  | dowork (w : WorkId)
  | criticalWork (w : WorkId)
  | resume
  | cancel (w : WorkId)
  | cancelAll
  | cancelNext (node : Option WorkId)
  | test
  | suspend
  | dequeue
  | clean
  | complete
deriving DecidableEq, Repr

/-- The worker runs while the scheduler is not locked; works are not the head of the list. -/
def workStep (s : WorkQueue) : WorkAction → Option WorkQueue
  | .dowork w => if w = headWork then none else some (s.rtWorkqueueDowork w).2
  | .criticalWork w => if w = headWork then none else some (s.rtWorkqueueCriticalWork w).2
  | .resume => s.resumeWorker
  | .cancel w => if w = headWork then none else some (s.rtWorkqueueCancelWork w).2
  | .cancelAll => some s.rtWorkqueueCancelAllWork
  | .cancelNext node => if node ∈ s.cancelling then some (s.cancelNext node) else none
  | .test => if s.cancelling = [] then s.workerTest else none
  | .suspend => if s.cancelling = [] then s.workerSuspend else none
  | .dequeue => if s.cancelling = [] then s.workerDequeue else none
  | .clean => if s.cancelling = [] then s.workerClean else none
  | .complete => if s.cancelling = [] then s.workerComplete else none

/-- A queue after `rt_workqueue_create`. -/
structure WorkStart (s : WorkQueue) : Prop where
  workList : s.workList = []
  workCurrent : s.workCurrent = none
  worker : s.worker = .testing
  suspended : s.suspended = false
  resuming : s.resuming = 0
  cancelling : s.cancelling = []

/-- The worker is suspended only with an empty list, or with a submitter about to resume it. -/
def Attended (s : WorkQueue) : Prop := s.suspended = true → s.workList = [] ∨ 0 < s.resuming

/-- The removal of the work leaves the list with a work where the worker is about to dequeue. -/
def LeavesWork (s : WorkQueue) (w : WorkId) : Prop :=
  s.MayDequeue → (s.listRemove w).workList ≠ []

instance decidableLeavesWork (s : WorkQueue) (w : WorkId) : Decidable (LeavesWork s w) :=
  inferInstanceAs (Decidable (_ → _))

/-- The worker suspends itself with the list still empty, is resumed with a work in the list, and
the last work is not cancelled under it. -/
def KeepsWork (s : WorkQueue) : WorkAction → Prop
  | .suspend => s.workList = [] ∨ 0 < s.resuming
  | .resume => s.suspended = true → s.workList ≠ []
  | .cancel w => LeavesWork s w
  | .cancelNext (some w) => LeavesWork s w
  | _ => True

instance decidableKeepsWork (s : WorkQueue) (a : WorkAction) : Decidable (KeepsWork s a) := by
  unfold KeepsWork
  split <;> infer_instance

end RTThread
