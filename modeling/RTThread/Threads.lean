import Mathlib.Tactic

namespace RTThread

/-- A thread is the address of its control block: one of the non-null 32-bit addresses. -/
abbrev ThreadId := Fin 4294967295

instance threadIdNeZero : NeZero 4294967295 := ⟨by decide⟩

instance threadIdLawfulBEq : LawfulBEq ThreadId := inferInstance

/-- A kernel object with a list of suspended threads. -/
abbrev ObjectId := Nat

inductive ThreadStat where
  | init
  | ready
  | suspend
  | close
deriving DecidableEq, Repr

inductive IpcFlag where
  | fifo
  | prio
deriving DecidableEq, Repr

/-- `RT_EOK` and the negated error codes the modelled functions store. -/
inductive Err where
  | eok
  | error
  | etimeout
  | eintr
deriving DecidableEq, Repr

structure Thread where
  stat : ThreadStat
  initPriority : Nat
  currentPriority : Nat
  error : Err
  timerActive : Bool
  sigPending : Nat
  sigMask : Nat
  siList : List Nat

/-- All threads and the suspend lists. A ready thread's `tlist` node is on the ready queue,
which `stat` stands for; a suspended thread's node is on at most one suspend list. -/
structure Threads where
  thread : ThreadId → Thread
  waiters : ObjectId → List ThreadId

def Threads.set (s : Threads) (t : ThreadId) (f : Thread → Thread) : Threads :=
  { s with thread := Function.update s.thread t (f (s.thread t)) }

/-- `rt_list_remove(&(thread->tlist))`. -/
def rtListRemove (s : Threads) (t : ThreadId) : Threads :=
  { s with waiters := fun q => (s.waiters q).filter (· ≠ t) }

def rtScheduleRemoveThread (s : Threads) (t : ThreadId) : Threads := rtListRemove s t

def rtScheduleInsertThread (s : Threads) (t : ThreadId) : Threads :=
  s.set t fun x => { x with stat := .ready }

/-- `rt_timer_stop(&(thread->thread_timer))`. -/
def stopThreadTimer (s : Threads) (t : ThreadId) : Threads :=
  s.set t fun x => { x with timerActive := false }

/-- `rt_timer_start(&(thread->thread_timer))`. -/
def startThreadTimer (s : Threads) (t : ThreadId) : Threads :=
  s.set t fun x => { x with timerActive := true }

def setError (s : Threads) (t : ThreadId) (e : Err) : Threads :=
  s.set t fun x => { x with error := e }

def rtThreadSuspend (s : Threads) (t : ThreadId) : Threads :=
  if (s.thread t).stat = .ready then
    stopThreadTimer (rtScheduleRemoveThread (s.set t fun x => { x with stat := .suspend }) t) t
  else s

def rtThreadResume (s : Threads) (t : ThreadId) : Threads :=
  if (s.thread t).stat = .suspend then
    rtScheduleInsertThread (stopThreadTimer (rtListRemove s t) t) t
  else s

/-- The timer check unlinks the expired thread timer and calls this; its assertion fails on a
thread that is not suspended. -/
def rtThreadTimeout (s : Threads) (t : ThreadId) : Option Threads :=
  if (s.thread t).timerActive ∧ (s.thread t).stat = .suspend then
    some (rtScheduleInsertThread (rtListRemove (setError (stopThreadTimer s t) t .etimeout) t) t)
  else none

/-- `RT_THREAD_CTRL_CHANGE_PRIORITY`; a suspended thread keeps its place in the list it is on. -/
def changePriority (s : Threads) (t : ThreadId) (priority : Nat) : Threads :=
  s.set t fun x => { x with currentPriority := priority }

/-- The loop of the `RT_IPC_FLAG_PRIO` case. -/
def insertByPriority (priority : ThreadId → Nat) (t : ThreadId) : List ThreadId → List ThreadId
  | [] => [t]
  | n :: ns =>
    if priority t < priority n then t :: n :: ns else n :: insertByPriority priority t ns

def insertWaiter (s : Threads) (q : ObjectId) (t : ThreadId) : IpcFlag → List ThreadId
  | .fifo => s.waiters q ++ [t]
  | .prio => insertByPriority (fun n => (s.thread n).currentPriority) t (s.waiters q)

def rtIpcListSuspend (s : Threads) (q : ObjectId) (t : ThreadId) (flag : IpcFlag) : Threads :=
  let s := rtThreadSuspend s t
  { s with waiters := Function.update s.waiters q (insertWaiter s q t flag) }

section
variable {s : Threads} {t u : ThreadId} {q r : ObjectId} {f : Thread → Thread} {e : Err}
  {flag : IpcFlag} {priority : Nat}

@[simp] theorem Threads.set_self : (s.set t f).thread t = f (s.thread t) := Function.update_self ..

@[simp] theorem Threads.set_ne (h : u ≠ t) : (s.set t f).thread u = s.thread u :=
  Function.update_of_ne h ..

@[simp] theorem Threads.set_waiters : (s.set t f).waiters = s.waiters := rfl

@[simp] theorem rtListRemove_thread : (rtListRemove s t).thread = s.thread := rfl

theorem mem_rtListRemove : u ∈ (rtListRemove s t).waiters q ↔ u ∈ s.waiters q ∧ u ≠ t := by
  simp [rtListRemove]

theorem mem_insertByPriority {p : ThreadId → Nat} {ns : List ThreadId} :
    u ∈ insertByPriority p t ns ↔ u = t ∨ u ∈ ns := by
  induction ns with
  | nil => simp [insertByPriority]
  | cons n ns ih =>
    unfold insertByPriority
    split
    · simp
    · rw [List.mem_cons, ih, List.mem_cons]
      tauto

theorem insertByPriority_perm {p : ThreadId → Nat} {ns : List ThreadId} :
    (insertByPriority p t ns).Perm (t :: ns) := by
  induction ns with
  | nil => exact List.Perm.refl _
  | cons n ns ih =>
    unfold insertByPriority
    split
    · exact List.Perm.refl _
    · exact (ih.cons n).trans (List.Perm.swap t n ns)

theorem insertWaiter_perm : (insertWaiter s q t flag).Perm (t :: s.waiters q) := by
  cases flag with
  | fifo => exact List.perm_append_singleton t _
  | prio => exact insertByPriority_perm

theorem mem_insertWaiter : u ∈ insertWaiter s q t flag ↔ u = t ∨ u ∈ s.waiters q := by
  rw [insertWaiter_perm.mem_iff, List.mem_cons]

theorem rtThreadSuspend_of_ready (h : (s.thread t).stat = .ready) : rtThreadSuspend s t =
    stopThreadTimer (rtListRemove (s.set t fun x => { x with stat := .suspend }) t) t :=
  if_pos h

theorem rtThreadSuspend_thread_ne (h : u ≠ t) : (rtThreadSuspend s t).thread u = s.thread u := by
  unfold rtThreadSuspend
  split
  · simp [stopThreadTimer, rtScheduleRemoveThread, h]
  · rfl

theorem rtThreadSuspend_thread (h : (s.thread t).stat = .ready) : (rtThreadSuspend s t).thread t =
    { s.thread t with stat := .suspend, timerActive := false } := by
  simp [rtThreadSuspend_of_ready h, stopThreadTimer]

theorem mem_rtThreadSuspend (h : (s.thread t).stat = .ready) :
    u ∈ (rtThreadSuspend s t).waiters q ↔ u ∈ s.waiters q ∧ u ≠ t := by
  rw [rtThreadSuspend_of_ready h]
  exact mem_rtListRemove

theorem rtThreadResume_of_suspend (h : (s.thread t).stat = .suspend) : rtThreadResume s t =
    rtScheduleInsertThread (stopThreadTimer (rtListRemove s t) t) t :=
  if_pos h

theorem rtThreadResume_thread_ne (h : u ≠ t) : (rtThreadResume s t).thread u = s.thread u := by
  unfold rtThreadResume
  split
  · simp [rtScheduleInsertThread, stopThreadTimer, h]
  · rfl

theorem rtThreadResume_thread (h : (s.thread t).stat = .suspend) : (rtThreadResume s t).thread t =
    { s.thread t with stat := .ready, timerActive := false } := by
  simp [rtThreadResume_of_suspend h, rtScheduleInsertThread, stopThreadTimer]

theorem rtThreadResume_waiters (h : (s.thread t).stat = .suspend) :
    (rtThreadResume s t).waiters = (rtListRemove s t).waiters := by
  rw [rtThreadResume_of_suspend h]
  rfl

/-- Everything a timeout does to the threads. -/
theorem rtThreadTimeout_spec {s' : Threads} (h : rtThreadTimeout s t = some s') :
    (s.thread t).stat = .suspend ∧ (s.thread t).timerActive = true ∧
      (∀ u, u ≠ t → s'.thread u = s.thread u) ∧
      s'.thread t =
        { s.thread t with stat := .ready, timerActive := false, error := .etimeout } ∧
      s'.waiters = (rtListRemove s t).waiters := by
  unfold rtThreadTimeout at h
  split at h
  next hc =>
    obtain rfl := Option.some.inj h
    refine ⟨hc.2, hc.1, fun u hu => ?_, ?_, rfl⟩
    · simp [rtScheduleInsertThread, setError, stopThreadTimer, hu]
    · simp [rtScheduleInsertThread, setError, stopThreadTimer]
  next => simp at h

theorem rtIpcListSuspend_thread :
    (rtIpcListSuspend s q t flag).thread = (rtThreadSuspend s t).thread := rfl

theorem rtIpcListSuspend_waiters : (rtIpcListSuspend s q t flag).waiters q =
    insertWaiter (rtThreadSuspend s t) q t flag := Function.update_self ..

theorem rtIpcListSuspend_waiters_ne (h : r ≠ q) : (rtIpcListSuspend s q t flag).waiters r =
    (rtThreadSuspend s t).waiters r := Function.update_of_ne h ..

theorem mem_rtIpcListSuspend (h : (s.thread t).stat = .ready) :
    u ∈ (rtIpcListSuspend s q t flag).waiters r ↔ u = t ∧ r = q ∨ u ≠ t ∧ u ∈ s.waiters r := by
  by_cases hr : r = q
  · subst hr
    rw [rtIpcListSuspend_waiters, mem_insertWaiter, mem_rtThreadSuspend h]
    tauto
  · rw [rtIpcListSuspend_waiters_ne hr, mem_rtThreadSuspend h]
    tauto

end

end RTThread
