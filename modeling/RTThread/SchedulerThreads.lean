import RTThread.SchedulerTable

namespace RTThread

/-- What the models of the kernel objects see of the scheduler: the ready lists stand for `stat`. -/
def Scheduler.threads (s : Scheduler) : Threads :=
  { thread := fun t => (s.thread t).toThread
    waiters := fun q => s.list (.suspended q) }

/-- What a call does to the records while `current` runs; `none` is a call that they do not have. -/
def Threads.call (x : Threads) (current : Option ThreadId) : SchedCall → Option Threads
  | .suspend t => some (rtThreadSuspend x t)
  | .resume t => some (rtThreadResume x t)
  | .timeout t => rtThreadTimeout x t
  | .changePriority t priority => some (changePriority x t priority)
  | .block q flag => current.map fun t => rtIpcListSuspend x q t flag
  | .schedule | .enterCritical | .exitCritical => some x
  | _ => none

/-- A call, and the thread that runs behind it. -/
def recordStep (x : Option ThreadId × Threads) (c : SchedCall × Option ThreadId) :
    Option (Option ThreadId × Threads) :=
  (x.2.call x.1 c.1).map fun y => (c.2, y)

section
variable {cfg : SchedConfig} {s s' : Scheduler} {t : ThreadId}

theorem Scheduler.threads_set {f : SchedThread → SchedThread} {g : Thread → Thread}
    (h : (f (s.thread t)).toThread = g (s.thread t).toThread) :
    (s.set t f).threads = s.threads.set t g := by
  refine congrArg (fun th => (⟨th, s.threads.waiters⟩ : Threads)) (funext fun u => ?_)
  by_cases hut : u = t
  · subst hut
    rw [Function.update_self]
    exact (congrArg SchedThread.toThread Scheduler.set_self).trans h
  · rw [Function.update_of_ne hut]
    exact congrArg SchedThread.toThread (Scheduler.set_ne hut)

theorem Scheduler.threads_rtScheduleRemoveThread :
    (s.rtScheduleRemoveThread cfg t).threads = RTThread.rtScheduleRemoveThread s.threads t := by
  unfold Scheduler.rtScheduleRemoveThread
  dsimp only
  split
  · rfl
  · rfl

theorem Scheduler.threads_rtScheduleInsertThread :
    (s.rtScheduleInsertThread cfg t).threads = RTThread.rtScheduleInsertThread s.threads t := by
  have hset : (s.set t fun x => { x with stat := .ready }).threads =
      s.threads.set t fun x => { x with stat := .ready } := Scheduler.threads_set rfl
  have hwaiters : ∀ q, (s.rtScheduleInsertThread cfg t).list (.suspended q) = s.list (.suspended q) :=
    fun q => by simp [Scheduler.rtScheduleInsertThread, Scheduler.insertBefore]
  unfold RTThread.rtScheduleInsertThread
  rw [← hset]
  exact congrArg (Threads.mk _) (funext hwaiters)

theorem Scheduler.threads_stopThreadTimer :
    (s.stopThreadTimer t).threads = RTThread.stopThreadTimer s.threads t := Scheduler.threads_set rfl

theorem Scheduler.threads_rtSchedule (hs : s.rtSchedule cfg = some s') : s'.threads = s.threads := by
  unfold Scheduler.rtSchedule at hs
  split at hs
  next =>
    obtain ⟨toThread, -, rfl⟩ := Option.map_eq_some_iff.mp hs
    split
    · rfl
    · rfl
  next => exact congrArg Scheduler.threads (Option.some.inj hs).symm

/-- `rt_thread_suspend` on the tables and on the records. -/
theorem Scheduler.threads_rtThreadSuspend :
    (s.rtThreadSuspend cfg t).2.threads = RTThread.rtThreadSuspend s.threads t := by
  unfold Scheduler.rtThreadSuspend RTThread.rtThreadSuspend
  have hstat : (s.threads.thread t).stat = (s.thread t).stat := rfl
  have hset : (s.set t fun x => { x with stat := .suspend }).threads =
      s.threads.set t fun x => { x with stat := .suspend } := Scheduler.threads_set rfl
  rw [hstat]
  split
  next =>
    refine Scheduler.threads_stopThreadTimer.trans ?_
    rw [Scheduler.threads_rtScheduleRemoveThread, hset]
  next => rfl

theorem Scheduler.threads_rtThreadResume :
    (s.rtThreadResume cfg t).2.threads = RTThread.rtThreadResume s.threads t := by
  unfold Scheduler.rtThreadResume RTThread.rtThreadResume
  have hstat : (s.threads.thread t).stat = (s.thread t).stat := rfl
  rw [hstat]
  split
  next =>
    refine Scheduler.threads_rtScheduleInsertThread.trans ?_
    rw [Scheduler.threads_stopThreadTimer]
    rfl
  next => rfl

theorem Threads.set_set {x : Threads} {f g : Thread → Thread} :
    (x.set t f).set t g = x.set t fun y => g (f y) := by
  unfold Threads.set
  simp

theorem Threads.set_congr {x : Threads} {f g : Thread → Thread}
    (h : f (x.thread t) = g (x.thread t)) : x.set t f = x.set t g := by
  unfold Threads.set
  rw [h]

theorem Scheduler.threads_rtThreadTimeout (hs : s.rtThreadTimeout cfg t = some s')
    (hactive : (s.thread t).timerActive = true) :
    RTThread.rtThreadTimeout s.threads t = some s'.threads := by
  obtain ⟨hsusp, hs⟩ := Option.ite_none_right_eq_some.mp hs
  have hset : (s.set t fun x => { x with error := .etimeout, timerActive := false }).threads =
      setError (RTThread.stopThreadTimer s.threads t) t .etimeout := by
    rw [setError, RTThread.stopThreadTimer, Threads.set_set]
    exact Scheduler.threads_set rfl
  rw [Scheduler.threads_rtSchedule hs, Scheduler.threads_rtScheduleInsertThread]
  unfold RTThread.rtThreadTimeout
  rw [if_pos ⟨hactive, hsusp⟩, ← hset]
  rfl

/-- A ready thread changes its ready list, of which the records know nothing. -/
theorem Scheduler.threads_changePriority (hi : SchedInv cfg none s) {priority : Nat} :
    (s.changePriority cfg t priority).threads = RTThread.changePriority s.threads t priority := by
  have hset : ∀ {s : Scheduler}, (s.setPriority cfg t priority).threads =
      s.threads.set t fun x => { x with currentPriority := priority } := Scheduler.threads_set rfl
  unfold Scheduler.changePriority
  split
  next hready =>
    have hremove : RTThread.rtScheduleRemoveThread s.threads t = s.threads := by
      refine congrArg (Threads.mk _) (funext fun q => List.filter_eq_self.mpr fun u hu => ?_)
      refine decide_eq_true ?_
      rintro rfl
      cases hi.one u _ _ hu ((hi.ready u (by simp) _).mpr ⟨hready, rfl⟩)
    rw [Scheduler.threads_rtScheduleInsertThread, hset, Scheduler.threads_rtScheduleRemoveThread,
      hremove, RTThread.rtScheduleInsertThread, Threads.set_set]
    refine Threads.set_congr ?_
    have hstat : (s.threads.thread t).stat = .ready := hready
    rw [← hstat]
  next => exact hset

theorem Scheduler.threads_rtIpcListSuspend {q : ObjectId} {flag : IpcFlag} :
    (s.rtIpcListSuspend cfg q t flag).threads = RTThread.rtIpcListSuspend s.threads q t flag := by
  have hinsert : (s.rtThreadSuspend cfg t).2.insertWaiter q t flag =
      RTThread.insertWaiter (s.rtThreadSuspend cfg t).2.threads q t flag := by
    cases flag with
    | fifo => rfl
    | prio => rfl
  unfold Scheduler.rtIpcListSuspend RTThread.rtIpcListSuspend
  have hsuspend : (s.rtThreadSuspend cfg t).2.threads = RTThread.rtThreadSuspend s.threads t :=
    Scheduler.threads_rtThreadSuspend
  dsimp only
  rw [← hsuspend, hinsert]
  refine congrArg (Threads.mk _) (funext fun r => ?_)
  by_cases hr : r = q
  · subst hr
    simp
  · have hhead : ListHead.suspended r ≠ .suspended q := by simpa using hr
    rw [Function.update_of_ne hr]
    exact Function.update_of_ne hhead ..

theorem schedStep_records {c : SchedCall} (hi : SchedInv cfg none s)
    (hc : s.threads.call s.currentThread c ≠ none) (hs : schedStep cfg s c = some s') :
    s.threads.call s.currentThread c = some s'.threads := by
  have hmap := congrArg (Option.map Scheduler.threads) hs
  cases c with
  | suspend t => exact (congrArg some Scheduler.threads_rtThreadSuspend.symm).trans hmap
  | resume t => exact (congrArg some Scheduler.threads_rtThreadResume.symm).trans hmap
  | timeout t =>
    refine Scheduler.threads_rtThreadTimeout hs ?_
    by_contra hactive
    exact hc (if_neg fun h => hactive h.1)
  | changePriority t priority => exact (congrArg some (Scheduler.threads_changePriority hi).symm).trans hmap
  | block q flag =>
    obtain ⟨t, ht, hs⟩ := Option.bind_eq_some_iff.mp hs
    obtain ⟨-, hs⟩ := Option.ite_none_right_eq_some.mp hs
    obtain rfl := Option.some.inj hs
    rw [ht]
    exact congrArg some Scheduler.threads_rtIpcListSuspend.symm
  | schedule => exact congrArg some (Scheduler.threads_rtSchedule hs).symm
  | enterCritical => exact hmap
  | exitCritical =>
    rcases ite_eq_iff.mp hs with ⟨-, hs⟩ | ⟨-, hs⟩
    · exact congrArg some (Scheduler.threads_rtSchedule hs).symm
    · exact congrArg (Option.map Scheduler.threads) hs
  | _ => exact absurd rfl hc

/-- Every run of the scheduler on the calls of the records is a run of the records, where the tables
only say which thread runs next. -/
theorem schedRun_records {cs : List SchedCall} (hr : SchedReach cfg s)
    (hcs : RunMeets (schedStep cfg) (fun s c => PriorityInRange cfg s c ∧
      s.threads.call s.currentThread c ≠ none) cs s)
    (hrun : runFrom (schedStep cfg) cs s = some s') :
    ∃ ds : List (SchedCall × Option ThreadId), ds.map Prod.fst = cs ∧
      runFrom recordStep ds (s.currentThread, s.threads) = some (s'.currentThread, s'.threads) := by
  induction cs generalizing s with
  | nil =>
    obtain rfl := Option.some.inj hrun
    exact ⟨[], rfl, rfl⟩
  | cons c cs ih =>
    obtain ⟨s1, hs, hrun⟩ := Option.bind_eq_some_iff.mp hrun
    have hcall := schedStep_records (schedReach_inv hr) hcs.1.2 hs
    obtain ⟨ds, rfl, hds⟩ := ih (hr.step hcs.1.1 hs) (hcs.2 s1 hs) hrun
    refine ⟨(c, s1.currentThread) :: ds, rfl, ?_⟩
    have hstep : recordStep (s.currentThread, s.threads) (c, s1.currentThread) =
        some (s1.currentThread, s1.threads) := by rw [recordStep, hcall]; rfl
    rw [runFrom, hstep]
    exact hds

end

/-- Thread 1 is the only one, and runs. -/
def oneRunning : Scheduler :=
  (runFrom (schedStep wideConfig) [.startup 1, .schedulerStart] (neverStarted wideConfig fun _ => 40)).get
    (by decide +kernel)

theorem schedRun_records_suspended : ∃ s', ∃ ds : List (SchedCall × Option ThreadId),
    runFrom (schedStep wideConfig) [.changePriority 1 3, .suspend 1] oneRunning = some s' ∧
      ds.map Prod.fst = [.changePriority 1 3, .suspend 1] ∧
      runFrom recordStep ds (oneRunning.currentThread, oneRunning.threads) =
        some (s'.currentThread, s'.threads) := by
  have hok : RunMeets (schedStep wideConfig) (PriorityInRange wideConfig) [.startup 1, .schedulerStart]
      (neverStarted wideConfig fun _ => 40) := ⟨trivial, fun _ _ => ⟨trivial, fun _ _ => trivial⟩⟩
  have hr : SchedReach wideConfig oneRunning :=
    Reach.runFrom hok (.start (neverStarted_init fun _ => by decide)) (Option.some_get _).symm
  obtain ⟨ds, hcalls, hds⟩ := @schedRun_records wideConfig oneRunning _ [.changePriority 1 3, .suspend 1] hr
    ⟨⟨(by decide : 3 < 256), Option.some_ne_none _⟩, fun _ _ =>
      ⟨⟨trivial, Option.some_ne_none _⟩, fun _ _ => trivial⟩⟩ rfl
  exact ⟨_, ds, rfl, hcalls, hds⟩

end RTThread
