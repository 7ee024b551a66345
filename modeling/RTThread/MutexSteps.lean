import RTThread.MutexModel

namespace RTThread

/-- No thread's priorities or status change, and no suspend list. -/
structure SameThreads (s s' : MutexState) : Prop where
  cur : ∀ u, (s'.thread u).currentPriority = (s.thread u).currentPriority
  base : ∀ u, (s'.thread u).initPriority = (s.thread u).initPriority
  stat : ∀ u, (s'.thread u).stat = (s.thread u).stat
  waiters : s'.waiters = s.waiters

/-- Thread `t` ends up on the suspend list of `m` and lends its priority to the owner `o`. -/
structure Blocked (s s' : MutexState) (m : ObjectId) (t o : ThreadId) : Prop where
  owner : (s.mutex m).owner = some o
  mutex : s'.mutex = s.mutex
  cur : ∀ u, (s'.thread u).currentPriority =
    if u = o then min (s.thread o).currentPriority (s.thread t).currentPriority
    else (s.thread u).currentPriority
  base : ∀ u, (s'.thread u).initPriority = (s.thread u).initPriority
  stat : ∀ u, (s'.thread u).stat = if u = t then .suspend else (s.thread u).stat
  waiters : ∀ u r, u ∈ s'.waiters r ↔ u = t ∧ r = m ∨ u ≠ t ∧ u ∈ s.waiters r

/-- Thread `t` no longer owns `m` and is back at the priority saved with it. -/
structure GaveUp (s s' : MutexState) (m : ObjectId) (t : ThreadId) : Prop where
  owner : (s.mutex m).owner = some t
  hold : ((s.mutex m).hold + 255) % 256 = 0
  cur : ∀ u, (s'.thread u).currentPriority =
    if u = t then (s.mutex m).originalPriority else (s.thread u).currentPriority
  base : ∀ u, (s'.thread u).initPriority = (s.thread u).initPriority
  others : ∀ r, r ≠ m → s'.mutex r = s.mutex r

section
variable {s s' : MutexState} {m r : ObjectId} {t u n : ThreadId} {time : Int} {f : Thread → Thread}
  {g : Mutex → Mutex} {fs : List Frame}

@[simp] theorem setMutex_self : (s.setMutex m g).mutex m = g (s.mutex m) := Function.update_self ..

theorem setMutex_ne (h : r ≠ m) : (s.setMutex m g).mutex r = s.mutex r := Function.update_of_ne h ..

@[simp] theorem setMutex_threads : (s.setMutex m g).toThreads = s.toThreads := rfl

@[simp] theorem setMutex_frames : (s.setMutex m g).frames = s.frames := rfl

@[simp] theorem setFrames_threads : (s.setFrames t fs).toThreads = s.toThreads := rfl

@[simp] theorem setFrames_mutex : (s.setFrames t fs).mutex = s.mutex := rfl

@[simp] theorem setFrames_self : (s.setFrames t fs).frames t = fs := Function.update_self ..

theorem setFrames_ne (h : u ≠ t) : (s.setFrames t fs).frames u = s.frames u :=
  Function.update_of_ne h ..

@[simp] theorem setThread_self : (s.setThread t f).thread t = f (s.thread t) := Threads.set_self

theorem setThread_ne (h : u ≠ t) : (s.setThread t f).thread u = s.thread u := Threads.set_ne h

@[simp] theorem setThread_waiters : (s.setThread t f).waiters = s.waiters := rfl

@[simp] theorem setThread_mutex : (s.setThread t f).mutex = s.mutex := rfl

@[simp] theorem setThread_frames : (s.setThread t f).frames = s.frames := rfl

/-- What a change that keeps a field of every thread does to that field. -/
theorem setThread_field {β : Type} (p : Thread → β) (h : p (f (s.thread t)) = p (s.thread t))
    (u : ThreadId) : p ((s.setThread t f).thread u) = p (s.thread u) := by
  by_cases hu : u = t
  · rw [hu, setThread_self, h]
  · rw [setThread_ne hu]

theorem sameThreads_setThread (hc : (f (s.thread t)).currentPriority = (s.thread t).currentPriority)
    (hb : (f (s.thread t)).initPriority = (s.thread t).initPriority)
    (hst : (f (s.thread t)).stat = (s.thread t).stat) : SameThreads s (s.setThread t f) :=
  ⟨setThread_field _ hc, setThread_field _ hb, setThread_field _ hst, rfl⟩

theorem canCall_ready (h : canCall s t = true) : (s.thread t).stat = .ready := by
  simp only [canCall, Bool.and_eq_true, decide_eq_true_eq] at h
  exact h.1

/-- Boosting touches only the owner's priority. -/
theorem boostOwner_spec (h : boostOwner s m t = some s') : ∃ o, (s.mutex m).owner = some o ∧
    s'.mutex = s.mutex ∧ s'.frames = s.frames ∧ s'.waiters = s.waiters ∧
    ∀ u, s'.thread u = { s.thread u with
      currentPriority := if u = o then min (s.thread o).currentPriority (s.thread t).currentPriority
        else (s.thread u).currentPriority } := by
  obtain ⟨o, ho, rfl⟩ := Option.map_eq_some_iff.mp h
  refine ⟨o, ho, by split <;> rfl, by split <;> rfl, by split <;> rfl, fun u => ?_⟩
  split
  next hlt =>
    by_cases hu : u = o
    · subst hu
      simp [changePriority, Nat.min_eq_right (Nat.le_of_lt hlt)]
    · simp [changePriority, hu]
  next hle =>
    by_cases hu : u = o
    · subst hu
      simp [Nat.min_eq_left (Nat.le_of_not_lt hle)]
    · simp [hu]

theorem suspendOnMutex_spec (hr : (s.thread t).stat = .ready)
    (h : suspendOnMutex s m t time = some s') :
    s'.frames = s.frames ∧ (∀ u, (s'.thread u).error = (s.thread u).error) ∧
      ∃ o, Blocked s s' m t o := by
  obtain ⟨b, hb, rfl⟩ := Option.map_eq_some_iff.mp h
  obtain ⟨o, ho, hmutex, hframes, hwait, hthread⟩ := boostOwner_spec hb
  have hbr : (b.thread t).stat = .ready := by rw [hthread, hr]
  have hfield : ∀ {β : Type} (p : Thread → β),
      (∀ x : Thread, ∀ v, p { x with timerActive := v } = p x) → ∀ u,
      p ((if 0 < time then startThreadTimer (rtIpcListSuspend b.toThreads m t (b.mutex m).flag) t
        else rtIpcListSuspend b.toThreads m t (b.mutex m).flag).thread u) =
      p ((rtThreadSuspend b.toThreads t).thread u) := by
    intro β p hp u
    split
    · by_cases hu : u = t
      · subst hu
        rw [startThreadTimer, Threads.set_self, hp, rtIpcListSuspend_thread]
      · rw [startThreadTimer, Threads.set_ne hu, rtIpcListSuspend_thread]
    · rw [rtIpcListSuspend_thread]
  have hsusp : ∀ u, (rtThreadSuspend b.toThreads t).thread u =
      if u = t then { b.thread t with stat := .suspend, timerActive := false } else b.thread u := by
    intro u
    split
    next hu => rw [hu, rtThreadSuspend_thread hbr]
    next hu => rw [rtThreadSuspend_thread_ne hu]
  refine ⟨hframes, fun u => ?_, o, ho, hmutex, fun u => ?_, fun u => ?_, fun u => ?_, fun u r => ?_⟩
  · refine (hfield Thread.error (fun _ _ => rfl) u).trans ?_
    rw [hsusp]
    split
    next hu => rw [hu, hthread]
    next => rw [hthread]
  · refine (hfield Thread.currentPriority (fun _ _ => rfl) u).trans ?_
    rw [hsusp]
    split
    next hu => rw [hu, hthread]
    next => rw [hthread]
  · refine (hfield Thread.initPriority (fun _ _ => rfl) u).trans ?_
    rw [hsusp]
    split
    next hu => rw [hu, hthread]
    next => rw [hthread]
  · refine (hfield Thread.stat (fun _ _ => rfl) u).trans ?_
    rw [hsusp]
    split
    · rfl
    · rw [hthread]
  · have hw : ∀ th : Threads, (if 0 < time then startThreadTimer th t else th).waiters = th.waiters := by
      intro th
      split <;> rfl
    show u ∈ (if 0 < time then _ else _ : Threads).waiters r ↔ _
    rw [hw, mem_rtIpcListSuspend hbr, hwait]

theorem restorePriority_spec : (restorePriority s m t).mutex = s.mutex ∧
    (restorePriority s m t).frames = s.frames ∧ (restorePriority s m t).waiters = s.waiters ∧
    ∀ u, (restorePriority s m t).thread u = { s.thread u with
      currentPriority := if u = t then (s.mutex m).originalPriority
        else (s.thread u).currentPriority } := by
  unfold restorePriority
  split
  next hne =>
    refine ⟨rfl, rfl, rfl, fun u => ?_⟩
    by_cases hu : u = t
    · subst hu
      simp [changePriority]
    · simp [changePriority, hu]
  next heq =>
    refine ⟨rfl, rfl, rfl, fun u => ?_⟩
    by_cases hu : u = t
    · subst hu
      simp [not_not.mp heq]
    · simp [hu]

end

end RTThread
