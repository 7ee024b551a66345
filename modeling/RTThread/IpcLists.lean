import RTThread.Threads

namespace RTThread

/-- A thread, or an interrupt. -/
inductive Caller where
  | thread (t : ThreadId)
  | interrupt (n : Nat)
deriving DecidableEq

/-- `rt_ipc_list_suspend`, and the thread timer where there is a waiting time. -/
def suspendFor (s : Threads) (q : ObjectId) (t : ThreadId) (flag : IpcFlag) (time : Int) : Threads :=
  let s := rtIpcListSuspend s q t flag
  if 0 < time then startThreadTimer s t else s

/-- `rt_ipc_list_resume`; its callers test that the list is not empty. -/
def rtIpcListResume (s : Threads) (q : ObjectId) : Option Threads :=
  (s.waiters q).head?.map (rtThreadResume s)

/-- One round of `rt_ipc_list_resume_all`. -/
def failWaiter (s : Threads) (t : ThreadId) : Threads := rtThreadResume (setError s t .error) t

/-- `rt_ipc_list_resume_all`; each round takes the first thread, and its resumption unlinks it. -/
def rtIpcListResumeAll (s : Threads) (q : ObjectId) : Threads := (s.waiters q).foldl failWaiter s

/-- Waiting threads are suspended, and each is on one list, once. -/
structure WaitOk (s : Threads) : Prop where
  nodup : ∀ q, (s.waiters q).Nodup
  one : ∀ u q r, u ∈ s.waiters q → u ∈ s.waiters r → q = r
  suspended : ∀ u q, u ∈ s.waiters q → (s.thread u).stat = .suspend

/-- A waiting thread is taken off its list and made ready. -/
structure Resumed (s s' : Threads) (t : ThreadId) : Prop where
  waiters : s'.waiters = (rtListRemove s t).waiters
  stat : (s'.thread t).stat = .ready
  other : ∀ u, u ≠ t → s'.thread u = s.thread u

section
variable {s s' : Threads} {t u : ThreadId} {q r : ObjectId} {flag : IpcFlag} {time : Int} {e : Err}

theorem WaitOk.not_mem (hw : WaitOk s) (hr : (s.thread t).stat = .ready) : t ∉ s.waiters q := by
  intro ht
  simp [hw.suspended t q ht] at hr

theorem WaitOk.of_sub (hw : WaitOk s) (hsub : ∀ q, (s'.waiters q).Sublist (s.waiters q))
    (hstat : ∀ u q, u ∈ s'.waiters q → (s'.thread u).stat = (s.thread u).stat) : WaitOk s' := by
  refine ⟨fun q => (hw.nodup q).sublist (hsub q), fun u q r hq hr => ?_, fun u q hu => ?_⟩
  · exact hw.one u q r ((hsub q).subset hq) ((hsub r).subset hr)
  · exact (hstat u q hu).trans (hw.suspended u q ((hsub q).subset hu))

theorem WaitOk.set {f : Thread → Thread} (hw : WaitOk s) (hf : (f (s.thread t)).stat = (s.thread t).stat) :
    WaitOk (s.set t f) := by
  refine hw.of_sub (fun q => List.Sublist.refl _) fun u q _ => ?_
  by_cases hu : u = t
  · rw [hu, Threads.set_self, hf]
  · rw [Threads.set_ne hu]

theorem Resumed.mem (h : Resumed s s' t) : u ∈ s'.waiters q ↔ u ∈ s.waiters q ∧ u ≠ t := by
  rw [h.waiters]
  exact mem_rtListRemove

theorem Resumed.waitOk (h : Resumed s s' t) (hw : WaitOk s) : WaitOk s' := by
  refine hw.of_sub (fun q => ?_) fun u q hu => congrArg Thread.stat (h.other u (h.mem.mp hu).2)
  rw [h.waiters]
  exact List.filter_sublist

/-- Taking a waiting thread off the lists shortens only the list it is on. -/
theorem Resumed.waiters_ne (h : Resumed s s' t) (hw : WaitOk s) (ht : t ∈ s.waiters q) (hr : r ≠ q) :
    s'.waiters r = s.waiters r := by
  rw [h.waiters]
  refine List.filter_eq_self.mpr fun u hu => ?_
  have hut : u ≠ t := by
    rintro rfl
    exact hr (hw.one u r q hu ht)
  simpa using hut

theorem rtThreadResume_resumed (h : (s.thread t).stat = .suspend) : Resumed s (rtThreadResume s t) t :=
  ⟨rtThreadResume_waiters h, by rw [rtThreadResume_thread h], fun _ hu => rtThreadResume_thread_ne hu⟩

theorem rtThreadTimeout_resumed (h : rtThreadTimeout s t = some s') : Resumed s s' t := by
  obtain ⟨-, -, hother, hself, hwait⟩ := rtThreadTimeout_spec h
  exact ⟨hwait, by rw [hself], hother⟩

theorem failWaiter_resumed (h : (s.thread t).stat = .suspend) : Resumed s (failWaiter s t) t := by
  have hstat : ((setError s t .error).thread t).stat = .suspend := by simpa [setError] using h
  have hr := rtThreadResume_resumed hstat
  refine ⟨hr.waiters, hr.stat, fun u hu => (hr.other u hu).trans ?_⟩
  simp [setError, hu]

theorem failWaiter_error (h : (s.thread t).stat = .suspend) :
    ((failWaiter s t).thread t).error = .error := by
  have hstat : ((setError s t .error).thread t).stat = .suspend := by simpa [setError] using h
  unfold failWaiter
  rw [rtThreadResume_thread hstat]
  simp [setError]

/-- All threads of a list are resumed with an error, and no other thread changes. -/
theorem failWaiters_spec (hw : WaitOk s) {l : List ThreadId} (hn : l.Nodup)
    (hl : ∀ u ∈ l, u ∈ s.waiters q) :
    WaitOk (l.foldl failWaiter s) ∧
      (l.foldl failWaiter s).waiters q = (s.waiters q).filter (· ∉ l) ∧
      (∀ r, r ≠ q → (l.foldl failWaiter s).waiters r = s.waiters r) ∧
      (∀ u, u ∉ l → (l.foldl failWaiter s).thread u = s.thread u) ∧
      ∀ u ∈ l, ((l.foldl failWaiter s).thread u).stat = .ready ∧
        ((l.foldl failWaiter s).thread u).error = .error := by
  induction l generalizing s with
  | nil => simp [hw]
  | cons t l ih =>
    obtain ⟨htl, hn⟩ := List.nodup_cons.mp hn
    have ht : t ∈ s.waiters q := hl t List.mem_cons_self
    have hsusp := hw.suspended t q ht
    have hr := failWaiter_resumed hsusp
    have hl' : ∀ u ∈ l, u ∈ (failWaiter s t).waiters q := fun u hu =>
      hr.mem.mpr ⟨hl u (List.mem_cons_of_mem t hu), ne_of_mem_of_not_mem hu htl⟩
    obtain ⟨hw', hq, hother, hrest, hmem⟩ := ih (hr.waitOk hw) hn hl'
    refine ⟨hw', ?_, fun r hr' => ?_, fun u hu => ?_, fun u hu => ?_⟩
    · rw [List.foldl_cons, hq, hr.waiters]
      simp only [rtListRemove, List.filter_filter, List.mem_cons, not_or]
      exact List.filter_congr fun u _ => by simp [Bool.and_comm]
    · exact (hother r hr').trans (hr.waiters_ne hw ht hr')
    · obtain ⟨hut, hul⟩ := not_or.mp (List.mem_cons.not.mp hu)
      exact (hrest u hul).trans (hr.other u hut)
    · rcases List.mem_cons.mp hu with rfl | hu
      · rw [List.foldl_cons, hrest u htl]
        exact ⟨hr.stat, failWaiter_error hsusp⟩
      · exact hmem u hu

theorem rtIpcListResumeAll_spec (hw : WaitOk s) (q : ObjectId) :
    WaitOk (rtIpcListResumeAll s q) ∧ (rtIpcListResumeAll s q).waiters q = [] ∧
      (∀ r, r ≠ q → (rtIpcListResumeAll s q).waiters r = s.waiters r) ∧
      (∀ u, u ∉ s.waiters q → (rtIpcListResumeAll s q).thread u = s.thread u) ∧
      ∀ u ∈ s.waiters q, ((rtIpcListResumeAll s q).thread u).stat = .ready ∧
        ((rtIpcListResumeAll s q).thread u).error = .error := by
  obtain ⟨hw', hq, hrest⟩ := failWaiters_spec hw (hw.nodup q) fun u hu => hu
  refine ⟨hw', hq.trans (List.filter_eq_nil_iff.mpr fun u hu => ?_), hrest⟩
  simpa using hu

/-- Suspending a ready thread that is on no list. -/
theorem rtIpcListSuspend_spec (q : ObjectId) (flag : IpcFlag) (ht : ∀ r, t ∉ s.waiters r)
    (hr : (s.thread t).stat = .ready) :
    (rtIpcListSuspend s q t flag).waiters = Function.update s.waiters q (insertWaiter s q t flag) ∧
    ∀ u, (rtIpcListSuspend s q t flag).thread u =
      if u = t then { s.thread t with stat := .suspend, timerActive := false } else s.thread u := by
  have hwait : (rtThreadSuspend s t).waiters = s.waiters := by
    rw [rtThreadSuspend_of_ready hr]
    funext r
    refine List.filter_eq_self.mpr fun u hu => ?_
    simpa using ne_of_mem_of_not_mem hu (ht r)
  have hthread : ∀ u, (rtThreadSuspend s t).thread u =
      if u = t then { s.thread t with stat := .suspend, timerActive := false } else s.thread u :=
    fun u => by
      split
      next hu => rw [hu, rtThreadSuspend_thread hr]
      next hu => rw [rtThreadSuspend_thread_ne hu]
  have hprio : ∀ u, ((rtThreadSuspend s t).thread u).currentPriority = (s.thread u).currentPriority :=
    fun u => by
      rw [hthread]
      split
      next hu => rw [hu]
      next => rfl
  refine ⟨?_, hthread⟩
  have hinsert : insertWaiter (rtThreadSuspend s t) q t flag = insertWaiter s q t flag := by
    cases flag with
    | fifo => simp [insertWaiter, hwait]
    | prio => simp [insertWaiter, hwait, hprio]
  unfold rtIpcListSuspend
  dsimp only
  rw [hinsert, hwait]

/-- What suspending a ready thread for a time does: it may start its timer too. -/
theorem suspendFor_spec (q : ObjectId) (flag : IpcFlag) (time : Int) (ht : ∀ r, t ∉ s.waiters r)
    (hr : (s.thread t).stat = .ready) :
    (suspendFor s q t flag time).waiters = Function.update s.waiters q (insertWaiter s q t flag) ∧
    ∀ u, (suspendFor s q t flag time).thread u = if u = t then
      { s.thread t with stat := .suspend, timerActive := decide (0 < time) } else s.thread u := by
  obtain ⟨hwait, hthread⟩ := rtIpcListSuspend_spec q flag ht hr
  unfold suspendFor
  dsimp only
  split
  next htime =>
    refine ⟨hwait, fun u => ?_⟩
    by_cases hu : u = t
    · subst hu
      simp [startThreadTimer, hthread, htime]
    · simp [startThreadTimer, hu, hthread]
  next htime =>
    refine ⟨hwait, fun u => (hthread u).trans ?_⟩
    simp [htime]

theorem mem_suspendFor (ht : ∀ r, t ∉ s.waiters r) (hr : (s.thread t).stat = .ready) :
    u ∈ (suspendFor s q t flag time).waiters r ↔ u ∈ s.waiters r ∨ u = t ∧ r = q := by
  rw [(suspendFor_spec q flag time ht hr).1]
  by_cases hrq : r = q
  · subst hrq
    rw [Function.update_self, mem_insertWaiter]
    tauto
  · rw [Function.update_of_ne hrq]
    tauto

theorem suspendFor_waitOk (hw : WaitOk s) (hr : (s.thread t).stat = .ready) :
    WaitOk (suspendFor s q t flag time) := by
  have ht : ∀ r, t ∉ s.waiters r := fun r => hw.not_mem hr
  obtain ⟨hwait, hthread⟩ := suspendFor_spec q flag time ht hr
  refine ⟨fun r => ?_, fun u r1 r2 h1 h2 => ?_, fun u r hu => ?_⟩
  · rw [hwait]
    by_cases hrq : r = q
    · subst hrq
      rw [Function.update_self, insertWaiter_perm.nodup_iff]
      exact List.nodup_cons.mpr ⟨ht r, hw.nodup r⟩
    · rw [Function.update_of_ne hrq]
      exact hw.nodup r
  · rcases (mem_suspendFor ht hr).mp h1 with h1' | ⟨rfl, rfl⟩
    · rcases (mem_suspendFor ht hr).mp h2 with h2' | ⟨rfl, rfl⟩
      · exact hw.one u r1 r2 h1' h2'
      · exact absurd h1' (ht r1)
    · rcases (mem_suspendFor ht hr).mp h2 with h2' | ⟨-, rfl⟩
      · exact absurd h2' (ht r2)
      · rfl
  · rw [hthread]
    split
    · rfl
    · rcases (mem_suspendFor ht hr).mp hu with hu | ⟨rfl, -⟩
      · exact hw.suspended u r hu
      · contradiction

end

end RTThread
