import RTThread.TeardownModel

namespace RTThread

namespace Scheduler

/-- Nothing the lists and the thread itself say of `t` has changed. -/
structure Untouched (s s' : Scheduler) (t : ThreadId) : Prop where
  thread : s'.thread t = s.thread t
  mem : ∀ h, t ∈ s'.list h ↔ t ∈ s.list h

section
variable {cfg : SchedConfig} {s s' s'' : Scheduler} {t u : ThreadId} {h : ListHead}
  {f : SchedThread → SchedThread} {c : SchedCall}

theorem Untouched.trans (h1 : Untouched s s' t) (h2 : Untouched s' s'' t) : Untouched s s'' t :=
  ⟨h2.thread.trans h1.thread, fun h => (h2.mem h).trans (h1.mem h)⟩

theorem Untouched.refl : Untouched s s t := ⟨rfl, fun _ => Iff.rfl⟩

theorem untouched_set (ht : t ≠ u) : Untouched s (s.set u f) t :=
  ⟨Function.update_of_ne ht .., fun _ => Iff.rfl⟩

theorem untouched_stopThreadTimer (ht : t ≠ u) : Untouched s (s.stopThreadTimer u) t :=
  untouched_set ht

theorem mem_remove : t ∈ (s.rtListRemove u).list h ↔ t ∈ s.list h ∧ t ≠ u := by
  simp [rtListRemove]

theorem untouched_rtListRemove (ht : t ≠ u) : Untouched s (s.rtListRemove u) t :=
  ⟨rfl, fun _ => mem_remove.trans (and_iff_left ht)⟩

theorem mem_insertBefore {h' : ListHead} :
    t ∈ (s.insertBefore h u).list h' ↔ t ∈ s.list h' ∨ t = u ∧ h' = h := by
  by_cases hh : h' = h
  · subst hh
    simp [insertBefore]
  · simp [insertBefore, hh]

theorem mem_insertAfter {h' : ListHead} :
    t ∈ (s.insertAfter h u).list h' ↔ t ∈ s.list h' ∨ t = u ∧ h' = h := by
  by_cases hh : h' = h
  · subst hh
    simp [insertAfter, or_comm]
  · simp [insertAfter, hh]

theorem untouched_insertBefore (ht : t ≠ u) : Untouched s (s.insertBefore h u) t :=
  ⟨rfl, fun _ => mem_insertBefore.trans (by simp [ht])⟩

theorem untouched_insertAfter (ht : t ≠ u) : Untouched s (s.insertAfter h u) t :=
  ⟨rfl, fun _ => mem_insertAfter.trans (by simp [ht])⟩

/-- `rt_schedule_remove_thread` differs from `rt_list_remove` in the ready map only. -/
theorem remove_list (cfg : SchedConfig) (s : Scheduler) (u : ThreadId) :
    (s.rtScheduleRemoveThread cfg u).list = (s.rtListRemove u).list ∧
    (s.rtScheduleRemoveThread cfg u).thread = s.thread := by
  unfold rtScheduleRemoveThread
  dsimp only
  split
  · exact ⟨rfl, rfl⟩
  · exact ⟨rfl, rfl⟩

theorem untouched_rtScheduleRemoveThread (ht : t ≠ u) :
    Untouched s (s.rtScheduleRemoveThread cfg u) t := by
  obtain ⟨hlist, hthread⟩ := remove_list cfg s u
  refine ⟨congrFun hthread t, fun h => ?_⟩
  rw [hlist]
  exact (untouched_rtListRemove ht).mem h

theorem untouched_rtScheduleInsertThread (ht : t ≠ u) :
    Untouched s (s.rtScheduleInsertThread cfg u) t :=
  (untouched_set ht).trans ⟨rfl, (untouched_insertBefore ht).mem⟩

theorem untouched_rtSchedule (hs : s.rtSchedule cfg = some s') : Untouched s s' t := by
  unfold rtSchedule at hs
  split at hs
  · obtain ⟨toThread, -, rfl⟩ := Option.map_eq_some_iff.mp hs
    split
    · exact .refl
    · exact ⟨rfl, fun _ => Iff.rfl⟩
  · obtain rfl := Option.some.inj hs
    exact .refl

theorem untouched_rtThreadSuspend (ht : t ≠ u) : Untouched s (s.rtThreadSuspend cfg u).2 t := by
  unfold rtThreadSuspend
  split
  · exact ((untouched_set ht).trans (untouched_rtScheduleRemoveThread ht)).trans
      (untouched_stopThreadTimer ht)
  · exact .refl

theorem untouched_rtThreadResume (ht : t ≠ u) : Untouched s (s.rtThreadResume cfg u).2 t := by
  unfold rtThreadResume
  split
  · exact ((untouched_rtListRemove ht).trans (untouched_stopThreadTimer ht)).trans
      (untouched_rtScheduleInsertThread ht)
  · exact .refl

theorem untouched_closeThread (ht : t ≠ u) : Untouched s (s.closeThread cfg u) t := by
  unfold closeThread
  dsimp only
  split
  · exact ((untouched_rtScheduleRemoveThread ht).trans (untouched_set ht)).trans (untouched_set ht)
  · exact (untouched_set ht).trans (untouched_set ht)

theorem untouched_rtIpcListSuspend {q : ObjectId} {flag : IpcFlag} (ht : t ≠ u) :
    Untouched s (s.rtIpcListSuspend cfg q u flag) t := by
  have hsuspended : Untouched s (s.rtThreadSuspend cfg u).2 t := untouched_rtThreadSuspend ht
  refine hsuspended.trans ⟨rfl, fun h => ?_⟩
  unfold rtIpcListSuspend
  by_cases hh : h = .suspended q
  · subst hh
    dsimp only
    rw [Function.update_self]
    cases flag with
    | fifo => simp [insertWaiter, ht]
    | prio => simp [insertWaiter, mem_insertByPriority, ht]
  · dsimp only
    rw [Function.update_of_ne hh]

/-- A call leaves the threads it does not work on alone. -/
theorem schedStep_untouched (hs : schedStep cfg s c = some s') (ht : c.target s ≠ some t) :
    Untouched s s' t := by
  cases c with
  | startup u =>
    have ht : t ≠ u := fun h => ht (h ▸ rfl)
    obtain ⟨-, hs⟩ := Option.ite_none_right_eq_some.mp hs
    split at hs
    · obtain rfl := Option.some.inj hs
      exact (untouched_set ht).trans (untouched_rtThreadResume ht)
    · exact ((untouched_set ht).trans (untouched_rtThreadResume ht)).trans (untouched_rtSchedule hs)
  | suspend u =>
    obtain rfl := Option.some.inj hs
    exact untouched_rtThreadSuspend fun h => ht (h ▸ rfl)
  | resume u =>
    obtain rfl := Option.some.inj hs
    exact untouched_rtThreadResume fun h => ht (h ▸ rfl)
  | yield =>
    obtain ⟨u, hu, hs⟩ := Option.bind_eq_some_iff.mp hs
    have ht : t ≠ u := fun h => ht (hu.trans (h ▸ rfl))
    dsimp only at hs
    split at hs
    · exact ((untouched_rtListRemove ht).trans (untouched_insertBefore ht)).trans
        (untouched_rtSchedule hs)
    · obtain rfl := Option.some.inj hs
      exact .refl
  | sleep =>
    obtain ⟨u, hu, hs⟩ := Option.bind_eq_some_iff.mp hs
    have ht : t ≠ u := fun h => ht (hu.trans (h ▸ rfl))
    exact ((untouched_rtThreadSuspend ht).trans (untouched_set ht)).trans (untouched_rtSchedule hs)
  | timeout u =>
    have ht : t ≠ u := fun h => ht (h ▸ rfl)
    obtain ⟨-, hs⟩ := Option.ite_none_right_eq_some.mp hs
    exact (((untouched_set ht).trans (untouched_rtListRemove ht)).trans
      (untouched_rtScheduleInsertThread ht)).trans (untouched_rtSchedule hs)
  | changePriority u priority =>
    have ht : t ≠ u := fun h => ht (h ▸ rfl)
    obtain rfl := Option.some.inj hs
    unfold changePriority
    split
    · exact ((untouched_rtScheduleRemoveThread ht).trans (untouched_set ht)).trans
        (untouched_rtScheduleInsertThread ht)
    · exact untouched_set ht
  | detach u =>
    have ht : t ≠ u := fun h => ht (h ▸ rfl)
    obtain rfl := Option.some.inj hs
    unfold rtThreadDetach
    dsimp only
    split
    · exact (untouched_closeThread ht).trans (untouched_insertAfter ht)
    · exact untouched_closeThread ht
  | delete u =>
    have ht : t ≠ u := fun h => ht (h ▸ rfl)
    obtain rfl := Option.some.inj hs
    exact (untouched_closeThread ht).trans (untouched_insertAfter ht)
  | exit =>
    obtain ⟨u, hu, hs⟩ := Option.bind_eq_some_iff.mp hs
    have ht : t ≠ u := fun h => ht (hu.trans (h ▸ rfl))
    refine Untouched.trans ?_ (untouched_rtSchedule hs)
    have hremoved : Untouched s (s.rtScheduleRemoveThread cfg u) t :=
      untouched_rtScheduleRemoveThread ht
    have hclosed := hremoved.trans ((untouched_set (f := fun x => { x with stat := .close }) ht).trans
      (untouched_stopThreadTimer ht))
    split
    · exact hclosed
    · exact hclosed.trans (untouched_insertAfter ht)
  | block q flag =>
    obtain ⟨u, hu, hs⟩ := Option.bind_eq_some_iff.mp hs
    have ht : t ≠ u := fun h => ht (hu.trans (h ▸ rfl))
    obtain ⟨-, hs⟩ := Option.ite_none_right_eq_some.mp hs
    obtain rfl := Option.some.inj hs
    exact untouched_rtIpcListSuspend ht
  | schedule => exact untouched_rtSchedule hs
  | schedulerStart =>
    obtain ⟨u, -, rfl⟩ := Option.map_eq_some_iff.mp hs
    exact ⟨rfl, fun _ => Iff.rfl⟩
  | enterCritical =>
    obtain rfl := Option.some.inj hs
    exact ⟨rfl, fun _ => Iff.rfl⟩
  | exitCritical =>
    have hs : s.rtExitCritical cfg = some s' := hs
    unfold rtExitCritical at hs
    split at hs
    · have hunlocked : Untouched s { s with lockNest := 0 } t := ⟨rfl, fun _ => Iff.rfl⟩
      exact hunlocked.trans (untouched_rtSchedule hs)
    · obtain rfl := Option.some.inj hs
      exact ⟨rfl, fun _ => Iff.rfl⟩

/-- What the calls on a living thread `t` keep. -/
structure KeepsLiving (s s' : Scheduler) (t : ThreadId) : Prop where
  stat : (s.thread t).stat ≠ .close → (s'.thread t).stat ≠ .close
  system : (s'.thread t).systemObject = (s.thread t).systemObject
  defunct : t ∈ s'.list .defunct → t ∈ s.list .defunct
  init : (s'.thread t).stat = .init → (s.thread t).stat = .init ∧ ∀ h, t ∈ s'.list h → t ∈ s.list h

theorem KeepsLiving.trans (h1 : KeepsLiving s s' t) (h2 : KeepsLiving s' s'' t) :
    KeepsLiving s s'' t := by
  refine ⟨fun h => h2.stat (h1.stat h), h2.system.trans h1.system, fun h => h1.defunct (h2.defunct h),
    fun h => ?_⟩
  obtain ⟨hinit, hmem⟩ := h2.init h
  obtain ⟨hinit', hmem'⟩ := h1.init hinit
  exact ⟨hinit', fun l hl => hmem' l (hmem l hl)⟩

theorem Untouched.keepsLiving (h : Untouched s s' t) : KeepsLiving s s' t := by
  refine ⟨?_, ?_, (h.mem _).mp, ?_⟩
  · rw [h.thread]
    exact id
  · rw [h.thread]
  · rw [h.thread]
    exact fun hinit => ⟨hinit, fun l => (h.mem l).mp⟩

theorem keepsLiving_set (hsys : (f (s.thread t)).systemObject = (s.thread t).systemObject)
    (hstat : (f (s.thread t)).stat = (s.thread t).stat ∨ (f (s.thread t)).stat = .ready ∨
      (f (s.thread t)).stat = .suspend) : KeepsLiving s (s.set t f) t := by
  have hself : (s.set t f).thread t = f (s.thread t) := Function.update_self ..
  refine ⟨?_, ?_, id, ?_⟩
  · rw [hself]
    rcases hstat with h | h | h
    · rw [h]
      exact id
    · simp [h]
    · simp [h]
  · rw [hself, hsys]
  · rw [hself]
    rcases hstat with h | h | h
    · rw [h]
      exact fun hinit => ⟨hinit, fun _ => id⟩
    · simp [h]
    · simp [h]

theorem keepsLiving_rtListRemove : KeepsLiving s (s.rtListRemove t) t :=
  ⟨id, rfl, fun h => (mem_remove.mp h).1, fun h => ⟨h, fun _ hl => (mem_remove.mp hl).1⟩⟩

theorem keepsLiving_rtScheduleRemoveThread : KeepsLiving s (s.rtScheduleRemoveThread cfg t) t := by
  obtain ⟨hlist, hthread⟩ := remove_list cfg s t
  have hremoved := keepsLiving_rtListRemove (s := s) (t := t)
  refine ⟨?_, ?_, ?_, ?_⟩
  · rw [hthread]
    exact id
  · rw [hthread]
  · rw [hlist]
    exact hremoved.defunct
  · rw [hthread, hlist]
    exact hremoved.init

/-- Linking a thread that is started on a list that is not the defunct list. -/
theorem keepsLiving_link (hthread : s'.thread t = s.thread t) (hinit : (s.thread t).stat ≠ .init)
    (hdefunct : t ∈ s'.list .defunct → t ∈ s.list .defunct) : KeepsLiving s s' t := by
  refine ⟨?_, by rw [hthread], hdefunct, ?_⟩
  · rw [hthread]
    exact id
  · rw [hthread]
    exact fun h => absurd h hinit

theorem keepsLiving_stopThreadTimer : KeepsLiving s (s.stopThreadTimer t) t :=
  keepsLiving_set rfl (.inl rfl)

theorem keepsLiving_rtScheduleInsertThread : KeepsLiving s (s.rtScheduleInsertThread cfg t) t := by
  have hready : KeepsLiving s (s.set t fun x => { x with stat := .ready }) t :=
    keepsLiving_set rfl (.inr (.inl rfl))
  refine hready.trans (keepsLiving_link rfl ?_ fun h => ?_)
  · simp [Scheduler.set]
  · have hmem : t ∈ ((s.set t fun x => { x with stat := .ready }).insertBefore
        (.ready ((s.set t fun x => { x with stat := .ready }).thread t).currentPriority) t).list
        .defunct := h
    simpa using mem_insertBefore.mp hmem

theorem keepsLiving_rtThreadSuspend : KeepsLiving s (s.rtThreadSuspend cfg t).2 t := by
  unfold rtThreadSuspend
  split
  · have hset : KeepsLiving s (s.set t fun x => { x with stat := .suspend }) t :=
      keepsLiving_set rfl (.inr (.inr rfl))
    exact (hset.trans keepsLiving_rtScheduleRemoveThread).trans keepsLiving_stopThreadTimer
  · exact Untouched.refl.keepsLiving

theorem keepsLiving_rtThreadResume : KeepsLiving s (s.rtThreadResume cfg t).2 t := by
  unfold rtThreadResume
  split
  · exact (keepsLiving_rtListRemove.trans keepsLiving_stopThreadTimer).trans
      keepsLiving_rtScheduleInsertThread
  · exact Untouched.refl.keepsLiving

theorem rtThreadSuspend_stat (h : (s.thread t).stat = .ready) :
    ((s.rtThreadSuspend cfg t).2.thread t).stat = .suspend := by
  unfold rtThreadSuspend
  rw [if_pos h]
  simp [stopThreadTimer, Scheduler.set, (remove_list _ _ _).2]

/-- What a call keeps of a living thread, whether it works on it or not. -/
theorem schedStep_living (hs : schedStep cfg s c = some s') (hc : c.allowed s = true) :
    KeepsLiving s s' t := by
  by_cases ht : c.target s = some t
  · have hsched : ∀ {s s' : Scheduler}, s.rtSchedule cfg = some s' → KeepsLiving s s' t :=
      fun h => (untouched_rtSchedule h).keepsLiving
    cases c with
    | startup u =>
      obtain rfl : u = t := Option.some.inj ht
      obtain ⟨-, hs⟩ := Option.ite_none_right_eq_some.mp hs
      split at hs
      · obtain rfl := Option.some.inj hs
        exact (keepsLiving_set rfl (.inr (.inr rfl))).trans keepsLiving_rtThreadResume
      · exact ((keepsLiving_set rfl (.inr (.inr rfl))).trans keepsLiving_rtThreadResume).trans
          (hsched hs)
    | suspend u =>
      obtain rfl : u = t := Option.some.inj ht
      obtain rfl := Option.some.inj hs
      exact keepsLiving_rtThreadSuspend
    | resume u =>
      obtain rfl : u = t := Option.some.inj ht
      obtain rfl := Option.some.inj hs
      exact keepsLiving_rtThreadResume
    | yield =>
      obtain ⟨u, hu, hs⟩ := Option.bind_eq_some_iff.mp hs
      obtain rfl : u = t := Option.some.inj (hu.symm.trans ht)
      dsimp only at hs
      split at hs
      next hmoves =>
        have hinit : ((s.rtListRemove u).thread u).stat ≠ .init := by
          show (s.thread u).stat ≠ .init
          simp [hmoves.1]
        have hlink : KeepsLiving (s.rtListRemove u) ((s.rtListRemove u).insertBefore
            (.ready (s.thread u).currentPriority) u) u :=
          keepsLiving_link rfl hinit fun h => by simpa using mem_insertBefore.mp h
        exact (keepsLiving_rtListRemove.trans hlink).trans (hsched hs)
      next =>
        obtain rfl := Option.some.inj hs
        exact Untouched.refl.keepsLiving
    | sleep =>
      obtain ⟨u, hu, hs⟩ := Option.bind_eq_some_iff.mp hs
      obtain rfl : u = t := Option.some.inj (hu.symm.trans ht)
      exact (keepsLiving_rtThreadSuspend.trans (keepsLiving_set rfl (.inl rfl))).trans (hsched hs)
    | timeout u =>
      obtain rfl : u = t := Option.some.inj ht
      obtain ⟨-, hs⟩ := Option.ite_none_right_eq_some.mp hs
      exact (((keepsLiving_set rfl (.inl rfl)).trans keepsLiving_rtListRemove).trans
        keepsLiving_rtScheduleInsertThread).trans (hsched hs)
    | changePriority u priority =>
      obtain rfl : u = t := Option.some.inj ht
      obtain rfl := Option.some.inj hs
      unfold changePriority
      split
      · exact (keepsLiving_rtScheduleRemoveThread.trans (keepsLiving_set rfl (.inl rfl))).trans
          keepsLiving_rtScheduleInsertThread
      · exact keepsLiving_set rfl (.inl rfl)
    | detach u => cases hc
    | delete u => cases hc
    | exit => cases hc
    | block q flag =>
      obtain ⟨u, hu, hs⟩ := Option.bind_eq_some_iff.mp hs
      obtain rfl : u = t := Option.some.inj (hu.symm.trans ht)
      obtain ⟨hready, hs⟩ := Option.ite_none_right_eq_some.mp hs
      obtain rfl := Option.some.inj hs
      have hsuspended : KeepsLiving s (s.rtThreadSuspend cfg u).2 u := keepsLiving_rtThreadSuspend
      refine hsuspended.trans (keepsLiving_link rfl ?_ fun h => ?_)
      · simp [rtThreadSuspend_stat hready]
      · simpa [rtIpcListSuspend] using h
    | schedule => cases ht
    | schedulerStart => cases ht
    | enterCritical => cases ht
    | exitCritical => cases ht
  · exact (schedStep_untouched hs ht).keepsLiving

/-- A call changes nothing of a closed thread but its priority, unless the thread goes to sleep. -/
theorem schedStep_closed (hs : schedStep cfg s c = some s') (hc : c.allowed s = true)
    (hclosed : (s.thread t).stat = .close) (hsleep : c.target s = some t → c ≠ .sleep) :
    (s'.thread t).stat = .close ∧ (s'.thread t).timerActive = (s.thread t).timerActive ∧
      (s'.thread t).systemObject = (s.thread t).systemObject ∧
      (s'.thread t).cleanup = (s.thread t).cleanup ∧ ∀ h, t ∈ s'.list h ↔ t ∈ s.list h := by
  by_cases ht : c.target s = some t
  · have hsame : s' = s → (s'.thread t).stat = .close ∧
        (s'.thread t).timerActive = (s.thread t).timerActive ∧
        (s'.thread t).systemObject = (s.thread t).systemObject ∧
        (s'.thread t).cleanup = (s.thread t).cleanup ∧ ∀ h, t ∈ s'.list h ↔ t ∈ s.list h := by
      rintro rfl
      exact ⟨hclosed, rfl, rfl, rfl, fun _ => Iff.rfl⟩
    cases c with
    | startup u =>
      obtain rfl : u = t := Option.some.inj ht
      obtain ⟨hinit, -⟩ := Option.ite_none_right_eq_some.mp hs
      simp [hclosed] at hinit
    | suspend u =>
      obtain rfl : u = t := Option.some.inj ht
      refine hsame ((Option.some.inj hs).symm.trans ?_)
      simp [rtThreadSuspend, hclosed]
    | resume u =>
      obtain rfl : u = t := Option.some.inj ht
      refine hsame ((Option.some.inj hs).symm.trans ?_)
      simp [rtThreadResume, hclosed]
    | yield =>
      obtain ⟨u, hu, hs⟩ := Option.bind_eq_some_iff.mp hs
      obtain rfl : u = t := Option.some.inj (hu.symm.trans ht)
      dsimp only at hs
      rw [if_neg (by simp [hclosed])] at hs
      exact hsame (Option.some.inj hs).symm
    | sleep => exact absurd rfl (hsleep ht)
    | timeout u =>
      obtain rfl : u = t := Option.some.inj ht
      obtain ⟨hsusp, -⟩ := Option.ite_none_right_eq_some.mp hs
      simp [hclosed] at hsusp
    | changePriority u priority =>
      obtain rfl : u = t := Option.some.inj ht
      obtain rfl := Option.some.inj hs
      unfold changePriority setPriority
      rw [if_neg (by simp [hclosed])]
      simp [Scheduler.set, hclosed]
    | detach u => cases hc
    | delete u => cases hc
    | exit => cases hc
    | block q flag =>
      obtain ⟨u, hu, hs⟩ := Option.bind_eq_some_iff.mp hs
      obtain rfl : u = t := Option.some.inj (hu.symm.trans ht)
      obtain ⟨hready, -⟩ := Option.ite_none_right_eq_some.mp hs
      simp [hclosed] at hready
    | schedule => cases ht
    | schedulerStart => cases ht
    | enterCritical => cases ht
    | exitCritical => cases ht
  · have hu := schedStep_untouched hs ht
    rw [hu.thread]
    exact ⟨hclosed, rfl, rfl, rfl, hu.mem⟩

/-- `rt_thread_suspend` does not link a thread. -/
theorem rtThreadSuspend_unlinked (hon : ∀ h, t ∉ s.list h) :
    ∀ h, t ∉ (s.rtThreadSuspend cfg t).2.list h := by
  unfold rtThreadSuspend
  split
  · intro h hmem
    simp only [stopThreadTimer, Scheduler.set, (remove_list _ _ _).1] at hmem
    exact hon h (mem_remove.mp hmem).1
  · exact hon

theorem rtThreadSuspend_timer (ht : (s.thread t).timerActive = false) :
    ((s.rtThreadSuspend cfg t).2.thread t).timerActive = false := by
  unfold rtThreadSuspend
  split
  · simp [stopThreadTimer, Scheduler.set]
  · exact ht

end

end Scheduler

end RTThread
