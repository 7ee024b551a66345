import RTThread.WorkQueueModel

namespace RTThread

/-- The worker is attended to, finds a work where it dequeues, is suspended in `rt_schedule()` only,
and has a current work only in `work_func`. -/
structure WorkInv (s : WorkQueue) : Prop where
  attended : Attended s
  ready : s.MayDequeue → s.workList ≠ []
  scheduling : s.suspended = true → s.worker = .scheduling
  idle : (∀ w, s.worker ≠ .working w) → s.workCurrent = none

section
variable {s s' : WorkQueue} {w : WorkId} {node : Option WorkId}

theorem workStart_inv (h : WorkStart s) : WorkInv s := by
  refine ⟨fun hs => ?_, fun hmay => ?_, fun hs => ?_, fun _ => ?_⟩
  · rw [h.suspended] at hs
    exact absurd hs Bool.false_ne_true
  · rw [WorkQueue.MayDequeue, h.worker] at hmay
    simp at hmay
  · rw [h.suspended] at hs
    exact absurd hs Bool.false_ne_true
  · exact h.workCurrent

/-- A submitter leaves its work in the list, and resumes the worker if that is idle. -/
theorem rtWorkqueueDowork_inv (h : WorkInv s) : WorkInv (s.rtWorkqueueDowork w).2 := by
  unfold WorkQueue.rtWorkqueueDowork
  split
  next => exact h
  next =>
    have hlist : (s.listRemove w).workList ++ [w] ≠ [] :=
      List.append_ne_nil_of_right_ne_nil _ (List.cons_ne_nil w [])
    split
    next => exact ⟨fun _ => .inr (Nat.succ_pos s.resuming), fun _ => hlist, h.scheduling, h.idle⟩
    next hcurrent =>
      refine ⟨fun hs => ?_, fun _ => hlist, h.scheduling, h.idle⟩
      refine absurd (h.idle fun w hw => ?_) hcurrent
      rw [h.scheduling hs] at hw
      exact WorkerFrame.noConfusion hw

/-- A work that is removed with another one left, or with the worker not about to dequeue. -/
theorem listRemove_inv (h : WorkInv s) (hleaves : LeavesWork s w) : WorkInv (s.listRemove w) := by
  refine ⟨fun hs => ?_, hleaves, h.scheduling, h.idle⟩
  rcases h.attended hs with hnil | hpos
  · apply Or.inl
    rw [WorkQueue.listRemove, hnil, List.filter_nil]
  · exact Or.inr hpos

theorem workStep_inv {a : WorkAction} (h : WorkInv s) (hok : KeepsWork s a)
    (hs : workStep s a = some s') : WorkInv s' := by
  cases a with
  | dowork w =>
    obtain ⟨-, hs⟩ := Option.ite_none_left_eq_some.mp hs
    obtain rfl := Option.some.inj hs
    exact rtWorkqueueDowork_inv h
  | criticalWork w =>
    obtain ⟨-, hs⟩ := Option.ite_none_left_eq_some.mp hs
    obtain rfl := Option.some.inj hs
    exact rtWorkqueueDowork_inv h
  | resume =>
    obtain ⟨-, hs⟩ := Option.ite_none_left_eq_some.mp hs
    obtain rfl := Option.some.inj hs
    refine ⟨fun hs => absurd hs Bool.false_ne_true, fun hmay => ?_,
      fun hs => absurd hs Bool.false_ne_true, h.idle⟩
    by_cases hsusp : s.suspended = true
    · exact hok hsusp
    · have hsusp := Bool.eq_false_iff.mpr hsusp
      apply h.ready
      rcases hmay with hw | ⟨hw, -⟩
      · exact Or.inl hw
      · exact Or.inr ⟨hw, hsusp⟩
  | cancel w =>
    obtain ⟨-, hs⟩ := Option.ite_none_left_eq_some.mp hs
    obtain rfl := Option.some.inj hs
    unfold WorkQueue.rtWorkqueueCancelWork
    split
    · exact h
    · exact listRemove_inv h hok
  | cancelAll =>
    obtain rfl := Option.some.inj hs
    exact ⟨h.attended, h.ready, h.scheduling, h.idle⟩
  | cancelNext node =>
    obtain ⟨-, hs⟩ := Option.ite_none_right_eq_some.mp hs
    obtain rfl := Option.some.inj hs
    cases node with
    | none => exact ⟨h.attended, h.ready, h.scheduling, h.idle⟩
    | some w =>
      have hinv := listRemove_inv h hok
      exact ⟨hinv.attended, hinv.ready, hinv.scheduling, hinv.idle⟩
  | test =>
    obtain ⟨-, hs⟩ := Option.ite_none_right_eq_some.mp hs
    obtain ⟨hw, hs⟩ := Option.ite_none_right_eq_some.mp hs
    obtain rfl := Option.some.inj hs
    have hrunning : s.suspended ≠ true := fun hsusp => by
      have hsched := h.scheduling hsusp
      rw [hw] at hsched
      exact WorkerFrame.noConfusion hsched
    refine ⟨fun hs => absurd hs hrunning, fun hmay hnil => ?_, fun hs => absurd hs hrunning,
      fun _ => h.idle fun w => ?_⟩
    · have hnil : s.workList = [] := hnil
      simp [WorkQueue.MayDequeue, hnil] at hmay
    · rw [hw]
      exact WorkerFrame.noConfusion
  | suspend =>
    obtain ⟨-, hs⟩ := Option.ite_none_right_eq_some.mp hs
    obtain ⟨hw, hs⟩ := Option.ite_none_right_eq_some.mp hs
    obtain rfl := Option.some.inj hs
    refine ⟨fun _ => hok, fun hmay => ?_, fun _ => rfl, fun _ => h.idle fun w => ?_⟩
    · simp [WorkQueue.MayDequeue] at hmay
    · rw [hw]
      exact WorkerFrame.noConfusion
  | dequeue =>
    obtain ⟨-, hs⟩ := Option.ite_none_right_eq_some.mp hs
    obtain ⟨hmay, hs⟩ := Option.ite_none_right_eq_some.mp hs
    obtain rfl := Option.some.inj hs
    have hrunning : s.suspended ≠ true := by
      intro hsusp
      rcases hmay with hw | ⟨-, hready⟩
      · rw [h.scheduling hsusp] at hw
        exact WorkerFrame.noConfusion hw
      · exact absurd (hready.symm.trans hsusp) Bool.false_ne_true
    refine ⟨fun hs => absurd hs hrunning, fun hmay => ?_, fun hs => absurd hs hrunning, fun hw => ?_⟩
    · simp [WorkQueue.MayDequeue] at hmay
    · exact absurd rfl (hw _)
  | clean =>
    obtain ⟨-, hs⟩ := Option.ite_none_right_eq_some.mp hs
    unfold WorkQueue.workerClean at hs
    split at hs
    next w hw =>
      obtain rfl := Option.some.inj hs
      have hrunning : s.suspended ≠ true := fun hsusp => by
        have hsched := h.scheduling hsusp
        rw [hw] at hsched
        exact WorkerFrame.noConfusion hsched
      refine ⟨fun hs => absurd hs hrunning, fun hmay => ?_, fun hs => absurd hs hrunning, fun _ => rfl⟩
      simp [WorkQueue.MayDequeue] at hmay
    next => simp at hs
  | complete =>
    obtain ⟨-, hs⟩ := Option.ite_none_right_eq_some.mp hs
    obtain ⟨hw, hs⟩ := Option.ite_none_right_eq_some.mp hs
    obtain rfl := Option.some.inj hs
    have hrunning : s.suspended ≠ true := fun hsusp => by
      have hsched := h.scheduling hsusp
      rw [hw] at hsched
      exact WorkerFrame.noConfusion hsched
    refine ⟨fun hs => absurd hs hrunning, fun hmay => ?_, fun hs => absurd hs hrunning,
      fun _ => h.idle fun w => ?_⟩
    · simp [WorkQueue.MayDequeue] at hmay
    · rw [hw]
      exact WorkerFrame.noConfusion

/-- In every run of allowed steps the worker finds a work where it dequeues, and is attended to
while it is suspended. -/
theorem worker_attended (hr : Reach workStep KeepsWork WorkStart s) :
    (s.MayDequeue → s.workList ≠ []) ∧ Attended s := by
  have hinv : WorkInv s := hr.invariant (fun s hs => workStart_inv hs)
    fun s a s' h hok hs => workStep_inv h hok hs
  exact ⟨hinv.ready, hinv.attended⟩

end

/-- A queue after `rt_workqueue_create`. -/
def createdQueue : WorkQueue := ⟨[], none, .testing, false, 0, []⟩

theorem createdQueue_start : WorkStart createdQueue := ⟨rfl, rfl, rfl, rfl, rfl, rfl⟩

/-- The worker suspends itself, and is resumed by a submitter. -/
def submittedRun : List WorkAction := [.test, .suspend, .dowork 1, .resume]

theorem submitted_some : (runFrom workStep submittedRun createdQueue).isSome = true := by
  decide +kernel

def submittedState : WorkQueue := (runFrom workStep submittedRun createdQueue).get submitted_some

theorem worker_attended_submitted : submittedState.MayDequeue ∧ submittedState.workList ≠ [] := by
  have hmay : submittedState.MayDequeue := by decide +kernel
  have hr : Reach workStep KeepsWork WorkStart submittedState :=
    Reach.runFrom (by decide +kernel) (.start createdQueue_start) (Option.some_get submitted_some).symm
  exact ⟨hmay, (worker_attended hr).1 hmay⟩

/-- The work is cancelled after the worker has been resumed for it. -/
def cancelledRun : List WorkAction := submittedRun ++ [.cancel 1]

theorem cancelled_some : (runFrom workStep cancelledRun createdQueue).isSome = true := by
  decide +kernel

/-- The work is submitted between the worker's test and its suspension. -/
def overtakenRun : List WorkAction := [.test, .dowork 1, .resume, .suspend]

theorem overtaken_some : (runFrom workStep overtakenRun createdQueue).isSome = true := by
  decide +kernel

/-- The worker goes on to dequeue from an empty list, and sleeps on a work. -/
theorem worker_dequeues_nothing_and_sleeps :
    (¬ ∀ s, Reach workStep (fun _ _ => True) WorkStart s → s.MayDequeue → s.workList ≠ []) ∧
      ¬ ∀ s, Reach workStep (fun _ _ => True) WorkStart s → Attended s := by
  constructor
  · intro h
    refine h _ (Reach.runFrom (runMeets_of_forall fun _ _ _ => trivial) (.start createdQueue_start)
      (Option.some_get cancelled_some).symm) (by decide +kernel) (by decide +kernel)
  · intro h
    have hattended := h _ (Reach.runFrom (runMeets_of_forall fun _ _ _ => trivial)
      (.start createdQueue_start) (Option.some_get overtaken_some).symm) (by decide +kernel)
    revert hattended
    decide +kernel

end RTThread
