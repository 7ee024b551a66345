import RTThread.WaitQueueModel

namespace RTThread

section
variable {s s' : WqState} {t u : ThreadId} {q r : ObjectId} {tick : Int} {f : WqFrame}

theorem setFrame_frame_self : (s.setFrame t f).frame t = f := Function.update_self ..

theorem setFrame_frame_ne (hu : u ≠ t) : (s.setFrame t f).frame u = s.frame u :=
  Function.update_of_ne hu ..

theorem rtWqueueWakeup_frame : (s.rtWqueueWakeup q).frame = fun t => WqState.hear q (s.frame t) := by
  unfold WqState.rtWqueueWakeup
  dsimp only [WqState.setFlag]
  split <;> rfl

theorem rtWqueueWakeup_flag : (s.rtWqueueWakeup q).flag = Function.update s.flag q true := by
  unfold WqState.rtWqueueWakeup
  dsimp only [WqState.setFlag]
  split <;> rfl

/-- A wake-up is remembered for the threads that hear of it. -/
theorem rtWqueueWakeup_notErased (h : NotErased s) : NotErased (s.rtWqueueWakeup q) := by
  intro t r hframe
  rw [rtWqueueWakeup_flag]
  by_cases hr : r = q
  · rw [hr, Function.update_self]
  · rw [Function.update_of_ne hr]
    apply h t r
    rw [rtWqueueWakeup_frame] at hframe
    dsimp only at hframe
    cases hold : s.frame t with
    | tested r' missed =>
      rw [hold] at hframe
      obtain ⟨rfl, hmissed⟩ := WqFrame.tested.inj hframe
      simp only [hr, decide_false, Bool.or_false] at hmissed
      rw [hmissed]
    | outside => simp [hold, WqState.hear] at hframe
    | waiting r' => simp [hold, WqState.hear] at hframe
    | leaving r' => simp [hold, WqState.hear] at hframe

/-- A wake-up resumes the thread in front if it is suspended, and nothing else changes status. -/
theorem rtWqueueWakeup_wakes_iff : WakesWaiter q s (s.rtWqueueWakeup q) ↔
    KeepsWakeup s (.wakeup q) := by
  unfold WqState.rtWqueueWakeup
  dsimp only [WqState.setFlag]
  split
  next hlist =>
    have hnone : ¬ ∃ t, Waits s q t := by
      rintro ⟨t, hmem, -⟩
      rw [hlist] at hmem
      exact List.not_mem_nil hmem
    exact iff_of_true (fun h => absurd h hnone) (fun h => absurd h hnone)
  next t ts hlist =>
    constructor
    · intro h hwaits
      obtain ⟨u, ⟨hmem, hsusp⟩, hready⟩ := h hwaits
      refine ⟨t, by rw [hlist, List.head?_cons], ?_⟩
      by_contra hstat
      have hsame : rtThreadResume s.toThreads t = s.toThreads := if_neg hstat
      have hready : ((rtThreadResume s.toThreads t).thread u).stat = .ready := hready
      rw [hsame, hsusp] at hready
      exact ThreadStat.noConfusion hready
    · intro h hwaits
      obtain ⟨u, hhead, hsusp⟩ := h hwaits
      rw [hlist, List.head?_cons] at hhead
      obtain rfl := Option.some.inj hhead
      refine ⟨t, ⟨by rw [hlist]; exact List.mem_cons_self, hsusp⟩, ?_⟩
      change ((rtThreadResume s.toThreads t).thread t).stat = .ready
      rw [rtThreadResume_thread hsusp]

/-- Clearing the flag erases nothing just if no other thread has missed a wake-up. -/
theorem setFlag_notErased_iff (h : NotErased s) (hf : ∀ r m, f ≠ .tested r m) :
    NotErased ((s.setFlag q false).setFrame t f) ↔ NoneMissed s q t := by
  constructor
  · intro hs u hu hframe
    have hflag := hs u q ((setFrame_frame_ne hu).trans hframe)
    simp [WqState.setFrame, WqState.setFlag] at hflag
  · intro hs u r hframe
    by_cases hu : u = t
    · rw [hu, setFrame_frame_self] at hframe
      exact absurd hframe (hf r true)
    · have hframe := (setFrame_frame_ne hu).symm.trans hframe
      have hr : r ≠ q := by
        rintro rfl
        exact hs u hu hframe
      have hflag := h u r hframe
      simpa [WqState.setFrame, WqState.setFlag, Function.update_of_ne hr] using hflag

/-- A change of one thread's frame. -/
theorem notErased_of_frame (h : NotErased s) (hflag : s'.flag = s.flag)
    (hframe : ∀ u, u ≠ t → s'.frame u = s.frame u) (ht : ∀ r, s'.frame t ≠ .tested r true) :
    NotErased s' := by
  intro u r hu
  rw [hflag]
  by_cases hut : u = t
  · rw [hut] at hu
    exact absurd hu (ht r)
  · exact h u r ((hframe u hut).symm.trans hu)

theorem rtWqueueWait_notErased_iff (h : NotErased s) : NotErased (s.rtWqueueWait q t tick) ↔ tick = 0 ∨ s.flag q = false ∨ NoneMissed s q t := by
  unfold WqState.rtWqueueWait
  split
  next htick =>
    refine iff_of_true (notErased_of_frame h rfl (fun u hu => setFrame_frame_ne hu) fun r => ?_) (.inl htick)
    rw [setFrame_frame_self]
    exact WqFrame.noConfusion
  next htick =>
    split
    next hflag =>
      rw [setFlag_notErased_iff h fun r m => WqFrame.noConfusion]
      simp [htick, hflag]
    next hflag =>
      have hflag := Bool.eq_false_iff.mpr hflag
      refine iff_of_true (notErased_of_frame h rfl (fun u hu => setFrame_frame_ne hu) fun r => ?_)
        (.inr (.inl hflag))
      rw [setFrame_frame_self]
      exact WqFrame.noConfusion

theorem wakeupReaches_iff {a : WqAction} (h : NotErased s) (hs : wqStep s a = some s') :
    WakeupReaches s a ↔ KeepsWakeup s a := by
  have hreaches : WakeupReaches s a ↔ (∀ q, a = .wakeup q → WakesWaiter q s s') ∧ NotErased s' := by
    constructor
    · exact fun hall => hall s' hs
    · intro hgood s1 h1
      obtain rfl := Option.some.inj (hs.symm.trans h1)
      exact hgood
  rw [hreaches]
  cases a with
  | test t q =>
    obtain ⟨-, hs⟩ := Option.ite_none_right_eq_some.mp hs
    obtain rfl := Option.some.inj hs
    refine iff_of_true ⟨fun r hr => WqAction.noConfusion hr, notErased_of_frame h rfl
      (fun u hu => setFrame_frame_ne hu) fun r => ?_⟩ trivial
    rw [setFrame_frame_self]
    intro hframe
    exact Bool.false_ne_true (WqFrame.tested.inj hframe).2
  | wait t tick =>
    simp only [wqStep] at hs
    split at hs
    next q missed hframe =>
      obtain ⟨-, hs⟩ := Option.ite_none_right_eq_some.mp hs
      obtain rfl := Option.some.inj hs
      rw [rtWqueueWait_notErased_iff h]
      constructor
      · rintro ⟨-, hgood⟩ r m hr
        obtain ⟨rfl, rfl⟩ := WqFrame.tested.inj (hframe.symm.trans hr)
        exact hgood
      · intro hkeeps
        exact ⟨fun r hr => WqAction.noConfusion hr, hkeeps q missed hframe⟩
    next => simp at hs
  | leave t =>
    simp only [wqStep] at hs
    split at hs
    next q hframe =>
      obtain ⟨-, hs⟩ := Option.ite_none_right_eq_some.mp hs
      obtain rfl := Option.some.inj hs
      rw [WqState.waitLeave, setFlag_notErased_iff h fun r m => WqFrame.noConfusion]
      constructor
      · rintro ⟨-, hgood⟩ r hr
        obtain rfl := WqFrame.waiting.inj (hframe.symm.trans hr)
        exact hgood
      · intro hkeeps
        exact ⟨fun r hr => WqAction.noConfusion hr, hkeeps q hframe⟩
    next => simp at hs
  | remove t =>
    simp only [wqStep] at hs
    split at hs
    next q hframe =>
      obtain ⟨-, hs⟩ := Option.ite_none_right_eq_some.mp hs
      obtain rfl := Option.some.inj hs
      refine iff_of_true ⟨fun r hr => WqAction.noConfusion hr, notErased_of_frame h rfl
        (fun u hu => setFrame_frame_ne hu) fun r => ?_⟩ trivial
      rw [setFrame_frame_self]
      exact WqFrame.noConfusion
    next => simp at hs
  | wakeup q =>
    obtain rfl := Option.some.inj hs
    rw [← rtWqueueWakeup_wakes_iff]
    constructor
    · exact fun hgood => hgood.1 q rfl
    · intro hwakes
      refine ⟨fun r hr => ?_, rtWqueueWakeup_notErased h⟩
      obtain rfl := WqAction.wakeup.inj hr
      exact hwakes
  | timeout t =>
    obtain ⟨threads, -, rfl⟩ := Option.map_eq_some_iff.mp hs
    exact iff_of_true ⟨fun r hr => WqAction.noConfusion hr, h⟩ trivial

/-- In a run every wake-up reaches a waiting thread or is remembered exactly where each step keeps
to the rule. -/
theorem wakeups_reach_iff {as : List WqAction} (hstart : WqStart s)
    (hrun : runFrom wqStep as s = some s') :
    RunMeets wqStep WakeupReaches as s ↔ RunMeets wqStep KeepsWakeup as s := by
  have hinit : NotErased s := fun t q hframe => by
    rw [hstart.frame] at hframe
    exact WqFrame.noConfusion hframe
  exact runMeets_iff (I := NotErased) (fun s a s' h hs => wakeupReaches_iff h hs)
    (fun s a s' _ hok hs => (hok s' hs).2) hinit hrun

end

/-- A queue and ready threads. -/
def emptyQueue : WqState where
  thread _ := ⟨.ready, 10, 10, .eok, false, 0, 0, []⟩
  waiters _ := []
  flag _ := false
  waitingList _ := []
  frame _ := .outside

theorem emptyQueue_start : WqStart emptyQueue := ⟨fun _ => rfl, fun _ => rfl, fun _ => rfl⟩

/-- Two threads wait, and a wake-up resumes the first one, which leaves. -/
def wokenRun : List WqAction :=
  [.test 1 0, .wait 1 5, .test 2 0, .wait 2 (-1), .wakeup 0, .leave 1, .remove 1]

theorem woken_some : (runFrom wqStep wokenRun emptyQueue).isSome = true := by decide +kernel

theorem wakeups_reach_iff_woken : RunMeets wqStep WakeupReaches wokenRun emptyQueue ↔
    RunMeets wqStep KeepsWakeup wokenRun emptyQueue :=
  wakeups_reach_iff emptyQueue_start (Option.some_get woken_some).symm

/-- The first of two waiting threads times out. -/
def timedOutFirst : List WqAction :=
  [.test 1 0, .wait 1 5, .test 2 0, .wait 2 (-1), .timeout 1]

theorem timedOutFirst_some : (runFrom wqStep timedOutFirst emptyQueue).isSome = true := by
  decide +kernel

/-- A thread tests its condition, and then another one is woken up. -/
def testedMeanwhile : List WqAction := [.test 1 0, .wait 1 (-1), .test 2 0, .wakeup 0]

theorem testedMeanwhile_some : (runFrom wqStep testedMeanwhile emptyQueue).isSome = true := by
  decide +kernel

/-- A wake-up is spent on the thread that has timed out, and a wake-up is erased by the thread that
leaves. -/
theorem wakeup_spent_and_erased :
    ¬ RunMeets wqStep WakeupReaches (timedOutFirst ++ [.wakeup 0]) emptyQueue ∧
      ¬ RunMeets wqStep WakeupReaches (testedMeanwhile ++ [.leave 1]) emptyQueue := by
  constructor
  · intro h
    have hlast := h.last (Option.some_get timedOutFirst_some).symm
    obtain ⟨hwakes, -⟩ := hlast _ rfl
    have hkeeps := rtWqueueWakeup_wakes_iff.mp (hwakes 0 rfl)
    obtain ⟨t, hhead, hsusp⟩ := hkeeps ⟨2, by decide +kernel, by decide +kernel⟩
    have hfirst : t = 1 := (Option.some.inj hhead).symm
    rw [hfirst] at hsusp
    revert hsusp
    decide +kernel
  · intro h
    have hlast := h.last (Option.some_get testedMeanwhile_some).symm
    obtain ⟨-, hkept⟩ := hlast _ (Option.some_get (by decide +kernel)).symm
    have hflag := hkept 2 0 (by decide +kernel)
    revert hflag
    decide +kernel

end RTThread
