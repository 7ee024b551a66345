import RTThread.TeardownCalls

namespace RTThread

/-- What the state says of one thread. -/
structure ThreadView where
  stat : ThreadStat
  timerActive : Bool
  systemObject : Bool
  cleanup : Bool
  on : Set ListHead
  inContainer : Bool
  ended : Option EndCall
  closing : Option CloseStage
  freeing : Prop
  deleting : Prop
  cleanupCalls : Nat
  stackFrees : Nat
  controlFrees : Nat

def TeardownState.view (s : TeardownState) (t : ThreadId) : ThreadView where
  stat := (s.thread t).stat
  timerActive := (s.thread t).timerActive
  systemObject := (s.thread t).systemObject
  cleanup := (s.thread t).cleanup
  on := {h | t ∈ s.list h}
  inContainer := s.inContainer t
  ended := s.ended t
  closing := s.closing t
  freeing := s.idle = .freeing t
  deleting := s.idle = .deleting t
  cleanupCalls := s.cleanupCalls t
  stackFrees := s.stackFrees t
  controlFrees := s.controlFrees t

/-- The idle thread has not seen the thread yet. -/
structure Fresh (v : ThreadView) : Prop where
  freeing : ¬v.freeing
  deleting : ¬v.deleting
  cleanupCalls : v.cleanupCalls = 0
  stackFrees : v.stackFrees = 0
  controlFrees : v.controlFrees = 0

/-- The call that ends the thread is the one for its kind. -/
def ForKind (v : ThreadView) : Prop :=
  v.ended = some .detach ∧ v.systemObject = true ∨ v.ended = some .delete ∧ v.systemObject = false

/-- What holds of a thread at each stage of `rt_thread_detach` or `rt_thread_delete`. -/
def StageFacts (v : ThreadView) : CloseStage → Prop
  | .tested started => ForKind v ∧ v.stat ≠ .close ∧ .defunct ∉ v.on ∧
      (started = false → v.on = ∅) ∧ v.inContainer = true
  | .removed => ForKind v ∧ v.stat ≠ .close ∧ v.on = ∅ ∧ v.inContainer = true
  | .timerOff => ForKind v ∧ v.stat ≠ .close ∧ v.on = ∅ ∧ v.timerActive = false ∧
      v.inContainer = true
  | .closed => ForKind v ∧ v.stat = .close ∧ v.on = ∅ ∧ v.timerActive = false ∧
      v.inContainer = true
  | .detached => (v.ended = some .detach ∧ v.systemObject = true) ∧ v.stat = .close ∧ v.on = ∅ ∧
      v.timerActive = false ∧ v.inContainer = false

/-- The life of a thread, from its initialisation to its end. -/
inductive Life (v : ThreadView) : Prop where
  | living (he : v.ended = none) (hc : v.closing = none) (hstat : v.stat ≠ .close)
      (hdefunct : .defunct ∉ v.on) (hinit : v.stat = .init → v.on = ∅)
      (hin : v.inContainer = true) (hfresh : Fresh v)
  | closing (stage : CloseStage) (hc : v.closing = some stage) (hstage : StageFacts v stage)
      (hfresh : Fresh v)
  | defunct (hc : v.closing = none) (he : v.ended ≠ none) (hstat : v.stat = .close)
      (hon : v.on = {.defunct}) (htimer : v.timerActive = false)
      (hsys : v.systemObject = true → v.cleanup = true)
      (hin : v.inContainer = true ↔ (v.systemObject = true → v.ended = some .exit))
      (hfresh : Fresh v)
  | freeing (hc : v.closing = none) (he : v.ended ≠ none) (hstat : v.stat = .close) (hon : v.on = ∅)
      (htimer : v.timerActive = false) (hsys : v.systemObject = false)
      (hcleanup : v.cleanupCalls = if v.cleanup = true then 1 else 0)
      (hcontrol : v.controlFrees = 0)
      (hidle : v.freeing ∧ v.stackFrees = 0 ∨ v.deleting ∧ v.stackFrees = 1)
  | done (hc : v.closing = none) (he : v.ended ≠ none) (hstat : v.stat = .close) (hon : v.on = ∅)
      (htimer : v.timerActive = false) (hfreeing : ¬v.freeing) (hdeleting : ¬v.deleting)
      (hcleanup : v.cleanupCalls = if v.cleanup = true then 1 else 0)
      (hstack : v.stackFrees = if v.systemObject = true then 0 else 1)
      (hcontrol : v.controlFrees = if v.systemObject = true then 0 else 1)
      (hin : v.inContainer = true ↔
        v.systemObject = true ∧ v.cleanup = true ∧ v.ended = some .exit)

section
variable {cfg : SchedConfig} {s s' : TeardownState} {t u : ThreadId} {v : ThreadView}
  {scheduler : Scheduler} {c : SchedCall} {call : EndCall} {a : TeardownAction}

theorem Fresh.congr {v' : ThreadView} (h : Fresh v) (hfreeing : v'.freeing = v.freeing)
    (hdeleting : v'.deleting = v.deleting) (hcleanup : v'.cleanupCalls = v.cleanupCalls)
    (hstack : v'.stackFrees = v.stackFrees) (hcontrol : v'.controlFrees = v.controlFrees) :
    Fresh v' :=
  ⟨hfreeing ▸ h.freeing, hdeleting ▸ h.deleting, hcleanup.trans h.cleanupCalls,
    hstack.trans h.stackFrees, hcontrol.trans h.controlFrees⟩

/-- A scheduler step that leaves a thread alone changes nothing of its view. -/
theorem view_untouched (hu : Scheduler.Untouched s.toScheduler scheduler t) :
    ({ s with toScheduler := scheduler } : TeardownState).view t = s.view t := by
  unfold TeardownState.view
  dsimp only
  rw [hu.thread]
  congr 1
  exact Set.ext hu.mem

theorem Life.of_view (h : Life (s.view t)) (hv : s'.view t = s.view t) : Life (s'.view t) := by
  rwa [hv]

theorem ForKind.congr {v' : ThreadView} (h : ForKind v) (he : v'.ended = v.ended)
    (hsys : v'.systemObject = v.systemObject) : ForKind v' := by
  unfold ForKind
  rwa [he, hsys]

theorem ForKind.ne_none (h : ForKind v) : v.ended ≠ none := by
  rcases h with ⟨h, -⟩ | ⟨h, -⟩
  · simp [h]
  · simp [h]

theorem StageFacts.ne_none {stage : CloseStage} (h : StageFacts v stage) : v.ended ≠ none := by
  cases stage with
  | detached => simp [h.1.1]
  | _ => exact h.1.ne_none

theorem view_setClosing {stage : Option CloseStage} (ht : t ≠ u) :
    (s.setClosing u stage).view t = s.view t := by
  simp [TeardownState.view, TeardownState.setClosing, ht]

theorem view_rtObjectDetach (ht : t ≠ u) : (s.rtObjectDetach u).view t = s.view t := by
  simp [TeardownState.view, TeardownState.rtObjectDetach, ht]

theorem insertAfter_defunct {x : Scheduler} (hon : {h | t ∈ x.list h} = ∅) :
    {h | t ∈ (x.insertAfter .defunct t).list h} = {.defunct} := by
  refine Set.ext fun l => Scheduler.mem_insertAfter.trans ?_
  have hnot : t ∉ x.list l := Set.eq_empty_iff_forall_notMem.mp hon l
  simp [hnot]

/-- Only a living thread is not ended. -/
theorem Life.of_living (h : Life v) (he : v.ended = none) : v.closing = none ∧ v.stat ≠ .close ∧
    .defunct ∉ v.on ∧ (v.stat = .init → v.on = ∅) ∧ v.inContainer = true ∧ Fresh v := by
  cases h with
  | living _ hc hstat hdefunct hinit hin hfresh => exact ⟨hc, hstat, hdefunct, hinit, hin, hfresh⟩
  | closing stage _ hstage => exact absurd he hstage.ne_none
  | defunct _ hne => exact absurd he hne
  | freeing _ hne => exact absurd he hne
  | done _ hne => exact absurd he hne

theorem Life.of_closing {stage : CloseStage} (h : Life v) (hc : v.closing = some stage) :
    StageFacts v stage ∧ Fresh v := by
  cases h with
  | living _ hnone => simp [hnone] at hc
  | closing stage' hc' hstage hfresh =>
    obtain rfl := Option.some.inj (hc'.symm.trans hc)
    exact ⟨hstage, hfresh⟩
  | defunct hnone => simp [hnone] at hc
  | freeing hnone => simp [hnone] at hc
  | done hnone => simp [hnone] at hc

/-- The threads of the defunct list wait for the idle thread. -/
theorem Life.of_defunct (h : Life v) (hon : .defunct ∈ v.on) : v.closing = none ∧ v.ended ≠ none ∧
    v.stat = .close ∧ v.on = {.defunct} ∧ v.timerActive = false ∧
    (v.systemObject = true → v.cleanup = true) ∧
    (v.inContainer = true ↔ (v.systemObject = true → v.ended = some .exit)) ∧ Fresh v := by
  cases h with
  | living _ _ _ hdefunct => exact absurd hon hdefunct
  | closing stage _ hstage =>
    cases stage with
    | tested started => exact absurd hon hstage.2.2.1
    | _ => simp [hstage.2.2.1] at hon
  | defunct hc he hstat hon htimer hsys hin hfresh =>
    exact ⟨hc, he, hstat, hon, htimer, hsys, hin, hfresh⟩
  | freeing _ _ _ hempty => simp [hempty] at hon
  | done _ _ _ hempty => simp [hempty] at hon

/-- A call of another function on a thread that lives, or whose end is under way or over. -/
theorem life_call (h : Life (s.view t)) (hs : schedStep cfg s.toScheduler c = some scheduler)
    (hallowed : c.allowed s.toScheduler = true)
    (hok : c.target s.toScheduler = some t →
      (Unlinked s t → c = .suspend t) ∧ ((s.thread t).stat = .close → c ≠ .sleep)) :
    Life (({ s with toScheduler := scheduler } : TeardownState).view t) := by
  by_cases hclosed : (s.thread t).stat = .close
  · obtain ⟨hstat, htimer, hsys, hcleanup, hmem⟩ :=
      Scheduler.schedStep_closed hs hallowed hclosed fun ht => (hok ht).2 hclosed
    refine h.of_view ?_
    unfold TeardownState.view
    dsimp only
    rw [hstat, htimer, hsys, hcleanup, hclosed]
    congr 1
    exact Set.ext hmem
  · by_cases ht : c.target s.toScheduler = some t
    · have hkeep := Scheduler.schedStep_living (t := t) hs hallowed
      have hunlinked : Unlinked s t → (∀ h, t ∉ s.list h) → (∀ h, t ∉ scheduler.list h) ∧
          ((s.thread t).timerActive = false → (scheduler.thread t).timerActive = false) := by
        intro hu hon
        obtain rfl := (hok ht).1 hu
        obtain rfl := Option.some.inj hs
        exact ⟨Scheduler.rtThreadSuspend_unlinked hon, Scheduler.rtThreadSuspend_timer⟩
      have hstat' := hkeep.stat hclosed
      cases h with
      | living he hc hstat hdefunct hinit hin hfresh =>
        refine .living he hc hstat' (fun hd => hdefunct (hkeep.defunct hd)) (fun hi => ?_) hin
          (hfresh.congr rfl rfl rfl rfl rfl)
        obtain ⟨hi, hmem⟩ := hkeep.init hi
        exact Set.eq_empty_of_forall_notMem fun l hl =>
          Set.eq_empty_iff_forall_notMem.mp (hinit hi) l (hmem l hl)
      | closing stage hc hstage hfresh =>
        refine .closing stage hc ?_ (hfresh.congr rfl rfl rfl rfl rfl)
        cases stage with
        | tested started =>
          obtain ⟨hkind, -, hdefunct, hon, hin⟩ := hstage
          refine ⟨hkind.congr rfl hkeep.system, hstat', fun hd => hdefunct (hkeep.defunct hd),
            fun hfalse => ?_, hin⟩
          exact Set.eq_empty_iff_forall_notMem.mpr (hunlinked (.inl (hfalse ▸ hc))
            (Set.eq_empty_iff_forall_notMem.mp (hon hfalse))).1
        | removed =>
          obtain ⟨hkind, -, hon, hin⟩ := hstage
          refine ⟨hkind.congr rfl hkeep.system, hstat', ?_, hin⟩
          exact Set.eq_empty_iff_forall_notMem.mpr (hunlinked (.inr (.inl hc))
            (Set.eq_empty_iff_forall_notMem.mp hon)).1
        | timerOff =>
          obtain ⟨hkind, -, hon, htimer, hin⟩ := hstage
          obtain ⟨hmem, htimer'⟩ :=
            hunlinked (.inr (.inr hc)) (Set.eq_empty_iff_forall_notMem.mp hon)
          exact ⟨hkind.congr rfl hkeep.system, hstat', Set.eq_empty_iff_forall_notMem.mpr hmem,
            htimer' htimer, hin⟩
        | closed => exact absurd hstage.2.1 hclosed
        | detached => exact absurd hstage.2.1 hclosed
      | defunct _ _ hstat => exact absurd hstat hclosed
      | freeing _ _ hstat => exact absurd hstat hclosed
      | done _ _ hstat => exact absurd hstat hclosed
    · exact h.of_view (view_untouched (Scheduler.schedStep_untouched hs ht))

theorem life_startTimer (h : Life (s.view t)) (hok : ∀ u ∈ s.currentThread, ¬Unlinked s u)
    (hs : s.startTimer = some s') : Life (s'.view t) := by
  obtain ⟨u, hu, hs⟩ := Option.bind_eq_some_iff.mp hs
  obtain ⟨hsusp, hs⟩ := Option.ite_none_right_eq_some.mp hs
  obtain rfl := Option.some.inj hs
  by_cases ht : t = u
  · subst ht
    have hunlinked := hok t hu
    have hself : (s.set t fun x => { x with timerActive := true }).thread t =
      { s.thread t with timerActive := true } := Function.update_self ..
    have hstat : ((s.set t fun x => { x with timerActive := true }).thread t).stat =
        (s.thread t).stat := by rw [hself]
    have hsys : ((s.set t fun x => { x with timerActive := true }).thread t).systemObject =
        (s.thread t).systemObject := by rw [hself]
    have hopen : (s.view t).stat ≠ .close := fun hclosed => by
      have hclosed : (s.thread t).stat = .close := hclosed
      simp [hsusp] at hclosed
    cases h with
    | living he hc hstat' hdefunct hinit hin hfresh =>
      exact .living he hc (fun hx => hstat' (hstat.symm.trans hx)) hdefunct
        (fun hx => hinit (hstat.symm.trans hx)) hin (hfresh.congr rfl rfl rfl rfl rfl)
    | closing stage hc hstage hfresh =>
      refine .closing stage hc ?_ (hfresh.congr rfl rfl rfl rfl rfl)
      cases stage with
      | tested started =>
        obtain ⟨hkind, hstat', hdefunct, hon, hin⟩ := hstage
        exact ⟨hkind.congr rfl hsys, fun hx => hstat' (hstat.symm.trans hx), hdefunct, hon, hin⟩
      | removed => exact absurd (.inr (.inl hc)) hunlinked
      | timerOff => exact absurd (.inr (.inr hc)) hunlinked
      | closed => exact absurd hstage.2.1 hopen
      | detached => exact absurd hstage.2.1 hopen
    | defunct _ _ hstat' => exact absurd hstat' hopen
    | freeing _ _ hstat' => exact absurd hstat' hopen
    | done _ _ hstat' => exact absurd hstat' hopen
  · exact h.of_view (view_untouched (Scheduler.untouched_set ht))

theorem life_setCleanup {cleanup : Bool} (h : Life (s.view t)) (hok : Living s u) :
    Life ((s.setCleanup u cleanup).view t) := by
  by_cases ht : t = u
  · subst ht
    obtain ⟨hc, hstat, hdefunct, hinit, hin, hfresh⟩ := h.of_living hok
    have hself : (s.setCleanup t cleanup).thread t = { s.thread t with cleanup := cleanup } :=
      Function.update_self ..
    have hstat' : ((s.setCleanup t cleanup).thread t).stat = (s.thread t).stat := by rw [hself]
    exact .living hok hc (fun hx => hstat (hstat'.symm.trans hx)) hdefunct
      (fun hx => hinit (hstat'.symm.trans hx)) hin (hfresh.congr rfl rfl rfl rfl rfl)
  · exact h.of_view (view_untouched (Scheduler.untouched_set ht))

/-- `rt_thread_exit` takes a thread off all lists; only a system object without a cleanup function
stays off the defunct list. -/
theorem rtThreadExit_self {s s' : Scheduler} (hu : s.currentThread = some t)
    (hs : s.rtThreadExit cfg = some s') :
    (s'.thread t).stat = .close ∧ (s'.thread t).timerActive = false ∧
      (s'.thread t).systemObject = (s.thread t).systemObject ∧
      (s'.thread t).cleanup = (s.thread t).cleanup ∧ ∀ h, t ∈ s'.list h ↔
        h = .defunct ∧ ¬((s.thread t).systemObject = true ∧ (s.thread t).cleanup = false) := by
  obtain ⟨v, hv, hs⟩ := Option.bind_eq_some_iff.mp hs
  obtain rfl : t = v := Option.some.inj (hu.symm.trans hv)
  obtain ⟨hlist, hthread⟩ := Scheduler.remove_list cfg s t
  dsimp only at hs
  generalize hx : ((s.rtScheduleRemoveThread cfg t).set t fun x =>
    { x with stat := .close }).stopThreadTimer t = x at hs
  have hself : (x.thread t).stat = .close ∧ (x.thread t).timerActive = false ∧
      (x.thread t).systemObject = (s.thread t).systemObject ∧
      (x.thread t).cleanup = (s.thread t).cleanup := by
    simp [← hx, Scheduler.stopThreadTimer, Scheduler.set, hthread]
  have hout : ∀ h, t ∉ x.list h := fun h hmem => by
    rw [← hx] at hmem
    have hmem : t ∈ (s.rtScheduleRemoveThread cfg t).list h := hmem
    rw [hlist] at hmem
    exact (Scheduler.mem_remove.mp hmem).2 rfl
  obtain ⟨hstat, htimer, hsys, hcleanup⟩ := hself
  rw [hsys, hcleanup] at hs
  split at hs
  next hc =>
    have huntouched := Scheduler.untouched_rtSchedule (t := t) hs
    rw [huntouched.thread]
    refine ⟨hstat, htimer, hsys, hcleanup, fun h => (huntouched.mem h).trans ?_⟩
    simp [hout h, hc.1, hc.2]
  next hc =>
    have huntouched := Scheduler.untouched_rtSchedule (t := t) hs
    rw [huntouched.thread]
    refine ⟨hstat, htimer, hsys, hcleanup, fun h => ((huntouched.mem h).trans
      Scheduler.mem_insertAfter).trans ?_⟩
    simp only [hout h, false_or, true_and]
    exact (and_iff_left hc).symm

theorem life_exit (h : Life (s.view t)) (hok : ∀ u ∈ s.currentThread, Living s u)
    (hs : s.rtThreadExit cfg = some s') : Life (s'.view t) := by
  obtain ⟨u, hu, hs⟩ := Option.bind_eq_some_iff.mp hs
  obtain ⟨scheduler, hexit, rfl⟩ := Option.map_eq_some_iff.mp hs
  by_cases ht : t = u
  · subst ht
    obtain ⟨hc, -, -, -, hin, hfresh⟩ := h.of_living (hok t hu)
    obtain ⟨hstat, htimer, hsys, hcleanup, hmem⟩ := rtThreadExit_self hu hexit
    have hended : Function.update s.ended t (some .exit) t = some EndCall.exit :=
      Function.update_self ..
    by_cases hdetach : (s.thread t).systemObject = true ∧ (s.thread t).cleanup = false
    · rw [if_pos hdetach]
      refine .done hc (by simp [TeardownState.view, TeardownState.rtObjectDetach,
        TeardownState.setEnded]) hstat ?_ htimer hfresh.freeing hfresh.deleting
        (hfresh.cleanupCalls.trans ?_) (hfresh.stackFrees.trans ?_) (hfresh.controlFrees.trans ?_) ?_
      · exact Set.eq_empty_of_forall_notMem fun l hl => ((hmem l).mp hl).2 hdetach
      · simp [TeardownState.view, TeardownState.rtObjectDetach, TeardownState.setEnded, hcleanup,
          hdetach.2]
      · simp [TeardownState.view, TeardownState.rtObjectDetach, TeardownState.setEnded, hsys,
          hdetach.1]
      · simp [TeardownState.view, TeardownState.rtObjectDetach, TeardownState.setEnded, hsys,
          hdetach.1]
      · simp [TeardownState.view, TeardownState.rtObjectDetach, TeardownState.setEnded, hcleanup,
          hdetach.2]
    · rw [if_neg hdetach]
      refine .defunct hc (by simp [TeardownState.view, TeardownState.setEnded]) hstat ?_ htimer
        (fun hx => ?_) ?_ (hfresh.congr rfl rfl rfl rfl rfl)
      · exact Set.ext fun l => (hmem l).trans (and_iff_left hdetach)
      · have hx : (s.thread t).systemObject = true := hsys ▸ hx
        have hc : (scheduler.thread t).cleanup = true := by
          rw [hcleanup]
          by_contra hne
          exact hdetach ⟨hx, Bool.eq_false_of_not_eq_true hne⟩
        exact hc
      · exact iff_of_true hin fun _ => hended
  · have hu' := Scheduler.schedStep_untouched (c := .exit) hexit
      (fun hx => ht (Option.some.inj (hx.symm.trans hu)))
    have hview := view_untouched hu'
    refine h.of_view ?_
    rw [← hview]
    split
    · simp [TeardownState.view, TeardownState.rtObjectDetach, TeardownState.setEnded, ht]
    · simp [TeardownState.view, TeardownState.setEnded, ht]

theorem life_begin (h : Life (s.view t)) (hok : Living s u)
    (hkind : call = .detach ∧ (s.thread u).systemObject = true ∨
      call = .delete ∧ (s.thread u).systemObject = false) :
    Life ((s.beginClose u call).view t) := by
  by_cases ht : t = u
  · subst ht
    obtain ⟨-, hstat, hdefunct, hinit, hin, hfresh⟩ := h.of_living hok
    have hended : (s.beginClose t call).ended t = some call := Function.update_self ..
    refine .closing (.tested (decide ((s.thread t).stat ≠ .init))) (Function.update_self ..)
      ⟨?_, hstat, hdefunct, fun hx => hinit ?_, hin⟩ (hfresh.congr rfl rfl rfl rfl rfl)
    · rcases hkind with ⟨rfl, hsys⟩ | ⟨rfl, hsys⟩
      · exact .inl ⟨hended, hsys⟩
      · exact .inr ⟨hended, hsys⟩
    · show (s.thread t).stat = .init
      simpa using hx
  · refine h.of_view ?_
    simp [TeardownState.view, TeardownState.beginClose, TeardownState.setEnded,
      TeardownState.setClosing, ht]

/-- Each section of `rt_thread_detach` and `rt_thread_delete` does its part. -/
theorem life_closeNext (h : Life (s.view t)) (hs : s.closeNext cfg u = some s') :
    Life (s'.view t) := by
  by_cases ht : t = u
  · subst ht
    unfold TeardownState.closeNext at hs
    split at hs
    next started hc =>
      obtain rfl := Option.some.inj hs
      obtain ⟨⟨hkind, hstat, -, hon, hin⟩, hfresh⟩ := h.of_closing hc
      obtain ⟨hlist, hthread⟩ := Scheduler.remove_list cfg s.toScheduler t
      generalize hx : (if started = true then s.rtScheduleRemoveThread cfg t else s.toScheduler) = x
      have hsame : x.thread t = s.thread t := by
        rw [← hx]
        split
        · rw [hthread]
        · rfl
      have hout : ∀ l, t ∉ x.list l := fun l hl => by
        rw [← hx] at hl
        split at hl
        next =>
          rw [hlist] at hl
          exact (Scheduler.mem_remove.mp hl).2 rfl
        next hfalse =>
          exact Set.eq_empty_iff_forall_notMem.mp (hon (Bool.eq_false_of_not_eq_true hfalse)) l hl
      have hstat' : (x.thread t).stat = (s.thread t).stat := by rw [hsame]
      have hsys : (x.thread t).systemObject = (s.thread t).systemObject := by rw [hsame]
      exact .closing .removed (Function.update_self ..) ⟨hkind.congr rfl hsys,
        fun hclose => hstat (hstat'.symm.trans hclose), Set.eq_empty_iff_forall_notMem.mpr hout, hin⟩
        (hfresh.congr rfl rfl rfl rfl rfl)
    next hc =>
      obtain rfl := Option.some.inj hs
      obtain ⟨⟨hkind, hstat, hon, hin⟩, hfresh⟩ := h.of_closing hc
      have hself : (s.stopThreadTimer t).thread t = { s.thread t with timerActive := false } :=
        Function.update_self ..
      have hstat' : ((s.stopThreadTimer t).thread t).stat = (s.thread t).stat := by rw [hself]
      have hsys : ((s.stopThreadTimer t).thread t).systemObject = (s.thread t).systemObject := by
        rw [hself]
      have htimer : ((s.stopThreadTimer t).thread t).timerActive = false := by rw [hself]
      exact .closing .timerOff (Function.update_self ..) ⟨hkind.congr rfl hsys,
        fun hclose => hstat (hstat'.symm.trans hclose), hon, htimer, hin⟩
        (hfresh.congr rfl rfl rfl rfl rfl)
    next hc =>
      obtain rfl := Option.some.inj hs
      obtain ⟨⟨hkind, hstat, hon, htimer, hin⟩, hfresh⟩ := h.of_closing hc
      have hself : (s.set t fun x => { x with stat := .close }).thread t =
        { s.thread t with stat := .close } := Function.update_self ..
      have hstat' : ((s.set t fun x => { x with stat := .close }).thread t).stat = .close := by
        rw [hself]
      have hsys : ((s.set t fun x => { x with stat := .close }).thread t).systemObject =
          (s.thread t).systemObject := by rw [hself]
      have htimer' : ((s.set t fun x => { x with stat := .close }).thread t).timerActive = false := by
        rw [hself]
        exact htimer
      exact .closing .closed (Function.update_self ..)
        ⟨hkind.congr rfl hsys, hstat', hon, htimer', hin⟩ (hfresh.congr rfl rfl rfl rfl rfl)
    next hc =>
      obtain ⟨⟨hkind, hstat, hon, htimer, hin⟩, hfresh⟩ := h.of_closing hc
      split at hs
      next hdetach =>
        obtain rfl := Option.some.inj hs
        have hsys : (s.thread t).systemObject = true := by
          rcases hkind with ⟨-, hsys⟩ | ⟨hdelete, -⟩
          · exact hsys
          · cases hdetach.symm.trans hdelete
        exact .closing .detached (Function.update_self ..) ⟨⟨hdetach, hsys⟩, hstat, hon, htimer,
          Function.update_self ..⟩ (hfresh.congr rfl rfl rfl rfl rfl)
      next hdetach =>
        obtain rfl := Option.some.inj hs
        obtain ⟨hdelete, hsys⟩ := hkind.resolve_left fun hx => hdetach hx.1
        refine .defunct (Function.update_self ..) (fun hx => ?_) hstat ?_ htimer (fun hx => ?_)
          (iff_of_true hin fun hx => ?_) (hfresh.congr rfl rfl rfl rfl rfl)
        · cases hdelete.symm.trans hx
        · exact insertAfter_defunct hon
        · cases hsys.symm.trans hx
        · cases hsys.symm.trans hx
    next hc =>
      obtain ⟨⟨⟨he, hsys⟩, hstat, hon, htimer, hin⟩, hfresh⟩ := h.of_closing hc
      split at hs
      next hcleanup =>
        obtain rfl := Option.some.inj hs
        refine .defunct (Function.update_self ..) (fun hx => ?_) hstat ?_ htimer (fun _ => hcleanup)
          (iff_of_false (fun hx => ?_) fun hx => ?_) (hfresh.congr rfl rfl rfl rfl rfl)
        · cases he.symm.trans hx
        · exact insertAfter_defunct hon
        · cases hin.symm.trans hx
        · cases he.symm.trans (hx hsys)
      next hcleanup =>
        obtain rfl := Option.some.inj hs
        refine .done (Function.update_self ..) (fun hx => ?_) hstat hon htimer hfresh.freeing
          hfresh.deleting (hfresh.cleanupCalls.trans (if_neg hcleanup).symm)
          (hfresh.stackFrees.trans (if_pos hsys).symm) (hfresh.controlFrees.trans (if_pos hsys).symm)
          (iff_of_false (fun hx => ?_) fun hx => hcleanup hx.2.1)
        · cases he.symm.trans hx
        · cases hin.symm.trans hx
    next => cases hs
  · refine h.of_view ?_
    unfold TeardownState.closeNext at hs
    split at hs
    next started hc =>
      obtain rfl := Option.some.inj hs
      have hu : Scheduler.Untouched s.toScheduler
          (if started = true then s.rtScheduleRemoveThread cfg u else s.toScheduler) t := by
        split
        · exact Scheduler.untouched_rtScheduleRemoveThread ht
        · exact .refl
      exact (view_setClosing ht).trans (view_untouched hu)
    next hc =>
      obtain rfl := Option.some.inj hs
      exact (view_setClosing ht).trans (view_untouched (Scheduler.untouched_stopThreadTimer ht))
    next hc =>
      obtain rfl := Option.some.inj hs
      exact (view_setClosing ht).trans (view_untouched (Scheduler.untouched_set ht))
    next hc =>
      split at hs
      · obtain rfl := Option.some.inj hs
        exact (view_setClosing ht).trans (view_rtObjectDetach ht)
      · obtain rfl := Option.some.inj hs
        exact (view_setClosing ht).trans (view_untouched (Scheduler.untouched_insertAfter ht))
    next hc =>
      split at hs
      · obtain rfl := Option.some.inj hs
        exact (view_setClosing ht).trans (view_untouched (Scheduler.untouched_insertAfter ht))
      · obtain rfl := Option.some.inj hs
        exact view_setClosing ht
    next => cases hs

/-- The idle thread takes a thread off the defunct list and calls its cleanup function. -/
theorem life_idleTake (h : ∀ t, Life (s.view t)) (hs : s.idleTake = some s') : Life (s'.view t) := by
  unfold TeardownState.idleTake at hs
  split at hs
  next u us hidle hlist =>
    have hmem : .defunct ∈ (s.view u).on := by
      show u ∈ s.list .defunct
      rw [hlist]
      exact List.mem_cons_self
    obtain ⟨hc, he, hstat, hon, htimer, hsys, hin, hfresh⟩ := (h u).of_defunct hmem
    have hsys' : (s.thread u).systemObject = true → (s.thread u).cleanup = true := hsys
    have hcalls : (if (s.thread u).cleanup = true then
        Function.update s.cleanupCalls u (s.cleanupCalls u + 1) else s.cleanupCalls) u =
        if (s.thread u).cleanup = true then 1 else 0 := by
      have hnone : s.cleanupCalls u = 0 := hfresh.cleanupCalls
      split
      · rw [Function.update_self, hnone]
      · exact hnone
    have hempty : {l | u ∈ (s.rtListRemove u).list l} = ∅ :=
      Set.eq_empty_of_forall_notMem fun l hl => (Scheduler.mem_remove.mp hl).2 rfl
    have hstill : t ≠ u → (if (s.thread u).cleanup = true then
        Function.update s.cleanupCalls u (s.cleanupCalls u + 1) else s.cleanupCalls) t =
        s.cleanupCalls t := fun ht => by
      split
      · exact Function.update_of_ne ht ..
      · rfl
    have hview : t ≠ u → ({ s with toScheduler := s.rtListRemove u } : TeardownState).view t =
        s.view t := fun ht => view_untouched (Scheduler.untouched_rtListRemove ht)
    dsimp only at hs
    by_cases hsystem : (s.thread u).systemObject = true
    · rw [if_pos hsystem] at hs
      obtain rfl := Option.some.inj hs
      by_cases ht : t = u
      · subst ht
        refine .done hc he hstat hempty htimer hfresh.freeing hfresh.deleting hcalls
          (hfresh.stackFrees.trans (if_pos hsystem).symm)
          (hfresh.controlFrees.trans (if_pos hsystem).symm) (hin.trans ?_)
        exact ⟨fun hx => ⟨hsystem, hsys' hsystem, hx hsystem⟩, fun hx _ => hx.2.2⟩
      · refine (h t).of_view ?_
        rw [← hview ht]
        simp only [TeardownState.view, hstill ht]
    · rw [if_neg hsystem] at hs
      obtain rfl := Option.some.inj hs
      by_cases ht : t = u
      · subst ht
        exact .freeing hc he hstat hempty htimer (Bool.eq_false_of_not_eq_true hsystem) hcalls
          hfresh.controlFrees (.inl ⟨rfl, hfresh.stackFrees⟩)
      · refine (h t).of_view ?_
        rw [← hview ht]
        simp [TeardownState.view, hstill ht, hidle, Ne.symm ht]
  next => cases hs

/-- The idle thread frees the stack, and then deletes the object. -/
theorem life_idleFree (h : ∀ t, Life (s.view t)) (hs : s.idleFree = some s') :
    Life (s'.view t) := by
  unfold TeardownState.idleFree at hs
  split at hs
  next => cases hs
  next u hidle =>
    obtain rfl := Option.some.inj hs
    by_cases ht : t = u
    · subst ht
      cases h t with
      | living _ _ _ _ _ _ hfresh => exact absurd hidle hfresh.freeing
      | closing _ _ _ hfresh => exact absurd hidle hfresh.freeing
      | defunct _ _ _ _ _ _ _ hfresh => exact absurd hidle hfresh.freeing
      | freeing hc he hstat hon htimer hsys hcleanup hcontrol hstage =>
        rcases hstage with ⟨-, hstack⟩ | ⟨hdeleting, -⟩
        · refine .freeing hc he hstat hon htimer hsys hcleanup hcontrol (.inr ⟨rfl, ?_⟩)
          exact (Function.update_self ..).trans (congrArg (· + 1) hstack)
        · cases hidle.symm.trans hdeleting
      | done _ _ _ _ _ hfreeing => exact absurd hidle hfreeing
    · refine (h t).of_view ?_
      simp [TeardownState.view, hidle, ht, Ne.symm ht]
  next u hidle =>
    obtain rfl := Option.some.inj hs
    by_cases ht : t = u
    · subst ht
      cases h t with
      | living _ _ _ _ _ _ hfresh => exact absurd hidle hfresh.deleting
      | closing _ _ _ hfresh => exact absurd hidle hfresh.deleting
      | defunct _ _ _ _ _ _ _ hfresh => exact absurd hidle hfresh.deleting
      | freeing hc he hstat hon htimer hsys hcleanup hcontrol hstage =>
        rcases hstage with ⟨hfreeing, -⟩ | ⟨-, hstack⟩
        · cases hidle.symm.trans hfreeing
        · have hsys' : (s.thread t).systemObject = false := hsys
          refine .done hc he hstat hon htimer (by simp [TeardownState.view])
            (by simp [TeardownState.view]) hcleanup (hstack.trans ?_) ?_
            (iff_of_false ?_ fun hx => ?_)
          · simp [TeardownState.view, TeardownState.rtObjectDetach, hsys']
          · have hcontrol' : s.controlFrees t = 0 := hcontrol
            simp [TeardownState.view, TeardownState.rtObjectDetach, hsys', hcontrol']
          · simp [TeardownState.view, TeardownState.rtObjectDetach]
          · cases hsys.symm.trans hx.1
      | done _ _ _ _ _ _ hdeleting => exact absurd hidle hdeleting
    · refine (h t).of_view ?_
      simp [TeardownState.view, TeardownState.rtObjectDetach, hidle, ht, Ne.symm ht]

theorem life_step (h : ∀ t, Life (s.view t)) (hok : EndsThreads s a)
    (hs : teardownStep cfg s a = some s') (t : ThreadId) : Life (s'.view t) := by
  cases a with
  | call c =>
    obtain ⟨hallowed, hs⟩ := Option.ite_none_right_eq_some.mp hs
    obtain ⟨scheduler, hcall, rfl⟩ := Option.map_eq_some_iff.mp hs
    exact life_call (h t) hcall hallowed fun ht => hok t ht
  | startTimer => exact life_startTimer (h t) hok hs
  | setCleanup u cleanup =>
    obtain rfl := Option.some.inj hs
    exact life_setCleanup (h t) hok
  | exit => exact life_exit (h t) hok hs
  | detach u =>
    obtain rfl := Option.some.inj hs
    exact life_begin (h t) hok.1 (.inl ⟨rfl, hok.2⟩)
  | delete u =>
    obtain rfl := Option.some.inj hs
    exact life_begin (h t) hok.1 (.inr ⟨rfl, hok.2⟩)
  | closeNext u => exact life_closeNext (h t) hs
  | idleTake => exact life_idleTake h hs
  | idleFree => exact life_idleFree h hs

theorem life_start (h : TeardownStart s) (t : ThreadId) : Life (s.view t) := by
  refine .living (h.ended t) (h.closing t) ?_ ?_ (fun _ => ?_) (h.inContainer t)
    ⟨?_, ?_, h.cleanupCalls t, h.stackFrees t, h.controlFrees t⟩
  · simp [TeardownState.view, h.stat t]
  · simp [TeardownState.view, h.list]
  · simp [TeardownState.view, h.list]
  · simp [TeardownState.view, h.idle]
  · simp [TeardownState.view, h.idle]

/-- The runs in which each thread is ended once and by the call for its kind. -/
def TeardownReach (cfg : SchedConfig) : TeardownState → Prop :=
  Reach (teardownStep cfg) EndsThreads TeardownStart

theorem teardownReach_life (hr : TeardownReach cfg s) (t : ThreadId) : Life (s.view t) :=
  Reach.invariant (I := fun s => ∀ t, Life (s.view t)) (fun _ h => life_start h)
    (fun _ _ _ h hok hs => life_step h hok hs) hr t

/-- Once the idle thread has emptied the defunct list, an ended thread is gone for good, unless it
was a system object with a cleanup function that ended with `rt_thread_exit`. -/
theorem teardown_complete_iff (hr : TeardownReach cfg s) (hempty : s.list .defunct = [])
    (hidle : s.idle = .outside) (hended : s.ended t ≠ none) (hclosing : s.closing t = none) :
    TornDown s t ↔ ¬((s.thread t).systemObject = true ∧ (s.thread t).cleanup = true ∧
      s.ended t = some .exit) := by
  have hlife := teardownReach_life hr t
  cases hlife with
  | living he => exact absurd he hended
  | closing stage hc => cases hclosing.symm.trans hc
  | defunct _ _ _ hon =>
    have hmem : t ∈ s.list .defunct := by
      show .defunct ∈ (s.view t).on
      rw [hon]
      exact Set.mem_singleton _
    simp [hempty] at hmem
  | freeing _ _ _ _ _ _ _ _ hstage =>
    rcases hstage with ⟨hfreeing, -⟩ | ⟨hdeleting, -⟩
    · cases hidle.symm.trans hfreeing
    · cases hidle.symm.trans hdeleting
  | done _ _ _ hon htimer _ _ hcleanup hstack hcontrol hin =>
    refine ⟨fun h hx => ?_, fun hx => ?_⟩
    · cases h.container.symm.trans (hin.mpr hx)
    · exact ⟨Set.eq_empty_iff_forall_notMem.mp hon, htimer,
        Bool.eq_false_of_not_eq_true fun hc => hx (hin.mp hc), hcleanup, hstack, hcontrol⟩

end

/-- Thread 2 is the idle thread; all threads are system objects with a cleanup function. -/
def teardownStart : TeardownState where
  thread t := ⟨⟨.init, if t = 2 then 31 else 5, if t = 2 then 31 else 5, .eok, false, 0, 0, []⟩,
    noMasks, true, true⟩
  list _ := []
  readyMap := ⟨0, fun _ => 0⟩
  currentThread := none
  currentPriority := 31
  lockNest := 0
  inContainer _ := true
  ended _ := none
  closing _ := none
  idle := .outside
  cleanupCalls _ := 0
  stackFrees _ := 0
  controlFrees _ := 0

theorem teardownStart_start : TeardownStart teardownStart :=
  ⟨fun _ => rfl, fun _ => rfl, fun _ => rfl, fun _ => rfl, fun _ => rfl, rfl, fun _ => rfl,
    fun _ => rfl, fun _ => rfl⟩

def thirtyTwoPriorities : SchedConfig := ⟨32, by decide, by decide⟩

/-- A thread is started and suspended, and another one detaches it. -/
def detachRun : List TeardownAction :=
  [.call (.startup 1), .call (.suspend 1), .detach 1, .closeNext 1, .closeNext 1, .closeNext 1,
    .closeNext 1, .closeNext 1, .idleTake]

theorem detachRun_some :
    (runFrom (teardownStep thirtyTwoPriorities) detachRun teardownStart).isSome = true := by
  decide

def afterDetach : TeardownState :=
  (runFrom (teardownStep thirtyTwoPriorities) detachRun teardownStart).get detachRun_some

theorem afterDetach_reach : TeardownReach thirtyTwoPriorities afterDetach := by
  have hrun : runFrom (teardownStep thirtyTwoPriorities) detachRun teardownStart =
      some afterDetach := (Option.some_get _).symm
  exact Reach.runFrom (by decide) (.start teardownStart_start) hrun

theorem teardown_complete_iff_afterDetach : TornDown afterDetach 1 ↔
    ¬((afterDetach.thread 1).systemObject = true ∧ (afterDetach.thread 1).cleanup = true ∧
      afterDetach.ended 1 = some .exit) :=
  teardown_complete_iff afterDetach_reach (by decide) (by decide +kernel)
    (by decide) (by decide +kernel)

/-- A thread is started and returns from its entry function. -/
def exitRun : List TeardownAction :=
  [.call (.startup 1), .call (.startup 2), .call .schedulerStart, .exit, .idleTake]

theorem exitRun_some :
    (runFrom (teardownStep thirtyTwoPriorities) exitRun teardownStart).isSome = true := by
  decide

def afterExit : TeardownState :=
  (runFrom (teardownStep thirtyTwoPriorities) exitRun teardownStart).get exitRun_some

theorem afterExit_reach : TeardownReach thirtyTwoPriorities afterExit := by
  have hrun : runFrom (teardownStep thirtyTwoPriorities) exitRun teardownStart =
      some afterExit := (Option.some_get _).symm
  exact Reach.runFrom (by decide) (.start teardownStart_start) hrun

theorem exit_stays_in_container : ¬∀ s, TeardownReach thirtyTwoPriorities s →
    s.list .defunct = [] → s.idle = .outside → ∀ t, s.ended t ≠ none → s.closing t = none →
    TornDown s t := by
  intro h
  have htorn := h afterExit afterExit_reach (by decide) (by decide +kernel) 1
    (by decide) (by decide +kernel)
  have hin : afterExit.inContainer 1 = true := by decide
  cases htorn.container.symm.trans hin

end RTThread
