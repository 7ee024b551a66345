import RTThread.Runs
import RTThread.TimerRows

namespace RTThread

/-- The timers together with the started ones in the order of their starts and the tick at which
`rt_timer_start` last ran. -/
structure TimerHistory where
  timers : Timers
  started : List TimerId
  lastStart : Tick

def startedAfter (started : List TimerId) : TimerCall → List TimerId
  | .start t => started.filter (· ≠ t) ++ [t]
  | .stop t => started.filter (· ≠ t)
  | .detach t => started.filter (· ≠ t)
  | .control _ _ _ => started

def lastStartAfter (h : TimerHistory) : TimerCall → Tick
  | .start _ => h.timers.tick
  | _ => h.lastStart

inductive TimerAction where
  | call (c : TimerCall)
  | tick

def timerStep (cfg : SkipListConfig) (h : TimerHistory) : TimerAction → Option TimerHistory
  | .call c => (timerCall cfg h.timers c).map fun s =>
    { timers := s, started := startedAfter h.started c, lastStart := lastStartAfter h c }
  | .tick => some { h with timers := { h.timers with tick := h.timers.tick + 1 } }

def TimerHistoryStart (h : TimerHistory) : Prop := TimersInit h.timers ∧ h.started = []

/-- `(timeout_tick - now) mod 2^32`. -/
def ticksTo (s : Timers) (now : Tick) (t : TimerId) : Tick := (s.timer t).timeoutTick - now

/-- The timeout lies in the half range of ticks from `now` on. -/
def InWindow (s : Timers) (now : Tick) (t : TimerId) : Prop := ticksTo s now t < halfTickMax

instance {s : Timers} {now : Tick} {t : TimerId} : Decidable (InWindow s now t) :=
  inferInstanceAs (Decidable (_ < _))

/-- At each start the timeouts of the other linked timers lie ahead. -/
def StartsInWindow (cfg : SkipListConfig) (h : TimerHistory) : TimerAction → Prop
  | .call (.start t) =>
    ∀ l, ∀ u ∈ h.timers.bottom cfg l, u ≠ t → InWindow h.timers h.timers.tick u
  | _ => True

instance {cfg : SkipListConfig} : DecidableRel (StartsInWindow cfg)
  | _, .call (.start _) => inferInstanceAs (Decidable (∀ _, _))
  | _, .call (.stop _) => isTrue trivial
  | _, .call (.control _ _ _) => isTrue trivial
  | _, .call (.detach _) => isTrue trivial
  | _, .tick => isTrue trivial

/-- By the ticks left from `now`, and timers with the same timeout in the order of their starts. -/
def ExpiryOrder (h : TimerHistory) (now : Tick) (row : List TimerId) : Prop :=
  row.Pairwise fun a b => ticksTo h.timers now a ≤ ticksTo h.timers now b ∧
    ((h.timers.timer a).timeoutTick = (h.timers.timer b).timeoutTick → [a, b].Sublist h.started)

/-- The started timers are linked, each once, and in order from the last start on. -/
structure OrderInv (cfg : SkipListConfig) (h : TimerHistory) : Prop where
  rows : RowsOk cfg h.timers
  mem : ∀ l t, t ∈ h.timers.bottom cfg l ↔ t ∈ h.started ∧ listOf (h.timers.timer t) = l
  nodup : h.started.Nodup
  active : ∀ t ∈ h.started, (h.timers.timer t).activated = true
  near : ∀ l, ∀ t ∈ h.timers.bottom cfg l, InWindow h.timers h.lastStart t
  order : ∀ l, ExpiryOrder h h.lastStart (h.timers.bottom cfg l)

section
variable {cfg : SkipListConfig} {h h' : TimerHistory} {s s' : Timers} {t u : TimerId}
  {a : TimerAction} {l : TimerList} {now from' : Tick} {row : List TimerId}

theorem window_rebase {x y m n : Tick} (hx : x - m < halfTickMax) (hy : y - m < halfTickMax)
    (hx' : x - n < halfTickMax) (hy' : y - n < halfTickMax) (hle : x - m ≤ y - m) :
    x - n ≤ y - n := by
  unfold halfTickMax at *
  bv_omega

/-- Inside one window the comparison of the search loop is the order of the ticks left. -/
theorem window_breaks {x y n : Tick} (hx : x - n < halfTickMax) (hy : y - n < halfTickMax) :
    (x - y ≠ 0 ∧ x - y < halfTickMax) ↔ y - n < x - n := by
  unfold halfTickMax at *
  constructor
  · rintro ⟨h0, h1⟩
    bv_omega
  · intro h1
    constructor <;> bv_omega

theorem breaksAt_iff (hu : InWindow s now u) (ht : InWindow s now t) :
    breaksAt s.timer t u = true ↔ ticksTo s now t < ticksTo s now u := by
  simpa [breaksAt, ticksTo] using window_breaks hu ht

theorem ticksTo_eq_iff : ticksTo s now t = ticksTo s now u ↔
    (s.timer t).timeoutTick = (s.timer u).timeoutTick := by
  unfold ticksTo
  constructor
  · intro h
    bv_omega
  · exact fun h => by rw [h]

/-- The order holds from any tick from which all the row's timeouts lie ahead. -/
theorem ExpiryOrder.rebase (ho : ExpiryOrder h now row)
    (hnear : ∀ t ∈ row, InWindow h.timers now t) (hnear' : ∀ t ∈ row, InWindow h.timers from' t) :
    ExpiryOrder h from' row :=
  ho.imp_of_mem fun ha hb hab =>
    ⟨window_rebase (hnear _ ha) (hnear _ hb) (hnear' _ ha) (hnear' _ hb) hab.1, hab.2⟩

theorem pair_sublist_filter {started : List TimerId} {a b : TimerId}
    (hs : [a, b].Sublist started) (ha : a ≠ t) (hb : b ≠ t) :
    [a, b].Sublist (started.filter (· ≠ t)) := by
  simpa [ha, hb] using hs.filter (· ≠ t)

/-- The row without `t` stays in order when only `t` is changed and leaves the history. -/
theorem ExpiryOrder.without (ho : ExpiryOrder h now row)
    (htimer : ∀ u, u ≠ t → h'.timers.timer u = h.timers.timer u)
    (hstarted : (h.started.filter (· ≠ t)).Sublist h'.started) :
    ExpiryOrder h' now (row.filter (· ≠ t)) := by
  refine (List.Pairwise.filter _ ho).imp_of_mem fun {a b} ha hb hab => ?_
  have hat : a ≠ t := by simpa using (List.mem_filter.mp ha).2
  have hbt : b ≠ t := by simpa using (List.mem_filter.mp hb).2
  simp only [ticksTo, htimer a hat, htimer b hbt]
  exact ⟨hab.1, fun heq => (pair_sublist_filter (hab.2 heq) hat hbt).trans hstarted⟩

theorem InWindow.of_timer_eq (hw : InWindow s now u) (heq : s'.timer u = s.timer u) :
    InWindow s' now u := by simpa [InWindow, ticksTo, heq] using hw

theorem orderInv_start (hi : OrderInv cfg h)
    (hw : ∀ l, ∀ u ∈ h.timers.bottom cfg l, u ≠ t → InWindow h.timers h.timers.tick u)
    (hrows : RowsOk cfg s') (hst : TimerStarted cfg h.timers t s') :
    OrderInv cfg ⟨s', h.started.filter (· ≠ t) ++ [t], h.timers.tick⟩ := by
  have htimer : ∀ u, u ≠ t → s'.timer u = h.timers.timer u := fun u hu => by
    simp [hst.timer, hu]
  have hself : s'.timer t = startedTimer h.timers t := by simp [hst.timer]
  have hlist : ∀ u, listOf (s'.timer u) = listOf (h.timers.timer u) := fun u => by
    by_cases hu : u = t
    · rw [hu, hself, listOf_startedTimer]
    · rw [htimer u hu]
  have hnew : InWindow s' h.timers.tick t := by
    have hinit := hst.initTick
    have : h.timers.tick + (h.timers.timer t).initTick - h.timers.tick =
      (h.timers.timer t).initTick := by bv_omega
    simpa [InWindow, ticksTo, hself, startedTimer, this] using hinit
  have hold : ∀ l, ∀ u ∈ (h.timers.bottom cfg l).filter (· ≠ t),
      InWindow s' h.timers.tick u := fun l u hu => by
    obtain ⟨hu, hne⟩ := List.mem_filter.mp hu
    have hne : u ≠ t := by simpa using hne
    exact (hw l u hu hne).of_timer_eq (htimer u hne)
  have horder : ∀ l, ExpiryOrder ⟨s', h.started.filter (· ≠ t) ++ [t], h.timers.tick⟩
      h.timers.tick ((h.timers.bottom cfg l).filter (· ≠ t)) := fun l => by
    have hwo : ExpiryOrder ⟨s', h.started.filter (· ≠ t) ++ [t], h.timers.tick⟩ h.lastStart
        ((h.timers.bottom cfg l).filter (· ≠ t)) :=
      (hi.order l).without htimer (List.sublist_append_left _ _)
    refine hwo.rebase (fun u hu => ?_) (hold l)
    have hne : u ≠ t := by simpa using (List.mem_filter.mp hu).2
    exact (hi.near l u (List.mem_of_mem_filter hu)).of_timer_eq (htimer u hne)
  refine ⟨hrows, fun l u => ?_, ?_, fun u hu => ?_, fun l u hu => ?_, fun l => ?_⟩
  · rw [hst.mem_bottom, hi.mem, hlist]
    by_cases hu : u = t
    · subst hu
      simp [eq_comm]
    · simp [hu]
  · refine List.nodup_append.mpr ⟨hi.nodup.filter _, List.nodup_singleton t, ?_⟩
    intro a ha b hb
    have := (List.mem_filter.mp ha).2
    simpa [List.mem_singleton.mp hb] using this
  · by_cases hut : u = t
    · rw [hut, hself, startedTimer]
    · rw [htimer u hut]
      exact hi.active u (by simpa [hut] using hu)
  · rcases hst.mem_bottom.mp hu with ⟨hu, hne⟩ | ⟨rfl, -⟩
    · exact hold l u (List.mem_filter.mpr ⟨hu, by simpa using hne⟩)
    · exact hnew
  · by_cases hl : l = listOf (h.timers.timer t)
    · subst hl
      obtain ⟨p, A, B, hcut, hb⟩ := hst.own
      have ho := horder (listOf (h.timers.timer t))
      have hnear := hold (listOf (h.timers.timer t))
      have hsorted := hcut.sorted (fun u => (ticksTo s' h.timers.tick u).toNat) (x := t)
        (ho.imp fun hab => hab.1) fun y hy => breaksAt_iff (hnear y hy) hnew
      have hmem : ∀ a ∈ A, a ∈ h.started.filter (· ≠ t) := fun a ha => by
        have hrow : a ∈ (h.timers.bottom cfg (listOf (h.timers.timer t))).filter (· ≠ t) := by
          rw [hcut.eq]
          exact List.mem_append_left _ ha
        obtain ⟨hrow, hne⟩ := List.mem_filter.mp hrow
        exact List.mem_filter.mpr ⟨((hi.mem _ _).mp hrow).1, hne⟩
      rw [hcut.eq] at ho
      obtain ⟨hA, hB, hAB⟩ := List.pairwise_append.mp ho
      rw [hb]
      refine List.pairwise_append.mpr ⟨hA, List.pairwise_cons.mpr ⟨fun b hb => ?_, hB⟩, ?_⟩
      · have hlt := hsorted.2 b hb
        exact ⟨hlt.le, fun heq => absurd (congrArg _ (ticksTo_eq_iff.mpr heq)) hlt.ne⟩
      · intro a ha b hb
        rcases List.mem_cons.mp hb with rfl | hb
        · refine ⟨hsorted.1 a ha, fun _ => ?_⟩
          exact (List.singleton_sublist.mpr (hmem a ha)).append (List.Sublist.refl [b])
        · exact hAB a ha b hb
    · rw [hst.other l hl]
      exact horder l

/-- `rt_timer_stop` and `rt_timer_detach` take one timer out of the lists and the history. -/
theorem orderInv_remove (hi : OrderInv cfg h) (hrows : RowsOk cfg s')
    (hbottom : ∀ l, s'.bottom cfg l = (h.timers.bottom cfg l).filter (· ≠ t))
    (htimer : ∀ u, u ≠ t → s'.timer u = h.timers.timer u)
    (hlist : listOf (s'.timer t) = listOf (h.timers.timer t)) :
    OrderInv cfg ⟨s', h.started.filter (· ≠ t), h.lastStart⟩ := by
  have hmem : ∀ {l u}, u ∈ s'.bottom cfg l ↔ u ∈ h.timers.bottom cfg l ∧ u ≠ t := fun {l u} => by
    rw [hbottom, List.mem_filter, decide_eq_true_eq]
  refine ⟨hrows, fun l u => ?_, hi.nodup.filter _, fun u hu => ?_, fun l u hu => ?_, fun l => ?_⟩
  · rw [hmem, hi.mem]
    by_cases hu : u = t
    · subst hu
      simp
    · simp [hu, htimer u hu]
  · have hne : u ≠ t := by simpa using (List.mem_filter.mp hu).2
    rw [htimer u hne]
    exact hi.active u (List.mem_of_mem_filter hu)
  · obtain ⟨hu, hne⟩ := hmem.mp hu
    exact (hi.near l u hu).of_timer_eq (htimer u hne)
  · rw [hbottom]
    exact (hi.order l).without htimer (List.Sublist.refl _)

/-- A change of the fields the lists do not depend on. -/
theorem orderInv_of_row (hi : OrderInv cfg h) (hrow : s'.row = h.timers.row)
    (hlist : ∀ u, listOf (s'.timer u) = listOf (h.timers.timer u))
    (hactive : ∀ u, (s'.timer u).activated = (h.timers.timer u).activated)
    (htimeout : ∀ u, (s'.timer u).timeoutTick = (h.timers.timer u).timeoutTick) :
    OrderInv cfg { h with timers := s' } := by
  have hbottom : ∀ l, s'.bottom cfg l = h.timers.bottom cfg l := fun l => by
    simp [Timers.bottom, hrow]
  have hticks : ∀ now u, ticksTo s' now u = ticksTo h.timers now u := fun now u => by
    simp [ticksTo, htimeout]
  refine ⟨hi.rows.of_row hrow hlist, fun l u => ?_, hi.nodup, fun u hu => ?_, fun l u hu => ?_,
    fun l => ?_⟩
  · rw [hbottom, hlist]
    exact hi.mem l u
  · rw [hactive]
    exact hi.active u hu
  · rw [InWindow, hticks]
    exact hi.near l u (hbottom l ▸ hu)
  · rw [hbottom]
    simpa [ExpiryOrder, hticks, htimeout] using hi.order l

theorem not_mem_started (hi : OrderInv cfg h) (ht : (h.timers.timer t).activated = false) :
    h.started.filter (· ≠ t) = h.started := by
  refine List.filter_eq_self.mpr fun u hu => ?_
  have hne : u ≠ t := by
    rintro rfl
    simp [hi.active u hu] at ht
  simpa using hne

theorem orderInv_call {c : TimerCall} (hi : OrderInv cfg h)
    (hok : StartsInWindow cfg h (.call c)) (hs : timerCall cfg h.timers c = some s') :
    OrderInv cfg ⟨s', startedAfter h.started c, lastStartAfter h c⟩ := by
  cases c with
  | start t =>
    obtain ⟨hrows, hst⟩ := rtTimerStart_spec hi.rows hs
    exact orderInv_start hi hok hrows hst
  | stop t =>
    obtain rfl := Option.some.inj hs
    have hrows := rtTimerStop_rowsOk (t := t) hi.rows
    rw [rtTimerStop_state] at hrows ⊢
    by_cases ha : (h.timers.timer t).activated = true
    · rw [if_pos ha] at hrows ⊢
      exact orderInv_remove hi hrows (fun _ => rfl)
        (fun u hu => by simp [setActivated, hu]) (by simp [setActivated, listOf])
    · rw [if_neg ha]
      rw [startedAfter, not_mem_started hi (by simpa using ha)]
      exact hi
  | control t cmd arg =>
    obtain rfl := Option.some.inj hs
    obtain ⟨f, hf, hx⟩ := rtTimerControl_spec h.timers t cmd arg
    rw [hf]
    refine orderInv_of_row hi rfl (fun u => listOf_set fun x => (hx x).2.1) (fun u => ?_) fun u => ?_
    all_goals
      by_cases hu : u = t
      · subst hu
        simp [hx]
      · simp [hu]
  | detach t =>
    obtain rfl := Option.some.inj hs
    exact orderInv_remove hi hi.rows.timerRemove (fun _ => rfl) (fun _ _ => rfl) rfl

theorem timerStep_orderInv (hi : OrderInv cfg h) (hok : StartsInWindow cfg h a)
    (hs : timerStep cfg h a = some h') : OrderInv cfg h' := by
  cases a with
  | call c =>
    obtain ⟨s', hc, rfl⟩ := Option.map_eq_some_iff.mp hs
    exact orderInv_call hi hok hc
  | tick =>
    obtain rfl := Option.some.inj hs
    exact orderInv_of_row hi rfl (fun _ => rfl) (fun _ => rfl) fun _ => rfl

theorem timerHistoryStart_orderInv (h0 : TimerHistoryStart h) : OrderInv cfg h := by
  obtain ⟨hinit, hstarted⟩ := h0
  have hbottom : ∀ l, h.timers.bottom cfg l = [] := fun l => hinit.row l _
  refine ⟨hinit.rowsOk, fun l t => ?_, ?_, ?_, fun l t ht => ?_, fun l => ?_⟩
  · simp [hbottom, hstarted]
  · simp [hstarted]
  · simp [hstarted]
  · simp [hbottom] at ht
  · simp [hbottom, ExpiryOrder]

theorem timerReach_orderInv
    (hr : Reach (timerStep cfg) (StartsInWindow cfg) TimerHistoryStart h) : OrderInv cfg h :=
  hr.invariant (fun _ h0 => timerHistoryStart_orderInv h0) fun _ _ _ hi hok hs =>
    timerStep_orderInv hi hok hs

/-- In every state reached by starts within the window, stops, detaches, changes of a timer's settings
and ticks, the bottom row lists the started timers once each, in order seen from the last start,
and in order seen from now while all their timeouts lie ahead of now. -/
theorem timerReach_expiryOrder
    (hr : Reach (timerStep cfg) (StartsInWindow cfg) TimerHistoryStart h) (l : TimerList) :
    NestedRows cfg.level (h.timers.row l) ∧
    (h.timers.bottom cfg l).Nodup ∧ h.started.Nodup ∧
    (∀ t, t ∈ h.timers.bottom cfg l ↔ t ∈ h.started ∧ listOf (h.timers.timer t) = l) ∧
    ExpiryOrder h h.lastStart (h.timers.bottom cfg l) ∧
    ((∀ t ∈ h.timers.bottom cfg l, InWindow h.timers h.timers.tick t) →
      ExpiryOrder h h.timers.tick (h.timers.bottom cfg l)) := by
  have hi := timerReach_orderInv hr
  exact ⟨hi.rows.nested l, hi.rows.nodup l, hi.nodup, hi.mem l, hi.order l,
    fun hnear => (hi.order l).rebase (hi.near l) hnear⟩

end

/-- No timer linked, and timer `t` with a period of `t + 1` ticks. -/
def idleTimers : Timers :=
  { timer := fun t => timerInit (t + 1) false false
    row := fun _ _ => []
    tick := 0
    randomNr := 0 }

theorem idleTimers_init : TimersInit idleTimers := ⟨fun _ _ => rfl, fun _ => ⟨_, _, _, rfl⟩⟩

def threeStarts : TimerHistory :=
  (runFrom (timerStep twoRows) [.call (.start 5), .tick, .call (.start 0), .call (.start 4)]
    ⟨idleTimers, [], 0⟩).get (by decide +kernel)

theorem timerReach_expiryOrder_threeStarts :
    threeStarts.timers.bottom twoRows .hard = [0, 5, 4] ∧
      ExpiryOrder threeStarts threeStarts.timers.tick [0, 5, 4] := by
  have hrow : threeStarts.timers.bottom twoRows .hard = [0, 5, 4] := by decide +kernel
  have hr : Reach (timerStep twoRows) (StartsInWindow twoRows) TimerHistoryStart threeStarts :=
    Reach.runFrom (by decide +kernel) (.start ⟨idleTimers_init, rfl⟩) (Option.some_get _).symm
  have horder := (timerReach_expiryOrder hr .hard).2.2.2.2.2 (by decide +kernel)
  exact ⟨hrow, hrow ▸ horder⟩

/-- Two ticks after two starts the first timer's timeout has passed. -/
def passedTimeout : TimerHistory :=
  (runFrom (timerStep twoRows) [.call (.start 0), .call (.start 1), .tick, .tick]
    ⟨idleTimers, [], 0⟩).get (by decide +kernel)

theorem passed_timeout_breaks_order :
    ¬∀ h, Reach (timerStep twoRows) (StartsInWindow twoRows) TimerHistoryStart h →
      ∀ l, ExpiryOrder h h.timers.tick (h.timers.bottom twoRows l) := by
  intro hall
  have hr : Reach (timerStep twoRows) (StartsInWindow twoRows) TimerHistoryStart passedTimeout :=
    Reach.runFrom (by decide +kernel) (.start ⟨idleTimers_init, rfl⟩) (Option.some_get _).symm
  have horder := hall passedTimeout hr .hard
  have hrow : passedTimeout.timers.bottom twoRows .hard = [0, 1] := by decide +kernel
  rw [hrow] at horder
  have hle := (List.rel_of_pairwise_cons horder (List.mem_singleton.mpr rfl)).1
  revert hle
  decide +kernel

end RTThread
