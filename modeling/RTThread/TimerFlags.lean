import RTThread.TimerExpiry

namespace RTThread

/-- The timer whose callback has returned and that the loop is about to leave stopped. -/
def SoftCheck.dropped : SoftCheck → Option TimerId
  | .settle t _ _ false => some t
  | _ => none

/-- An active timer is detached only while it is being expired, and a timer found linked when its
callback has returned is one that the loop starts again. -/
def KeepsFlags (cfg : SkipListConfig) (x : Expiry) : ExpiryAction → Prop
  | .call (.detach t) => (x.timers.timer t).activated = true → BeingExpired x t
  | .hard => ∀ t ∈ x.hard.expiring, TimerLinked cfg x.timers t → rearms x.timers t = true
  | .soft => ∀ t ∈ x.soft.dropped, ¬TimerLinked cfg x.timers t
  | _ => True

instance {cfg : SkipListConfig} : DecidableRel (KeepsFlags cfg)
  | _, .call (.start _) => isTrue trivial
  | _, .call (.stop _) => isTrue trivial
  | _, .call (.control _ _ _) => isTrue trivial
  | _, .call (.detach _) => inferInstanceAs (Decidable (_ → _))
  | _, .tick => isTrue trivial
  | x, .hard => inferInstanceAs (Decidable (∀ t ∈ x.hard.expiring, _))
  | x, .soft => inferInstanceAs (Decidable (∀ t ∈ x.soft.dropped, _))

/-- A linked timer is active, and an active one is linked or being expired. -/
structure FlagInv (cfg : SkipListConfig) (x : Expiry) : Prop where
  rows : RowsOk cfg x.timers
  linked : ∀ t, TimerLinked cfg x.timers t → (x.timers.timer t).activated = true
  active : ∀ t, (x.timers.timer t).activated = true → TimerLinked cfg x.timers t ∨ BeingExpired x t

section
variable {cfg : SkipListConfig} {x x' : Expiry} {s' : Timers} {t u : TimerId} {a : ExpiryAction}
  {c : TimerCall}

/-- The calls keep the agreement for each timer that is not being expired. -/
theorem timerCall_flags (hi : FlagInv cfg x) (hok : KeepsFlags cfg x (.call c))
    (hs : timerCall cfg x.timers c = some s') : FlagInv cfg { x with timers := s' } := by
  have hrows := timerCall_rowsOk hi.rows hs
  cases c with
  | start t =>
    obtain ⟨hrows, hst⟩ := rtTimerStart_spec hi.rows hs
    refine ⟨hrows, fun u hu => ?_, fun u hu => ?_⟩
    · rw [timerStarted_activated hst]
      rcases (hst.linked_iff hi.rows hrows).mp hu with hu | rfl
      · simp [hi.linked u hu]
      · simp
    · rw [hst.linked_iff hi.rows hrows]
      rw [timerStarted_activated hst] at hu
      by_cases hut : u = t
      · exact Or.inl (Or.inr hut)
      · rw [if_neg hut] at hu
        exact (hi.active u hu).imp_left Or.inl
  | stop t =>
    obtain rfl := Option.some.inj hs
    rw [rtTimerStop_state] at hrows ⊢
    by_cases ha : (x.timers.timer t).activated = true
    · rw [if_pos ha] at hrows ⊢
      refine ⟨hrows, fun u hu => ?_, fun u hu => ?_⟩
      · rw [linked_congr setActivated_row, linked_timerRemove] at hu
        rw [setActivated_activated, if_neg hu.2]
        exact hi.linked u hu.1
      · rw [setActivated_activated] at hu
        split at hu
        next => simp at hu
        next hut =>
          rw [linked_congr setActivated_row, linked_timerRemove]
          exact (hi.active u hu).imp_left fun hl => ⟨hl, hut⟩
    · rw [if_neg ha]
      exact hi
  | control t cmd arg =>
    obtain rfl := Option.some.inj hs
    refine ⟨hrows, fun u hu => ?_, fun u hu => ?_⟩
    · rw [rtTimerControl_activated]
      exact hi.linked u ((linked_congr rtTimerControl_row).mp hu)
    · rw [rtTimerControl_activated] at hu
      exact (hi.active u hu).imp_left (linked_congr rtTimerControl_row).mpr
  | detach t =>
    obtain rfl := Option.some.inj hs
    refine ⟨hrows, fun u hu => hi.linked u (linked_timerRemove.mp hu).1, fun u hu => ?_⟩
    by_cases hut : u = t
    · subst hut
      exact Or.inr (hok hu)
    · exact (hi.active u hu).imp_left fun hl => linked_timerRemove.mpr ⟨hl, hut⟩

/-- A loop unlinks a timer and is then expiring it. -/
theorem flagInv_unlink (hi : FlagInv cfg x) (ht : BeingExpired x' t)
    (htimers : x'.timers = timerRemove x.timers t)
    (hothers : ∀ u, BeingExpired x u → BeingExpired x' u) : FlagInv cfg x' := by
  refine ⟨htimers ▸ hi.rows.timerRemove, fun u hu => ?_, fun u hu => ?_⟩
  · rw [htimers] at hu ⊢
    exact hi.linked u (linked_timerRemove.mp hu).1
  · rw [htimers] at hu ⊢
    by_cases hut : u = t
    · exact Or.inr (hut ▸ ht)
    · exact (hi.active u hu).imp (fun hl => linked_timerRemove.mpr ⟨hl, hut⟩) (hothers u)

/-- A loop settles the timer it was expiring. -/
theorem flagInv_settle {rearm : Bool} (x' : Expiry) (hi : FlagInv cfg x)
    (hs : settleTimer cfg x.timers t rearm = some x'.timers)
    (hlinked : TimerLinked cfg x.timers t → rearm = true)
    (hothers : ∀ u, u ≠ t → BeingExpired x u → BeingExpired x' u) : FlagInv cfg x' := by
  obtain ⟨hrows, hl, ha⟩ := settleTimer_spec hi.rows hs
  refine ⟨hrows, fun u hu => ?_, fun u hu => ?_⟩
  · rw [ha]
    by_cases hut : u = t
    · subst hut
      simpa using ((hl u).mp hu).elim hlinked fun h => h.2
    · rw [if_neg hut]
      exact hi.linked u (((hl u).mp hu).resolve_right fun h => hut h.1)
  · rw [ha] at hu
    rw [hl]
    by_cases hut : u = t
    · rw [if_pos hut] at hu
      exact Or.inl (Or.inr ⟨hut, hu⟩)
    · rw [if_neg hut] at hu
      exact (hi.active u hu).imp Or.inl (hothers u hut)

/-- Only where the loops stand has changed. -/
theorem flagInv_of_timers (hi : FlagInv cfg x) (htimers : x'.timers = x.timers)
    (hothers : ∀ u, BeingExpired x u → BeingExpired x' u) : FlagInv cfg x' := by
  refine ⟨htimers ▸ hi.rows, fun u hu => ?_, fun u hu => ?_⟩
  · rw [htimers] at hu ⊢
    exact hi.linked u hu
  · rw [htimers] at hu ⊢
    exact (hi.active u hu).imp_right (hothers u)

theorem expiryEffect_flagInv (hi : FlagInv cfg x) (hok : KeepsFlags cfg x a)
    (he : ExpiryEffect cfg x a x') : FlagInv cfg x' := by
  cases he with
  | call _ hs => exact timerCall_flags hi hok hs
  | tick => exact ⟨hi.rows.of_row rfl fun _ => rfl, hi.linked, hi.active⟩
  | hardEnter hhard =>
    exact flagInv_of_timers hi rfl fun u hu => hu.imp_left fun h => by simp [hhard, HardCheck.expiring] at h
  | hardLeave hhard =>
    exact flagInv_of_timers hi rfl fun u hu => hu.imp_left fun h => by simp [hhard, HardCheck.expiring] at h
  | hardCall hhard =>
    exact flagInv_unlink hi (Or.inl rfl) rfl fun u hu => hu.imp_left fun h => by simp [hhard, HardCheck.expiring] at h
  | @hardReturn t s cur hhard hs =>
    refine flagInv_settle { x with timers := s, hard := .scan cur } hi hs
      (hok t (by simp [hhard, HardCheck.expiring])) fun u hut hu => hu.imp_left fun h => ?_
    rw [hhard] at h
    exact absurd (Option.some.inj h).symm hut
  | softEnter _ hsoft =>
    exact flagInv_of_timers hi rfl fun u hu => hu.imp_right fun h => by simp [hsoft, SoftCheck.expiring] at h
  | softLeave _ hsoft =>
    exact flagInv_of_timers hi rfl fun u hu => hu.imp_right fun h => by simp [hsoft, SoftCheck.expiring] at h
  | softFind _ hsoft =>
    exact flagInv_of_timers hi rfl fun u hu => hu.imp_right fun h => by simp [hsoft, SoftCheck.expiring] at h
  | @softUnlink t n _ hsoft =>
    exact flagInv_unlink hi (Or.inr rfl) rfl fun u hu => hu.imp_right fun h => by
      simp [hsoft, SoftCheck.expiring] at h
  | softCall _ hsoft =>
    exact flagInv_of_timers hi rfl fun u hu => hu.imp_right fun h => by rwa [hsoft] at h
  | softReturn _ hsoft =>
    exact flagInv_of_timers hi rfl fun u hu => hu.imp_right fun h => by rwa [hsoft] at h
  | @softSettle t n cur rearm s _ hsoft hs =>
    refine flagInv_settle { x with timers := s, soft := .scan cur n } hi hs (fun hl => ?_)
      fun u hut hu => hu.imp_right ?_
    · cases rearm with
      | true => rfl
      | false => exact absurd hl (hok t (by simp [hsoft, SoftCheck.dropped]))
    · intro h
      rw [hsoft] at h
      exact absurd (Option.some.inj h).symm hut

theorem expiryStart_flagInv (h : ExpiryStart x) : FlagInv cfg x := by
  refine ⟨h.timers.rowsOk, fun t ht => absurd ht h.timers.not_linked, fun t ht => ?_⟩
  rw [h.timers.not_activated] at ht
  simp at ht

theorem expiryReach_flagInv (hr : Reach (expiryStep cfg) (KeepsFlags cfg) ExpiryStart x) :
    FlagInv cfg x :=
  hr.invariant (fun _ h => expiryStart_flagInv h) fun _ _ _ hi hok hs =>
    expiryEffect_flagInv hi hok (expiryStep_effect hs)

theorem FlagInv.linked_iff (hi : FlagInv cfg x) (ht : ¬BeingExpired x t) :
    TimerLinked cfg x.timers t ↔ (x.timers.timer t).activated = true :=
  ⟨hi.linked t, fun ha => (hi.active t ha).resolve_right ht⟩

theorem rtTimerStop_eok_iff {s : Timers} :
    (rtTimerStop s t).1 = .eok ↔ (s.timer t).activated = true := by
  unfold rtTimerStop
  split
  next h => simp [h]
  next h => simp [h]

theorem not_beingExpired (hhard : x.hard = .idle) (hsoft : x.soft = .idle) :
    ¬BeingExpired x t := by
  simp [BeingExpired, hhard, hsoft, HardCheck.expiring, SoftCheck.expiring]

/-- Outside the expiry checks a timer is linked exactly when it is active, and those are the timers
that `rt_timer_stop` succeeds on. -/
theorem expiryReach_flagsAgree (hr : Reach (expiryStep cfg) (KeepsFlags cfg) ExpiryStart x)
    (hhard : x.hard = .idle) (hsoft : x.soft = .idle) (t : TimerId) :
    (TimerLinked cfg x.timers t ↔ (x.timers.timer t).activated = true) ∧
      ((rtTimerStop x.timers t).1 = .eok ↔ TimerLinked cfg x.timers t) := by
  have hiff := (expiryReach_flagInv hr).linked_iff (not_beingExpired hhard hsoft (t := t))
  exact ⟨hiff, rtTimerStop_eok_iff.trans hiff.symm⟩

end

/-- The callback of the periodic timer 1 starts timer 0. -/
def periodicCheck : Expiry :=
  (runFrom (expiryStep twoRows) [.call (.start 1), .tick, .hard, .hard, .call (.start 0), .hard, .hard]
    ⟨someTimers, .idle, .idle⟩).get (by decide +kernel)

theorem expiryReach_flagsAgree_periodic :
    TimerLinked twoRows periodicCheck.timers 1 ∧ (rtTimerStop periodicCheck.timers 1).1 = .eok := by
  have hr : Reach (expiryStep twoRows) (KeepsFlags twoRows) ExpiryStart periodicCheck :=
    Reach.runFrom (by decide +kernel) (.start someTimers_start) (Option.some_get _).symm
  have h := expiryReach_flagsAgree hr (by decide +kernel) (by decide +kernel) 1
  have hl := h.1.mpr (by decide +kernel)
  exact ⟨hl, h.2.mpr hl⟩

/-- The callback of the one-shot timer 0 starts timer 0. -/
def restartedOneShot : Expiry :=
  (runFrom (expiryStep twoRows) [.call (.start 0), .tick, .hard, .hard, .call (.start 0), .hard, .hard]
    ⟨someTimers, .idle, .idle⟩).get (by decide +kernel)

theorem one_shot_restart_loses_flag :
    ¬∀ x, Reach (expiryStep twoRows) (fun _ _ => True) ExpiryStart x →
      x.hard = .idle → x.soft = .idle → ∀ t,
      (TimerLinked twoRows x.timers t ↔ (x.timers.timer t).activated = true) := by
  intro hall
  have hr : Reach (expiryStep twoRows) (fun _ _ => True) ExpiryStart restartedOneShot :=
    Reach.runFrom (by decide +kernel) (.start someTimers_start) (Option.some_get _).symm
  have hiff := hall restartedOneShot hr (by decide +kernel) (by decide +kernel) 0
  revert hiff
  decide +kernel

end RTThread
