import RTThread.TimerFlags

namespace RTThread

/-- The timers detached and not started again by a call since. -/
abbrev Detached := TimerId → Bool

def detachedAfter (d : Detached) : ExpiryAction → Detached
  | .call (.detach t) => Function.update d t true
  | .call (.start t) => Function.update d t false
  | _ => d

def detachStep (cfg : SkipListConfig) (x : Expiry × Detached) (a : ExpiryAction) :
    Option (Expiry × Detached) :=
  (expiryStep cfg x.1 a).map fun y => (y, detachedAfter x.2 a)

def DetachStart (x : Expiry × Detached) : Prop := ExpiryStart x.1 ∧ x.2 = fun _ => false

/-- The timer that has passed the test of the soft loop and whose callback has not begun. -/
def SoftCheck.claimed : SoftCheck → Option TimerId
  | .unlink t => some t
  | .invoke t _ => some t
  | _ => none

/-- The timer whose callback runs in the timer thread. -/
def SoftCheck.running : SoftCheck → Option TimerId
  | .run t _ => some t
  | _ => none

/-- The timer the soft loop looks at, when its timeout has passed. -/
def SoftCheck.found (s : Timers) : SoftCheck → Option TimerId
  | .scan cur (some t) => if expired s cur t then some t else none
  | _ => none

def CallbackBegins (x x' : Expiry) (t : TimerId) : Prop :=
  (x'.hard.expiring = some t ∧ x.hard.expiring ≠ some t) ∨
    (x'.soft.running = some t ∧ x.soft.running ≠ some t)

/-- No timer is detached between the soft loop's test of it and its callback, the soft loop finds no
detached timer behind its saved pointer, and no loop starts a detached timer again. -/
def DetachTakesEffect (x : Expiry × Detached) : ExpiryAction → Prop
  | .call (.detach t) => x.1.soft.claimed ≠ some t
  | .hard => ∀ t ∈ x.1.hard.expiring, rearms x.1.timers t = true → x.2 t = false
  | .soft => (∀ t ∈ x.1.soft.found x.1.timers, x.2 t = false) ∧
    ∀ t ∈ x.1.soft.restarted, x.2 t = false
  | _ => True

instance : DecidableRel DetachTakesEffect
  | _, .call (.start _) => isTrue trivial
  | _, .call (.stop _) => isTrue trivial
  | _, .call (.control _ _ _) => isTrue trivial
  | x, .call (.detach t) => inferInstanceAs (Decidable (x.1.soft.claimed ≠ some t))
  | _, .tick => isTrue trivial
  | x, .hard => inferInstanceAs (Decidable (∀ t ∈ x.1.hard.expiring, _))
  | x, .soft => inferInstanceAs (Decidable ((∀ t ∈ x.1.soft.found x.1.timers, _) ∧ _))

/-- A detached timer is neither linked nor about to have its callback called. -/
structure DetachInv (cfg : SkipListConfig) (x : Expiry × Detached) : Prop where
  rows : RowsOk cfg x.1.timers
  linked : ∀ t, x.2 t = true → ¬TimerLinked cfg x.1.timers t
  claimed : ∀ t, x.2 t = true → x.1.soft.claimed ≠ some t

section
variable {cfg : SkipListConfig} {x x' : Expiry × Detached} {y : Expiry} {s' : Timers} {t u : TimerId}
  {a : ExpiryAction} {c : TimerCall}

theorem timerCall_detachInv (hi : DetachInv cfg x) (hok : DetachTakesEffect x (.call c))
    (hs : timerCall cfg x.1.timers c = some s') :
    DetachInv cfg ({ x.1 with timers := s' }, detachedAfter x.2 (.call c)) := by
  have hrows := timerCall_rowsOk hi.rows hs
  cases c with
  | start t =>
    obtain ⟨hrows, hst⟩ := rtTimerStart_spec hi.rows hs
    have hne : ∀ {u}, Function.update x.2 t false u = true → u ≠ t := by
      rintro u hu rfl
      simp at hu
    refine ⟨hrows, fun u hu hl => ?_, fun u hu => ?_⟩
    · have hut := hne hu
      rcases (hst.linked_iff hi.rows hrows).mp hl with hl | rfl
      · exact hi.linked u (by simpa [detachedAfter, hut] using hu) hl
      · exact hut rfl
    · exact hi.claimed u (by simpa [detachedAfter, hne hu] using hu)
  | stop t =>
    obtain rfl := Option.some.inj hs
    refine ⟨hrows, fun u hu hl => hi.linked u hu ?_, hi.claimed⟩
    rw [rtTimerStop_state] at hl
    split at hl
    · exact (linked_timerRemove.mp hl).1
    · exact hl
  | control t cmd arg =>
    obtain rfl := Option.some.inj hs
    exact ⟨hrows, fun u hu hl => hi.linked u hu ((linked_congr rtTimerControl_row).mp hl),
      hi.claimed⟩
  | detach t =>
    obtain rfl := Option.some.inj hs
    refine ⟨hrows, fun u hu hl => ?_, fun u hu => ?_⟩
    · obtain ⟨hl, hut⟩ := linked_timerRemove.mp hl
      exact hi.linked u (by simpa [detachedAfter, hut] using hu) hl
    · by_cases hut : u = t
      · exact hut ▸ hok
      · exact hi.claimed u (by simpa [detachedAfter, hut] using hu)

/-- A step that links no timer and claims none. -/
theorem detachInv_of_sub (hi : DetachInv cfg x) (hrows : RowsOk cfg y.timers)
    (hlinked : ∀ t, TimerLinked cfg y.timers t → TimerLinked cfg x.1.timers t)
    (hclaimed : ∀ t, y.soft.claimed = some t → x.1.soft.claimed = some t) :
    DetachInv cfg (y, x.2) :=
  ⟨hrows, fun t ht hl => hi.linked t ht (hlinked t hl),
    fun t ht hc => hi.claimed t ht (hclaimed t hc)⟩

theorem detachInv_settle {rearm : Bool} (hi : DetachInv cfg x)
    (hs : settleTimer cfg x.1.timers t rearm = some y.timers)
    (hok : rearm = true → x.2 t = false)
    (hclaimed : ∀ t, y.soft.claimed = some t → x.1.soft.claimed = some t) :
    DetachInv cfg (y, x.2) := by
  obtain ⟨hrows, hl, -⟩ := settleTimer_spec hi.rows hs
  refine ⟨hrows, fun u hu hlu => ?_, fun u hu hc => hi.claimed u hu (hclaimed u hc)⟩
  rcases (hl u).mp hlu with hlu | ⟨rfl, hr⟩
  · exact hi.linked u hu hlu
  · simp [hok hr] at hu

theorem expiryEffect_detachInv (hi : DetachInv cfg x) (hok : DetachTakesEffect x a)
    (he : ExpiryEffect cfg x.1 a y) : DetachInv cfg (y, detachedAfter x.2 a) := by
  cases he with
  | call _ hs => exact timerCall_detachInv hi hok hs
  | tick =>
    exact detachInv_of_sub hi (hi.rows.of_row rfl fun _ => rfl)
      (fun t => (linked_congr rfl).mp) fun _ => id
  | hardEnter => exact detachInv_of_sub hi hi.rows (fun _ => id) fun _ => id
  | hardLeave => exact detachInv_of_sub hi hi.rows (fun _ => id) fun _ => id
  | hardCall =>
    exact detachInv_of_sub hi hi.rows.timerRemove (fun t h => (linked_timerRemove.mp h).1)
      fun _ => id
  | @hardReturn t s cur hhard hs =>
    exact detachInv_settle hi hs (hok t (by simp [hhard, HardCheck.expiring])) fun _ => id
  | softEnter =>
    exact detachInv_of_sub hi hi.rows (fun _ => id) fun _ h => by simp [SoftCheck.claimed] at h
  | softLeave =>
    exact detachInv_of_sub hi hi.rows (fun _ => id) fun _ h => by simp [SoftCheck.claimed] at h
  | @softFind cur t _ hsoft hexp =>
    refine ⟨hi.rows, hi.linked, fun u hu hc => ?_⟩
    obtain rfl : t = u := Option.some.inj hc
    have hd := hok.1 t (by simp [hsoft, SoftCheck.found, hexp])
    simp [detachedAfter, hd] at hu
  | softUnlink _ hsoft =>
    exact detachInv_of_sub hi hi.rows.timerRemove (fun t h => (linked_timerRemove.mp h).1)
      fun _ h => by rwa [hsoft]
  | softCall _ hsoft =>
    exact detachInv_of_sub hi hi.rows (fun _ => id) fun _ h => by simp [SoftCheck.claimed] at h
  | softReturn =>
    exact detachInv_of_sub hi hi.rows (fun _ => id) fun _ h => by simp [SoftCheck.claimed] at h
  | @softSettle t n cur rearm s _ hsoft hs =>
    refine detachInv_settle hi hs (fun hr => hok.2 t ?_) fun _ h => by
      simp [SoftCheck.claimed] at h
    subst hr
    simp [hsoft, SoftCheck.restarted]

/-- A callback begins only for a timer just taken from the list or claimed before. -/
theorem callbackBegins_not_detached (hi : DetachInv cfg x) (he : ExpiryEffect cfg x.1 a y)
    (hb : CallbackBegins x.1 y t) : x.2 t ≠ true := by
  intro hd
  cases he with
  | @hardCall cur u hhard hu =>
    rcases hb with ⟨hu', -⟩ | ⟨hu', hne⟩
    · obtain rfl : u = t := Option.some.inj hu'
      exact hi.linked u hd ⟨.hard, _, Nat.sub_one_lt cfg.levelPos.ne', hu⟩
    · exact hne hu'
  | @softCall u n _ hsoft =>
    rcases hb with ⟨hu', hne⟩ | ⟨hu', -⟩
    · exact hne hu'
    · obtain rfl : u = t := Option.some.inj hu'
      exact hi.claimed u hd (by rw [hsoft]; rfl)
  | call => simp [CallbackBegins] at hb
  | tick => simp [CallbackBegins] at hb
  | hardEnter => simp [CallbackBegins, HardCheck.expiring] at hb
  | hardLeave => simp [CallbackBegins, HardCheck.expiring] at hb
  | hardReturn => simp [CallbackBegins, HardCheck.expiring] at hb
  | softEnter => simp [CallbackBegins, SoftCheck.running] at hb
  | softLeave => simp [CallbackBegins, SoftCheck.running] at hb
  | softFind => simp [CallbackBegins, SoftCheck.running] at hb
  | softUnlink => simp [CallbackBegins, SoftCheck.running] at hb
  | softReturn => simp [CallbackBegins, SoftCheck.running] at hb
  | softSettle => simp [CallbackBegins, SoftCheck.running] at hb

theorem detachStep_inv (hi : DetachInv cfg x) (hok : DetachTakesEffect x a)
    (hs : detachStep cfg x a = some x') : DetachInv cfg x' := by
  obtain ⟨y, hy, rfl⟩ := Option.map_eq_some_iff.mp hs
  exact expiryEffect_detachInv hi hok (expiryStep_effect hy)

theorem detachStart_inv (h : DetachStart x) : DetachInv cfg x :=
  ⟨h.1.timers.rowsOk, fun t ht => by simp [h.2] at ht, fun t ht => by simp [h.2] at ht⟩

theorem detachReach_inv (hr : Reach (detachStep cfg) DetachTakesEffect DetachStart x) :
    DetachInv cfg x :=
  hr.invariant (fun _ h => detachStart_inv h) fun _ _ _ hi hok hs => detachStep_inv hi hok hs

end

/-- The callback of the hard timer 1 detaches the soft timer 2. -/
def detachedByOther : Expiry × Detached :=
  (runFrom (detachStep twoRows) [.call (.start 1), .call (.start 2), .tick, .hard, .hard,
    .call (.detach 2), .hard, .hard, .soft] (⟨someTimers, .idle, .idle⟩, fun _ => false)).get
    (by decide +kernel)

/-- The periodic timer 1 is detached by its own callback, and the check starts it again. -/
def detachedBySelf : Expiry × Detached :=
  (runFrom (detachStep twoRows) [.call (.start 1), .tick, .hard, .hard, .call (.detach 1), .hard,
    .hard] (⟨someTimers, .idle, .idle⟩, fun _ => false)).get (by decide +kernel)

end RTThread
