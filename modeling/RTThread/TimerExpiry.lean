import RTThread.Runs
import RTThread.TimerRows

namespace RTThread

/-- Where `rt_timer_check` stands; it has interrupts disabled from its first to its last line. -/
inductive HardCheck where
  | idle
  | scan (currentTick : Tick)
  | run (t : TimerId)
deriving DecidableEq, Repr

/-- Where `rt_soft_timer_check` stands, with the successor `n` it has saved. The list head is `none`.
It locks the scheduler only, so interrupts come between any two of its steps. -/
inductive SoftCheck where
  | idle
  | scan (currentTick : Tick) (n : Option TimerId)
  | unlink (t : TimerId)
  | invoke (t : TimerId) (n : Option TimerId)
  | run (t : TimerId) (n : Option TimerId)
  | settle (t : TimerId) (n : Option TimerId) (currentTick : Tick) (rearm : Bool)
deriving DecidableEq, Repr

structure Expiry where
  timers : Timers
  hard : HardCheck
  soft : SoftCheck

def expired (s : Timers) (currentTick : Tick) (t : TimerId) : Bool :=
  currentTick - (s.timer t).timeoutTick < halfTickMax

/-- The test both loops make after the callback. -/
def rearms (s : Timers) (t : TimerId) : Bool := (s.timer t).periodic && (s.timer t).activated

/-- The branch both loops take on that test. -/
def settleTimer (cfg : SkipListConfig) (s : Timers) (t : TimerId) (rearm : Bool) : Option Timers :=
  let s := setActivated s t false
  if rearm then rtTimerStart cfg s t else some s

/-- `n->next`; a removed node is its own successor. -/
def nextNode (row : List TimerId) (t : TimerId) : Option TimerId :=
  if t ∈ row then (afterNode (some t) row).head? else some t

/-- The next step of `rt_timer_check`: begin it, take the first timer or leave, or come back from the
callback. -/
def hardStep (cfg : SkipListConfig) (x : Expiry) : Option Expiry :=
  match x.hard with
  | .idle => some { x with hard := .scan x.timers.tick }
  | .scan currentTick =>
    match (x.timers.bottom cfg .hard).head? with
    | none => some { x with hard := .idle }
    | some t =>
      if expired x.timers currentTick t then
        some { x with timers := timerRemove x.timers t, hard := .run t }
      else some { x with hard := .idle }
  | .run t =>
    (settleTimer cfg x.timers t (rearms x.timers t)).map fun s =>
      { x with timers := s, hard := .scan x.timers.tick }

/-- The next step of `rt_soft_timer_check`. -/
def softStep (cfg : SkipListConfig) (x : Expiry) : Option Expiry :=
  match x.soft with
  | .idle => some { x with soft := .scan x.timers.tick (x.timers.bottom cfg .soft).head? }
  | .scan _ none => some { x with soft := .idle }
  | .scan currentTick (some t) =>
    some { x with soft := if expired x.timers currentTick t then .unlink t else .idle }
  | .unlink t =>
    some { x with
      timers := timerRemove x.timers t
      soft := .invoke t (nextNode (x.timers.bottom cfg .soft) t) }
  | .invoke t n => some { x with soft := .run t n }
  | .run t n => some { x with soft := .settle t n x.timers.tick (rearms x.timers t) }
  | .settle t n currentTick rearm =>
    (settleTimer cfg x.timers t rearm).map fun s =>
      { x with timers := s, soft := .scan currentTick n }

/-- A call is made by a thread, an interrupt or the callback that is running. -/
inductive ExpiryAction where
  | call (c : TimerCall)
  | tick
  | hard
  | soft
deriving DecidableEq, Repr

def expiryStep (cfg : SkipListConfig) (x : Expiry) : ExpiryAction → Option Expiry
  | .call c =>
    match x.hard with
    | .scan _ => none
    | _ => (timerCall cfg x.timers c).map fun s => { x with timers := s }
  | .tick =>
    if x.hard = .idle then some { x with timers := { x.timers with tick := x.timers.tick + 1 } }
    else none
  | .hard => hardStep cfg x
  | .soft => if x.hard = .idle then softStep cfg x else none

structure ExpiryStart (x : Expiry) : Prop where
  timers : TimersInit x.timers
  hard : x.hard = .idle
  soft : x.soft = .idle

def HardCheck.expiring : HardCheck → Option TimerId
  | .run t => some t
  | _ => none

def SoftCheck.expiring : SoftCheck → Option TimerId
  | .invoke t _ => some t
  | .run t _ => some t
  | .settle t _ _ _ => some t
  | _ => none

/-- The timer the soft loop is about to start again. -/
def SoftCheck.restarted : SoftCheck → Option TimerId
  | .settle t _ _ true => some t
  | _ => none

/-- One of the loops has unlinked the timer and not yet settled it. -/
def BeingExpired (x : Expiry) (t : TimerId) : Prop :=
  x.hard.expiring = some t ∨ x.soft.expiring = some t

instance {x : Expiry} {t : TimerId} : Decidable (BeingExpired x t) :=
  inferInstanceAs (Decidable (_ ∨ _))

/-- What each step does to the timers and to where the loops stand. -/
inductive ExpiryEffect (cfg : SkipListConfig) (x : Expiry) : ExpiryAction → Expiry → Prop where
  | call {c s} (hhard : ∀ cur, x.hard ≠ .scan cur) (hs : timerCall cfg x.timers c = some s) :
    ExpiryEffect cfg x (.call c) { x with timers := s }
  | tick (hhard : x.hard = .idle) :
    ExpiryEffect cfg x .tick { x with timers := { x.timers with tick := x.timers.tick + 1 } }
  | hardEnter (hhard : x.hard = .idle) :
    ExpiryEffect cfg x .hard { x with hard := .scan x.timers.tick }
  | hardLeave {cur} (hhard : x.hard = .scan cur) : ExpiryEffect cfg x .hard { x with hard := .idle }
  | hardCall {cur t} (hhard : x.hard = .scan cur) (ht : t ∈ x.timers.bottom cfg .hard)
    (hexp : expired x.timers cur t = true) :
    ExpiryEffect cfg x .hard { x with timers := timerRemove x.timers t, hard := .run t }
  | hardReturn {t s cur} (hhard : x.hard = .run t)
    (hs : settleTimer cfg x.timers t (rearms x.timers t) = some s) :
    ExpiryEffect cfg x .hard { x with timers := s, hard := .scan cur }
  | softEnter (hhard : x.hard = .idle) (hsoft : x.soft = .idle) :
    ExpiryEffect cfg x .soft
      { x with soft := .scan x.timers.tick (x.timers.bottom cfg .soft).head? }
  | softLeave {cur n} (hhard : x.hard = .idle) (hsoft : x.soft = .scan cur n) :
    ExpiryEffect cfg x .soft { x with soft := .idle }
  | softFind {cur t} (hhard : x.hard = .idle) (hsoft : x.soft = .scan cur (some t))
    (hexp : expired x.timers cur t = true) :
    ExpiryEffect cfg x .soft { x with soft := .unlink t }
  | softUnlink {t n} (hhard : x.hard = .idle) (hsoft : x.soft = .unlink t) :
    ExpiryEffect cfg x .soft { x with timers := timerRemove x.timers t, soft := .invoke t n }
  | softCall {t n} (hhard : x.hard = .idle) (hsoft : x.soft = .invoke t n) :
    ExpiryEffect cfg x .soft { x with soft := .run t n }
  | softReturn {t n cur} (hhard : x.hard = .idle) (hsoft : x.soft = .run t n) :
    ExpiryEffect cfg x .soft { x with soft := .settle t n cur (rearms x.timers t) }
  | softSettle {t n cur rearm s} (hhard : x.hard = .idle) (hsoft : x.soft = .settle t n cur rearm)
    (hs : settleTimer cfg x.timers t rearm = some s) :
    ExpiryEffect cfg x .soft { x with timers := s, soft := .scan cur n }

section
variable {cfg : SkipListConfig} {x x' : Expiry} {s s' : Timers} {t u : TimerId}
  {a : ExpiryAction} {c : TimerCall} {rearm : Bool}

theorem hardStep_effect (h : hardStep cfg x = some x') : ExpiryEffect cfg x .hard x' := by
  unfold hardStep at h
  split at h
  next hhard => exact Option.some.inj h ▸ .hardEnter hhard
  next cur hhard =>
    split at h
    next => exact Option.some.inj h ▸ .hardLeave hhard
    next t ht =>
      split at h
      next hexp => exact Option.some.inj h ▸ .hardCall hhard (List.mem_of_head? ht) hexp
      next => exact Option.some.inj h ▸ .hardLeave hhard
  next t hhard =>
    obtain ⟨s, hs, rfl⟩ := Option.map_eq_some_iff.mp h
    exact .hardReturn hhard hs

theorem softStep_effect (hhard : x.hard = .idle) (h : softStep cfg x = some x') :
    ExpiryEffect cfg x .soft x' := by
  unfold softStep at h
  split at h
  next hsoft => exact Option.some.inj h ▸ .softEnter hhard hsoft
  next cur hsoft => exact Option.some.inj h ▸ .softLeave hhard hsoft
  next cur t hsoft =>
    obtain rfl := Option.some.inj h
    split
    next hexp => exact .softFind hhard hsoft hexp
    next => exact .softLeave hhard hsoft
  next t hsoft => exact Option.some.inj h ▸ .softUnlink hhard hsoft
  next t n hsoft => exact Option.some.inj h ▸ .softCall hhard hsoft
  next t n hsoft => exact Option.some.inj h ▸ .softReturn hhard hsoft
  next t n cur rearm hsoft =>
    obtain ⟨s, hs, rfl⟩ := Option.map_eq_some_iff.mp h
    exact .softSettle hhard hsoft hs

theorem expiryStep_effect (h : expiryStep cfg x a = some x') : ExpiryEffect cfg x a x' := by
  cases a with
  | call c =>
    simp only [expiryStep] at h
    split at h
    next => simp at h
    next hhard =>
      obtain ⟨s, hs, rfl⟩ := Option.map_eq_some_iff.mp h
      exact .call hhard hs
  | tick =>
    simp only [expiryStep] at h
    split at h
    next hhard => exact Option.some.inj h ▸ .tick hhard
    next => simp at h
  | hard => exact hardStep_effect h
  | soft =>
    simp only [expiryStep] at h
    split at h
    next hhard => exact softStep_effect hhard h
    next => simp at h

theorem timerStarted_activated (hst : TimerStarted cfg s t s') :
    (s'.timer u).activated = if u = t then true else (s.timer u).activated := by
  rw [hst.timer]
  by_cases hu : u = t
  · subst hu
    simp [startedTimer]
  · simp [hu]

/-- The timer is started again, or is left as it is with its flag cleared. -/
theorem settleTimer_spec (h : RowsOk cfg s) (hs : settleTimer cfg s t rearm = some s') :
    RowsOk cfg s' ∧ (∀ u, TimerLinked cfg s' u ↔ TimerLinked cfg s u ∨ (u = t ∧ rearm = true)) ∧
      ∀ u, (s'.timer u).activated = if u = t then rearm else (s.timer u).activated := by
  unfold settleTimer at hs
  cases rearm with
  | true =>
    have hr := setActivated_rowsOk (t := t) (b := false) h
    obtain ⟨h', hst⟩ := rtTimerStart_spec hr hs
    refine ⟨h', fun u => ?_, fun u => ?_⟩
    · rw [hst.linked_iff hr h', linked_congr setActivated_row]
      simp
    · rw [timerStarted_activated hst, setActivated_activated]
      split <;> rfl
  | false =>
    obtain rfl := Option.some.inj hs
    refine ⟨setActivated_rowsOk h, fun u => ?_, fun u => setActivated_activated⟩
    rw [linked_congr setActivated_row]
    simp

/-- The settled timer and nothing else is put back, with the timeout of a start. -/
theorem settleTimer_bottom (h : RowsOk cfg s) (hs : settleTimer cfg s t rearm = some s') :
    (∀ l u, u ≠ t → (u ∈ s'.bottom cfg l ↔ u ∈ s.bottom cfg l)) ∧
    (∀ u, u ≠ t → s'.timer u = s.timer u) ∧
    (s'.timer t).initTick = (s.timer t).initTick ∧ s'.tick = s.tick := by
  unfold settleTimer at hs
  cases rearm with
  | true =>
    obtain ⟨-, hst⟩ := rtTimerStart_spec (setActivated_rowsOk (t := t) (b := false) h) hs
    refine ⟨fun l u hu => ?_, fun u hu => ?_, ?_, hst.tick⟩
    · rw [hst.mem_bottom]
      simp only [hu, ne_eq, not_false_eq_true, and_true, false_and, or_false]
      rfl
    · rw [hst.timer, Function.update_of_ne hu]
      simp [setActivated, hu]
    · rw [hst.timer]
      simp [startedTimer, setActivated]
  | false =>
    obtain rfl := Option.some.inj hs
    exact ⟨fun _ _ _ => Iff.rfl, fun u hu => by simp [setActivated, hu], by simp [setActivated], rfl⟩

theorem expiryEffect_rowsOk (h : RowsOk cfg x.timers) (he : ExpiryEffect cfg x a x') :
    RowsOk cfg x'.timers := by
  cases he with
  | call _ hs => exact timerCall_rowsOk h hs
  | hardCall => exact h.timerRemove
  | softUnlink => exact h.timerRemove
  | hardReturn _ hs => exact (settleTimer_spec h hs).1
  | softSettle _ _ hs => exact (settleTimer_spec h hs).1
  | tick => exact h.of_row rfl fun _ => rfl
  | _ => exact h

end

/-- Timer 1 is periodic, and so are the soft timers 2 and 3; timer 0 and the others fire once. -/
def someTimers : Timers :=
  { timer := fun t => timerInit 1 (1 ≤ t ∧ t ≤ 3) (2 ≤ t ∧ t ≤ 3)
    row := fun _ _ => []
    tick := 0
    randomNr := 0 }

theorem someTimers_start : ExpiryStart ⟨someTimers, .idle, .idle⟩ :=
  ⟨⟨fun _ _ => rfl, fun _ => ⟨_, _, _, rfl⟩⟩, rfl, rfl⟩

end RTThread
