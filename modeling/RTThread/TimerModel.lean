import RTThread.SkipList
import RTThread.HeapModel
import RTThread.Threads

namespace RTThread

abbrev Tick := BitVec 32

abbrev TimerId := Nat

/-- `RT_TICK_MAX / 2`. -/
def halfTickMax : Tick := 0x7fffffff

/-- `RT_TIMER_SKIP_LIST_LEVEL` and `RT_TIMER_SKIP_LIST_MASK`, which is 1 or 3. -/
structure SkipListConfig where
  level : Nat
  mask : BitVec 32
  levelPos : 0 < level
  maskLegal : mask = 1 ∨ mask = 3

/-- The configuration of the sample runs. -/
def twoRows : SkipListConfig := ⟨2, 1, by decide, Or.inl rfl⟩

/-- `rt_timer_list` and `rt_soft_timer_list`. -/
inductive TimerList where
  | hard
  | soft
deriving DecidableEq, Repr

instance : Fintype TimerList := ⟨{.hard, .soft}, fun l => by cases l <;> decide⟩

/-- The flag bits of a timer and its two tick fields. -/
structure Timer where
  activated : Bool
  periodic : Bool
  softTimer : Bool
  initTick : Tick
  timeoutTick : Tick
deriving DecidableEq, Repr

/-- The timers, the rows of both lists, `rt_tick` and the insertion counter. -/
structure Timers where
  timer : TimerId → Timer
  row : TimerList → Nat → List TimerId
  tick : Tick
  randomNr : BitVec 32

def Timers.set (s : Timers) (t : TimerId) (f : Timer → Timer) : Timers :=
  { s with timer := Function.update s.timer t (f (s.timer t)) }

def listOf (x : Timer) : TimerList := if x.softTimer then .soft else .hard

/-- `_rt_timer_init` leaves the timer deactivated. -/
def timerInit (time : Tick) (periodic softTimer : Bool) : Timer :=
  { activated := false, periodic, softTimer, initTick := time, timeoutTick := 0 }

/-- `_rt_timer_remove` unlinks every row node from wherever it is linked. -/
def timerRemove (s : Timers) (t : TimerId) : Timers :=
  { s with row := fun l k => (s.row l k).filter (· ≠ t) }

def setActivated (s : Timers) (t : TimerId) (b : Bool) : Timers :=
  s.set t fun x => { x with activated := b }

/-- `timer->timeout_tick = rt_tick_get() + timer->init_tick`. -/
def setTimeout (s : Timers) (t : TimerId) : Timers :=
  s.set t fun x => { x with timeoutTick := s.tick + x.initTick }

/-- The search passes a timer with the same timeout and breaks at one that is later by less than
half the tick range. -/
def breaksAt (timer : TimerId → Timer) (t n : TimerId) : Bool :=
  let d := (timer n).timeoutTick - (timer t).timeoutTick
  d ≠ 0 && d < halfTickMax

/-- The rows above the bottom one that the tested bits of the insertion counter link. -/
def upperRows (mask : BitVec 32) : BitVec 32 → Nat → Nat
  | _, 0 => 0
  | tstNr, k + 1 =>
    if tstNr &&& mask = 0 then upperRows mask (tstNr >>> ((mask + 1) >>> 1)) k + 1 else 0

/-- The second section of `rt_timer_start`, from the choice of the list on. -/
def timerInsert (cfg : SkipListConfig) (s : Timers) (t : TimerId) : Timers :=
  let l := listOf (s.timer t)
  let randomNr := s.randomNr + 1
  let rows := insertRows (breaksAt s.timer t) (s.row l) cfg.level
    (upperRows cfg.mask randomNr (cfg.level - 1) + 1) t
  setActivated { s with row := Function.update s.row l rows, randomNr } t true

/-- What follows for a soft timer, waking the timer thread, works on that thread and stops its own
timer with a call of `rt_timer_stop`. -/
def rtTimerStart (cfg : SkipListConfig) (s : Timers) (t : TimerId) : Option Timers := do
  let s := setActivated (timerRemove s t) t false
  rtAssert ((s.timer t).initTick < halfTickMax)
  some (timerInsert cfg (setTimeout s t) t)

def rtTimerStop (s : Timers) (t : TimerId) : Err × Timers :=
  if (s.timer t).activated then (.eok, setActivated (timerRemove s t) t false) else (.error, s)

inductive TimerCtrl where
  | setTime
  | getTime
  | setOneshot
  | setPeriodic
deriving DecidableEq, Repr

/-- With the new value of `*(rt_tick_t *)arg`. -/
def rtTimerControl (s : Timers) (t : TimerId) (cmd : TimerCtrl) (arg : Tick) : Timers × Tick :=
  match cmd with
  | .getTime => (s, (s.timer t).initTick)
  | .setTime => (s.set t fun x => { x with initTick := arg }, arg)
  | .setOneshot => (s.set t fun x => { x with periodic := false }, arg)
  | .setPeriodic => (s.set t fun x => { x with periodic := true }, arg)

/-- `rt_timer_detach` and `rt_timer_delete`; the flag keeps its bits. -/
def rtTimerDetach (s : Timers) (t : TimerId) : Timers := timerRemove s t

inductive TimerCall where
  | start (t : TimerId)
  | stop (t : TimerId)
  | control (t : TimerId) (cmd : TimerCtrl) (arg : Tick)
  | detach (t : TimerId)
deriving DecidableEq, Repr

def timerCall (cfg : SkipListConfig) (s : Timers) : TimerCall → Option Timers
  | .start t => rtTimerStart cfg s t
  | .stop t => some (rtTimerStop s t).2
  | .control t cmd arg => some (rtTimerControl s t cmd arg).1
  | .detach t => some (rtTimerDetach s t)

/-- The row that lists every linked timer. -/
def Timers.bottom (cfg : SkipListConfig) (s : Timers) (l : TimerList) : List TimerId :=
  s.row l (cfg.level - 1)

/-- Some row node of the timer is linked. -/
def TimerLinked (cfg : SkipListConfig) (s : Timers) (t : TimerId) : Prop :=
  ∃ l, ∃ k < cfg.level, t ∈ s.row l k

instance {cfg : SkipListConfig} {s : Timers} {t : TimerId} : Decidable (TimerLinked cfg s t) :=
  inferInstanceAs (Decidable (∃ l, ∃ k < cfg.level, t ∈ s.row l k))

/-- Both lists empty and every timer as `rt_timer_init` leaves it. -/
structure TimersInit (s : Timers) : Prop where
  row : ∀ l k, s.row l k = []
  timer : ∀ t, ∃ time periodic softTimer, s.timer t = timerInit time periodic softTimer

/-- The rows of both lists are nested and hold each timer at most once, in its own list. -/
structure RowsOk (cfg : SkipListConfig) (s : Timers) : Prop where
  nested : ∀ l, NestedRows cfg.level (s.row l)
  nodup : ∀ l, (s.bottom cfg l).Nodup
  own : ∀ l, ∀ t ∈ s.bottom cfg l, listOf (s.timer t) = l

section
variable {cfg : SkipListConfig} {s s' : Timers} {t u : TimerId} {l : TimerList} {k : Nat}
  {f : Timer → Timer} {b : Bool} {cmd : TimerCtrl} {arg : Tick}

@[simp] theorem Timers.set_self : (s.set t f).timer t = f (s.timer t) := Function.update_self ..

@[simp] theorem Timers.set_of_ne (h : u ≠ t) : (s.set t f).timer u = s.timer u :=
  Function.update_of_ne h ..

@[simp] theorem Timers.set_row : (s.set t f).row = s.row := rfl

@[simp] theorem Timers.set_tick : (s.set t f).tick = s.tick := rfl

@[simp] theorem timerRemove_timer : (timerRemove s t).timer = s.timer := rfl

@[simp] theorem timerRemove_tick : (timerRemove s t).tick = s.tick := rfl

@[simp] theorem mem_timerRemove : u ∈ (timerRemove s t).row l k ↔ u ∈ s.row l k ∧ u ≠ t := by
  simp [timerRemove]

@[simp] theorem setActivated_row : (setActivated s t b).row = s.row := rfl

@[simp] theorem setActivated_tick : (setActivated s t b).tick = s.tick := rfl

theorem setActivated_activated :
    ((setActivated s t b).timer u).activated = if u = t then b else (s.timer u).activated := by
  by_cases h : u = t
  · subst h
    simp [setActivated]
  · simp [setActivated, h]

/-- `f` leaves the bit that chooses the list as it is. -/
theorem listOf_set (hf : ∀ x, (f x).softTimer = x.softTimer) :
    listOf ((s.set t f).timer u) = listOf (s.timer u) := by
  by_cases h : u = t
  · subst h
    simp [listOf, hf]
  · simp [h]

theorem RowsOk.of_row (h : RowsOk cfg s) (hrow : s'.row = s.row)
    (hlist : ∀ u, listOf (s'.timer u) = listOf (s.timer u)) : RowsOk cfg s' := by
  refine ⟨fun l => hrow ▸ h.nested l, fun l => ?_, fun l u hu => ?_⟩
  · simpa [Timers.bottom, hrow] using h.nodup l
  · rw [hlist]
    exact h.own l u (by simpa [Timers.bottom, hrow] using hu)

theorem RowsOk.set (h : RowsOk cfg s) (hf : ∀ x, (f x).softTimer = x.softTimer) :
    RowsOk cfg (s.set t f) := h.of_row rfl fun _ => listOf_set hf

theorem RowsOk.timerRemove (h : RowsOk cfg s) : RowsOk cfg (timerRemove s t) :=
  ⟨fun l k hk => (h.nested l k hk).filter _, fun l => (h.nodup l).filter _,
    fun l u hu => h.own l u (List.mem_of_mem_filter hu)⟩

theorem RowsOk.mem_bottom (h : RowsOk cfg s) (hk : k < cfg.level) (ht : t ∈ s.row l k) :
    t ∈ s.bottom cfg l := ((h.nested l).sublist_bottom hk).subset ht

theorem RowsOk.linked_iff (h : RowsOk cfg s) :
    TimerLinked cfg s t ↔ t ∈ s.bottom cfg (listOf (s.timer t)) := by
  constructor
  · rintro ⟨l, k, hk, ht⟩
    have hb := h.mem_bottom hk ht
    rwa [h.own l t hb]
  · exact fun ht => ⟨_, _, Nat.sub_one_lt cfg.levelPos.ne', ht⟩

theorem linked_timerRemove : TimerLinked cfg (timerRemove s t) u ↔ TimerLinked cfg s u ∧ u ≠ t := by
  constructor
  · rintro ⟨l, k, hk, hu⟩
    rw [mem_timerRemove] at hu
    exact ⟨⟨l, k, hk, hu.1⟩, hu.2⟩
  · rintro ⟨⟨l, k, hk, hu⟩, hne⟩
    exact ⟨l, k, hk, mem_timerRemove.mpr ⟨hu, hne⟩⟩

theorem linked_congr (hrow : s'.row = s.row) : TimerLinked cfg s' u ↔ TimerLinked cfg s u := by
  simp [TimerLinked, hrow]

theorem TimersInit.rowsOk (h : TimersInit s) : RowsOk cfg s := by
  refine ⟨fun l k _ => ?_, fun l => ?_, fun l t ht => ?_⟩
  · simp [h.row]
  · simp [Timers.bottom, h.row]
  · simp [Timers.bottom, h.row] at ht

theorem TimersInit.not_linked (h : TimersInit s) : ¬TimerLinked cfg s t := by
  rintro ⟨l, k, -, ht⟩
  simp [h.row] at ht

theorem TimersInit.not_activated (h : TimersInit s) : (s.timer t).activated = false := by
  obtain ⟨time, periodic, softTimer, ht⟩ := h.timer t
  rw [ht, timerInit]

end

end RTThread
