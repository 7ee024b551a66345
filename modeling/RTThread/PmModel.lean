import RTThread.Runs

namespace RTThread

/-- A registered device; `ops` is known by which of its functions are not null. -/
structure PmDevice where
  device : Nat
  suspend : Bool
  resume : Bool
  frequencyChange : Bool
deriving DecidableEq, Repr

/-- The macros of the configuration and what `rt_system_pm_init` is given. -/
structure PmConfig where
  runModeCount : Nat
  sleepModeCount : Nat
  minEnterSleepTick : Nat
  timerMask : Nat
  devices : List PmDevice
  nodup : (devices.map PmDevice.device).Nodup

def PmConfig.sleepModeStart (cfg : PmConfig) : Nat := cfg.runModeCount

def PmConfig.modeCount (cfg : PmConfig) : Nat := cfg.runModeCount + cfg.sleepModeCount

/-- Calls of the power management operations and of the devices, and the ticks of the system. -/
inductive PmEvent where
  | suspend (device : Nat)
  | resume (device : Nat)
  | frequencyChange (device : Option Nat)
  | enter (mode : Nat)
  | exit (mode : Nat)
  | timerStart (timeout : Nat)
  | timerStop (elapsed : Nat)
  | osTick
deriving DecidableEq, Repr

/-- Where the idle thread stands in `rt_pm_enter`: outside, between the two scans with interrupts
enabled, or behind the call of `ops->enter` and before its `rt_pm_exit`. -/
inductive PmPlace where
  | outside
  | scanned
  | asleep
deriving DecidableEq, Repr

/-- `struct rt_pm`, the tick of the system, and the events so far, newest first. -/
structure PmState where
  modes : Nat → Nat
  currentMode : Nat
  exitCount : Nat
  tick : Nat
  place : PmPlace
  log : List PmEvent

/-- One of the three loops over the devices. -/
def pmDeviceCall (has : PmDevice → Bool) (event : Nat → PmEvent) (devices : List PmDevice)
    (log : List PmEvent) : List PmEvent :=
  devices.foldl (fun log d => if has d then event d.device :: log else log) log

def pmDeviceSuspend : List PmDevice → List PmEvent → List PmEvent :=
  pmDeviceCall PmDevice.suspend .suspend

def pmDeviceResume : List PmDevice → List PmEvent → List PmEvent :=
  pmDeviceCall PmDevice.resume .resume

def pmDeviceFrequencyChange : List PmDevice → List PmEvent → List PmEvent :=
  pmDeviceCall PmDevice.frequencyChange fun d => .frequencyChange (some d)

def PmState.event (s : PmState) (e : PmEvent) : PmState := { s with log := e :: s.log }

section
variable (cfg : PmConfig)

def hasTimer (mode : Nat) : Bool := cfg.timerMask.testBit mode

/-- `pm->ops->enter` of a run mode; the frequency changes only where there are several. -/
def enterRunMode (s : PmState) : PmState :=
  let s := s.event (.enter s.currentMode)
  if 1 < cfg.runModeCount then
    { s with log := pmDeviceFrequencyChange cfg.devices (.frequencyChange none :: s.log) }
  else s

/-- The first requested mode of `count` modes from `start` on. -/
def firstMode (modes : Nat → Nat) (start count : Nat) : Option Nat :=
  (List.range' start count).find? fun index => modes index != 0

/-- `rt_pm_enter` up to the end of the check of the run modes. -/
def pmCheckRunModes (s : PmState) : PmState :=
  match firstMode s.modes 0 cfg.runModeCount with
  | some index =>
    if s.currentMode < index then
      enterRunMode cfg { s.event (.exit s.currentMode) with currentMode := index }
    else s
  | none => { s with place := .scanned }

/-- `timeout_tick` where the PM timer is about to start. -/
def pmTimeout (tick nextTimeout : Nat) : Nat :=
  if nextTimeout = 2 ^ 32 - 1 then nextTimeout else (nextTimeout + 2 ^ 32 - tick) % 2 ^ 32

/-- The return in front of `timer_start`. -/
def tooShort (tick nextTimeout : Nat) : Bool :=
  nextTimeout != 2 ^ 32 - 1 && decide (pmTimeout tick nextTimeout < cfg.minEnterSleepTick)

/-- The check of the sleep modes down to `ops->enter`; `nextTimeout` is the answer of
`rt_timer_next_timeout_tick`. -/
def pmCheckSleepModes (s : PmState) (nextTimeout : Nat) : PmState :=
  match firstMode s.modes cfg.sleepModeStart cfg.sleepModeCount with
  | some index =>
    let s := if s.currentMode < cfg.sleepModeStart then s.event (.exit s.currentMode) else s
    let s := { s with currentMode := index, exitCount := 1 }
    let s := { s with log := pmDeviceSuspend cfg.devices s.log }
    if hasTimer cfg index then
      if tooShort cfg s.tick nextTimeout then { s with place := .outside }
      else
        { (s.event (.timerStart (pmTimeout s.tick nextTimeout))).event (.enter index) with
          place := .asleep }
    else { s.event (.enter index) with place := .asleep }
  | none => { s with place := .outside }

/-- `rt_pm_exit`; `elapsed` is what `timer_get_tick` answers. -/
def rtPmExit (s : PmState) (elapsed : Nat) : PmState :=
  if s.exitCount ≠ 0 then
    let s := { s with exitCount := 0 }
    if cfg.sleepModeStart ≤ s.currentMode then
      let s := if hasTimer cfg s.currentMode then
          { s.event (.timerStop elapsed) with tick := (s.tick + elapsed) % 2 ^ 32 }
        else s
      let s := s.event (.exit s.currentMode)
      { s with log := pmDeviceResume cfg.devices s.log }
    else s
  else s

/-- The counters are 8 bits wide. -/
def rtPmRequest (s : PmState) (mode : Nat) : PmState :=
  if cfg.modeCount ≤ mode then s
  else
    let s := { s with modes := Function.update s.modes mode ((s.modes mode + 1) % 256) }
    if mode < s.currentMode then
      let s :=
        if s.currentMode < cfg.sleepModeStart then s.event (.exit s.currentMode)
        else if s.exitCount ≠ 0 then { s.event (.exit s.currentMode) with exitCount := 0 }
        else s
      let s := { s with currentMode := mode }
      if mode < cfg.sleepModeStart then enterRunMode cfg s else s
    else s

def rtPmRelease (s : PmState) (mode : Nat) : PmState :=
  if cfg.modeCount ≤ mode then s
  else if 0 < s.modes mode then { s with modes := Function.update s.modes mode (s.modes mode - 1) }
  else s

/-- Sections with interrupts disabled. `enter`, `sleep` and `wake` are those of `rt_pm_enter`, in
the idle thread; `exit` is a call of `rt_pm_exit` by anybody. -/
inductive PmAction where
  | request (mode : Nat)
  | release (mode : Nat)
  | enter
  | sleep (nextTimeout : Nat)
  | wake (elapsed : Nat)
  | exit (elapsed : Nat)
  | osTick
deriving DecidableEq, Repr

def pmStep (s : PmState) : PmAction → Option PmState
  | .request mode => some (rtPmRequest cfg s mode)
  | .release mode => some (rtPmRelease cfg s mode)
  | .enter => if s.place = .outside then some (pmCheckRunModes cfg s) else none
  | .sleep nextTimeout =>
    if s.place = .scanned then some (pmCheckSleepModes cfg s nextTimeout) else none
  | .wake elapsed =>
    if s.place = .asleep then some { rtPmExit cfg s elapsed with place := .outside } else none
  | .exit elapsed => some (rtPmExit cfg s elapsed)
  | .osTick => some { s.event .osTick with tick := (s.tick + 1) % 2 ^ 32 }

/-- After `rt_memset` and the assignment of the default mode in `rt_system_pm_init`, at some tick. -/
def pmCleared (runModeDefault tick : Nat) : PmState where
  modes _ := 0
  currentMode := runModeDefault
  exitCount := 0
  tick := tick
  place := .outside
  log := []

/-- `rt_system_pm_init`, for the requests it makes: the default modes and the last one. -/
def rtSystemPmInit (runModeDefault : Nat) (sleepModeDefault : Option Nat) (tick : Nat) : PmState :=
  let s := rtPmRequest cfg (pmCleared runModeDefault tick) runModeDefault
  let s := match sleepModeDefault with
    | some mode => rtPmRequest cfg s mode
    | none => s
  rtPmRequest cfg s (cfg.modeCount - 1)

end

theorem firstMode_spec {modes : Nat → Nat} {start count index : Nat}
    (h : firstMode modes start count = some index) :
    start ≤ index ∧ index < start + count ∧ modes index ≠ 0 ∧
      ∀ m, start ≤ m → m < index → modes m = 0 := by
  obtain ⟨hne, l1, l2, hsplit, hfirst⟩ := List.find?_eq_some_iff_append.mp h
  have hmem : index ∈ List.range' start count := by
    rw [hsplit]
    simp
  obtain ⟨hle, hlt⟩ := List.mem_range'_1.mp hmem
  refine ⟨hle, hlt, by simpa using hne, fun m hm hbefore => ?_⟩
  have hin : m ∈ List.range' start count := List.mem_range'_1.mpr ⟨hm, by omega⟩
  have hsorted : (List.range' start count).Pairwise (· < ·) := List.pairwise_lt_range'
  rw [hsplit] at hin hsorted
  rcases List.mem_append.mp hin with hin | hin
  · simpa using hfirst m hin
  · rcases List.mem_cons.mp hin with rfl | hin
    · omega
    · have hlater := (List.pairwise_cons.mp (List.pairwise_append.mp hsorted).2.1).1 m hin
      omega

theorem firstMode_none {modes : Nat → Nat} {start count : Nat} :
    firstMode modes start count = none ↔ ∀ m, start ≤ m → m < start + count → modes m = 0 := by
  unfold firstMode
  simp [List.find?_eq_none, List.mem_range'_1]

end RTThread
