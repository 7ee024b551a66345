import RTThread.PmModel
import RTThread.Toggles

namespace RTThread

def suspends (device : Nat) (e : PmEvent) : Bool := e == .suspend device

def resumes (device : Nat) (e : PmEvent) : Bool := e == .resume device

def timerStarts : PmEvent → Bool
  | .timerStart _ => true
  | _ => false

def timerStops : PmEvent → Bool
  | .timerStop _ => true
  | _ => false

/-- The ticks that have passed: those of the system timer, and what each stopped PM timer counted. -/
def elapsedTicks : List PmEvent → Nat
  | [] => 0
  | .osTick :: log => elapsedTicks log + 1
  | .timerStop elapsed :: log => elapsedTicks log + elapsed
  | _ :: log => elapsedTicks log

section
variable (cfg : PmConfig)

/-- The promise to the devices and the tick of the system, which was `tick` at first. -/
structure PmDevicesRight (tick : Nat) (s : PmState) : Prop where
  devices : ∀ d ∈ cfg.devices, d.suspend = true → d.resume = true →
    Alternates (suspends d.device) (resumes d.device) s.log ∧
      (s.place = .outside → isOn (suspends d.device) (resumes d.device) s.log = false)
  timer : Alternates timerStarts timerStops s.log ∧
    (s.place = .outside → isOn timerStarts timerStops s.log = false)
  tick : s.tick = (tick + elapsedTicks s.log) % 2 ^ 32

/-- No request raises the mode while the devices are suspended, and a sleep with a timer is not
given up as too short. -/
def KeepsAsleep (s : PmState) : PmAction → Prop
  | .request mode =>
    ¬(s.exitCount ≠ 0 ∧ cfg.sleepModeStart ≤ s.currentMode ∧ mode < s.currentMode)
  | .sleep nextTimeout =>
    ∀ index ∈ firstMode s.modes cfg.sleepModeStart cfg.sleepModeCount,
      hasTimer cfg index = true → tooShort cfg s.tick nextTimeout = false
  | _ => True

instance decidableKeepsAsleep : DecidableRel (KeepsAsleep cfg) := fun s a =>
  match a with
  | .request mode => inferInstanceAs
      (Decidable ¬(s.exitCount ≠ 0 ∧ cfg.sleepModeStart ≤ s.currentMode ∧ mode < s.currentMode))
  | .sleep nextTimeout => inferInstanceAs
      (Decidable (∀ index ∈ firstMode s.modes cfg.sleepModeStart cfg.sleepModeCount,
        hasTimer cfg index = true → tooShort cfg s.tick nextTimeout = false))
  | .release _ | .enter | .wake _ | .exit _ | .osTick => isTrue trivial

/-- The devices are suspended, and the timer runs if the mode has one, exactly while the exit is
pending. -/
structure PmDevicesInv (tick : Nat) (s : PmState) : Prop where
  devices : ∀ d ∈ cfg.devices, d.suspend = true → d.resume = true →
    Alternates (suspends d.device) (resumes d.device) s.log ∧
      isOn (suspends d.device) (resumes d.device) s.log = decide (s.exitCount ≠ 0)
  timer : Alternates timerStarts timerStops s.log ∧
    isOn timerStarts timerStops s.log = (decide (s.exitCount ≠ 0) && hasTimer cfg s.currentMode)
  tick : s.tick = (tick + elapsedTicks s.log) % 2 ^ 32
  asleep : s.exitCount ≠ 0 → s.place = .asleep ∧ cfg.sleepModeStart ≤ s.currentMode

/-- A start of the system: the default run mode is one of the run modes. -/
def PmStart (tick : Nat) (s : PmState) : Prop :=
  tick < 2 ^ 32 ∧ ∃ runModeDefault < cfg.runModeCount, ∃ sleepModeDefault,
    s = rtSystemPmInit cfg runModeDefault sleepModeDefault tick

end

/-- Events that concern neither the devices' sleep nor the timer nor the tick. -/
def PmEvent.neutral : PmEvent → Bool
  | .frequencyChange _ | .enter _ | .exit _ => true
  | _ => false

section
variable {cfg : PmConfig} {s s' : PmState} {tick mode : Nat} {log es : List PmEvent}
  {d : PmDevice}

theorem pmDeviceCall_eq (has : PmDevice → Bool) (event : Nat → PmEvent) (devices : List PmDevice) :
    pmDeviceCall has event devices log =
      ((devices.filter has).map fun d => event d.device).reverse ++ log := by
  unfold pmDeviceCall
  induction devices generalizing log with
  | nil => rfl
  | cons d devices ih =>
    rw [List.foldl_cons, ih]
    by_cases hd : has d = true <;> simp [hd]

/-- The device's own call stands among calls of other devices. -/
theorem pmDeviceCall_split {has : PmDevice → Bool} (event : Nat → PmEvent) {devices : List PmDevice}
    (log : List PmEvent)
    (hnodup : (devices.map PmDevice.device).Nodup) (hd : d ∈ devices) (hhas : has d = true) :
    ∃ es es', pmDeviceCall has event devices log = es ++ event d.device :: es' ++ log ∧
      ∀ e ∈ es ++ es', ∃ x, x ≠ d.device ∧ e = event x := by
  have hids : ((devices.filter has).map PmDevice.device).reverse.Nodup :=
    List.nodup_reverse.mpr (hnodup.sublist (List.filter_sublist.map _))
  have hmem : d.device ∈ ((devices.filter has).map PmDevice.device).reverse := by
    rw [List.mem_reverse]
    exact List.mem_map_of_mem (List.mem_filter.mpr ⟨hd, hhas⟩)
  obtain ⟨l1, l2, hsplit⟩ := List.append_of_mem hmem
  rw [hsplit] at hids
  refine ⟨l1.map event, l2.map event, ?_, fun e he => ?_⟩
  · have hmap : ((devices.filter has).map fun d => event d.device).reverse =
        ((devices.filter has).map PmDevice.device).reverse.map event := by
      rw [List.map_reverse, List.map_map]
      rfl
    rw [pmDeviceCall_eq, hmap, hsplit]
    simp
  · rw [← List.map_append, List.mem_map] at he
    obtain ⟨x, hx, rfl⟩ := he
    refine ⟨x, ?_, rfl⟩
    rintro rfl
    rw [List.nodup_middle, List.nodup_cons] at hids
    exact hids.1 hx

theorem elapsedTicks_append (h : ∀ e ∈ es, e ≠ .osTick ∧ timerStops e = false) :
    elapsedTicks (es ++ log) = elapsedTicks log := by
  induction es with
  | nil => rfl
  | cons e es ih =>
    obtain ⟨htick, hstop⟩ := h e (by simp)
    have hrest := ih fun e' he' => h e' (by simp [he'])
    cases e <;> simp_all [elapsedTicks, timerStops]

theorem neutral_events (h : ∀ e ∈ es, e.neutral = true) :
    (∀ x, ∀ e ∈ es, suspends x e = false ∧ resumes x e = false) ∧
      (∀ e ∈ es, timerStarts e = false ∧ timerStops e = false) ∧
      ∀ e ∈ es, e ≠ .osTick ∧ timerStops e = false := by
  have hall : ∀ e ∈ es, (∀ x, suspends x e = false ∧ resumes x e = false) ∧
      timerStarts e = false ∧ timerStops e = false ∧ e ≠ .osTick := by
    intro e he
    have hneutral := h e he
    cases e <;> simp_all [PmEvent.neutral, suspends, resumes, timerStarts, timerStops]
  exact ⟨fun x e he => (hall e he).1 x, fun e he => ⟨(hall e he).2.1, (hall e he).2.2.1⟩,
    fun e he => ⟨(hall e he).2.2.2, (hall e he).2.2.1⟩⟩

/-- Steps that only switch modes while nothing sleeps. -/
theorem PmDevicesInv.neutral (h : PmDevicesInv cfg tick s) (es : List PmEvent) (hlog : s'.log = es ++ s.log)
    (hes : ∀ e ∈ es, e.neutral = true) (htick : s'.tick = s.tick) (hexit : s'.exitCount = s.exitCount)
    (hasleep : s.exitCount ≠ 0 → s'.currentMode = s.currentMode ∧ s'.place = s.place) :
    PmDevicesInv cfg tick s' := by
  obtain ⟨hdevice, htimer, helapsed⟩ := neutral_events hes
  refine ⟨fun d hd hsuspend hresume => ?_, ?_, ?_, fun hne => ?_⟩
  · rw [hlog, alternates_neutral (hdevice _), isOn_neutral (hdevice _), hexit]
    exact h.devices d hd hsuspend hresume
  · rw [hlog, alternates_neutral htimer, isOn_neutral htimer, hexit]
    refine ⟨h.timer.1, h.timer.2.trans ?_⟩
    by_cases hzero : s.exitCount = 0
    · simp [hzero]
    · rw [(hasleep hzero).1]
  · rw [htick, hlog, elapsedTicks_append helapsed]
    exact h.tick
  · rw [hexit] at hne
    rw [(hasleep hne).1, (hasleep hne).2]
    exact h.asleep hne

theorem enterRunMode_spec (cfg : PmConfig) (s : PmState) : ∃ es, (∀ e ∈ es, e.neutral = true) ∧
    enterRunMode cfg s = { s with log := es ++ s.log } := by
  unfold enterRunMode
  simp only
  split
  · refine ⟨((cfg.devices.filter PmDevice.frequencyChange).map fun d =>
      PmEvent.frequencyChange (some d.device)).reverse ++
        [.frequencyChange none, .enter s.currentMode], fun e he => ?_, ?_⟩
    · simp only [List.mem_append, List.mem_reverse, List.mem_map, List.mem_cons, List.not_mem_nil,
        or_false] at he
      rcases he with ⟨d, -, rfl⟩ | rfl | rfl <;> rfl
    · rw [pmDeviceFrequencyChange, pmDeviceCall_eq]
      simp [PmState.event]
  · exact ⟨[.enter s.currentMode], by simp [PmEvent.neutral], rfl⟩

/-- A request that leaves the devices alone. -/
theorem rtPmRequest_spec (hkeeps : KeepsAsleep cfg s (.request mode))
    (hasleep : s.exitCount ≠ 0 → cfg.sleepModeStart ≤ s.currentMode) :
    ∃ es modes mode', (∀ e ∈ es, e.neutral = true) ∧ (s.exitCount ≠ 0 → mode' = s.currentMode) ∧
      rtPmRequest cfg s mode = { s with modes := modes, currentMode := mode', log := es ++ s.log } := by
  unfold rtPmRequest
  split
  · exact ⟨[], s.modes, s.currentMode, by simp, fun _ => rfl, rfl⟩
  · generalize Function.update s.modes mode ((s.modes mode + 1) % 256) = modes
    simp only
    split
    · next hmode =>
      -- at a sleep mode there is no exit left to make
      obtain ⟨es, hes, hexit⟩ : ∃ es, (∀ e ∈ es, PmEvent.neutral e = true) ∧
          (if s.currentMode < cfg.sleepModeStart then
              PmState.event { s with modes := modes } (.exit s.currentMode)
            else if s.exitCount ≠ 0 then
              { PmState.event { s with modes := modes } (.exit s.currentMode) with exitCount := 0 }
            else { s with modes := modes }) = { s with modes := modes, log := es ++ s.log } := by
        split
        · exact ⟨[.exit s.currentMode], by simp [PmEvent.neutral], rfl⟩
        · next hsleep =>
          rw [if_neg fun hne => hkeeps ⟨hne, Nat.le_of_not_lt hsleep, hmode⟩]
          exact ⟨[], by simp, rfl⟩
      have hzero : s.exitCount ≠ 0 → mode = s.currentMode := fun hne =>
        absurd ⟨hne, hasleep hne, hmode⟩ hkeeps
      rw [hexit]
      split
      · obtain ⟨es', hes', henter⟩ := enterRunMode_spec cfg
          { s with modes := modes, log := es ++ s.log, currentMode := mode }
        rw [henter]
        refine ⟨es' ++ es, modes, mode, fun e he => ?_, hzero, by simp⟩
        exact (List.mem_append.mp he).elim (hes' e) (hes e)
      · exact ⟨es, modes, mode, hes, hzero, rfl⟩
    · exact ⟨[], modes, s.currentMode, by simp, fun _ => rfl, rfl⟩

theorem rtPmRequest_devices (h : PmDevicesInv cfg tick s)
    (hkeeps : KeepsAsleep cfg s (.request mode)) : PmDevicesInv cfg tick (rtPmRequest cfg s mode) := by
  obtain ⟨es, modes, mode', hes, hmode, heq⟩ :=
    rtPmRequest_spec hkeeps fun hne => (h.asleep hne).2
  rw [heq]
  exact h.neutral es rfl hes rfl rfl fun hne => ⟨hmode hne, rfl⟩

theorem pmCheckRunModes_devices (h : PmDevicesInv cfg tick s) (hplace : s.place = .outside) :
    PmDevicesInv cfg tick (pmCheckRunModes cfg s) := by
  have hzero : ¬s.exitCount ≠ 0 := fun hne => by simpa [hplace] using (h.asleep hne).1
  unfold pmCheckRunModes
  split
  · next index _ =>
    split
    · obtain ⟨es, hes, henter⟩ := enterRunMode_spec cfg
        { s.event (.exit s.currentMode) with currentMode := index }
      rw [henter]
      exact h.neutral (es ++ [.exit s.currentMode]) (by simp [PmState.event])
        (fun e he => by
          rcases List.mem_append.mp he with he | he
          · exact hes e he
          · rw [List.mem_singleton.mp he]
            rfl) rfl rfl fun hne => absurd hne hzero
    · exact h
  · exact h.neutral [] rfl (by simp) rfl rfl fun hne => absurd hne hzero

/-- The calls of the devices do not concern the timer or the tick. -/
theorem pmDeviceCall_timer (has : PmDevice → Bool) {event : Nat → PmEvent} (devices : List PmDevice)
    (log : List PmEvent)
    (hevent : ∀ x, timerStarts (event x) = false ∧ timerStops (event x) = false ∧ event x ≠ .osTick) :
    (Alternates timerStarts timerStops (pmDeviceCall has event devices log) ↔
      Alternates timerStarts timerStops log) ∧
    isOn timerStarts timerStops (pmDeviceCall has event devices log) =
      isOn timerStarts timerStops log ∧
    elapsedTicks (pmDeviceCall has event devices log) = elapsedTicks log := by
  have hall : ∀ e ∈ ((devices.filter has).map fun d => event d.device).reverse,
      timerStarts e = false ∧ timerStops e = false ∧ e ≠ .osTick := by
    intro e he
    rw [List.mem_reverse, List.mem_map] at he
    obtain ⟨d, -, rfl⟩ := he
    exact hevent d.device
  have htimer := fun e he => And.intro (hall e he).1 (hall e he).2.1
  rw [pmDeviceCall_eq]
  exact ⟨alternates_neutral htimer, isOn_neutral htimer,
    elapsedTicks_append fun e he => ⟨(hall e he).2.2, (hall e he).2.1⟩⟩

theorem pmDeviceSuspend_device (hd : d ∈ cfg.devices) (hsuspend : d.suspend = true)
    (halt : Alternates (suspends d.device) (resumes d.device) log)
    (hoff : isOn (suspends d.device) (resumes d.device) log = false) :
    Alternates (suspends d.device) (resumes d.device) (pmDeviceSuspend cfg.devices log) ∧
      isOn (suspends d.device) (resumes d.device) (pmDeviceSuspend cfg.devices log) = true := by
  obtain ⟨es, es', heq, hother⟩ := pmDeviceCall_split .suspend log cfg.nodup hd hsuspend
  have hneutral : ∀ e ∈ es ++ es', suspends d.device e = false ∧ resumes d.device e = false := by
    intro e he
    obtain ⟨x, hx, rfl⟩ := hother e he
    simp [suspends, resumes, hx]
  rw [pmDeviceSuspend, heq]
  exact halt.turnOn hoff (by simp [suspends, resumes])
    (fun e he => hneutral e (List.mem_append_left _ he))
    fun e he => hneutral e (List.mem_append_right _ he)

theorem pmDeviceResume_device (hd : d ∈ cfg.devices) (hresume : d.resume = true)
    (halt : Alternates (suspends d.device) (resumes d.device) log)
    (hon : isOn (suspends d.device) (resumes d.device) log = true) :
    Alternates (suspends d.device) (resumes d.device) (pmDeviceResume cfg.devices log) ∧
      isOn (suspends d.device) (resumes d.device) (pmDeviceResume cfg.devices log) = false := by
  obtain ⟨es, es', heq, hother⟩ := pmDeviceCall_split .resume log cfg.nodup hd hresume
  have hneutral : ∀ e ∈ es ++ es', suspends d.device e = false ∧ resumes d.device e = false := by
    intro e he
    obtain ⟨x, hx, rfl⟩ := hother e he
    simp [suspends, resumes, hx]
  rw [pmDeviceResume, heq]
  exact halt.turnOff hon (by simp [suspends, resumes])
    (fun e he => hneutral e (List.mem_append_left _ he))
    fun e he => hneutral e (List.mem_append_right _ he)

/-- The section of `rt_pm_exit` that is not skipped. -/
theorem rtPmExit_asleep (elapsed : Nat) (hne : s.exitCount ≠ 0) (hmode : cfg.sleepModeStart ≤ s.currentMode) :
    ∃ stop, stop = (if hasTimer cfg s.currentMode then [PmEvent.timerStop elapsed] else []) ∧
      rtPmExit cfg s elapsed = { s with
        exitCount := 0
        tick := if hasTimer cfg s.currentMode then (s.tick + elapsed) % 2 ^ 32 else s.tick
        log := pmDeviceResume cfg.devices (.exit s.currentMode :: (stop ++ s.log)) } := by
  refine ⟨_, rfl, ?_⟩
  unfold rtPmExit
  simp only [if_pos hne, if_pos hmode]
  split <;> rfl

theorem rtPmExit_devices (h : PmDevicesInv cfg tick s) (elapsed : Nat) :
    PmDevicesInv cfg tick (rtPmExit cfg s elapsed) ∧ (rtPmExit cfg s elapsed).exitCount = 0 := by
  by_cases hne : s.exitCount ≠ 0
  · obtain ⟨stop, hstop, heq⟩ := rtPmExit_asleep elapsed hne (h.asleep hne).2
    have hresumes : ∀ x, timerStarts (.resume x) = false ∧ timerStops (.resume x) = false ∧
        PmEvent.resume x ≠ .osTick := by simp [timerStarts, timerStops]
    rw [heq]
    refine ⟨⟨fun d hd hsuspend hresume => ?_, ?_, ?_, fun hexit => absurd rfl hexit⟩, rfl⟩
    · have hneutral : ∀ e ∈ PmEvent.exit s.currentMode :: stop,
          suspends d.device e = false ∧ resumes d.device e = false := by
        intro e he
        rw [hstop] at he
        split at he <;> simp at he
        · rcases he with rfl | rfl <;> exact ⟨rfl, rfl⟩
        · rw [he]
          exact ⟨rfl, rfl⟩
      obtain ⟨halt, hon⟩ := h.devices d hd hsuspend hresume
      rw [← List.cons_append]
      exact pmDeviceResume_device hd hresume ((alternates_neutral hneutral).mpr halt)
        ((isOn_neutral hneutral).trans (hon.trans (decide_eq_true hne)))
    · obtain ⟨halt, hon, -⟩ := pmDeviceCall_timer PmDevice.resume cfg.devices
        (.exit s.currentMode :: (stop ++ s.log)) hresumes
      rw [pmDeviceResume, halt, hon, hstop]
      have htimer := h.timer
      rw [decide_eq_true hne, Bool.true_and] at htimer
      by_cases hhas : hasTimer cfg s.currentMode = true
      · simpa [hhas, Alternates, isOn, timerStarts, timerStops, and_comm] using htimer
      · simpa [hhas, Alternates, isOn, timerStarts, timerStops] using htimer
    · obtain ⟨-, -, helapsed⟩ := pmDeviceCall_timer PmDevice.resume cfg.devices
        (.exit s.currentMode :: (stop ++ s.log)) hresumes
      rw [pmDeviceResume, helapsed, hstop]
      have htick := h.tick
      by_cases hhas : hasTimer cfg s.currentMode = true
      · simp only [hhas, if_true, elapsedTicks, List.cons_append, List.nil_append]
        omega
      · simpa [hhas, elapsedTicks] using htick
  · unfold rtPmExit
    rw [if_neg hne]
    exact ⟨h, not_not.mp hne⟩

/-- The section of `rt_pm_enter` that suspends the devices, where it is not cut short. -/
theorem pmCheckSleepModes_some {index nextTimeout : Nat}
    (hindex : firstMode s.modes cfg.sleepModeStart cfg.sleepModeCount = some index)
    (hlong : hasTimer cfg index = true → tooShort cfg s.tick nextTimeout = false) :
    ∃ left start, (left = [] ∨ left = [PmEvent.exit s.currentMode]) ∧
      start = (if hasTimer cfg index then [PmEvent.timerStart (pmTimeout s.tick nextTimeout)] else []) ∧
      pmCheckSleepModes cfg s nextTimeout = { s with
        currentMode := index
        exitCount := 1
        place := .asleep
        log := .enter index :: (start ++ pmDeviceSuspend cfg.devices (left ++ s.log)) } := by
  refine ⟨if s.currentMode < cfg.sleepModeStart then [.exit s.currentMode] else [], _, ?_, rfl, ?_⟩
  · split <;> simp
  · unfold pmCheckSleepModes
    simp only [hindex]
    by_cases hrun : s.currentMode < cfg.sleepModeStart <;> by_cases hhas : hasTimer cfg index = true <;>
      simp [hrun, hhas, PmState.event, hlong]

theorem pmCheckSleepModes_devices {nextTimeout : Nat} (h : PmDevicesInv cfg tick s)
    (hplace : s.place = .scanned) (hkeeps : KeepsAsleep cfg s (.sleep nextTimeout)) :
    PmDevicesInv cfg tick (pmCheckSleepModes cfg s nextTimeout) := by
  have hzero : ¬s.exitCount ≠ 0 := fun hne => by simpa [hplace] using (h.asleep hne).1
  have hsuspends : ∀ x, timerStarts (.suspend x) = false ∧ timerStops (.suspend x) = false ∧
      PmEvent.suspend x ≠ .osTick := by simp [timerStarts, timerStops]
  have hdevices := h.devices
  have htimer := h.timer
  simp only [hzero, decide_false, Bool.false_and] at hdevices htimer
  cases hindex : firstMode s.modes cfg.sleepModeStart cfg.sleepModeCount with
  | none =>
    have heq : pmCheckSleepModes cfg s nextTimeout = { s with place := .outside } := by
      simp [pmCheckSleepModes, hindex]
    rw [heq]
    exact h.neutral [] rfl (by simp) rfl rfl fun hne => absurd hne hzero
  | some index =>
    obtain ⟨left, start, hleft, hstart, heq⟩ := pmCheckSleepModes_some hindex (hkeeps index hindex)
    have hneutral : ∀ e ∈ left, e.neutral = true := by rcases hleft with rfl | rfl <;> simp [PmEvent.neutral]
    obtain ⟨hdeviceLeft, htimerLeft, helapsedLeft⟩ := neutral_events hneutral
    obtain ⟨halt, hon, helapsed⟩ := pmDeviceCall_timer PmDevice.suspend cfg.devices (left ++ s.log)
      hsuspends
    rw [alternates_neutral htimerLeft] at halt
    rw [isOn_neutral htimerLeft] at hon
    rw [elapsedTicks_append helapsedLeft] at helapsed
    rw [heq]
    refine ⟨fun d hd hsuspend hresume => ?_, ?_, ?_, fun _ => ⟨rfl, (firstMode_spec hindex).1⟩⟩
    · have hafter : ∀ e ∈ PmEvent.enter index :: start,
          suspends d.device e = false ∧ resumes d.device e = false := by
        intro e he
        rw [hstart] at he
        split at he <;> simp at he
        · rcases he with rfl | rfl <;> exact ⟨rfl, rfl⟩
        · rw [he]
          exact ⟨rfl, rfl⟩
      obtain ⟨haltd, hond⟩ := hdevices d hd hsuspend hresume
      rw [← List.cons_append, alternates_neutral hafter, isOn_neutral hafter]
      exact pmDeviceSuspend_device hd hsuspend ((alternates_neutral (hdeviceLeft _)).mpr haltd)
        ((isOn_neutral (hdeviceLeft _)).trans hond)
    · rw [hstart, pmDeviceSuspend]
      by_cases hhas : hasTimer cfg index = true <;>
        simp [hhas, Alternates, isOn, timerStarts, timerStops, halt, hon, htimer]
    · rw [hstart, pmDeviceSuspend]
      by_cases hhas : hasTimer cfg index = true <;> simp [hhas, elapsedTicks, helapsed, h.tick]

theorem rtPmRelease_devices (h : PmDevicesInv cfg tick s) :
    PmDevicesInv cfg tick (rtPmRelease cfg s mode) := by
  unfold rtPmRelease
  split
  · exact h
  · split
    · exact h.neutral [] rfl (by simp) rfl rfl fun _ => ⟨rfl, rfl⟩
    · exact h

theorem pmStep_devices {a : PmAction} (h : PmDevicesInv cfg tick s) (hkeeps : KeepsAsleep cfg s a)
    (hs : pmStep cfg s a = some s') : PmDevicesInv cfg tick s' := by
  cases a with
  | request mode =>
    obtain rfl := Option.some.inj hs
    exact rtPmRequest_devices h hkeeps
  | release mode =>
    obtain rfl := Option.some.inj hs
    exact rtPmRelease_devices h
  | enter =>
    obtain ⟨hplace, hs⟩ := Option.ite_none_right_eq_some.mp hs
    obtain rfl := Option.some.inj hs
    exact pmCheckRunModes_devices h hplace
  | sleep nextTimeout =>
    obtain ⟨hplace, hs⟩ := Option.ite_none_right_eq_some.mp hs
    obtain rfl := Option.some.inj hs
    exact pmCheckSleepModes_devices h hplace hkeeps
  | wake elapsed =>
    obtain ⟨-, hs⟩ := Option.ite_none_right_eq_some.mp hs
    obtain rfl := Option.some.inj hs
    obtain ⟨hinv, hzero⟩ := rtPmExit_devices h elapsed
    exact hinv.neutral [] rfl (by simp) rfl rfl fun hne => absurd hzero hne
  | exit elapsed =>
    obtain rfl := Option.some.inj hs
    exact (rtPmExit_devices h elapsed).1
  | osTick =>
    obtain rfl := Option.some.inj hs
    refine ⟨fun d hd hsuspend hresume => ?_, ?_, ?_, h.asleep⟩
    · have hneutral : ∀ e ∈ [PmEvent.osTick], suspends d.device e = false ∧ resumes d.device e = false := by
        simp [suspends, resumes]
      exact ⟨(alternates_neutral hneutral).mpr (h.devices d hd hsuspend hresume).1,
        (isOn_neutral hneutral).trans (h.devices d hd hsuspend hresume).2⟩
    · have hneutral : ∀ e ∈ [PmEvent.osTick], timerStarts e = false ∧ timerStops e = false := by
        simp [timerStarts, timerStops]
      exact ⟨(alternates_neutral hneutral).mpr h.timer.1, (isOn_neutral hneutral).trans h.timer.2⟩
    · have htick := h.tick
      simp only [PmState.event, elapsedTicks]
      omega

theorem PmStart.devices (h : PmStart cfg tick s) : PmDevicesInv cfg tick s := by
  obtain ⟨hlt, runModeDefault, -, sleepModeDefault, rfl⟩ := h
  have hcleared : PmDevicesInv cfg tick (pmCleared runModeDefault tick) :=
    ⟨fun _ _ _ _ => ⟨trivial, rfl⟩, ⟨trivial, rfl⟩, (Nat.mod_eq_of_lt hlt).symm,
      fun hne => absurd rfl hne⟩
  -- nothing sleeps yet, so every request leaves the devices alone
  have hrequest : ∀ s mode, PmDevicesInv cfg tick s ∧ s.exitCount = 0 →
      PmDevicesInv cfg tick (rtPmRequest cfg s mode) ∧ (rtPmRequest cfg s mode).exitCount = 0 := by
    intro s mode hs
    have hkeeps : KeepsAsleep cfg s (.request mode) := fun hne => hne.1 hs.2
    obtain ⟨es, modes, mode', -, -, heq⟩ := rtPmRequest_spec hkeeps fun hne => absurd hs.2 hne
    refine ⟨rtPmRequest_devices hs.1 hkeeps, ?_⟩
    rw [heq]
    exact hs.2
  have hrun := hrequest _ runModeDefault ⟨hcleared, rfl⟩
  cases sleepModeDefault with
  | none => exact (hrequest _ _ hrun).1
  | some mode => exact (hrequest _ _ (hrequest _ mode hrun)).1

/-- In a run of sleeps that are not cut short and not left by a request, the devices are suspended
only while asleep. -/
theorem pmReach_devices (hr : Reach (pmStep cfg) (KeepsAsleep cfg) (PmStart cfg tick) s) :
    PmDevicesRight cfg tick s := by
  have h : PmDevicesInv cfg tick s :=
    hr.invariant (fun _ => PmStart.devices) fun _ _ _ => pmStep_devices
  have hzero : s.place = .outside → s.exitCount = 0 := by
    intro hplace
    by_contra hne
    simpa [hplace] using (h.asleep hne).1
  refine ⟨fun d hd hsuspend hresume => ?_, ⟨h.timer.1, fun hplace => ?_⟩, h.tick⟩
  · obtain ⟨halt, hon⟩ := h.devices d hd hsuspend hresume
    exact ⟨halt, fun hplace => by simpa [hzero hplace] using hon⟩
  · simpa [hzero hplace] using h.timer.2

end

/-- One run mode and three sleep modes, the first of them with a timer, and one device. -/
def oneDevice : PmConfig where
  runModeCount := 1
  sleepModeCount := 3
  minEnterSleepTick := 1
  timerMask := 2
  devices := [⟨7, true, true, false⟩]
  nodup := by decide

def pmStarted : PmState := rtSystemPmInit oneDevice 0 (some 1) 100

theorem pmStarted_start : PmStart oneDevice 100 pmStarted :=
  ⟨by decide, 0, by decide, some 1, rfl⟩

/-- The state after a run from the start of the system. -/
def pmAfter (as : List PmAction) : PmState :=
  (runFrom (pmStep oneDevice) as pmStarted).getD pmStarted

/-- A sleep of 40 ticks that a request for a deeper mode does not end. -/
def sleptOnce : List PmAction :=
  [.release 0, .enter, .sleep 600, .request 3, .osTick, .wake 40, .enter]

theorem pmReach_devices_sleptOnce : PmDevicesRight oneDevice 100 (pmAfter sleptOnce) := by
  have hmeets : RunMeets (pmStep oneDevice) (KeepsAsleep oneDevice) sleptOnce pmStarted := by decide
  exact pmReach_devices (Reach.runFrom hmeets (.start pmStarted_start) rfl)

theorem pmAfter_reach {as : List PmAction} {s : PmState}
    (hrun : runFrom (pmStep oneDevice) as pmStarted = some s) :
    Reach (pmStep oneDevice) (fun _ _ => True) (PmStart oneDevice 100) s :=
  Reach.runFrom (runMeets_of_forall fun _ _ _ => trivial) (.start pmStarted_start) hrun

/-- A run of the started component after which `rt_pm_enter` has returned with the device
suspended. -/
def EndsSuspended (as : List PmAction) : Prop :=
  ∃ s, Reach (pmStep oneDevice) (fun _ _ => True) (PmStart oneDevice 100) s ∧
    runFrom (pmStep oneDevice) as pmStarted = some s ∧ s.place = .outside ∧
    isOn (suspends 7) (resumes 7) s.log = true ∧ ¬PmDevicesRight oneDevice 100 s

theorem endsSuspended_of_run {as : List PmAction} {s : PmState}
    (hrun : runFrom (pmStep oneDevice) as pmStarted = some s) (hplace : s.place = .outside)
    (hon : isOn (suspends 7) (resumes 7) s.log = true) : EndsSuspended as := by
  refine ⟨s, pmAfter_reach hrun, hrun, hplace, hon, fun h => ?_⟩
  have hoff := (h.devices ⟨7, true, true, false⟩ (by simp [oneDevice]) rfl rfl).2 hplace
  exact absurd (hon.symm.trans hoff) (by decide)

/-- So it ends with a timer about to expire, and when an interrupt requests the run mode. -/
theorem rtPmEnter_leaves_suspended : EndsSuspended [.release 0, .enter, .sleep 100] ∧
    EndsSuspended [.release 0, .enter, .sleep 600, .request 0, .wake 40] :=
  ⟨endsSuspended_of_run rfl rfl rfl, endsSuspended_of_run rfl rfl rfl⟩

end RTThread
