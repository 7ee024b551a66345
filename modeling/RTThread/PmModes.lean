import RTThread.PmModel

namespace RTThread

/-- The state and, for each mode, how many more requests than releases there have been. -/
abbrev PmCounted := PmState × (Nat → Nat)

section
variable (cfg : PmConfig)

def pmCountRequest (x : PmCounted) (mode : Nat) : PmCounted :=
  (rtPmRequest cfg x.1 mode,
    if mode < cfg.modeCount then Function.update x.2 mode (x.2 mode + 1) else x.2)

/-- A caller releases only what it has requested. -/
def pmCountStep (x : PmCounted) : PmAction → Option PmCounted
  | .request mode => some (pmCountRequest cfg x mode)
  | .release mode =>
    if 0 < x.2 mode then
      some (rtPmRelease cfg x.1 mode, Function.update x.2 mode (x.2 mode - 1))
    else none
  | a => (pmStep cfg x.1 a).map fun s => (s, x.2)

/-- `rt_system_pm_init`, whose requests count like any others. -/
def pmCountInit (runModeDefault : Nat) (sleepModeDefault : Option Nat) (tick : Nat) : PmCounted :=
  let x := pmCountRequest cfg (pmCleared runModeDefault tick, fun _ => 0) runModeDefault
  let x := match sleepModeDefault with
    | some mode => pmCountRequest cfg x mode
    | none => x
  pmCountRequest cfg x (cfg.modeCount - 1)

def PmCountStart (x : PmCounted) : Prop :=
  ∃ runModeDefault < cfg.runModeCount, ∃ sleepModeDefault tick,
    x = pmCountInit cfg runModeDefault sleepModeDefault tick

/-- No mode has 256 requests outstanding, and no request for a run mode comes between the two scans
of `rt_pm_enter`. -/
def KeepsCounts (x : PmCounted) : PmAction → Prop
  | .request mode =>
    mode < cfg.modeCount → x.2 mode < 255 ∧ (x.1.place = .scanned → cfg.runModeCount ≤ mode)
  | _ => True

instance decidableKeepsCounts : DecidableRel (KeepsCounts cfg) := fun x a =>
  match a with
  | .request mode => inferInstanceAs (Decidable (mode < cfg.modeCount →
      x.2 mode < 255 ∧ (x.1.place = .scanned → cfg.runModeCount ≤ mode)))
  | .release _ | .enter | .sleep _ | .wake _ | .exit _ | .osTick => isTrue trivial

/-- The counters are exact, and no requested mode is above the current one. -/
structure PmModesInv (x : PmCounted) : Prop where
  counts : ∀ m < cfg.modeCount, x.1.modes m = x.2 m ∧ x.2 m < 256
  outside : ∀ m, cfg.modeCount ≤ m → x.2 m = 0
  current : ∀ m, 0 < x.2 m → x.1.currentMode ≤ m
  scanned : x.1.place = .scanned → ∀ m < cfg.runModeCount, x.2 m = 0

end

section
variable {cfg : PmConfig} {s : PmState} {x x' : PmCounted} {mode nextTimeout : Nat}

@[simp] theorem event_modes (e : PmEvent) : (s.event e).modes = s.modes ∧
    (s.event e).currentMode = s.currentMode ∧ (s.event e).place = s.place :=
  ⟨rfl, rfl, rfl⟩

theorem enterRunMode_modes (cfg : PmConfig) (s : PmState) : (enterRunMode cfg s).modes = s.modes ∧
    (enterRunMode cfg s).currentMode = s.currentMode ∧ (enterRunMode cfg s).place = s.place := by
  unfold enterRunMode
  simp only
  split <;> exact ⟨rfl, rfl, rfl⟩

theorem rtPmExit_modes (cfg : PmConfig) (s : PmState) (elapsed : Nat) : (rtPmExit cfg s elapsed).modes = s.modes ∧
    (rtPmExit cfg s elapsed).currentMode = s.currentMode ∧
    (rtPmExit cfg s elapsed).place = s.place := by
  unfold rtPmExit
  simp only
  split
  · split
    · split <;> exact ⟨rfl, rfl, rfl⟩
    · exact ⟨rfl, rfl, rfl⟩
  · exact ⟨rfl, rfl, rfl⟩

/-- A request counts and moves the mode up if it asks for a higher one. -/
theorem rtPmRequest_modes (hmode : mode < cfg.modeCount) :
    (rtPmRequest cfg s mode).modes = Function.update s.modes mode ((s.modes mode + 1) % 256) ∧
      (rtPmRequest cfg s mode).currentMode = min mode s.currentMode ∧
      (rtPmRequest cfg s mode).place = s.place := by
  unfold rtPmRequest
  rw [if_neg (by omega)]
  simp only
  split
  · next hlt =>
    rw [min_eq_left (by omega)]
    -- the exit of the old mode changes neither the counters nor the place
    have hexit : ∀ s' : PmState, (if s'.currentMode < cfg.sleepModeStart then s'.event (.exit s'.currentMode)
        else if s'.exitCount ≠ 0 then { s'.event (.exit s'.currentMode) with exitCount := 0 }
        else s').modes = s'.modes ∧
      (if s'.currentMode < cfg.sleepModeStart then s'.event (.exit s'.currentMode)
        else if s'.exitCount ≠ 0 then { s'.event (.exit s'.currentMode) with exitCount := 0 }
        else s').place = s'.place := by
      intro s'
      split
      · exact ⟨rfl, rfl⟩
      · split <;> exact ⟨rfl, rfl⟩
    obtain ⟨hmodes, hplace⟩ := hexit
      { s with modes := Function.update s.modes mode ((s.modes mode + 1) % 256) }
    split
    · obtain ⟨henter, hcurrent, hplaced⟩ := enterRunMode_modes cfg _
      rw [henter, hcurrent, hplaced]
      exact ⟨hmodes, rfl, hplace⟩
    · exact ⟨hmodes, rfl, hplace⟩
  · next hle =>
    rw [min_eq_right (by omega)]
    exact ⟨rfl, rfl, rfl⟩

theorem PmModesInv.request (h : PmModesInv cfg x) (hkeeps : KeepsCounts cfg x (.request mode)) :
    PmModesInv cfg (pmCountRequest cfg x mode) := by
  unfold pmCountRequest
  by_cases hmode : mode < cfg.modeCount
  · obtain ⟨hlt, hscanned⟩ := hkeeps hmode
    obtain ⟨hmodes, hcurrent, hplace⟩ := rtPmRequest_modes (s := x.1) hmode
    rw [if_pos hmode]
    refine ⟨fun m hm => ?_, fun m hm => ?_, fun m hm => ?_, fun hp m hm => ?_⟩
    · have hold := h.counts m hm
      dsimp only
      rw [hmodes]
      by_cases heq : m = mode
      · subst heq
        rw [Function.update_self, Function.update_self]
        omega
      · rwa [Function.update_of_ne heq, Function.update_of_ne heq]
    · dsimp only
      rw [Function.update_of_ne (by omega)]
      exact h.outside m hm
    · dsimp only at hm ⊢
      rw [hcurrent]
      by_cases heq : m = mode
      · omega
      · rw [Function.update_of_ne heq] at hm
        have hold := h.current m hm
        omega
    · dsimp only at hp ⊢
      rw [hplace] at hp
      have hbelow := hscanned hp
      rw [Function.update_of_ne (by omega)]
      exact h.scanned hp m hm
  · rw [if_neg hmode]
    have hsame : rtPmRequest cfg x.1 mode = x.1 := by
      unfold rtPmRequest
      rw [if_pos (by omega)]
    rw [hsame]
    exact h

theorem PmModesInv.release (h : PmModesInv cfg x) (hpos : 0 < x.2 mode) :
    PmModesInv cfg (rtPmRelease cfg x.1 mode, Function.update x.2 mode (x.2 mode - 1)) := by
  have hmode : mode < cfg.modeCount := by
    by_contra hge
    rw [h.outside mode (by omega)] at hpos
    omega
  have hold := h.counts mode hmode
  have heq : rtPmRelease cfg x.1 mode =
      { x.1 with modes := Function.update x.1.modes mode (x.1.modes mode - 1) } := by
    unfold rtPmRelease
    rw [if_neg (by omega), if_pos (by omega)]
  rw [heq]
  refine ⟨fun m hm => ?_, fun m hm => ?_, fun m hm => ?_, fun hp m hm => ?_⟩
  · dsimp only
    by_cases hm' : m = mode
    · subst hm'
      rw [Function.update_self, Function.update_self]
      omega
    · rw [Function.update_of_ne hm', Function.update_of_ne hm']
      exact h.counts m hm
  · dsimp only
    rw [Function.update_of_ne (by omega)]
    exact h.outside m hm
  · dsimp only at hm ⊢
    by_cases hm' : m = mode
    · rw [hm']
      exact h.current mode hpos
    · rw [Function.update_of_ne hm'] at hm
      exact h.current m hm
  · have hzero := h.scanned hp m hm
    dsimp only
    by_cases hm' : m = mode
    · subst hm'
      omega
    · rwa [Function.update_of_ne hm']

/-- The counters and the mode stay, and the idle thread does not come between the scans. -/
theorem PmModesInv.same (h : PmModesInv cfg x) (hmodes : s.modes = x.1.modes)
    (hcurrent : s.currentMode = x.1.currentMode) (hplace : s.place = .scanned → x.1.place = .scanned) :
    PmModesInv cfg (s, x.2) where
  counts m hm := hmodes ▸ h.counts m hm
  outside := h.outside
  current m hm := hcurrent ▸ h.current m hm
  scanned hp := h.scanned (hplace hp)

theorem PmModesInv.requested {m : Nat} (h : PmModesInv cfg x) : 0 < x.2 m ↔
    m < cfg.modeCount ∧ x.1.modes m ≠ 0 := by
  constructor
  · intro hpos
    have hm : m < cfg.modeCount := by
      by_contra hge
      rw [h.outside m (by omega)] at hpos
      omega
    have hcount := h.counts m hm
    exact ⟨hm, by omega⟩
  · rintro ⟨hm, hne⟩
    have hcount := h.counts m hm
    omega

/-- The check of the run modes settles in the least mode that is requested, if that is a run mode,
and goes on to the sleep modes if no run mode is. -/
theorem pmCheckRunModes_settles (h : PmModesInv cfg x) (hplace : x.1.place = .outside) :
    PmModesInv cfg (pmCheckRunModes cfg x.1, x.2) ∧
      ((pmCheckRunModes cfg x.1).place = .outside →
        IsLeast {m | 0 < x.2 m} (pmCheckRunModes cfg x.1).currentMode) := by
  unfold pmCheckRunModes
  split
  · next index hindex =>
    obtain ⟨-, hlt, hne, hbefore⟩ := firstMode_spec hindex
    have hindexed : 0 < x.2 index := h.requested.mpr ⟨by unfold PmConfig.modeCount; omega, hne⟩
    have hleast : IsLeast {m | 0 < x.2 m} index := by
      refine ⟨hindexed, fun m hm => ?_⟩
      by_contra hless
      exact (h.requested.mp hm).2 (hbefore m (Nat.zero_le m) (by omega))
    have hle := h.current index hindexed
    split
    · obtain ⟨hmodes, hcurrent, hplaced⟩ := enterRunMode_modes cfg
        { x.1.event (.exit x.1.currentMode) with currentMode := index }
      refine ⟨⟨fun m hm => ?_, h.outside, fun m hm => ?_, fun hp => ?_⟩, fun _ => hcurrent ▸ hleast⟩
      · dsimp only
        rw [hmodes]
        exact h.counts m hm
      · dsimp only
        rw [hcurrent]
        exact hleast.2 hm
      · dsimp only at hp
        rw [hplaced] at hp
        exact absurd (hplace.symm.trans hp) (by decide)
    · have heq : x.1.currentMode = index := by omega
      exact ⟨h, fun _ => heq ▸ hleast⟩
  · next hnone =>
    refine ⟨⟨h.counts, h.outside, h.current, fun _ m hm => ?_⟩, fun hp => by cases hp⟩
    have hzero := firstMode_none.mp hnone m (Nat.zero_le m) (by omega)
    have hcount := h.counts m (by unfold PmConfig.modeCount; omega)
    exact hcount.1.symm.trans hzero

theorem pmCheckSleepModes_settles (h : PmModesInv cfg x) (hplace : x.1.place = .scanned) :
    PmModesInv cfg (pmCheckSleepModes cfg x.1 nextTimeout, x.2) ∧ ∀ m, 0 < x.2 m →
      IsLeast {m | 0 < x.2 m} (pmCheckSleepModes cfg x.1 nextTimeout).currentMode := by
  have hrun := h.scanned hplace
  cases hindex : firstMode x.1.modes cfg.sleepModeStart cfg.sleepModeCount with
  | none =>
    have heq : pmCheckSleepModes cfg x.1 nextTimeout = { x.1 with place := .outside } := by
      simp [pmCheckSleepModes, hindex]
    rw [heq]
    refine ⟨h.same rfl rfl (fun hp => by cases hp), fun m hm => ?_⟩
    obtain ⟨hlt, hne⟩ := h.requested.mp hm
    have hsleep : cfg.sleepModeStart ≤ m := by
      by_contra hless
      have hzero := hrun m (Nat.lt_of_not_le hless)
      omega
    exact absurd (firstMode_none.mp hindex m hsleep hlt) hne
  | some index =>
    obtain ⟨hle, hlt, hne, hbefore⟩ := firstMode_spec hindex
    have hleast : IsLeast {m | 0 < x.2 m} index := by
      refine ⟨h.requested.mpr ⟨hlt, hne⟩, fun m hm => ?_⟩
      by_contra hless
      have hsleep : cfg.sleepModeStart ≤ m := by
        by_contra hrunning
        have hm : 0 < x.2 m := hm
        have hzero := hrun m (Nat.lt_of_not_le hrunning)
        omega
      exact (h.requested.mp hm).2 (hbefore m hsleep (by omega))
    have hspec : (pmCheckSleepModes cfg x.1 nextTimeout).modes = x.1.modes ∧
        (pmCheckSleepModes cfg x.1 nextTimeout).currentMode = index ∧
        (pmCheckSleepModes cfg x.1 nextTimeout).place ≠ .scanned := by
      unfold pmCheckSleepModes
      simp only [hindex]
      by_cases hrunning : x.1.currentMode < cfg.sleepModeStart <;>
        by_cases hhas : hasTimer cfg index = true <;> simp only [hrunning, hhas, if_true, if_false]
      all_goals first
        | exact ⟨rfl, rfl, by simp⟩
        | split <;> exact ⟨rfl, rfl, by simp⟩
    obtain ⟨hmodes, hcurrent, hplaced⟩ := hspec
    refine ⟨⟨fun m hm => ?_, h.outside, fun m hm => ?_, fun hp => absurd hp hplaced⟩, fun m hm => ?_⟩
    · dsimp only
      rw [hmodes]
      exact h.counts m hm
    · dsimp only
      rw [hcurrent]
      exact hleast.2 hm
    · rw [hcurrent]
      exact hleast

theorem pmCountStep_inv {a : PmAction} (h : PmModesInv cfg x) (hkeeps : KeepsCounts cfg x a)
    (hs : pmCountStep cfg x a = some x') : PmModesInv cfg x' := by
  cases a with
  | request mode =>
    obtain rfl := Option.some.inj hs
    exact h.request hkeeps
  | release mode =>
    obtain ⟨hpos, hs⟩ := Option.ite_none_right_eq_some.mp hs
    obtain rfl := Option.some.inj hs
    exact h.release hpos
  | enter =>
    obtain ⟨s, hstep, rfl⟩ := Option.map_eq_some_iff.mp hs
    obtain ⟨hplace, hstep⟩ := Option.ite_none_right_eq_some.mp hstep
    obtain rfl := Option.some.inj hstep
    exact (pmCheckRunModes_settles h hplace).1
  | sleep nextTimeout =>
    obtain ⟨s, hstep, rfl⟩ := Option.map_eq_some_iff.mp hs
    obtain ⟨hplace, hstep⟩ := Option.ite_none_right_eq_some.mp hstep
    obtain rfl := Option.some.inj hstep
    exact (pmCheckSleepModes_settles h hplace).1
  | wake elapsed =>
    obtain ⟨s, hstep, rfl⟩ := Option.map_eq_some_iff.mp hs
    obtain ⟨-, hstep⟩ := Option.ite_none_right_eq_some.mp hstep
    obtain rfl := Option.some.inj hstep
    obtain ⟨hmodes, hcurrent, -⟩ := rtPmExit_modes cfg x.1 elapsed
    exact h.same hmodes hcurrent fun hp => by cases hp
  | exit elapsed =>
    obtain rfl := Option.some.inj hs
    obtain ⟨hmodes, hcurrent, hplace⟩ := rtPmExit_modes cfg x.1 elapsed
    exact h.same hmodes hcurrent fun hp => hplace.symm.trans hp
  | osTick =>
    obtain rfl := Option.some.inj hs
    exact h.same rfl rfl id

theorem PmCountStart.inv (h : PmCountStart cfg x) : PmModesInv cfg x := by
  obtain ⟨runModeDefault, -, sleepModeDefault, tick, rfl⟩ := h
  have hcleared : PmModesInv cfg (pmCleared runModeDefault tick, fun _ => 0) := by
    refine ⟨fun m _ => ⟨rfl, Nat.zero_lt_succ 255⟩, fun _ _ => rfl, fun m hm => ?_, fun _ _ _ => rfl⟩
    exact absurd hm (Nat.lt_irrefl 0)
  have hrequest : ∀ y n mode, n < 3 → PmModesInv cfg y ∧ y.1.place = .outside ∧ (∀ m, y.2 m ≤ n) →
      PmModesInv cfg (pmCountRequest cfg y mode) ∧
        (pmCountRequest cfg y mode).1.place = .outside ∧
        ∀ m, (pmCountRequest cfg y mode).2 m ≤ n + 1 := by
    intro y n mode hn ⟨hinv, hplace, hcount⟩
    have hkeeps : KeepsCounts cfg y (.request mode) := fun _ =>
      ⟨by have hle := hcount mode; omega, fun hp => absurd (hplace.symm.trans hp) (by decide)⟩
    refine ⟨hinv.request hkeeps, ?_, fun m => ?_⟩
    · by_cases hmode : mode < cfg.modeCount
      · exact (rtPmRequest_modes hmode).2.2.trans hplace
      · unfold pmCountRequest rtPmRequest
        rw [if_pos (Nat.le_of_not_lt hmode)]
        exact hplace
    · have hle := hcount m
      unfold pmCountRequest
      by_cases hmode : mode < cfg.modeCount
      · rw [if_pos hmode]
        by_cases heq : m = mode
        · subst heq
          simp [hle]
        · simp only [Function.update_of_ne heq]
          omega
      · rw [if_neg hmode]
        exact Nat.le_succ_of_le hle
  have hrun := hrequest _ 0 runModeDefault (by decide) ⟨hcleared, rfl, fun _ => Nat.le_refl 0⟩
  cases sleepModeDefault with
  | none => exact (hrequest _ 1 _ (by decide) hrun).1
  | some mode => exact (hrequest _ 2 _ (by decide) (hrequest _ 1 mode (by decide) hrun)).1

/-- While no counter overflows and no run mode is requested between the scans, the current mode is
at most every mode that is requested, and `rt_pm_enter` settles in the least of them. -/
theorem pmReach_modes (hr : Reach (pmCountStep cfg) (KeepsCounts cfg) (PmCountStart cfg) x) :
    (∀ m, 0 < x.2 m → x.1.currentMode ≤ m) ∧
      (∀ x', pmCountStep cfg x .enter = some x' → x'.1.place = .outside →
        IsLeast {m | 0 < x.2 m} x'.1.currentMode) ∧
      (∀ x', pmCountStep cfg x .enter = some x' → x'.1.place = .scanned →
        ∀ m, 0 < x.2 m → cfg.sleepModeStart ≤ m) ∧
      ∀ nextTimeout x', pmCountStep cfg x (.sleep nextTimeout) = some x' →
        ∀ m, 0 < x.2 m → IsLeast {m | 0 < x.2 m} x'.1.currentMode := by
  have h : PmModesInv cfg x := hr.invariant (fun _ => PmCountStart.inv) fun _ _ _ => pmCountStep_inv
  refine ⟨h.current, fun x' hs hp => ?_, fun x' hs hp m hm => ?_, fun nextTimeout x' hs => ?_⟩
  · obtain ⟨s, hstep, rfl⟩ := Option.map_eq_some_iff.mp hs
    obtain ⟨hplace, hstep⟩ := Option.ite_none_right_eq_some.mp hstep
    obtain rfl := Option.some.inj hstep
    exact (pmCheckRunModes_settles h hplace).2 hp
  · have hafter := pmCountStep_inv (a := .enter) h trivial hs
    obtain ⟨s, hs, rfl⟩ := Option.map_eq_some_iff.mp hs
    by_contra hless
    have hzero : x.2 m = 0 := hafter.scanned hp m (Nat.lt_of_not_le hless)
    omega
  · obtain ⟨s, hstep, rfl⟩ := Option.map_eq_some_iff.mp hs
    obtain ⟨hplace, hstep⟩ := Option.ite_none_right_eq_some.mp hstep
    obtain rfl := Option.some.inj hstep
    exact (pmCheckSleepModes_settles h hplace).2

end

/-- The modes of the default configuration, without devices. -/
def defaultModes : PmConfig where
  runModeCount := 1
  sleepModeCount := 3
  minEnterSleepTick := 1
  timerMask := 0
  devices := []
  nodup := by decide

def pmCountStarted : PmCounted := pmCountInit defaultModes 0 (some 1) 0

theorem pmCountStarted_start : PmCountStart defaultModes pmCountStarted :=
  ⟨0, by decide, some 1, 0, rfl⟩

/-- The run mode is released and the idle thread goes to sleep in the next one. -/
theorem pmReach_modes_released :
    IsLeast {m | 0 < (Function.update pmCountStarted.2 0 0) m} 1 := by
  have hmeets : RunMeets (pmCountStep defaultModes) (KeepsCounts defaultModes) [.release 0, .enter]
      pmCountStarted := by decide
  obtain ⟨x, hrun, hout, x', hsleep, hmode⟩ : ∃ x,
      runFrom (pmCountStep defaultModes) [.release 0, .enter] pmCountStarted = some x ∧
      x.2 = Function.update pmCountStarted.2 0 0 ∧
      ∃ x', pmCountStep defaultModes x (.sleep 10) = some x' ∧ x'.1.currentMode = 1 :=
    ⟨_, rfl, rfl, _, rfl, rfl⟩
  have hleast := (pmReach_modes (Reach.runFrom hmeets (.start pmCountStarted_start) hrun)).2.2.2 10 x'
    hsleep 1 (by rw [hout]; decide)
  rwa [hout, hmode] at hleast

/-- What `n` more requests for the run mode leave. -/
theorem request_many (n : Nat) : ∃ x : PmCounted,
    Reach (pmCountStep defaultModes) (fun _ _ => True) (PmCountStart defaultModes) x ∧
      x.1.modes 0 = (n + 1) % 256 ∧ x.1.modes 1 = 1 ∧ x.2 0 = n + 1 ∧ x.1.currentMode = 0 ∧
      x.1.place = .outside := by
  induction n with
  | zero => exact ⟨pmCountStarted, .start pmCountStarted_start, rfl, rfl, rfl, rfl, rfl⟩
  | succ n ih =>
    obtain ⟨x, hr, hmodes, hother, hcount, hcurrent, hplace⟩ := ih
    obtain ⟨hmodes', hcurrent', hplace'⟩ := rtPmRequest_modes (s := x.1)
      (show 0 < defaultModes.modeCount by decide)
    refine ⟨pmCountRequest defaultModes x 0, hr.step (a := .request 0) trivial rfl, ?_, ?_, ?_, ?_,
      hplace'.trans hplace⟩
    · show (rtPmRequest defaultModes x.1 0).modes 0 = _
      rw [hmodes', Function.update_self, hmodes]
      omega
    · show (rtPmRequest defaultModes x.1 0).modes 1 = _
      rw [hmodes', Function.update_of_ne (by decide), hother]
    · show Function.update x.2 0 (x.2 0 + 1) 0 = _
      rw [Function.update_self, hcount]
    · show (rtPmRequest defaultModes x.1 0).currentMode = _
      rw [hcurrent', hcurrent, min_self]

/-- With 256 requests for the run mode the system sleeps. -/
theorem rtPmRequest_overflows : ∃ x : PmCounted,
    Reach (pmCountStep defaultModes) (fun _ _ => True) (PmCountStart defaultModes) x ∧
      x.2 0 = 256 ∧ x.1.currentMode = 1 ∧ ¬∀ m, 0 < x.2 m → x.1.currentMode ≤ m := by
  obtain ⟨x, hr, hmodes, hother, hcount, hcurrent, hplace⟩ := request_many 255
  have henter : pmCountStep defaultModes x .enter = some ({ x.1 with place := .scanned }, x.2) := by
    have hnone : firstMode x.1.modes 0 defaultModes.runModeCount = none := by
      rw [firstMode_none]
      intro m _ hm
      have hzero : m = 0 := by
        simp only [defaultModes] at hm
        omega
      rw [hzero, hmodes]
    simp [pmCountStep, pmStep, hplace, pmCheckRunModes, hnone]
  have hfirst : firstMode x.1.modes defaultModes.sleepModeStart defaultModes.sleepModeCount = some 1 := by
    have hne : (x.1.modes 1 != 0) = true := by simp [hother]
    exact List.find?_cons_of_pos hne
  have hsleep : ∃ s, pmCountStep defaultModes ({ x.1 with place := .scanned }, x.2) (.sleep 10) =
      some (s, x.2) ∧ s.currentMode = 1 := by
    refine ⟨pmCheckSleepModes defaultModes { x.1 with place := .scanned } 10, rfl, ?_⟩
    have htimer : hasTimer defaultModes 1 = false := rfl
    simp only [pmCheckSleepModes, hfirst, htimer, Bool.false_eq_true, if_false]
    split <;> rfl
  obtain ⟨s, hsleep, hmode⟩ := hsleep
  refine ⟨(s, x.2), (hr.step trivial henter).step trivial hsleep, hcount, hmode, fun h => ?_⟩
  have hle : s.currentMode ≤ 0 := h 0 (by rw [hcount]; decide)
  omega

end RTThread
