import RTThread.AtReaderModel
import RTThread.TimerSoft
import RTThread.TimerThread

namespace RTThread

/-- `rt_thread_mdelay` up to the call of `rt_schedule`. -/
def rtThreadMdelay (cfg : SkipListConfig) (tickPerSecond : Nat) (s : Timers) (threadTimer : TimerId)
    (ms : Int) : Option Timers :=
  rtThreadSleep cfg s threadTimer (BitVec.ofInt 32 (rtTickFromMillisecond tickPerSecond ms))

/-- The timers that the soft loop has in hand or has saved. -/
def SoftCheck.about : SoftCheck → List TimerId
  | .idle => []
  | .scan _ n => n.toList
  | .unlink t => [t]
  | .invoke t n => t :: n.toList
  | .run t n => t :: n.toList
  | .settle t n _ _ => t :: n.toList

/-- Nobody else calls the timer functions on the thread's own timer. -/
def LeavesTimer (t : TimerId) : ExpiryAction → Prop
  | .call (.start u) => u ≠ t
  | .call (.stop u) => u ≠ t
  | .call (.control u _ _) => u ≠ t
  | .call (.detach u) => u ≠ t
  | _ => True

/-- A thread may call `rt_thread_mdelay` here: no tick interrupt is running, and its timer is a hard
timer, of which the soft loop knows nothing. -/
structure DelayCaller (cfg : SkipListConfig) (t : TimerId) (x : Expiry) : Prop where
  rows : RowsOk cfg x.timers
  hard : x.hard = .idle
  own : (x.timers.timer t).softTimer = false
  soft : t ∉ x.soft.about

/-- The conversion gives the least number of ticks that cover the milliseconds, and `rt_thread_mdelay`
arms the thread timer, which stays linked and does not fire while fewer ticks have passed. -/
def DelayKept (tickPerSecond : Nat) (ms : Int) : Prop :=
  (∃ n : Nat, rtTickFromMillisecond tickPerSecond ms = n ∧
    IsLeast {k : Nat | tickPerSecond * ms ≤ 1000 * k} n) ∧
  ∀ cfg t x, DelayCaller cfg t x → ∃ s, rtThreadMdelay cfg tickPerSecond x.timers t ms = some s ∧
    ∀ as y, (∀ a ∈ as, LeavesTimer t a) → runFrom (expiryStep cfg) as { x with timers := s } = some y →
      1000 * (as.count .tick : Int) < tickPerSecond * ms →
      t ∈ y.timers.bottom cfg .hard ∧ y.hard ≠ .run t

/-- The armed timer of a sleeping thread, between two steps of anybody else. -/
structure Armed (cfg : SkipListConfig) (t : TimerId) (timeout : Tick) (x : Expiry) : Prop where
  rows : RowsOk cfg x.timers
  linked : t ∈ x.timers.bottom cfg .hard
  timeout : (x.timers.timer t).timeoutTick = timeout
  own : (x.timers.timer t).softTimer = false
  running : x.hard ≠ .run t
  scan : ∀ cur, x.hard = .scan cur → cur = x.timers.tick
  soft : t ∉ x.soft.about

section
variable {cfg : SkipListConfig} {s s' : Timers} {t u : TimerId} {x x' y : Expiry} {a : ExpiryAction}
  {as : List ExpiryAction} {timeout : Tick} {c : TimerCall} {rearm : Bool} {tickPerSecond : Nat} {ms : Int}

/-- What the calls on other timers leave as it is. -/
structure TimerKept (cfg : SkipListConfig) (t : TimerId) (s s' : Timers) : Prop where
  rows : RowsOk cfg s'
  linked : ∀ l, t ∈ s.bottom cfg l → t ∈ s'.bottom cfg l
  timer : s'.timer t = s.timer t
  tick : s'.tick = s.tick

theorem rtTimerStart_kept (h : RowsOk cfg s) (hu : t ≠ u) (hs : rtTimerStart cfg s u = some s') :
    TimerKept cfg t s s' := by
  obtain ⟨hrows, hst⟩ := rtTimerStart_spec h hs
  refine ⟨hrows, fun l ht => hst.mem_bottom.mpr (Or.inl ⟨ht, hu⟩), ?_, hst.tick⟩
  rw [hst.timer, Function.update_of_ne hu]

theorem timerRemove_kept (h : RowsOk cfg s) (hu : t ≠ u) : TimerKept cfg t s (timerRemove s u) :=
  ⟨h.timerRemove, fun _ ht => mem_timerRemove.mpr ⟨ht, hu⟩, rfl, rfl⟩

theorem setActivated_kept {b : Bool} (h : RowsOk cfg s) (hu : t ≠ u) :
    TimerKept cfg t s (setActivated s u b) :=
  ⟨setActivated_rowsOk h, fun _ ht => ht, by simp [setActivated, hu], rfl⟩

theorem TimerKept.trans {s2 : Timers} (h1 : TimerKept cfg t s s') (h2 : TimerKept cfg t s' s2) :
    TimerKept cfg t s s2 :=
  ⟨h2.rows, fun l ht => h2.linked l (h1.linked l ht), h2.timer.trans h1.timer, h2.tick.trans h1.tick⟩

theorem settleTimer_kept (h : RowsOk cfg s) (hu : t ≠ u) (hs : settleTimer cfg s u rearm = some s') :
    TimerKept cfg t s s' := by
  have hflag := setActivated_kept (b := false) h hu
  unfold settleTimer at hs
  split at hs
  next => exact hflag.trans (rtTimerStart_kept hflag.rows hu hs)
  next => exact Option.some.inj hs ▸ hflag

theorem timerCall_kept (h : RowsOk cfg s) (hc : LeavesTimer t (.call c))
    (hs : timerCall cfg s c = some s') : TimerKept cfg t s s' := by
  cases c with
  | start u => exact rtTimerStart_kept h (Ne.symm hc) hs
  | stop u =>
    obtain rfl := Option.some.inj hs
    rw [rtTimerStop_state]
    split
    · have hremove := timerRemove_kept h (Ne.symm hc)
      exact hremove.trans (setActivated_kept hremove.rows (Ne.symm hc))
    · exact ⟨h, fun _ ht => ht, rfl, rfl⟩
  | control u cmd arg =>
    have hrows := timerCall_rowsOk h hs
    obtain rfl := Option.some.inj hs
    obtain ⟨f, hf, -⟩ := rtTimerControl_spec s u cmd arg
    rw [hf] at hrows ⊢
    exact ⟨hrows, fun _ ht => ht, by simp [Timers.set, Ne.symm hc], rfl⟩
  | detach u =>
    obtain rfl := Option.some.inj hs
    exact timerRemove_kept h (Ne.symm hc)

theorem Armed.not_soft (h : Armed cfg t timeout x) : t ∉ x.timers.bottom cfg .soft := by
  intro ht
  have hlist := h.rows.own .soft t ht
  simp [listOf, h.own] at hlist

theorem Armed.of_kept (h : Armed cfg t timeout x) (hk : TimerKept cfg t x.timers s) {hard : HardCheck}
    {soft : SoftCheck} (hrun : hard ≠ .run t) (hscan : ∀ cur, hard = .scan cur → cur = x.timers.tick)
    (hsoft : t ∉ soft.about) : Armed cfg t timeout ⟨s, hard, soft⟩ :=
  ⟨hk.rows, hk.linked _ h.linked, by rw [hk.timer, h.timeout], by rw [hk.timer, h.own], hrun,
    fun cur hcur => by rw [hscan cur hcur, hk.tick], hsoft⟩

theorem mem_nextNode {row : List TimerId} (hn : row.Nodup) {v : TimerId} (hv : v ∈ nextNode row u) :
    v = u ∨ v ∈ row := by
  by_cases hu : u ∈ row
  · exact Or.inr (nextNode_spec hn hu v hv).2
  · rw [nextNode, if_neg hu] at hv
    exact Or.inl (Option.some.inj hv).symm

theorem Armed.softStep (h : Armed cfg t timeout x) (hs : softStep cfg x = some x') :
    Armed cfg t timeout x' ∧ x'.timers.tick = x.timers.tick := by
  have hsame : TimerKept cfg t x.timers x.timers := ⟨h.rows, fun _ ht => ht, rfl, rfl⟩
  have habout := h.soft
  unfold RTThread.softStep at hs
  split at hs
  next hsoft =>
    obtain rfl := Option.some.inj hs
    refine ⟨h.of_kept hsame h.running h.scan fun ht => h.not_soft ?_, rfl⟩
    exact List.mem_of_head? (Option.mem_toList.mp ht)
  next => exact Option.some.inj hs ▸ ⟨h.of_kept hsame h.running h.scan List.not_mem_nil, rfl⟩
  next cur u hsoft =>
    rw [hsoft] at habout
    obtain rfl := Option.some.inj hs
    refine ⟨h.of_kept hsame h.running h.scan ?_, rfl⟩
    split
    · exact habout
    · exact List.not_mem_nil
  next u hsoft =>
    rw [hsoft] at habout
    have hu : t ≠ u := fun heq => habout (List.mem_singleton.mpr heq)
    obtain rfl := Option.some.inj hs
    refine ⟨h.of_kept (timerRemove_kept h.rows hu) h.running h.scan fun ht => ?_, rfl⟩
    rcases List.mem_cons.mp ht with heq | hn
    · exact hu heq
    · rcases mem_nextNode (h.rows.nodup _) (Option.mem_toList.mp hn) with heq | hrow
      · exact hu heq
      · exact h.not_soft hrow
  next u n hsoft =>
    rw [hsoft] at habout
    exact Option.some.inj hs ▸ ⟨h.of_kept hsame h.running h.scan habout, rfl⟩
  next u n hsoft =>
    rw [hsoft] at habout
    exact Option.some.inj hs ▸ ⟨h.of_kept hsame h.running h.scan habout, rfl⟩
  next u n cur rearm hsoft =>
    rw [hsoft] at habout
    obtain ⟨hu, hn⟩ := not_or.mp (List.mem_cons.not.mp habout)
    obtain ⟨s, hsettle, rfl⟩ := Option.map_eq_some_iff.mp hs
    have hk := settleTimer_kept h.rows hu hsettle
    exact ⟨h.of_kept hk h.running h.scan hn, hk.tick⟩

theorem Armed.hardStep (h : Armed cfg t timeout x) (hexp : expired x.timers x.timers.tick t = false)
    (hs : hardStep cfg x = some x') :
    Armed cfg t timeout x' ∧ x'.timers.tick = x.timers.tick := by
  have hsame : TimerKept cfg t x.timers x.timers := ⟨h.rows, fun _ ht => ht, rfl, rfl⟩
  have hleave : Armed cfg t timeout { x with hard := .idle } :=
    h.of_kept hsame (fun hc => by cases hc) (fun _ hc => by cases hc) h.soft
  unfold RTThread.hardStep at hs
  split at hs
  next =>
    obtain rfl := Option.some.inj hs
    exact ⟨h.of_kept hsame (fun hc => by cases hc) (fun _ hc => (HardCheck.scan.inj hc).symm) h.soft, rfl⟩
  next cur hhard =>
    obtain rfl := h.scan cur hhard
    split at hs
    next => exact Option.some.inj hs ▸ ⟨hleave, rfl⟩
    next u hu =>
      split at hs
      next hexpu =>
        -- the timer that fires is another one: this one has not expired
        have hne : t ≠ u := by
          rintro rfl
          rw [hexp] at hexpu
          cases hexpu
        obtain rfl := Option.some.inj hs
        exact ⟨h.of_kept (timerRemove_kept h.rows hne) (fun hc => hne (HardCheck.run.inj hc).symm)
          (fun _ hc => by cases hc) h.soft, rfl⟩
      next => exact Option.some.inj hs ▸ ⟨hleave, rfl⟩
  next u hhard =>
    have hne : t ≠ u := by
      rintro rfl
      exact h.running hhard
    obtain ⟨s, hsettle, rfl⟩ := Option.map_eq_some_iff.mp hs
    have hk := settleTimer_kept h.rows hne hsettle
    exact ⟨h.of_kept hk (fun hc => by cases hc) (fun _ hc => (HardCheck.scan.inj hc).symm) h.soft, hk.tick⟩

/-- While the timer has not expired, no step but those on the timer itself unlinks or fires it. -/
theorem Armed.step (h : Armed cfg t timeout x) (hexp : expired x.timers x.timers.tick t = false)
    (ha : LeavesTimer t a) (hs : expiryStep cfg x a = some x') : Armed cfg t timeout x' ∧
      x'.timers.tick = x.timers.tick + BitVec.ofNat 32 ([a].count .tick) := by
  cases a with
  | call c =>
    simp only [expiryStep] at hs
    split at hs
    next => cases hs
    next hhard =>
      obtain ⟨s, hcall, rfl⟩ := Option.map_eq_some_iff.mp hs
      have hk := timerCall_kept h.rows ha hcall
      refine ⟨h.of_kept hk h.running h.scan h.soft, ?_⟩
      simpa using hk.tick
  | tick =>
    simp only [expiryStep] at hs
    split at hs
    next hhard =>
      obtain rfl := Option.some.inj hs
      refine ⟨⟨h.rows.of_row rfl fun _ => rfl, h.linked, h.timeout, h.own, h.running, fun cur hc => ?_,
        h.soft⟩, rfl⟩
      rw [hhard] at hc
      cases hc
    next => cases hs
  | hard => simpa using h.hardStep hexp hs
  | soft =>
    simp only [expiryStep] at hs
    split at hs
    next => simpa using h.softStep hs
    next => cases hs

/-- A timeout `ticks` ahead has not expired at any of the ticks before. -/
theorem not_expired_before {ticks k : Nat} {now : Tick} (hk : k < ticks) (hticks : ticks < 2147483647)
    (htimeout : (s.timer t).timeoutTick = now + BitVec.ofNat 32 ticks) :
    expired s (now + BitVec.ofNat 32 k) t = false := by
  unfold expired halfTickMax
  rw [htimeout, decide_eq_false_iff_not, BitVec.lt_def]
  have hhalf : (2147483647 : Tick).toNat = 2147483647 := rfl
  rw [hhalf]
  simp only [BitVec.toNat_sub, BitVec.toNat_add, BitVec.toNat_ofNat]
  have hnow := now.isLt
  omega

theorem Armed.run {ticks k : Nat} {now : Tick} (h : Armed cfg t (now + BitVec.ofNat 32 ticks) x)
    (hticks : ticks < 2147483647) (htick : x.timers.tick = now + BitVec.ofNat 32 k)
    (hk : k + as.count .tick < ticks) (has : ∀ a ∈ as, LeavesTimer t a)
    (hrun : runFrom (expiryStep cfg) as x = some y) : Armed cfg t (now + BitVec.ofNat 32 ticks) y := by
  induction as generalizing x k with
  | nil => exact Option.some.inj hrun ▸ h
  | cons a as ih =>
    obtain ⟨x1, h1, hrun⟩ := Option.bind_eq_some_iff.mp hrun
    have hcount : (a :: as).count .tick = as.count .tick + [a].count .tick := by
      rw [← List.singleton_append, List.count_append, Nat.add_comm]
    have hexp : expired x.timers x.timers.tick t = false := by
      rw [htick]
      exact not_expired_before (by omega) hticks h.timeout
    obtain ⟨h1', htick1⟩ := h.step hexp (has a List.mem_cons_self) h1
    refine ih (k := k + [a].count .tick) h1' ?_ (by omega) (fun b hb => has b (List.mem_cons_of_mem a hb))
      hrun
    rw [htick1, htick, BitVec.ofNat_add, BitVec.add_assoc]

/-- The armed timer right after `rt_thread_sleep`. -/
theorem rtThreadSleep_armed (h : DelayCaller cfg t x) {ticks : Nat} (hticks : ticks < 2147483647) :
    ∃ s, rtThreadSleep cfg x.timers t (BitVec.ofNat 32 ticks) = some s ∧ s.tick = x.timers.tick ∧
      Armed cfg t (x.timers.tick + BitVec.ofNat 32 ticks) { x with timers := s } := by
  have hstop := rtTimerStop_rowsOk (t := t) h.rows
  have hown : ((rtTimerStop x.timers t).2.timer t).softTimer = false := by
    rw [rtTimerStop_state]
    split
    · simp [setActivated, h.own]
    · exact h.own
  have hclock : (rtTimerStop x.timers t).2.tick = x.timers.tick := by
    rw [rtTimerStop_state]
    split <;> rfl
  have hset : RowsOk cfg (rtTimerControl (rtTimerStop x.timers t).2 t .setTime (BitVec.ofNat 32 ticks)).1 :=
    hstop.set (f := fun y => { y with initTick := BitVec.ofNat 32 ticks }) fun _ => rfl
  have hinit : BitVec.ofNat 32 ticks < halfTickMax := by
    unfold halfTickMax
    have hhalf : (2147483647 : Tick).toNat = 2147483647 := rfl
    rw [BitVec.lt_def, BitVec.toNat_ofNat, hhalf]
    omega
  have hsome : (rtTimerStart cfg (rtTimerControl (rtTimerStop x.timers t).2 t .setTime
      (BitVec.ofNat 32 ticks)).1 t).isSome :=
    rtTimerStart_isSome cfg (by simpa [rtTimerControl] using hinit)
  obtain ⟨s, hs⟩ := Option.isSome_iff_exists.mp hsome
  obtain ⟨hrows, hst⟩ := rtTimerStart_spec hset hs
  refine ⟨s, hs, hst.tick.trans hclock, hrows, ?_, ?_, ?_, ?_, ?_, h.soft⟩
  · refine hst.mem_bottom.mpr (Or.inr ⟨rfl, ?_⟩)
    simp [listOf, rtTimerControl, hown]
  · rw [hst.timer]
    simp [startedTimer, rtTimerControl, Timers.set, hclock]
  · rw [hst.timer]
    simp [startedTimer, rtTimerControl, hown]
  · show x.hard ≠ .run t
    rw [h.hard]
    exact fun hc => by cases hc
  · intro cur hc
    exact absurd (h.hard.symm.trans hc) fun hc => by cases hc

theorem rtTick_of_fits (h0 : 0 ≤ ms) (hfits : tickPerSecond * ms + 999 < 2147483648) :
    rtTickFromMillisecond tickPerSecond ms = (tickPerSecond * ms + 999) / 1000 := by
  have hprod : 0 ≤ tickPerSecond * ms := Int.mul_nonneg (Int.natCast_nonneg _) h0
  have hmod : (tickPerSecond * ms + 999).bmod 4294967296 = tickPerSecond * ms + 999 := by
    rw [Int.bmod_eq_of_le] <;> omega
  rw [rtTickFromMillisecond, if_neg (by omega), hmod, Int.tdiv_eq_ediv_of_nonneg (by omega)]

/-- A sum that does not fit comes out negative or too small. -/
theorem rtTick_of_wraps (h0 : 0 ≤ ms) (hwraps : 2147483648 ≤ tickPerSecond * ms + 999) :
    1000 * rtTickFromMillisecond tickPerSecond ms < tickPerSecond * ms := by
  rw [rtTickFromMillisecond, if_neg (by omega)]
  generalize hv : tickPerSecond * ms + 999 = v at hwraps
  have hlt : v.bmod 4294967296 < 2147483648 := Int.bmod_lt (by decide)
  by_cases hneg : v.bmod 4294967296 < 0
  · have hle : 0 ≤ (-v.bmod 4294967296).tdiv 1000 := Int.tdiv_nonneg (by omega) (by omega)
    rw [Int.neg_tdiv] at hle
    omega
  · rw [Int.tdiv_eq_ediv_of_nonneg (by omega)]
    have hmod : v.bmod 4294967296 = v % 4294967296 ∨ v.bmod 4294967296 = v % 4294967296 - 4294967296 := by
      rw [Int.bmod_def]
      split
      · exact Or.inl rfl
      · exact Or.inr rfl
    omega

/-- Delays are kept exactly where the product fits in an `int`. -/
theorem delayKept_iff (h0 : 0 ≤ ms) :
    DelayKept tickPerSecond ms ↔ tickPerSecond * ms + 999 < 2147483648 := by
  have hprod : 0 ≤ tickPerSecond * ms := Int.mul_nonneg (Int.natCast_nonneg _) h0
  constructor
  · rintro ⟨⟨n, hn, hleast⟩, -⟩
    by_contra hwraps
    have hshort := rtTick_of_wraps h0 (Int.not_lt.mp hwraps)
    have hcover : tickPerSecond * ms ≤ 1000 * n := hleast.1
    omega
  · intro hfits
    have htick := rtTick_of_fits h0 hfits
    obtain ⟨n, hn⟩ := Int.eq_ofNat_of_zero_le (a := rtTickFromMillisecond tickPerSecond ms) (by omega)
    refine ⟨⟨n, hn, ?_, fun k hk => ?_⟩, fun cfg t x hx => ?_⟩
    · show tickPerSecond * ms ≤ 1000 * (n : Int)
      omega
    · have hcover : tickPerSecond * ms ≤ 1000 * k := hk
      omega
    · obtain ⟨s, hs, hclock, harmed⟩ := rtThreadSleep_armed hx (show n < 2147483647 by omega)
      have harg : BitVec.ofInt 32 (rtTickFromMillisecond tickPerSecond ms) = BitVec.ofNat 32 n := by
        rw [hn]
        exact BitVec.ofInt_natCast 32 n
      refine ⟨s, by rw [rtThreadMdelay, harg, hs], fun as y has hrun hbefore => ?_⟩
      have hy := harmed.run (k := 0) (by omega) (by simpa using hclock) (by omega) has hrun
      exact ⟨hy.linked, hy.running⟩

end

/-- A delay of 15 ms at 100 ticks a second takes two ticks. -/
theorem delayKept_fifteen : (0 : Int) ≤ 15 ∧ DelayKept 100 15 :=
  ⟨by decide, (delayKept_iff (by decide)).mpr (by decide)⟩

/-- At 1000 ticks a second a delay of 2147483 ms becomes a negative number of ticks. -/
theorem long_delay_wraps : ¬DelayKept 1000 2147483 := by
  rintro ⟨⟨n, hn, -⟩, -⟩
  have htick : rtTickFromMillisecond 1000 2147483 = -2147483 := by decide
  omega

end RTThread
