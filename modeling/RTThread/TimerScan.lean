import RTThread.TimerExpiry
import RTThread.TimerOrder

namespace RTThread

/-- The leading timers of the list that have expired: what the scan comes to. -/
def leadingExpired (cfg : SkipListConfig) (s : Timers) : List TimerId :=
  (s.bottom cfg .hard).takeWhile (expired s s.tick)

/-- Started again, the timer would have expired at once. -/
def Spins (s : Timers) (t : TimerId) : Prop :=
  rearms s t = true ∧ (s.timer t).initTick = 0

instance {s : Timers} {t : TimerId} : Decidable (Spins s t) := inferInstanceAs (Decidable (_ ∧ _))

/-- Periods are set to values that the assertion of `rt_timer_start` lets pass. -/
def PeriodsPass (_ : TimerHistory) : TimerAction → Prop
  | .call (.control _ .setTime arg) => arg < halfTickMax
  | _ => True

instance : DecidableRel PeriodsPass
  | _, .call (.control _ .setTime arg) => inferInstanceAs (Decidable (arg < halfTickMax))
  | _, .call (.control _ .getTime _) => isTrue trivial
  | _, .call (.control _ .setOneshot _) => isTrue trivial
  | _, .call (.control _ .setPeriodic _) => isTrue trivial
  | _, .call (.start _) => isTrue trivial
  | _, .call (.stop _) => isTrue trivial
  | _, .call (.detach _) => isTrue trivial
  | _, .tick => isTrue trivial

/-- The scan, standing at the top of its loop. -/
def scanning (s : Timers) (soft : SoftCheck) : Expiry := ⟨s, .scan s.tick, soft⟩

/-- Steps of `rt_timer_check` alone, with callbacks that call nothing, lead out of it. -/
def ScanReturns (cfg : SkipListConfig) (s : Timers) (soft : SoftCheck) : Prop :=
  ∃ n y, runFrom (expiryStep cfg) (List.replicate n .hard) (scanning s soft) = some y ∧
    y.hard = .idle

/-- What the scan makes of the list when it takes its first timer `t` and leaves it stopped. -/
structure TimerDropped (cfg : SkipListConfig) (s : Timers) (t : TimerId) (s' : Timers) : Prop where
  timer : s'.timer = Function.update s.timer t { s.timer t with activated := false }
  tick : s'.tick = s.tick
  bottom : ∀ l, s'.bottom cfg l = (s.bottom cfg l).filter (· ≠ t)

section
variable {cfg : SkipListConfig} {s s' : Timers} {t u : TimerId} {soft : SoftCheck} {l : TimerList}
  {row A B : List TimerId} {x y : Expiry} {n : Nat}

variable (cfg) in
theorem rtTimerStart_isSome (hp : (s.timer t).initTick < halfTickMax) :
    (rtTimerStart cfg s t).isSome := by
  have hassert : ((setActivated (timerRemove s t) t false).timer t).initTick < halfTickMax := by
    simpa [setActivated] using hp
  simp [rtTimerStart, rtAssert, hassert]

variable (cfg) in
theorem settleTimer_dropped (h : rearms s t = false) :
    ∃ s', settleTimer cfg (timerRemove s t) t (rearms (timerRemove s t) t) = some s' ∧
      TimerDropped cfg s t s' := by
  refine ⟨setActivated (timerRemove s t) t false, ?_, rfl, rfl, fun _ => rfl⟩
  rw [show rearms (timerRemove s t) t = false from h]
  rfl

theorem settleTimer_restarted (hrows : RowsOk cfg s) (h : rearms s t = true)
    (hp : (s.timer t).initTick < halfTickMax) :
    ∃ s', settleTimer cfg (timerRemove s t) t (rearms (timerRemove s t) t) = some s' ∧
      TimerStarted cfg s t s' := by
  have hr : RowsOk cfg (setActivated (timerRemove s t) t false) :=
    setActivated_rowsOk hrows.timerRemove
  have hp' : ((setActivated (timerRemove s t) t false).timer t).initTick < halfTickMax := by
    simpa [setActivated] using hp
  obtain ⟨s', hs'⟩ := Option.isSome_iff_exists.mp (rtTimerStart_isSome cfg hp')
  obtain ⟨-, hst⟩ := rtTimerStart_spec hr hs'
  have hlist : listOf ((setActivated (timerRemove s t) t false).timer t) = listOf (s.timer t) := by
    simp [setActivated, listOf]
  have hfilter : ∀ l, ((setActivated (timerRemove s t) t false).bottom cfg l).filter (· ≠ t) =
      (s.bottom cfg l).filter (· ≠ t) := fun l => by
    show ((s.bottom cfg l).filter (· ≠ t)).filter (· ≠ t) = _
    simp [List.filter_filter]
  refine ⟨s', ?_, hp, ?_, hst.tick, fun l hl => ?_, ?_⟩
  · rw [show rearms (timerRemove s t) t = true from h]
    exact hs'
  · rw [hst.timer]
    simp [setActivated, Timers.set, startedTimer]
  · rw [hst.other l (hlist ▸ hl), hfilter]
  · obtain ⟨p, A, B, hcut, hb⟩ := hst.own
    rw [hlist, hfilter] at hcut
    rw [hlist] at hb
    exact ⟨p, A, B, hcut, hb⟩

/-- The first timer has expired: two steps take it and settle it. -/
theorem scan_turn (hb : s.bottom cfg .hard = t :: row) (hexp : expired s s.tick t = true)
    (hs : settleTimer cfg (timerRemove s t) t (rearms (timerRemove s t) t) = some s')
    (htick : s'.tick = s.tick) :
    runFrom (expiryStep cfg) (List.replicate (n + 2) .hard) (scanning s soft) =
      runFrom (expiryStep cfg) (List.replicate n .hard) (scanning s' soft) := by
  have h1 : expiryStep cfg (scanning s soft) .hard = some ⟨timerRemove s t, .run t, soft⟩ := by
    simp [expiryStep, hardStep, scanning, hb, hexp]
  have h2 : expiryStep cfg ⟨timerRemove s t, .run t, soft⟩ .hard = some (scanning s' soft) := by
    simp [expiryStep, hardStep, scanning, hs, htick]
  simp [List.replicate_succ, runFrom, h1, h2]

theorem scan_leaves (hb : leadingExpired cfg s = []) : ScanReturns cfg s soft := by
  refine ⟨1, ⟨s, .idle, soft⟩, ?_, rfl⟩
  unfold leadingExpired at hb
  cases hrow : s.bottom cfg .hard with
  | nil => simp [List.replicate_succ, runFrom, expiryStep, hardStep, scanning, hrow]
  | cons t row =>
    have hexp : expired s s.tick t = false := by
      by_contra hexp
      simp [hrow, hexp] at hb
    simp [List.replicate_succ, runFrom, expiryStep, hardStep, scanning, hrow, hexp]

theorem ScanReturns.of_turn (hb : s.bottom cfg .hard = t :: row) (hexp : expired s s.tick t = true)
    (hs : settleTimer cfg (timerRemove s t) t (rearms (timerRemove s t) t) = some s')
    (htick : s'.tick = s.tick) (h : ScanReturns cfg s' soft) : ScanReturns cfg s soft := by
  obtain ⟨n, y, hy, hidle⟩ := h
  exact ⟨n + 2, y, (scan_turn hb hexp hs htick).trans hy, hidle⟩

theorem restart_not_expired (now : Tick) {p : Tick} (h0 : p ≠ 0) (hp : p < halfTickMax) :
    ¬now - (now + p) < halfTickMax := by
  unfold halfTickMax at *
  bv_omega

theorem filter_ne_of_cons (hn : (t :: row).Nodup) : (t :: row).filter (· ≠ t) = row := by
  obtain ⟨ht, -⟩ := List.nodup_cons.mp hn
  simp only [List.filter_cons, ne_eq, not_true_eq_false, decide_false, Bool.false_eq_true, if_false]
  exact List.filter_eq_self.mpr fun u hu => by simpa using ne_of_mem_of_not_mem hu ht

theorem takeWhile_insert_prefix {p : TimerId → Bool} (ht : p t = false) :
    ((A ++ t :: B).takeWhile p) <+: ((A ++ B).takeWhile p) := by
  induction A with
  | nil => simp [ht]
  | cons a A ih =>
    by_cases ha : p a
    · simpa [ha] using ih
    · simp [ha]

theorem takeWhile_congr {p q : TimerId → Bool} (h : ∀ u ∈ row, p u = q u) :
    row.takeWhile p = row.takeWhile q := by
  induction row with
  | nil => rfl
  | cons a row ih =>
    rw [List.takeWhile_cons, List.takeWhile_cons, h a List.mem_cons_self,
      ih fun u hu => h u (List.mem_cons_of_mem a hu)]

/-- A turn leaves a shorter run of leading expired timers unless the timer spins. -/
theorem scan_turn_shrinks (hrows : RowsOk cfg s) (hb : s.bottom cfg .hard = t :: row)
    (hexp : expired s s.tick t = true) (hp : (s.timer t).initTick < halfTickMax)
    (hspin : ¬Spins s t) :
    ∃ s', settleTimer cfg (timerRemove s t) t (rearms (timerRemove s t) t) = some s' ∧
      s'.tick = s.tick ∧ (∀ u, u ≠ t → s'.timer u = s.timer u) ∧
      (s'.timer t).initTick = (s.timer t).initTick ∧ (∀ u ∈ s'.bottom cfg .hard, u ∈ s.bottom cfg .hard) ∧
      leadingExpired cfg s = t :: row.takeWhile (expired s s.tick) ∧
      leadingExpired cfg s' <+: row.takeWhile (expired s s.tick) := by
  have hn : (t :: row).Nodup := hb ▸ hrows.nodup .hard
  have hlist : listOf (s.timer t) = .hard := hrows.own .hard t (by rw [hb]; exact List.mem_cons_self)
  have hfilter := filter_ne_of_cons hn
  have hlead : leadingExpired cfg s = t :: row.takeWhile (expired s s.tick) := by
    simp [leadingExpired, hb, hexp]
  have hold : ∀ s' : Timers, s'.tick = s.tick → (∀ u, u ≠ t → s'.timer u = s.timer u) →
      ∀ u ∈ row, expired s' s'.tick u = expired s s.tick u := fun s' htick htimer u hu => by
    rw [expired, expired, htick, htimer u (ne_of_mem_of_not_mem hu (List.nodup_cons.mp hn).1)]
  cases hr : rearms s t with
  | false =>
    obtain ⟨s', hs', hd⟩ := settleTimer_dropped cfg hr
    have htimer : ∀ u, u ≠ t → s'.timer u = s.timer u := fun u hu => by simp [hd.timer, hu]
    have hrow : s'.bottom cfg .hard = row := by rw [hd.bottom, hb, hfilter]
    refine ⟨s', hs', hd.tick, htimer, by simp [hd.timer], fun u hu => ?_, hlead, ?_⟩
    · rw [hb]
      exact List.mem_cons_of_mem t (hrow ▸ hu)
    · rw [leadingExpired, hrow, takeWhile_congr (hold s' hd.tick htimer)]
  | true =>
    obtain ⟨s', hs', hst⟩ := settleTimer_restarted hrows hr hp
    have htimer : ∀ u, u ≠ t → s'.timer u = s.timer u := fun u hu => by simp [hst.timer, hu]
    obtain ⟨p, A, B, hcut, hrow⟩ := hst.own
    rw [hlist, hb, hfilter] at hcut
    rw [hlist] at hrow
    have h0 : (s.timer t).initTick ≠ 0 := fun h0 => hspin ⟨hr, h0⟩
    have hnew : expired s' s'.tick t = false := by
      have hnot := restart_not_expired s.tick h0 hp
      simpa [expired, hst.timer, hst.tick, startedTimer] using hnot
    refine ⟨s', hs', hst.tick, htimer, by simp [hst.timer, startedTimer], fun u hu => ?_, hlead, ?_⟩
    · rw [hrow] at hu
      rw [hb, hcut.eq]
      simp only [List.mem_append, List.mem_cons] at hu ⊢
      tauto
    · rw [leadingExpired, hrow]
      have hpre : ((A ++ t :: B).takeWhile (expired s' s'.tick)) <+:
          ((A ++ B).takeWhile (expired s' s'.tick)) := takeWhile_insert_prefix hnew
      rwa [← hcut.eq, takeWhile_congr (hold s' hst.tick htimer)] at hpre

/-- Each turn takes one timer off the leading expired ones and puts none back. -/
theorem scanReturns_of_not_spins (hrows : RowsOk cfg s)
    (hp : ∀ t ∈ s.bottom cfg .hard, (s.timer t).initTick < halfTickMax)
    (hspin : ∀ t ∈ leadingExpired cfg s, ¬Spins s t) : ScanReturns cfg s soft := by
  induction hlen : (leadingExpired cfg s).length using Nat.strong_induction_on generalizing s with
  | _ len ih =>
    by_cases hnil : leadingExpired cfg s = []
    · exact scan_leaves hnil
    · cases hb : s.bottom cfg .hard with
      | nil => simp [leadingExpired, hb] at hnil
      | cons t row =>
        have hexp : expired s s.tick t = true := by
          by_contra hexp
          simp [leadingExpired, hb, hexp] at hnil
        have ht : t ∈ leadingExpired cfg s := by simp [leadingExpired, hb, hexp]
        obtain ⟨s', hs', htick, htimer, hinit, hsub, hlead, hpre⟩ := scan_turn_shrinks hrows hb hexp
          (hp t (by rw [hb]; exact List.mem_cons_self)) (hspin t ht)
        have hrows' := (settleTimer_spec hrows.timerRemove hs').1
        have hne : ∀ u ∈ row.takeWhile (expired s s.tick), u ≠ t := fun u hu => by
          have hn : (t :: row).Nodup := hb ▸ hrows.nodup .hard
          exact ne_of_mem_of_not_mem (List.takeWhile_subset _ hu) (List.nodup_cons.mp hn).1
        refine ScanReturns.of_turn hb hexp hs' htick (ih _ ?_ hrows' (fun u hu => ?_) ?_ rfl)
        · rw [← hlen, hlead, List.length_cons]
          exact Nat.lt_succ_of_le hpre.length_le
        · by_cases hut : u = t
          · subst hut
            rw [hinit]
            exact hp u (by rw [hb]; exact List.mem_cons_self)
          · rw [htimer u hut]
            exact hp u (hsub u hu)
        · intro u hu
          have hu := hpre.subset hu
          have hspin' := hspin u (by rw [hlead]; exact List.mem_cons_of_mem t hu)
          rwa [Spins, rearms, htimer u (hne u hu)]

/-- Seen from `b` the list is in order, and so is every timer that a restart puts back now. -/
structure InOrder (cfg : SkipListConfig) (s : Timers) (b : Tick) : Prop where
  sorted : (s.bottom cfg .hard).Pairwise fun t u => ticksTo s b t ≤ ticksTo s b u
  near : ∀ t ∈ s.bottom cfg .hard, InWindow s b t
  room : ∀ t ∈ s.bottom cfg .hard,
    (s.tick - b).toNat + (s.timer t).initTick.toNat < halfTickMax.toNat

theorem window_expired {now b x : Tick} (hx : x - b < halfTickMax) (hn : (now - b).toNat < halfTickMax.toNat) :
    now - x < halfTickMax ↔ x - b ≤ now - b := by
  unfold halfTickMax at *
  constructor
  · intro h
    bv_omega
  · intro h
    bv_omega

theorem restart_ticks {now b p : Tick} (h : (now - b).toNat + p.toNat < halfTickMax.toNat) :
    (now + p - b).toNat = (now - b).toNat + p.toNat ∧ now + p - b < halfTickMax := by
  unfold halfTickMax at *
  constructor <;> bv_omega

variable {b : Tick}

theorem InOrder.expired_iff (ho : InOrder cfg s b) (ht : t ∈ s.bottom cfg .hard) :
    expired s s.tick t = true ↔ ticksTo s b t ≤ s.tick - b := by
  have hn : (s.tick - b).toNat < halfTickMax.toNat := by
    have := ho.room t ht
    omega
  simpa [expired, ticksTo] using window_expired (ho.near t ht) hn

theorem takeWhile_eq_filter {p : TimerId → Bool}
    (h : row.Pairwise fun t u => p u = true → p t = true) : row.takeWhile p = row.filter p := by
  induction row with
  | nil => rfl
  | cons a row ih =>
    obtain ⟨ha, hrow⟩ := List.pairwise_cons.mp h
    by_cases hp : p a = true
    · simp [hp, ih hrow]
    · have hnone : row.filter p = [] :=
        List.filter_eq_nil_iff.mpr fun u hu hpu => hp (ha u hu hpu)
      simp [hp, hnone]

/-- In an ordered list every expired timer is a leading one. -/
theorem InOrder.mem_leadingExpired (ho : InOrder cfg s b) :
    t ∈ leadingExpired cfg s ↔ t ∈ s.bottom cfg .hard ∧ expired s s.tick t = true := by
  rw [leadingExpired, takeWhile_eq_filter, List.mem_filter]
  refine ho.sorted.imp_of_mem fun ht hu hle hexp => ?_
  rw [ho.expired_iff ht]
  exact BitVec.le_trans hle ((ho.expired_iff hu).mp hexp)

theorem InOrder.congr (ho : InOrder cfg s b) (hsub : (s'.bottom cfg .hard).Sublist (s.bottom cfg .hard))
    (htick : s'.tick = s.tick) (htimer : ∀ u ∈ s'.bottom cfg .hard, s'.timer u = s.timer u) :
    InOrder cfg s' b := by
  refine ⟨?_, fun u hu => ?_, fun u hu => ?_⟩
  · refine (ho.sorted.sublist hsub).imp_of_mem fun ht hu hle => ?_
    rwa [ticksTo, ticksTo, htimer _ ht, htimer _ hu]
  · exact (ho.near u (hsub.subset hu)).of_timer_eq (htimer u hu)
  · rw [htick, htimer u hu]
    exact ho.room u (hsub.subset hu)

/-- The restarted timer is put behind those that expire no later. -/
theorem InOrder.restarted (ho : InOrder cfg s b) (hrows : RowsOk cfg s)
    (hb : s.bottom cfg .hard = t :: row) (hst : TimerStarted cfg s t s') : InOrder cfg s' b := by
  have hn : (t :: row).Nodup := hb ▸ hrows.nodup .hard
  have hlist : listOf (s.timer t) = .hard := hrows.own .hard t (by rw [hb]; exact List.mem_cons_self)
  obtain ⟨p, A, B, hcut, hrow⟩ := hst.own
  rw [hlist, hb, filter_ne_of_cons hn] at hcut
  rw [hlist] at hrow
  have hne : ∀ u ∈ row, u ≠ t := fun u hu => ne_of_mem_of_not_mem hu (List.nodup_cons.mp hn).1
  have htimer : ∀ u ∈ row, s'.timer u = s.timer u := fun u hu => by simp [hst.timer, hne u hu]
  have hself : s'.timer t = startedTimer s t := by simp [hst.timer]
  have hroom := ho.room t (by rw [hb]; exact List.mem_cons_self)
  have hnew : InWindow s' b t := by
    simpa [InWindow, ticksTo, hself, startedTimer] using (restart_ticks hroom).2
  have hold : ∀ u ∈ row, InWindow s' b u := fun u hu =>
    (ho.near u (by rw [hb]; exact List.mem_cons_of_mem t hu)).of_timer_eq (htimer u hu)
  have hsorted : row.Pairwise fun t u => ticksTo s' b t ≤ ticksTo s' b u := by
    have h := ho.sorted
    rw [hb] at h
    refine (List.pairwise_cons.mp h).2.imp_of_mem fun ht hu hle => ?_
    rwa [ticksTo, ticksTo, htimer _ ht, htimer _ hu]
  obtain ⟨hA, hB⟩ := hcut.sorted (fun u => (ticksTo s' b u).toNat) (x := t) hsorted
    fun u hu => breaksAt_iff (hold u hu) hnew
  have hmem : ∀ {u}, u ∈ s'.bottom cfg .hard → u = t ∨ u ∈ row := fun {u} hu => by
    rw [hrow] at hu
    rw [hcut.eq]
    simp only [List.mem_append, List.mem_cons] at hu ⊢
    tauto
  refine ⟨?_, fun u hu => ?_, fun u hu => ?_⟩
  · rw [hcut.eq] at hsorted
    obtain ⟨hsA, hsB, hAB⟩ := List.pairwise_append.mp hsorted
    rw [hrow]
    refine List.pairwise_append.mpr ⟨hsA, List.pairwise_cons.mpr ⟨fun u hu => ?_, hsB⟩, ?_⟩
    · exact (hB u hu).le
    · intro a ha u hu
      rcases List.mem_cons.mp hu with rfl | hu
      · exact hA a ha
      · exact hAB a ha u hu
  · rcases hmem hu with rfl | hu
    · exact hnew
    · exact hold u hu
  · rw [hst.tick]
    rcases hmem hu with rfl | hu
    · simpa [hself, startedTimer] using hroom
    · rw [htimer u hu]
      exact ho.room u (by rw [hb]; exact List.mem_cons_of_mem t hu)

/-- A turn of the scan keeps a spinning timer among the leading expired ones. -/
theorem scan_turn_spins (hrows : RowsOk cfg s) (ho : InOrder cfg s b)
    (hb : s.bottom cfg .hard = t :: row) (hspin : ∃ u ∈ leadingExpired cfg s, Spins s u) :
    ∃ s', settleTimer cfg (timerRemove s t) t (rearms (timerRemove s t) t) = some s' ∧
      s'.tick = s.tick ∧ InOrder cfg s' b ∧ ∃ u ∈ leadingExpired cfg s', Spins s' u := by
  have hn : (t :: row).Nodup := hb ▸ hrows.nodup .hard
  have hlist : listOf (s.timer t) = .hard := hrows.own .hard t (by rw [hb]; exact List.mem_cons_self)
  obtain ⟨u, hu, hsu⟩ := hspin
  obtain ⟨hmem, hexp⟩ := ho.mem_leadingExpired.mp hu
  rw [hb] at hmem
  cases hr : rearms s t with
  | false =>
    obtain ⟨s', hs', hd⟩ := settleTimer_dropped cfg hr
    have hut : u ≠ t := by
      rintro rfl
      simp [hsu.1] at hr
    have hrow : s'.bottom cfg .hard = row := by rw [hd.bottom, hb, filter_ne_of_cons hn]
    have htimer : ∀ v ∈ s'.bottom cfg .hard, s'.timer v = s.timer v := fun v hv => by
      have hvt : v ≠ t := ne_of_mem_of_not_mem (hrow ▸ hv) (List.nodup_cons.mp hn).1
      simp [hd.timer, hvt]
    have hmem' : u ∈ s'.bottom cfg .hard := hrow ▸ (List.mem_cons.mp hmem).resolve_left hut
    have ho' : InOrder cfg s' b :=
      ho.congr (by rw [hrow, hb]; exact List.sublist_cons_self t row) hd.tick htimer
    refine ⟨s', hs', hd.tick, ho', u, ho'.mem_leadingExpired.mpr ⟨hmem', ?_⟩, ?_⟩
    · rwa [expired, hd.tick, htimer u hmem']
    · rwa [Spins, rearms, htimer u hmem']
  | true =>
    have hroom := ho.room t (by rw [hb]; exact List.mem_cons_self)
    have hp : (s.timer t).initTick < halfTickMax := by
      unfold halfTickMax at *
      bv_omega
    obtain ⟨s', hs', hst⟩ := settleTimer_restarted hrows hr hp
    have ho' := ho.restarted hrows hb hst
    have hmem' : u ∈ s'.bottom cfg .hard := by
      rw [hst.mem_bottom, hb, hlist]
      by_cases hut : u = t
      · exact Or.inr ⟨hut, rfl⟩
      · exact Or.inl ⟨hmem, hut⟩
    refine ⟨s', hs', hst.tick, ho', u, ho'.mem_leadingExpired.mpr ⟨hmem', ?_⟩, ?_⟩
    · by_cases hut : u = t
      · subst hut
        simp [expired, hst.tick, hst.timer, startedTimer, hsu.2, halfTickMax]
      · rw [expired, hst.tick, hst.timer, Function.update_of_ne hut]
        exact hexp
    · by_cases hut : u = t
      · subst hut
        have hper : (s.timer u).periodic = true := (Bool.and_eq_true_iff.mp hsu.1).1
        simp [Spins, rearms, hst.timer, startedTimer, hper, hsu.2]
      · rw [Spins, rearms, hst.timer, Function.update_of_ne hut]
        exact hsu

/-- With a spinning timer among the leading expired ones the scan never leaves its loop. -/
theorem not_scanReturns_of_spins (hrows : RowsOk cfg s) (ho : InOrder cfg s b)
    (hspin : ∃ u ∈ leadingExpired cfg s, Spins s u) : ¬ScanReturns cfg s soft := by
  rintro ⟨n, y, hy, hidle⟩
  induction n using Nat.strong_induction_on generalizing s with
  | _ n ih =>
    obtain ⟨u, hu, -⟩ := id hspin
    obtain ⟨hmem, -⟩ := ho.mem_leadingExpired.mp hu
    cases hb : s.bottom cfg .hard with
    | nil => simp [hb] at hmem
    | cons t row =>
      have hexp : expired s s.tick t = true := by
        by_contra hexp
        simp [leadingExpired, hb, hexp] at hu
      match n with
      | 0 =>
        obtain rfl := Option.some.inj hy
        simp [scanning] at hidle
      | 1 =>
        have hy1 : some ⟨timerRemove s t, .run t, soft⟩ = some y := by
          simpa [List.replicate_succ, runFrom, expiryStep, hardStep, scanning, hb, hexp] using hy
        obtain rfl := Option.some.inj hy1
        simp at hidle
      | n + 2 =>
        obtain ⟨s', hs', htick, ho', hspin'⟩ := scan_turn_spins hrows ho hb hspin
        rw [scan_turn hb hexp hs' htick] at hy
        exact ih n (by omega) (settleTimer_spec hrows.timerRemove hs').1 ho' hspin' hy

theorem timerCall_periods {c : TimerCall} {h : TimerHistory} (hrows : RowsOk cfg s)
    (hp : ∀ l, ∀ t ∈ s.bottom cfg l, (s.timer t).initTick < halfTickMax)
    (hok : PeriodsPass h (.call c)) (hs : timerCall cfg s c = some s') :
    ∀ l, ∀ t ∈ s'.bottom cfg l, (s'.timer t).initTick < halfTickMax := by
  intro l u hu
  cases c with
  | start t =>
    obtain ⟨-, hst⟩ := rtTimerStart_spec hrows hs
    rw [hst.timer]
    rcases hst.mem_bottom.mp hu with ⟨hu, hut⟩ | ⟨rfl, -⟩
    · simpa [hut] using hp l u hu
    · simpa [startedTimer] using hst.initTick
  | stop t =>
    obtain rfl := Option.some.inj hs
    rw [rtTimerStop_state] at hu ⊢
    split at hu
    next ha =>
      obtain ⟨hu, hut⟩ := mem_timerRemove.mp hu
      rw [if_pos ha]
      simpa [setActivated, hut] using hp l u hu
    next ha =>
      rw [if_neg ha]
      exact hp l u hu
  | control t cmd arg =>
    obtain rfl := Option.some.inj hs
    have hu' : u ∈ s.bottom cfg l := by
      rw [Timers.bottom, rtTimerControl_row] at hu
      exact hu
    by_cases hut : u = t
    · subst hut
      cases cmd with
      | setTime =>
        have hok : arg < halfTickMax := hok
        simpa [rtTimerControl] using hok
      | getTime => exact hp l u hu'
      | setOneshot => simpa [rtTimerControl] using hp l u hu'
      | setPeriodic => simpa [rtTimerControl] using hp l u hu'
    · obtain ⟨f, hf, -⟩ := rtTimerControl_spec s t cmd arg
      rw [hf, Timers.set_of_ne hut]
      exact hp l u hu'
  | detach t =>
    obtain rfl := Option.some.inj hs
    exact hp l u (mem_timerRemove.mp hu).1

theorem timerReach_periods {h : TimerHistory}
    (hr : Reach (timerStep cfg) PeriodsPass TimerHistoryStart h) :
    RowsOk cfg h.timers ∧ ∀ l, ∀ t ∈ h.timers.bottom cfg l, (h.timers.timer t).initTick < halfTickMax := by
  refine hr.invariant (I := fun h => RowsOk cfg h.timers ∧
    ∀ l, ∀ t ∈ h.timers.bottom cfg l, (h.timers.timer t).initTick < halfTickMax) ?_ ?_
  · intro h h0
    exact ⟨h0.1.rowsOk, fun l t ht => by simp [Timers.bottom, h0.1.row] at ht⟩
  · intro h a h' hi hok hs
    cases a with
    | call c =>
      obtain ⟨s', hc, rfl⟩ := Option.map_eq_some_iff.mp hs
      exact ⟨timerCall_rowsOk hi.1 hc, timerCall_periods hi.1 hi.2 hok hc⟩
    | tick =>
      obtain rfl := Option.some.inj hs
      exact ⟨hi.1.of_row rfl fun _ => rfl, hi.2⟩

/-- The scan returns when none of the expired timers it comes to is periodic with no period, and, on a
list in order, only then. -/
theorem timerReach_scanReturns {h : TimerHistory}
    (hr : Reach (timerStep cfg) PeriodsPass TimerHistoryStart h) (soft : SoftCheck) :
    ((∀ t ∈ leadingExpired cfg h.timers, ¬Spins h.timers t) → ScanReturns cfg h.timers soft) ∧
    ∀ b, InOrder cfg h.timers b →
      (ScanReturns cfg h.timers soft ↔ ∀ t ∈ leadingExpired cfg h.timers, ¬Spins h.timers t) := by
  obtain ⟨hrows, hp⟩ := timerReach_periods hr
  have hreturns : (∀ t ∈ leadingExpired cfg h.timers, ¬Spins h.timers t) →
      ScanReturns cfg h.timers soft := scanReturns_of_not_spins hrows (hp .hard)
  refine ⟨hreturns, fun b ho => ⟨fun hret t ht hs => ?_, hreturns⟩⟩
  exact not_scanReturns_of_spins hrows ho ⟨t, ht, hs⟩ hret

end

/-- The one-shot timer 0 and the periodic timer 1 have expired. -/
def twoExpired : TimerHistory :=
  (runFrom (timerStep twoRows) [.call (.start 0), .call (.start 1), .tick] ⟨someTimers, [], 0⟩).get
    (by decide +kernel)

theorem timerReach_scanReturns_expired :
    leadingExpired twoRows twoExpired.timers = [0, 1] ∧ ScanReturns twoRows twoExpired.timers .idle := by
  have hr : Reach (timerStep twoRows) PeriodsPass TimerHistoryStart twoExpired :=
    Reach.runFrom (by decide +kernel) (.start ⟨someTimers_start.timers, rfl⟩) (Option.some_get _).symm
  exact ⟨by decide +kernel, (timerReach_scanReturns hr .idle).1 (by decide +kernel)⟩

/-- A periodic timer with `init_tick` 0, which the assertion of `rt_timer_start` lets pass. -/
def zeroPeriod : TimerHistory :=
  (runFrom (timerStep twoRows) [.call (.start 0)]
    ⟨{ someTimers with timer := fun _ => timerInit 0 true false }, [], 0⟩).get (by decide +kernel)

theorem zero_period_never_returns :
    ¬∀ h, Reach (timerStep twoRows) PeriodsPass TimerHistoryStart h →
      ScanReturns twoRows h.timers .idle := by
  intro hall
  have hr : Reach (timerStep twoRows) PeriodsPass TimerHistoryStart zeroPeriod :=
    Reach.runFrom (by decide +kernel)
      (.start ⟨⟨fun _ _ => rfl, fun _ => ⟨_, _, _, rfl⟩⟩, rfl⟩) (Option.some_get _).symm
  have hbottom : zeroPeriod.timers.bottom twoRows .hard = [0] := by decide +kernel
  have ho : InOrder twoRows zeroPeriod.timers 0 := by
    refine ⟨?_, ?_, ?_⟩
    · rw [hbottom]
      exact List.pairwise_singleton _ _
    · rw [hbottom]
      decide +kernel
    · rw [hbottom]
      decide +kernel
  exact not_scanReturns_of_spins (timerReach_periods hr).1 ho ⟨0, by decide +kernel, by decide +kernel⟩
    (hall zeroPeriod hr)

end RTThread
