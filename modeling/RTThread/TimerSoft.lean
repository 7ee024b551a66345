import RTThread.TimerScan

namespace RTThread

/-- The node that the soft loop goes on to when the running callback has returned. -/
def SoftCheck.saved : SoftCheck → Option TimerId
  | .run _ n => n
  | _ => none

/-- Whether a callback is running in the timer thread. -/
def SoftCheck.inCallback : SoftCheck → Bool
  | .run _ _ => true
  | _ => false

/-- One call of `rt_soft_timer_check`: callbacks start timers with positive periods and stop timers,
and the tick may advance. -/
def SoftCallMade (x : Expiry) : ExpiryAction → Prop
  | .soft => x.soft ≠ .idle
  | .call (.start t) => x.soft.inCallback = true ∧ (x.timers.timer t).initTick ≠ 0
  | .call (.stop _) => x.soft.inCallback = true
  | .tick => True
  | _ => False

instance : DecidableRel SoftCallMade
  | x, .soft => inferInstanceAs (Decidable (x.soft ≠ .idle))
  | _, .call (.start _) => inferInstanceAs (Decidable (_ ∧ _))
  | x, .call (.stop _) => inferInstanceAs (Decidable (x.soft.inCallback = true))
  | _, .call (.control _ _ _) => isFalse id
  | _, .call (.detach _) => isFalse id
  | _, .tick => isTrue trivial
  | _, .hard => isFalse id

/-- A callback returns with the saved successor still in the list or not yet due. -/
def KeepsSuccessor (cfg : SkipListConfig) (x : Expiry) : ExpiryAction → Prop
  | .soft => ∀ u ∈ x.soft.saved, expired x.timers x.timers.tick u = true →
    u ∈ x.timers.bottom cfg .soft
  | _ => True

instance {cfg : SkipListConfig} : DecidableRel (KeepsSuccessor cfg)
  | x, .soft => inferInstanceAs (Decidable (∀ u ∈ x.soft.saved, _))
  | _, .call _ => isTrue trivial
  | _, .tick => isTrue trivial
  | _, .hard => isTrue trivial

/-- The call has read the tick and the first node of a list of timers with positive periods. -/
structure SoftEntered (cfg : SkipListConfig) (x : Expiry) : Prop where
  rows : RowsOk cfg x.timers
  hard : x.hard = .idle
  soft : x.soft = .scan x.timers.tick (x.timers.bottom cfg .soft).head?
  periods : ∀ t ∈ x.timers.bottom cfg .soft,
    (x.timers.timer t).initTick ≠ 0 ∧ (x.timers.timer t).initTick < halfTickMax

/-- What the loop relies on at each of its places. -/
def SoftCheck.Sound (cfg : SkipListConfig) (s : Timers) : SoftCheck → Prop
  | .idle => True
  | .scan cur n => ∀ u ∈ n, expired s cur u = true → u ∈ s.bottom cfg .soft
  | .unlink t => t ∈ s.bottom cfg .soft
  | .invoke t n => ∀ u ∈ n, u ≠ t ∧ u ∈ s.bottom cfg .soft
  | .run t n => ∀ u ∈ n, u ≠ t
  | .settle t n cur _ => ∀ u ∈ n, u ≠ t ∧ (expired s cur u = true → u ∈ s.bottom cfg .soft)

structure SoftInv (cfg : SkipListConfig) (x : Expiry) : Prop where
  rows : RowsOk cfg x.timers
  hard : x.hard = .idle
  sound : x.soft.Sound cfg x.timers
  periods : ∀ t, t ∈ x.timers.bottom cfg .soft ∨ x.soft.expiring = some t →
    (x.timers.timer t).initTick ≠ 0 ∧ (x.timers.timer t).initTick < halfTickMax

section
variable {cfg : SkipListConfig} {s s' : Timers} {t u : TimerId} {n : Option TimerId} {x x' : Expiry}
  {a : ExpiryAction} {as : List ExpiryAction} {row : List TimerId} {cur : Tick} {rearm : Bool}

theorem nextNode_spec (hn : row.Nodup) (ht : t ∈ row) :
    ∀ u ∈ nextNode row t, u ≠ t ∧ u ∈ row := by
  obtain ⟨A, B, rfl⟩ := List.append_of_mem ht
  have hafter : afterNode (some t) (A ++ t :: B) = B := by
    have h := afterNode_getLast? (A := A ++ [t]) (B := B) (by simpa using hn)
    simpa using h
  intro u hu
  rw [nextNode, if_pos ht, hafter] at hu
  have huB := List.mem_of_head? hu
  obtain ⟨-, hn, -⟩ := List.nodup_append.mp hn
  exact ⟨ne_of_mem_of_not_mem huB (List.nodup_cons.mp hn).1, by simp [huB]⟩

theorem expired_congr (h : (s'.timer u).timeoutTick = (s.timer u).timeoutTick) :
    expired s' cur u = expired s cur u := by rw [expired, expired, h]

theorem softInv_enter (h : SoftEntered cfg x) : SoftInv cfg x := by
  refine ⟨h.rows, h.hard, ?_, fun t ht => ?_⟩
  · rw [h.soft]
    exact fun u hu _ => List.mem_of_head? hu
  · rw [h.soft] at ht
    exact h.periods t (ht.resolve_right (by simp [SoftCheck.expiring]))

theorem softStep_inv (hi : SoftInv cfg x) (hok : KeepsSuccessor cfg x .soft)
    (hs : softStep cfg x = some x') : SoftInv cfg x' := by
  have hsound := hi.sound
  have hperiods := hi.periods
  unfold softStep at hs
  split at hs
  next hsoft =>
    obtain rfl := Option.some.inj hs
    refine ⟨hi.rows, hi.hard, fun u hu _ => List.mem_of_head? hu, fun t ht => hperiods t ?_⟩
    exact Or.inl (ht.resolve_right (by simp [SoftCheck.expiring]))
  next cur hsoft =>
    obtain rfl := Option.some.inj hs
    refine ⟨hi.rows, hi.hard, trivial, fun t ht => hperiods t ?_⟩
    exact Or.inl (ht.resolve_right (by simp [SoftCheck.expiring]))
  next cur t hsoft =>
    obtain rfl := Option.some.inj hs
    rw [hsoft] at hsound
    refine ⟨hi.rows, hi.hard, ?_, fun u hu => hperiods u ?_⟩
    · by_cases hexp : expired x.timers cur t = true
      · simpa [hexp, SoftCheck.Sound] using hsound t rfl hexp
      · simp [hexp, SoftCheck.Sound]
    · refine Or.inl (hu.resolve_right ?_)
      by_cases hexp : expired x.timers cur t = true <;> simp [hexp, SoftCheck.expiring]
  next t hsoft =>
    obtain rfl := Option.some.inj hs
    rw [hsoft] at hsound
    have hnext := nextNode_spec (hi.rows.nodup .soft) hsound
    refine ⟨hi.rows.timerRemove, hi.hard, fun u hu => ⟨(hnext u hu).1, ?_⟩, fun u hu => ?_⟩
    · exact mem_timerRemove.mpr ⟨(hnext u hu).2, (hnext u hu).1⟩
    · rcases hu with hu | hu
      · exact hperiods u (Or.inl (mem_timerRemove.mp hu).1)
      · obtain rfl : t = u := Option.some.inj hu
        exact hperiods t (Or.inl hsound)
  next t n hsoft =>
    obtain rfl := Option.some.inj hs
    rw [hsoft] at hsound
    exact ⟨hi.rows, hi.hard, fun u hu => (hsound u hu).1, fun u hu => hperiods u (by rwa [hsoft])⟩
  next t n hsoft =>
    obtain rfl := Option.some.inj hs
    rw [hsoft] at hsound
    refine ⟨hi.rows, hi.hard, fun u hu => ⟨hsound u hu, hok u ?_⟩,
      fun u hu => hperiods u (by rwa [hsoft])⟩
    rwa [hsoft]
  next t n cur rearm hsoft =>
    obtain ⟨s', hs', rfl⟩ := Option.map_eq_some_iff.mp hs
    rw [hsoft] at hsound
    obtain ⟨hmem, htimer, hinit, -⟩ := settleTimer_bottom hi.rows hs'
    refine ⟨(settleTimer_spec hi.rows hs').1, hi.hard, fun u hu hexp => ?_, fun u hu => ?_⟩
    · obtain ⟨hut, hkept⟩ := hsound u hu
      have heq : expired s' cur u = expired x.timers cur u := expired_congr (by rw [htimer u hut])
      rw [hmem .soft u hut]
      exact hkept (heq ▸ hexp)
    · have hu : u ∈ s'.bottom cfg .soft := hu.resolve_right (by simp [SoftCheck.expiring])
      by_cases hut : u = t
      · subst hut
        rw [hinit]
        exact hperiods u (Or.inr (by rw [hsoft]; rfl))
      · rw [htimer u hut]
        exact hperiods u (Or.inl ((hmem .soft u hut).mp hu))

theorem inCallback_spec (h : x.soft.inCallback = true) : ∃ t n, x.soft = .run t n := by
  cases hsoft : x.soft with
  | run t n => exact ⟨t, n, rfl⟩
  | _ => simp [hsoft, SoftCheck.inCallback] at h

theorem softCall_inv {c : TimerCall} (hi : SoftInv cfg x) (hmade : SoftCallMade x (.call c))
    (hs : timerCall cfg x.timers c = some s') : SoftInv cfg { x with timers := s' } := by
  have hrows := timerCall_rowsOk hi.rows hs
  have hsound : ∀ {s'}, x.soft.inCallback = true → x.soft.Sound cfg s' := fun hin => by
    obtain ⟨t, n, hsoft⟩ := inCallback_spec hin
    have h := hi.sound
    rw [hsoft] at h ⊢
    exact h
  cases c with
  | start t =>
    obtain ⟨hin, h0⟩ := hmade
    obtain ⟨-, hst⟩ := rtTimerStart_spec hi.rows hs
    refine ⟨hrows, hi.hard, hsound hin, fun u hu => ?_⟩
    rw [hst.timer]
    by_cases hut : u = t
    · subst hut
      simpa [startedTimer] using ⟨h0, hst.initTick⟩
    · rw [Function.update_of_ne hut]
      refine hi.periods u (hu.imp_left fun hu => ?_)
      exact ((hst.mem_bottom.mp hu).resolve_right fun h => hut h.1).1
  | stop t =>
    obtain rfl := Option.some.inj hs
    refine ⟨hrows, hi.hard, hsound hmade, fun u hu => ?_⟩
    rw [rtTimerStop_state] at hu ⊢
    split
    next ha =>
      rw [if_pos ha] at hu
      have hold := hi.periods u (hu.imp_left fun hu => (mem_timerRemove.mp hu).1)
      by_cases hut : u = t
      · subst hut
        simpa [setActivated] using hold
      · simpa [setActivated, hut] using hold
    next ha =>
      rw [if_neg ha] at hu
      exact hi.periods u hu
  | control t cmd arg => exact hmade.elim
  | detach t => exact hmade.elim

theorem softInv_step (hi : SoftInv cfg x) (hmade : SoftCallMade x a) (hok : KeepsSuccessor cfg x a)
    (hs : expiryStep cfg x a = some x') : SoftInv cfg x' := by
  cases a with
  | call c =>
    cases expiryStep_effect hs with
    | call _ hc => exact softCall_inv hi hmade hc
  | tick =>
    cases expiryStep_effect hs with
    | tick =>
      refine ⟨hi.rows.of_row rfl fun _ => rfl, hi.hard, ?_, hi.periods⟩
      have h := hi.sound
      cases hsoft : x.soft <;> rw [hsoft] at h <;> exact h
  | hard => exact hmade.elim
  | soft =>
    simp only [expiryStep, hi.hard, if_true] at hs
    exact softStep_inv hi hok hs

/-- The states of one call of `rt_soft_timer_check`. -/
abbrev SoftReach (cfg : SkipListConfig) (ok : Expiry → ExpiryAction → Prop) : Expiry → Prop :=
  Reach (expiryStep cfg) (fun x a => SoftCallMade x a ∧ ok x a) (SoftEntered cfg)

theorem softReach_inv (hr : SoftReach cfg (KeepsSuccessor cfg) x) : SoftInv cfg x :=
  hr.invariant (fun _ h => softInv_enter h) fun _ _ _ hi hok hs => softInv_step hi hok.1 hok.2 hs

/-- The expired timers of the soft list. -/
def dueTimers (cfg : SkipListConfig) (s : Timers) : List TimerId :=
  (s.bottom cfg .soft).filter (expired s s.tick)

/-- How many steps the loop can still take: at most five for each due timer. -/
def softRank (cfg : SkipListConfig) (x : Expiry) : Nat :=
  match x.soft with
  | .idle => 0
  | .scan cur _ => 5 * (dueTimers cfg x.timers).length + if cur = x.timers.tick then 1 else 6
  | .unlink t => 5 * (dueTimers cfg (timerRemove x.timers t)).length + 5
  | .invoke _ _ => 5 * (dueTimers cfg x.timers).length + 4
  | .run _ _ => 5 * (dueTimers cfg x.timers).length + 3
  | .settle _ _ cur _ =>
    5 * (dueTimers cfg x.timers).length + if cur = x.timers.tick then 2 else 7

/-- Taking a timer out leaves the other due ones, and itself it counts once. -/
theorem dueTimers_remove (hn : (s.bottom cfg .soft).Nodup) :
    (dueTimers cfg (timerRemove s t)).length +
      (if t ∈ s.bottom cfg .soft ∧ expired s s.tick t = true then 1 else 0) =
      (dueTimers cfg s).length := by
  have hfilter : dueTimers cfg (timerRemove s t) = (dueTimers cfg s).filter (· ≠ t) := by
    show (((s.bottom cfg .soft).filter (· ≠ t)).filter (expired s s.tick)) = _
    simp only [dueTimers, List.filter_filter, Bool.and_comm]
  have hmem : t ∈ dueTimers cfg s ↔ t ∈ s.bottom cfg .soft ∧ expired s s.tick t = true := by
    simp [dueTimers]
  rw [hfilter]
  have hn' : (dueTimers cfg s).Nodup := hn.filter _
  split
  next h =>
    have ht := hmem.mpr h
    rw [← List.length_erase_add_one ht, hn'.erase_eq_filter]
    congr 2
    exact List.filter_congr fun u _ => by by_cases hut : u = t <;> simp [hut]
  next h =>
    have ht : t ∉ dueTimers cfg s := fun ht => h (hmem.mp ht)
    rw [List.filter_eq_self.mpr fun u hu => by simpa using ne_of_mem_of_not_mem hu ht, Nat.add_zero]

/-- A start with a positive period adds no due timer. -/
theorem dueTimers_started (hst : TimerStarted cfg s t s') (h0 : (s.timer t).initTick ≠ 0) :
    (dueTimers cfg s').length ≤ (dueTimers cfg s).length := by
  have hnew : expired s' s'.tick t = false := by
    have hnot := restart_not_expired s.tick h0 hst.initTick
    simpa [expired, hst.timer, hst.tick, startedTimer] using hnot
  have hold : ∀ {row : List TimerId}, (row.filter (· ≠ t)).filter (expired s' s'.tick) =
      (row.filter (· ≠ t)).filter (expired s s.tick) := fun {row} => by
    refine List.filter_congr fun u hu => ?_
    have hut : u ≠ t := by simpa using (List.mem_filter.mp hu).2
    rw [expired, expired, hst.tick, hst.timer, Function.update_of_ne hut]
  have hle : (((s.bottom cfg .soft).filter (· ≠ t)).filter (expired s s.tick)).length ≤
      (dueTimers cfg s).length := ((List.filter_sublist).filter _).length_le
  have heq : (dueTimers cfg s').length =
      (((s.bottom cfg .soft).filter (· ≠ t)).filter (expired s' s'.tick)).length := by
    by_cases hl : .soft = listOf (s.timer t)
    · obtain ⟨p, A, B, hcut, hb⟩ := hst.own
      rw [dueTimers, hl, hb, hcut.eq]
      simp [List.filter_append, hnew]
    · rw [dueTimers, hst.other .soft hl]
  rw [heq, hold]
  exact hle

theorem dueTimers_congr (hrow : s'.row = s.row) (htick : s'.tick = s.tick)
    (htimeout : ∀ u, (s'.timer u).timeoutTick = (s.timer u).timeoutTick) :
    dueTimers cfg s' = dueTimers cfg s := by
  have hexp : expired s' s'.tick = expired s s.tick := by
    funext u
    rw [expired, expired, htick, htimeout]
  rw [dueTimers, dueTimers, Timers.bottom, Timers.bottom, hrow, hexp]

theorem dueTimers_setActivated {b : Bool} :
    dueTimers cfg (setActivated s t b) = dueTimers cfg s := by
  refine dueTimers_congr rfl rfl fun u => ?_
  by_cases hut : u = t
  · subst hut
    simp [setActivated]
  · simp [setActivated, hut]

theorem dueTimers_settle (h : RowsOk cfg s) (hs : settleTimer cfg s t rearm = some s')
    (h0 : (s.timer t).initTick ≠ 0) :
    (dueTimers cfg s').length ≤ (dueTimers cfg s).length := by
  unfold settleTimer at hs
  cases rearm with
  | true =>
    obtain ⟨-, hst⟩ := rtTimerStart_spec (setActivated_rowsOk (t := t) (b := false) h) hs
    have hle := dueTimers_started hst (by simpa [setActivated] using h0)
    rwa [dueTimers_setActivated] at hle
  | false =>
    obtain rfl := Option.some.inj hs
    rw [dueTimers_setActivated]

theorem softStep_rank (hi : SoftInv cfg x) (hne : x.soft ≠ .idle) (hs : softStep cfg x = some x') :
    softRank cfg x' < softRank cfg x := by
  have hsound := hi.sound
  unfold softStep at hs
  split at hs
  next hsoft => exact absurd hsoft hne
  next cur hsoft =>
    obtain rfl := Option.some.inj hs
    simp only [softRank, hsoft]
    split <;> omega
  next cur t hsoft =>
    obtain rfl := Option.some.inj hs
    rw [hsoft] at hsound
    have hremove := dueTimers_remove (t := t) (hi.rows.nodup .soft)
    simp only [softRank, hsoft]
    by_cases hexp : expired x.timers cur t = true
    · simp only [hexp, if_true]
      by_cases hcur : cur = x.timers.tick
      · have hdue := hcur ▸ hexp
        rw [if_pos ⟨hsound t rfl hexp, hdue⟩] at hremove
        rw [if_pos hcur]
        omega
      · rw [if_neg hcur]
        omega
    · simp only [hexp, Bool.false_eq_true, if_false]
      split <;> omega
  next t hsoft =>
    obtain rfl := Option.some.inj hs
    simp only [softRank, hsoft]
    omega
  next t n hsoft =>
    obtain rfl := Option.some.inj hs
    simp only [softRank, hsoft]
    omega
  next t n hsoft =>
    obtain rfl := Option.some.inj hs
    simp only [softRank, hsoft, if_true]
    omega
  next t n cur rearm hsoft =>
    obtain ⟨s', hs', rfl⟩ := Option.map_eq_some_iff.mp hs
    have h0 := (hi.periods t (Or.inr (by rw [hsoft]; rfl))).1
    have hle := dueTimers_settle hi.rows hs' h0
    have htick := (settleTimer_bottom hi.rows hs').2.2.2
    simp only [softRank, hsoft, htick]
    split <;> omega

/-- The calls of a callback make no timer due. -/
theorem softCall_rank {c : TimerCall} (hi : SoftInv cfg x) (hmade : SoftCallMade x (.call c))
    (hs : timerCall cfg x.timers c = some s') :
    softRank cfg { x with timers := s' } ≤ softRank cfg x := by
  have hrun : ∀ {s'}, x.soft.inCallback = true →
      (dueTimers cfg s').length ≤ (dueTimers cfg x.timers).length →
      softRank cfg { x with timers := s' } ≤ softRank cfg x := fun hin hle => by
    obtain ⟨t, n, hsoft⟩ := inCallback_spec hin
    simp only [softRank, hsoft]
    omega
  cases c with
  | start t =>
    obtain ⟨hin, h0⟩ := hmade
    exact hrun hin (dueTimers_started (rtTimerStart_spec hi.rows hs).2 h0)
  | stop t =>
    obtain rfl := Option.some.inj hs
    refine hrun hmade ?_
    rw [rtTimerStop_state]
    split
    · rw [dueTimers_setActivated]
      have hremove := dueTimers_remove (t := t) (hi.rows.nodup .soft)
      omega
    · exact le_rfl
  | control t cmd arg => exact hmade.elim
  | detach t => exact hmade.elim

/-- While the tick stands still the loop takes no more steps than its rank. -/
theorem softRun_bounded (hi : SoftInv cfg x)
    (hok : RunMeets (expiryStep cfg) (fun x a => SoftCallMade x a ∧ KeepsSuccessor cfg x a) as x)
    (htick : .tick ∉ as) (hs : runFrom (expiryStep cfg) as x = some x') :
    as.count .soft ≤ softRank cfg x := by
  induction as generalizing x with
  | nil => simp
  | cons a as ih =>
    obtain ⟨y, hy, hs⟩ := Option.bind_eq_some_iff.mp hs
    obtain ⟨⟨hmade, hkeeps⟩, hrest⟩ := hok
    obtain ⟨hta, htas⟩ := not_or.mp (List.mem_cons.not.mp htick)
    have hy' := softInv_step hi hmade hkeeps hy
    have hcount := ih hy' (hrest y hy) htas hs
    cases a with
    | call c =>
      cases expiryStep_effect hy with
      | call _ hc =>
        have hle := softCall_rank hi hmade hc
        rw [List.count_cons_of_ne (by simp)]
        omega
    | tick => exact absurd rfl hta
    | hard => exact hmade.elim
    | soft =>
      simp only [expiryStep, hi.hard, if_true] at hy
      have hlt := softStep_rank hi hmade hy
      rw [List.count_cons_self]
      omega

/-- The loop is never stuck. -/
theorem softStep_isSome (hi : SoftInv cfg x) : (softStep cfg x).isSome := by
  unfold softStep
  split
  case h_7 t n cur rearm hsoft =>
    have hp := (hi.periods t (Or.inr (by rw [hsoft]; rfl))).2
    cases rearm with
    | true =>
      have hp' : ((setActivated x.timers t false).timer t).initTick < halfTickMax := by
        simpa [setActivated] using hp
      simpa [settleTimer] using rtTimerStart_isSome cfg hp'
    | false => simp [settleTimer]
  all_goals rfl

/-- In a call whose callbacks leave the saved successor in the list, the loop takes only timers that
are in the list, calls the callback of each expired timer it comes to once and with the timer out of
the list, never gets stuck, and while the tick stands still takes a bounded number of steps. -/
theorem softReach_exact (hr : SoftReach cfg (KeepsSuccessor cfg) x) :
    (∀ t, x.soft = .unlink t → t ∈ x.timers.bottom cfg .soft) ∧
    (∀ cur t, x.soft = .scan cur (some t) → expired x.timers cur t = true →
      t ∈ x.timers.bottom cfg .soft ∧ ∃ n y,
        runFrom (expiryStep cfg) [.soft, .soft, .soft] x = some y ∧
        y.soft = .run t n ∧ t ∉ y.timers.bottom cfg .soft) ∧
    (expiryStep cfg x .soft).isSome ∧
    ∀ as y,
      RunMeets (expiryStep cfg) (fun x a => SoftCallMade x a ∧ KeepsSuccessor cfg x a) as x →
      .tick ∉ as → runFrom (expiryStep cfg) as x = some y →
      as.count .soft ≤ 5 * (dueTimers cfg x.timers).length + 7 := by
  have hi := softReach_inv hr
  have hsound := hi.sound
  refine ⟨fun t hsoft => ?_, fun cur t hsoft hexp => ⟨?_, ?_⟩, ?_, fun as y hok htick hs => ?_⟩
  · rw [hsoft] at hsound
    exact hsound
  · rw [hsoft] at hsound
    exact hsound t rfl hexp
  · refine ⟨nextNode (x.timers.bottom cfg .soft) t, ⟨timerRemove x.timers t, x.hard, _⟩, ?_, rfl, ?_⟩
    · simp [runFrom, expiryStep, softStep, hi.hard, hsoft, hexp]
    · exact fun ht => (mem_timerRemove.mp ht).2 rfl
  · simpa only [expiryStep, hi.hard, if_true] using softStep_isSome hi
  · have hcount := softRun_bounded hi hok htick hs
    have hrank : softRank cfg x ≤ 5 * (dueTimers cfg x.timers).length + 7 := by
      unfold softRank
      split
      next => omega
      next => split <;> omega
      next t _ =>
        have hremove := dueTimers_remove (t := t) (hi.rows.nodup .soft)
        omega
      next => omega
      next => omega
      next => split <;> omega
    exact hcount.trans hrank

end

/-- The soft timers 2 and 3 have expired, and their list is being checked. -/
def twoSoftDue : Expiry :=
  (runFrom (expiryStep twoRows) [.call (.start 2), .call (.start 3), .tick, .soft]
    ⟨someTimers, .idle, .idle⟩).get (by decide +kernel)

theorem twoSoftDue_entered : SoftEntered twoRows twoSoftDue := by
  have hr : Reach (expiryStep twoRows) (fun _ _ => True) ExpiryStart twoSoftDue :=
    Reach.runFrom (runMeets_of_forall fun _ _ _ => trivial) (.start someTimers_start)
      (Option.some_get _).symm
  refine ⟨?_, by decide +kernel, by decide +kernel, by decide +kernel⟩
  exact hr.invariant (I := fun x => RowsOk twoRows x.timers) (fun _ h => h.timers.rowsOk)
    fun _ _ _ hi _ hs => expiryEffect_rowsOk hi (expiryStep_effect hs)

/-- The callback of timer 2 stops timer 2. -/
def stoppedSelf : Expiry :=
  (runFrom (expiryStep twoRows) [.soft, .soft, .soft, .call (.stop 2), .soft, .soft]
    twoSoftDue).get (by decide +kernel)

theorem softReach_exact_stoppedSelf : stoppedSelf.soft = .scan 1 (some 3) ∧
    3 ∈ stoppedSelf.timers.bottom twoRows .soft := by
  have hr : SoftReach twoRows (KeepsSuccessor twoRows) stoppedSelf :=
    Reach.runFrom (by decide +kernel) (.start twoSoftDue_entered) (Option.some_get _).symm
  have hsoft : stoppedSelf.soft = .scan 1 (some 3) := by decide +kernel
  exact ⟨hsoft, ((softReach_exact hr).2.1 1 3 hsoft (by decide +kernel)).1⟩

/-- The callback of timer 2 stops timer 3, whose callback runs all the same. -/
def stoppedSuccessor : Expiry :=
  (runFrom (expiryStep twoRows) [.soft, .soft, .soft, .call (.stop 3), .soft, .soft, .soft]
    twoSoftDue).get (by decide +kernel)

theorem stopped_successor_runs : ¬∀ x, SoftReach twoRows (fun _ _ => True) x →
    ∀ t, x.soft = .unlink t → t ∈ x.timers.bottom twoRows .soft := by
  intro hall
  have hr : SoftReach twoRows (fun _ _ => True) stoppedSuccessor :=
    Reach.runFrom (by decide +kernel) (.start twoSoftDue_entered) (Option.some_get _).symm
  have hmem := hall stoppedSuccessor hr 3 (by decide +kernel)
  revert hmem
  decide +kernel

end RTThread
