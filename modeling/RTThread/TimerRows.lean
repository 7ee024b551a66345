import RTThread.TimerModel

namespace RTThread

section
variable {cfg : SkipListConfig} {s s' : Timers} {t u : TimerId} {l : TimerList} {c : TimerCall}

/-- What `rt_timer_start` writes into the timer. -/
def startedTimer (s : Timers) (t : TimerId) : Timer :=
  { s.timer t with activated := true, timeoutTick := s.tick + (s.timer t).initTick }

/-- `rt_timer_start` cuts the list without the timer at the place its search ends and links the
timer there. -/
structure TimerStarted (cfg : SkipListConfig) (s : Timers) (t : TimerId) (s' : Timers) : Prop where
  initTick : (s.timer t).initTick < halfTickMax
  timer : s'.timer = Function.update s.timer t (startedTimer s t)
  tick : s'.tick = s.tick
  other : ∀ l, l ≠ listOf (s.timer t) → s'.bottom cfg l = (s.bottom cfg l).filter (· ≠ t)
  own : ∃ p A B, RowCut (breaksAt s'.timer t)
    ((s.bottom cfg (listOf (s.timer t))).filter (· ≠ t)) p A B ∧
    s'.bottom cfg (listOf (s.timer t)) = A ++ t :: B

theorem rtAssert_eq_some {p : Prop} [Decidable p] {x : Unit} (h : rtAssert p = some x) : p := by
  unfold rtAssert at h
  split at h
  next hp => exact hp
  next => simp at h

theorem listOf_startedTimer : listOf (startedTimer s t) = listOf (s.timer t) := rfl

theorem setTimeout_rowsOk (h : RowsOk cfg s) : RowsOk cfg (setTimeout s t) := h.set fun _ => rfl

theorem setActivated_rowsOk {b : Bool} (h : RowsOk cfg s) : RowsOk cfg (setActivated s t b) :=
  h.set fun _ => rfl

theorem timerInsert_timer : (timerInsert cfg s t).timer =
    Function.update s.timer t { s.timer t with activated := true } := rfl

theorem breaksAt_insert :
    breaksAt (timerInsert cfg s t).timer t = breaksAt s.timer t := by
  funext n
  by_cases hn : n = t
  · subst hn
    simp [breaksAt]
  · simp [breaksAt, timerInsert_timer, hn]

theorem timerInsert_row : (timerInsert cfg s t).row = Function.update s.row (listOf (s.timer t))
    (insertRows (breaksAt s.timer t) (s.row (listOf (s.timer t))) cfg.level
      (upperRows cfg.mask (s.randomNr + 1) (cfg.level - 1) + 1) t) := rfl

theorem timerInsert_bottom_of_ne (hl : l ≠ listOf (s.timer t)) :
    (timerInsert cfg s t).bottom cfg l = s.bottom cfg l := by
  simp [Timers.bottom, timerInsert_row, hl]

theorem timerInsert_bottom (h : RowsOk cfg s) :
    ∃ p A B, RowCut (breaksAt s.timer t) (s.bottom cfg (listOf (s.timer t))) p A B ∧
      (timerInsert cfg s t).bottom cfg (listOf (s.timer t)) = A ++ t :: B := by
  obtain ⟨A, B, hcut⟩ := rowCut_rowHead (breaksAt s.timer t) (h.nested _) (h.nodup _)
    (Nat.sub_one_lt cfg.levelPos.ne')
  refine ⟨_, A, B, hcut, ?_⟩
  have hpos := cfg.levelPos
  rw [Timers.bottom, timerInsert_row, Function.update_self, insertRows,
    if_pos ⟨by omega, by omega⟩]
  exact hcut.insertAfter (h.nodup _)

theorem timerInsert_rowsOk (h : RowsOk cfg s) (ht : ∀ l, t ∉ s.bottom cfg l) :
    RowsOk cfg (timerInsert cfg s t) := by
  have hlist : ∀ u, listOf ((timerInsert cfg s t).timer u) = listOf (s.timer u) := fun u =>
    listOf_set (s := s) (f := fun x => { x with activated := true }) fun _ => rfl
  refine ⟨fun l => ?_, fun l => ?_, fun l u hu => ?_⟩
  · rw [timerInsert_row]
    by_cases hl : l = listOf (s.timer t)
    · subst hl
      simpa using insertRows_nested (h.nested _) (h.nodup _)
    · simpa [hl] using h.nested l
  · by_cases hl : l = listOf (s.timer t)
    · obtain ⟨p, A, B, hcut, hb⟩ := timerInsert_bottom (t := t) h
      have hn := h.nodup l
      have hmem := ht l
      rw [hl] at hn hmem ⊢
      rw [hcut.eq] at hn hmem
      rw [hb]
      exact List.nodup_middle.mpr (List.nodup_cons.mpr ⟨hmem, hn⟩)
    · rw [timerInsert_bottom_of_ne hl]
      exact h.nodup l
  · rw [hlist]
    by_cases hl : l = listOf (s.timer t)
    · obtain ⟨p, A, B, hcut, hb⟩ := timerInsert_bottom (t := t) h
      rw [hl, hb] at hu
      rcases List.mem_append.mp hu with hu | hu
      · exact h.own l u (by rw [hl, hcut.eq]; exact List.mem_append_left _ hu)
      · rcases List.mem_cons.mp hu with rfl | hu
        · exact hl.symm
        · exact h.own l u (by rw [hl, hcut.eq]; exact List.mem_append_right _ hu)
    · rw [timerInsert_bottom_of_ne hl] at hu
      exact h.own l u hu

theorem rtTimerStart_spec (h : RowsOk cfg s) (hs : rtTimerStart cfg s t = some s') :
    RowsOk cfg s' ∧ TimerStarted cfg s t s' := by
  obtain ⟨_, hassert, hs⟩ := Option.bind_eq_some_iff.mp hs
  obtain rfl := Option.some.inj hs
  have hinit := rtAssert_eq_some hassert
  have hr := setTimeout_rowsOk (t := t)
    (setActivated_rowsOk (t := t) (b := false) (h.timerRemove (t := t)))
  have hmem : ∀ l, t ∉ (setTimeout (setActivated (timerRemove s t) t false) t).bottom cfg l :=
    fun l ht => (mem_timerRemove.mp ht).2 rfl
  have hlist : listOf ((setTimeout (setActivated (timerRemove s t) t false) t).timer t) =
      listOf (s.timer t) := by simp [setTimeout, setActivated, listOf]
  refine ⟨timerInsert_rowsOk hr hmem, ?_, ?_, rfl, fun l hl => ?_, ?_⟩
  · simpa [setActivated] using hinit
  · simp [timerInsert_timer, setTimeout, setActivated, Timers.set, startedTimer]
  · rw [timerInsert_bottom_of_ne (hlist ▸ hl)]
    rfl
  · rw [breaksAt_insert, ← hlist]
    exact timerInsert_bottom hr

theorem TimerStarted.mem_bottom (hst : TimerStarted cfg s t s') :
    u ∈ s'.bottom cfg l ↔
      (u ∈ s.bottom cfg l ∧ u ≠ t) ∨ (u = t ∧ l = listOf (s.timer t)) := by
  by_cases hl : l = listOf (s.timer t)
  · obtain ⟨p, A, B, hcut, hb⟩ := hst.own
    have hmem : u ∈ (s.bottom cfg l).filter (· ≠ t) ↔ u ∈ A ++ B := by rw [hl, hcut.eq]
    rw [hl, hb, List.mem_append, List.mem_cons]
    simp only [List.mem_filter, List.mem_append, decide_eq_true_eq, hl] at hmem
    rw [hmem]
    tauto
  · rw [hst.other l hl]
    simp [hl]

theorem TimerStarted.linked_iff (h : RowsOk cfg s) (h' : RowsOk cfg s')
    (hst : TimerStarted cfg s t s') : TimerLinked cfg s' u ↔ TimerLinked cfg s u ∨ u = t := by
  have hlist : listOf (s'.timer u) = listOf (s.timer u) := by
    rw [hst.timer]
    by_cases hu : u = t
    · subst hu
      simp [listOf_startedTimer]
    · simp [hu]
  rw [h.linked_iff, h'.linked_iff, hlist, hst.mem_bottom]
  by_cases hu : u = t
  · subst hu
    simp
  · simp [hu]

theorem rtTimerStop_state : (rtTimerStop s t).2 =
    if (s.timer t).activated then setActivated (timerRemove s t) t false else s := by
  unfold rtTimerStop
  split <;> rfl

theorem rtTimerStop_rowsOk (h : RowsOk cfg s) : RowsOk cfg (rtTimerStop s t).2 := by
  rw [rtTimerStop_state]
  split
  · exact setActivated_rowsOk h.timerRemove
  · exact h

/-- `rt_timer_control` writes the period or the periodic bit. -/
theorem rtTimerControl_spec (s : Timers) (t : TimerId) (cmd : TimerCtrl) (arg : Tick) :
    ∃ f : Timer → Timer, (rtTimerControl s t cmd arg).1 = s.set t f ∧
      ∀ x, (f x).activated = x.activated ∧ (f x).softTimer = x.softTimer ∧
        (f x).timeoutTick = x.timeoutTick := by
  cases cmd with
  | getTime =>
    exact ⟨id, by simp [rtTimerControl, Timers.set], fun x => ⟨rfl, rfl, rfl⟩⟩
  | setTime => exact ⟨fun x => { x with initTick := arg }, rfl, fun x => ⟨rfl, rfl, rfl⟩⟩
  | setOneshot => exact ⟨fun x => { x with periodic := false }, rfl, fun x => ⟨rfl, rfl, rfl⟩⟩
  | setPeriodic => exact ⟨fun x => { x with periodic := true }, rfl, fun x => ⟨rfl, rfl, rfl⟩⟩

theorem rtTimerControl_row {cmd : TimerCtrl} {arg : Tick} :
    (rtTimerControl s t cmd arg).1.row = s.row := by
  obtain ⟨f, hf, -⟩ := rtTimerControl_spec s t cmd arg
  rw [hf, Timers.set_row]

theorem rtTimerControl_activated {cmd : TimerCtrl} {arg : Tick} :
    ((rtTimerControl s t cmd arg).1.timer u).activated = (s.timer u).activated := by
  obtain ⟨f, hf, hx⟩ := rtTimerControl_spec s t cmd arg
  rw [hf]
  by_cases hu : u = t
  · subst hu
    simp [hx]
  · simp [hu]

theorem timerCall_rowsOk (h : RowsOk cfg s) (hs : timerCall cfg s c = some s') :
    RowsOk cfg s' := by
  cases c with
  | start t => exact (rtTimerStart_spec h hs).1
  | stop t =>
    obtain rfl := Option.some.inj hs
    exact rtTimerStop_rowsOk h
  | control t cmd arg =>
    obtain rfl := Option.some.inj hs
    obtain ⟨f, hf, hx⟩ := rtTimerControl_spec s t cmd arg
    rw [hf]
    exact h.set fun x => (hx x).2.1
  | detach t =>
    obtain rfl := Option.some.inj hs
    exact h.timerRemove

end

end RTThread
