import RTThread.TimerScan

namespace RTThread

/-- `RT_TICK_MAX`. -/
def rtTickMax : Tick := 0xffffffff

/-- `rt_timer_list_next_timeout`; an empty list gives `RT_TICK_MAX`. -/
def rtTimerListNextTimeout (cfg : SkipListConfig) (s : Timers) (l : TimerList) : Tick :=
  match (s.bottom cfg l).head? with
  | none => rtTickMax
  | some t => (s.timer t).timeoutTick

/-- Where `rt_thread_timer_entry` stands; `check` is `rt_soft_timer_check()`. -/
inductive EntryPlace where
  | top
  | alone
  | found (nextTimeout : Tick)
  | delay (nextTimeout currentTick : Tick)
  | check
deriving DecidableEq, Repr

/-- A call of `rt_timer_start` for a soft timer, by what it has done so far. -/
inductive StartCall where
  | removed (t : TimerId)
  | timed (t : TimerId)
  | inserted (t : TimerId)
deriving DecidableEq, Repr

structure TimerThread where
  timers : Timers
  soft : SoftCheck
  stat : ThreadStat
  place : EntryPlace
  calls : List StartCall

/-- The section of `rt_thread_sleep`; `rt_thread_suspend` stops the thread timer first. -/
def rtThreadSleep (cfg : SkipListConfig) (s : Timers) (threadTimer : TimerId) (tick : Tick) :
    Option Timers :=
  rtTimerStart cfg (rtTimerControl (rtTimerStop s threadTimer).2 threadTimer .setTime tick).1
    threadTimer

/-- The next step of the timer thread. -/
def entryStep (cfg : SkipListConfig) (threadTimer : TimerId) (x : TimerThread) : Option TimerThread :=
  match x.place with
  | .top =>
    let nextTimeout := rtTimerListNextTimeout cfg x.timers .soft
    some { x with place := if nextTimeout = rtTickMax then .alone else .found nextTimeout }
  | .alone =>
    some { x with
      timers := (rtTimerStop x.timers threadTimer).2
      stat := .suspend
      place := .check }
  | .found nextTimeout =>
    some { x with
      place := if nextTimeout - x.timers.tick < halfTickMax then .delay nextTimeout x.timers.tick
        else .check }
  | .delay nextTimeout currentTick =>
    (rtThreadSleep cfg x.timers threadTimer (nextTimeout - currentTick)).map fun s =>
      { x with timers := s, stat := .suspend, place := .check }
  | .check =>
    (softStep cfg ⟨x.timers, .idle, x.soft⟩).map fun y =>
      { x with timers := y.timers, soft := y.soft, place := if y.soft = .idle then .top else .check }

/-- `rt_thread_resume(&timer_thread)`. -/
def resumeTimerThread (threadTimer : TimerId) (x : TimerThread) : TimerThread :=
  if x.stat = .suspend then
    { x with timers := (rtTimerStop x.timers threadTimer).2, stat := .ready }
  else x

/-- `expire` is the tick interrupt finding the thread timer of the suspended thread. -/
inductive EntryAction where
  | startRemove (t : TimerId)
  | startTime (t : TimerId)
  | startInsert (t : TimerId)
  | startResume (t : TimerId)
  | tick
  | expire
  | thread
deriving DecidableEq, Repr

def threadStep (cfg : SkipListConfig) (threadTimer : TimerId) (x : TimerThread) :
    EntryAction → Option TimerThread
  | .startRemove t =>
    if (x.timers.timer t).softTimer then
      some { x with
        timers := setActivated (timerRemove x.timers t) t false
        calls := .removed t :: x.calls }
    else none
  | .startTime t =>
    if .removed t ∈ x.calls ∧ (x.timers.timer t).initTick < halfTickMax then
      some { x with timers := setTimeout x.timers t, calls := .timed t :: x.calls.erase (.removed t) }
    else none
  | .startInsert t =>
    if .timed t ∈ x.calls then
      some { x with timers := timerInsert cfg x.timers t, calls := .inserted t :: x.calls.erase (.timed t) }
    else none
  | .startResume t =>
    if .inserted t ∈ x.calls then
      some { resumeTimerThread threadTimer x with calls := x.calls.erase (.inserted t) }
    else none
  | .tick => some { x with timers := { x.timers with tick := x.timers.tick + 1 } }
  | .expire =>
    if x.stat = .suspend ∧ threadTimer ∈ x.timers.bottom cfg .hard ∧
        expired x.timers x.timers.tick threadTimer then
      (settleTimer cfg (timerRemove x.timers threadTimer) threadTimer
        (rearms x.timers threadTimer)).map fun s => { x with timers := s, stat := .ready }
    else none
  | .thread => if x.stat = .ready then entryStep cfg threadTimer x else none

structure TimerThreadStart (threadTimer : TimerId) (x : TimerThread) : Prop where
  timers : TimersInit x.timers
  threadTimer : (x.timers.timer threadTimer).softTimer = false
  soft : x.soft = .idle
  stat : x.stat = .ready
  place : x.place = .top
  calls : x.calls = []

/-- The ticks all lie in the half range that begins at the earliest of them. -/
def InHalfRange (ticks : List Tick) : Prop := ∃ b ∈ ticks, ∀ x ∈ ticks, x - b < halfTickMax

instance {ticks : List Tick} : Decidable (InHalfRange ticks) :=
  have (b : Tick) : Decidable (∀ x ∈ ticks, x - b < halfTickMax) := List.decidableBAll _ _
  List.decidableBEx _ _

/-- The other timers of the soft list and a timeout to be put among them fit in half the tick range. -/
def FitsSoftList (cfg : SkipListConfig) (s : Timers) (t : TimerId) (timeout : Tick) : Prop :=
  InHalfRange (timeout :: ((s.bottom cfg .soft).filter (· ≠ t)).map fun u => (s.timer u).timeoutTick)

instance {cfg : SkipListConfig} {s : Timers} {t : TimerId} {timeout : Tick} :
    Decidable (FitsSoftList cfg s t timeout) := inferInstanceAs (Decidable (InHalfRange _))

/-- A timer linked now is no earlier than what the thread has decided on. -/
def EntryPlace.Admits (timeout : Tick) : EntryPlace → Prop
  | .alone => False
  | .found nextTimeout => timeout - nextTimeout < halfTickMax
  | .delay nextTimeout _ => timeout - nextTimeout < halfTickMax
  | _ => True

instance {timeout : Tick} : DecidablePred (EntryPlace.Admits timeout)
  | .top => isTrue trivial
  | .alone => isFalse id
  | .found _ => inferInstanceAs (Decidable (_ < _))
  | .delay _ _ => inferInstanceAs (Decidable (_ < _))
  | .check => isTrue trivial

def EntryPlace.isDelay : EntryPlace → Bool
  | .delay _ _ => true
  | _ => false

/-- No two starts of a timer overlap, the pending timeouts fit in half the tick range, none of them
is the tick that stands for an empty list, and neither an earlier timer nor a tick comes between
what the thread has read and its going to sleep on it. -/
def ThreadUndisturbed (cfg : SkipListConfig) (x : TimerThread) : EntryAction → Prop
  | .startTime t => t ∉ x.timers.bottom cfg .soft
  | .startInsert t => t ∉ x.timers.bottom cfg .soft ∧
    FitsSoftList cfg x.timers t (x.timers.timer t).timeoutTick ∧
    x.place.Admits (x.timers.timer t).timeoutTick
  | .tick => x.place.isDelay = false
  | .thread =>
    (x.place = .top →
      ∀ t ∈ (x.timers.bottom cfg .soft).head?, (x.timers.timer t).timeoutTick ≠ rtTickMax) ∧
    ∀ t ∈ x.soft.restarted, FitsSoftList cfg x.timers t (x.timers.tick + (x.timers.timer t).initTick)
  | _ => True

instance {cfg : SkipListConfig} : DecidableRel (ThreadUndisturbed cfg)
  | _, .startRemove _ => isTrue trivial
  | x, .startTime t => inferInstanceAs (Decidable (t ∉ x.timers.bottom cfg .soft))
  | _, .startInsert _ => inferInstanceAs (Decidable (_ ∧ _ ∧ _))
  | _, .startResume _ => isTrue trivial
  | x, .tick => inferInstanceAs (Decidable (x.place.isDelay = false))
  | _, .expire => isTrue trivial
  | x, .thread => inferInstanceAs (Decidable ((x.place = .top → ∀ t ∈ _, _) ∧ ∀ t ∈ _, _))

/-- Each timer of the row expires within half the tick range after those before it. -/
def Chained (s : Timers) (row : List TimerId) : Prop :=
  row.Pairwise fun t u => (s.timer u).timeoutTick - (s.timer t).timeoutTick < halfTickMax

/-- Every soft timer is at or after a tick. -/
def NoneBefore (cfg : SkipListConfig) (s : Timers) (tick : Tick) : Prop :=
  ∀ t ∈ s.bottom cfg .soft, (s.timer t).timeoutTick - tick < halfTickMax

/-- What the thread has decided still holds of the list. -/
def EntryPlace.Sound (cfg : SkipListConfig) (s : Timers) : EntryPlace → Prop
  | .alone => s.bottom cfg .soft = []
  | .found nextTimeout => NoneBefore cfg s nextTimeout
  | .delay nextTimeout currentTick => NoneBefore cfg s nextTimeout ∧ currentTick = s.tick
  | _ => True

/-- The soft timers that a suspended timer thread leaves waiting: none, or none before its timer. -/
def AsleepOn (cfg : SkipListConfig) (s : Timers) (threadTimer : TimerId) : Prop :=
  ((s.timer threadTimer).activated = false → s.bottom cfg .soft = []) ∧
    ((s.timer threadTimer).activated = true →
      NoneBefore cfg s (s.timer threadTimer).timeoutTick)

structure ThreadInv (cfg : SkipListConfig) (threadTimer : TimerId) (x : TimerThread) : Prop where
  rows : RowsOk cfg x.timers
  hardTimer : (x.timers.timer threadTimer).softTimer = false
  calls : ∀ t, .removed t ∈ x.calls ∨ .timed t ∈ x.calls → (x.timers.timer t).softTimer = true
  chained : Chained x.timers (x.timers.bottom cfg .soft)
  place : x.place.Sound cfg x.timers
  asleep : x.stat = .suspend → (∀ t, .inserted t ∉ x.calls) → AsleepOn cfg x.timers threadTimer

section
variable {cfg : SkipListConfig} {s s' : Timers} {t u τ : TimerId} {x x' : TimerThread}
  {a : EntryAction} {row A B : List TimerId} {p : Option TimerId} {tick : Tick} {rearm : Bool}

theorem chain_iff {x y b : Tick} (hx : x - b < halfTickMax) (hy : y - b < halfTickMax) :
    y - x < halfTickMax ↔ x - b ≤ y - b := by
  unfold halfTickMax at *
  constructor
  · intro h
    bv_omega
  · intro h
    bv_omega

theorem Chained.sub (h : Chained s row) (hsub : A.Sublist row)
    (htimeout : ∀ u ∈ A, (s'.timer u).timeoutTick = (s.timer u).timeoutTick) : Chained s' A := by
  refine (List.Pairwise.sublist hsub h).imp_of_mem fun ht hu hlt => ?_
  rwa [htimeout _ ht, htimeout _ hu]

theorem NoneBefore.sub (h : NoneBefore cfg s tick)
    (hsub : ∀ u ∈ s'.bottom cfg .soft, u ∈ s.bottom cfg .soft ∧
      (s'.timer u).timeoutTick = (s.timer u).timeoutTick) : NoneBefore cfg s' tick := by
  intro u hu
  rw [(hsub u hu).2]
  exact h u (hsub u hu).1

/-- The search puts a timer in its place in a row that fits in half the range with it. -/
theorem Chained.insert (h : Chained s row) (hcut : RowCut (breaksAt s.timer t) row p A B)
    (hfits : ∃ b, (s.timer t).timeoutTick - b < halfTickMax ∧
      ∀ u ∈ row, (s.timer u).timeoutTick - b < halfTickMax) : Chained s (A ++ t :: B) := by
  obtain ⟨b, ht, hrow⟩ := hfits
  have hsorted : row.Pairwise fun t u => ticksTo s b t ≤ ticksTo s b u :=
    h.imp_of_mem fun ht hu hlt => (chain_iff (hrow _ ht) (hrow _ hu)).mp hlt
  obtain ⟨hA, hB⟩ := hcut.sorted (fun u => (ticksTo s b u).toNat) (x := t) hsorted
    fun u hu => breaksAt_iff (hrow u hu) ht
  rw [hcut.eq] at h hrow
  obtain ⟨hcA, hcB, hAB⟩ := List.pairwise_append.mp h
  refine List.pairwise_append.mpr ⟨hcA, List.pairwise_cons.mpr ⟨fun u hu => ?_, hcB⟩, ?_⟩
  · exact (chain_iff ht (hrow u (List.mem_append_right A hu))).mpr (hB u hu).le
  · intro a ha u hu
    rcases List.mem_cons.mp hu with rfl | hu
    · exact (chain_iff (hrow a (List.mem_append_left B ha)) ht).mpr (hA a ha)
    · exact hAB a ha u hu

theorem FitsSoftList.window (h : FitsSoftList cfg s t tick) :
    ∃ b, tick - b < halfTickMax ∧
      ∀ u ∈ (s.bottom cfg .soft).filter (· ≠ t), (s.timer u).timeoutTick - b < halfTickMax := by
  obtain ⟨b, -, hb⟩ := h
  exact ⟨b, hb tick List.mem_cons_self, fun u hu =>
    hb _ (List.mem_cons_of_mem _ (List.mem_map.mpr ⟨u, hu, rfl⟩))⟩

theorem listOf_soft (h : (s.timer t).softTimer = true) : listOf (s.timer t) = .soft := by
  simp [listOf, h]

theorem listOf_hard (h : (s.timer t).softTimer = false) : listOf (s.timer t) = .hard := by
  simp [listOf, h]

/-- The first timer of a chained list is the earliest. -/
theorem Chained.noneBefore (h : Chained s (s.bottom cfg .soft))
    (hmax : ∀ t ∈ (s.bottom cfg .soft).head?, (s.timer t).timeoutTick ≠ rtTickMax) :
    (rtTimerListNextTimeout cfg s .soft = rtTickMax → s.bottom cfg .soft = []) ∧
      NoneBefore cfg s (rtTimerListNextTimeout cfg s .soft) := by
  unfold rtTimerListNextTimeout NoneBefore
  cases hrow : s.bottom cfg .soft with
  | nil => simp
  | cons t row =>
    rw [hrow] at h hmax
    simp only [List.head?_cons]
    refine ⟨fun he => absurd he (hmax t rfl), fun u hu => ?_⟩
    rcases List.mem_cons.mp hu with rfl | hu
    · simp [halfTickMax]
    · exact List.rel_of_pairwise_cons h hu

theorem EntryPlace.Sound.sub {place : EntryPlace} (h : place.Sound cfg s)
    (hsub : (s'.bottom cfg .soft).Sublist (s.bottom cfg .soft))
    (htimeout : ∀ u ∈ s'.bottom cfg .soft, (s'.timer u).timeoutTick = (s.timer u).timeoutTick)
    (htick : s'.tick = s.tick) : place.Sound cfg s' := by
  have hmem : ∀ u ∈ s'.bottom cfg .soft, u ∈ s.bottom cfg .soft ∧
      (s'.timer u).timeoutTick = (s.timer u).timeoutTick :=
    fun u hu => ⟨hsub.subset hu, htimeout u hu⟩
  cases place with
  | alone => exact List.sublist_nil.mp (h ▸ hsub)
  | found => exact NoneBefore.sub h hmem
  | delay => exact ⟨NoneBefore.sub h.1 hmem, h.2.trans htick.symm⟩
  | _ => trivial

theorem AsleepOn.sub (h : AsleepOn cfg s τ)
    (hsub : (s'.bottom cfg .soft).Sublist (s.bottom cfg .soft))
    (htimeout : ∀ u ∈ s'.bottom cfg .soft, (s'.timer u).timeoutTick = (s.timer u).timeoutTick)
    (hτ : s'.timer τ = s.timer τ) : AsleepOn cfg s' τ := by
  unfold AsleepOn
  rw [hτ]
  refine ⟨fun ha => List.sublist_nil.mp ((h.1 ha) ▸ hsub), fun ha => ?_⟩
  exact (h.2 ha).sub fun u hu => ⟨hsub.subset hu, htimeout u hu⟩

/-- A step that puts no timer into the soft list. -/
theorem ThreadInv.of_sub (hi : ThreadInv cfg τ x) (hrows : RowsOk cfg x'.timers)
    (hsoft : ∀ u, (x'.timers.timer u).softTimer = (x.timers.timer u).softTimer)
    (hcalls : ∀ t, .removed t ∈ x'.calls ∨ .timed t ∈ x'.calls → (x.timers.timer t).softTimer = true)
    (hsub : (x'.timers.bottom cfg .soft).Sublist (x.timers.bottom cfg .soft))
    (htimeout : ∀ u ∈ x'.timers.bottom cfg .soft,
      (x'.timers.timer u).timeoutTick = (x.timers.timer u).timeoutTick)
    (htick : x'.timers.tick = x.timers.tick) (hplace : x'.place = x.place)
    (hasleep : x'.stat = .suspend → (∀ t, .inserted t ∉ x'.calls) → AsleepOn cfg x'.timers τ) :
    ThreadInv cfg τ x' := by
  refine ⟨hrows, hsoft τ ▸ hi.hardTimer, fun t ht => hsoft t ▸ hcalls t ht, ?_, ?_, hasleep⟩
  · exact hi.chained.sub hsub htimeout
  · rw [hplace]
    exact hi.place.sub hsub htimeout htick

theorem startRemove_inv (hi : ThreadInv cfg τ x) (ht : (x.timers.timer t).softTimer = true) :
    ThreadInv cfg τ { x with
      timers := setActivated (timerRemove x.timers t) t false
      calls := .removed t :: x.calls } := by
  have hτ : τ ≠ t := by
    rintro rfl
    simp [hi.hardTimer] at ht
  have hfield : ∀ u, ((setActivated (timerRemove x.timers t) t false).timer u).softTimer =
      (x.timers.timer u).softTimer ∧
      ((setActivated (timerRemove x.timers t) t false).timer u).timeoutTick =
      (x.timers.timer u).timeoutTick := fun u => by
    by_cases hut : u = t
    · subst hut
      simp [setActivated]
    · simp [setActivated, hut]
  refine hi.of_sub (setActivated_rowsOk hi.rows.timerRemove) (fun u => (hfield u).1) (fun u hu => ?_)
    List.filter_sublist (fun u _ => (hfield u).2) rfl rfl fun hsusp hins => ?_
  · by_cases hut : u = t
    · exact hut ▸ ht
    · exact hi.calls u (by simpa [hut] using hu)
  · have hins' : ∀ t, .inserted t ∉ x.calls := fun u hu => hins u (List.mem_cons_of_mem _ hu)
    exact (hi.asleep hsusp hins').sub List.filter_sublist (fun u _ => (hfield u).2)
      (by simp [setActivated, hτ])

theorem startTime_inv (hi : ThreadInv cfg τ x) (ht : .removed t ∈ x.calls)
    (hout : t ∉ x.timers.bottom cfg .soft) :
    ThreadInv cfg τ { x with
      timers := setTimeout x.timers t, calls := .timed t :: x.calls.erase (.removed t) } := by
  have hsoft := hi.calls t (Or.inl ht)
  have hτ : τ ≠ t := by
    rintro rfl
    simp [hi.hardTimer] at hsoft
  have hfield : ∀ u, ((setTimeout x.timers t).timer u).softTimer = (x.timers.timer u).softTimer :=
    fun u => by
      by_cases hut : u = t
      · subst hut
        simp [setTimeout]
      · simp [setTimeout, hut]
  have htimeout : ∀ u ∈ x.timers.bottom cfg .soft,
      ((setTimeout x.timers t).timer u).timeoutTick = (x.timers.timer u).timeoutTick := fun u hu => by
    have hut : u ≠ t := ne_of_mem_of_not_mem hu hout
    simp [setTimeout, hut]
  refine hi.of_sub (setTimeout_rowsOk hi.rows) hfield (fun u hu => ?_)
    (List.Sublist.refl _) htimeout rfl rfl fun hsusp hins => ?_
  · by_cases hut : u = t
    · exact hut ▸ hsoft
    · refine hi.calls u ?_
      have hsub := List.erase_subset (a := StartCall.removed t) (l := x.calls)
      rcases hu with hu | hu
      · exact Or.inl (hsub (by simpa using hu))
      · exact Or.inr (hsub (by simpa [hut] using hu))
  · refine (hi.asleep hsusp fun u hu => hins u ?_).sub (List.Sublist.refl _) htimeout
      (by simp [setTimeout, hτ])
    exact List.mem_cons_of_mem _ ((List.mem_erase_of_ne (by simp)).mpr hu)

theorem startInsert_inv (hi : ThreadInv cfg τ x) (ht : .timed t ∈ x.calls)
    (hout : t ∉ x.timers.bottom cfg .soft)
    (hfits : FitsSoftList cfg x.timers t (x.timers.timer t).timeoutTick)
    (hadmits : x.place.Admits (x.timers.timer t).timeoutTick) :
    ThreadInv cfg τ { x with
      timers := timerInsert cfg x.timers t, calls := .inserted t :: x.calls.erase (.timed t) } := by
  have hsoft := hi.calls t (Or.inr ht)
  have hlist := listOf_soft hsoft
  have hτ : τ ≠ t := by
    rintro rfl
    simp [hi.hardTimer] at hsoft
  have hnot : ∀ l, t ∉ x.timers.bottom cfg l := fun l hl => by
    have hown := hi.rows.own l t hl
    rw [hlist] at hown
    exact hout (hown ▸ hl)
  have hfield : ∀ u, ((timerInsert cfg x.timers t).timer u).softTimer = (x.timers.timer u).softTimer ∧
      ((timerInsert cfg x.timers t).timer u).timeoutTick = (x.timers.timer u).timeoutTick :=
    fun u => by
      by_cases hut : u = t
      · subst hut
        simp [timerInsert_timer]
      · simp [timerInsert_timer, hut]
  obtain ⟨p, A, B, hcut, hrow⟩ := timerInsert_bottom (t := t) hi.rows
  rw [hlist] at hcut hrow
  have hfilter : (x.timers.bottom cfg .soft).filter (· ≠ t) = x.timers.bottom cfg .soft :=
    List.filter_eq_self.mpr fun u hu => by simpa using ne_of_mem_of_not_mem hu hout
  have hwindow := hfits.window
  rw [hfilter] at hwindow
  have hmem : ∀ u ∈ (timerInsert cfg x.timers t).bottom cfg .soft,
      u = t ∨ u ∈ x.timers.bottom cfg .soft := fun u hu => by
    rw [hrow] at hu
    rw [hcut.eq]
    simp only [List.mem_append, List.mem_cons] at hu ⊢
    tauto
  have hnone : ∀ {tick}, (x.timers.timer t).timeoutTick - tick < halfTickMax →
      NoneBefore cfg x.timers tick → NoneBefore cfg (timerInsert cfg x.timers t) tick :=
    fun htick hn u hu => by
      rw [(hfield u).2]
      rcases hmem u hu with rfl | hu
      · exact htick
      · exact hn u hu
  refine ⟨timerInsert_rowsOk hi.rows hnot, (hfield τ).1 ▸ hi.hardTimer, fun u hu => ?_, ?_, ?_, ?_⟩
  · rw [(hfield u).1]
    have hsub := List.erase_subset (a := StartCall.timed t) (l := x.calls)
    refine hi.calls u (hu.imp (fun hu => hsub (by simpa using hu)) fun hu => hsub (by simpa using hu))
  · have hchained := hi.chained.insert hcut hwindow
    rw [hrow]
    exact hchained.sub (List.Sublist.refl _) fun u _ => (hfield u).2
  · have hplace := hi.place
    cases hp : x.place with
    | alone => simp [hp, EntryPlace.Admits] at hadmits
    | found next =>
      rw [hp] at hplace hadmits
      exact hnone hadmits hplace
    | delay next cur =>
      rw [hp] at hplace hadmits
      exact ⟨hnone hadmits hplace.1, hplace.2⟩
    | top => trivial
    | check => trivial
  · exact fun _ hins => absurd List.mem_cons_self (hins t)

variable (cfg) in
theorem rtTimerStop_soft (s : Timers) (t : TimerId) :
    (((rtTimerStop s t).2.bottom cfg .soft).Sublist (s.bottom cfg .soft)) ∧
    (∀ u, ((rtTimerStop s t).2.timer u).softTimer = (s.timer u).softTimer ∧
      ((rtTimerStop s t).2.timer u).timeoutTick = (s.timer u).timeoutTick) ∧
    ((rtTimerStop s t).2.timer t).activated = false ∧ (rtTimerStop s t).2.tick = s.tick := by
  rw [rtTimerStop_state]
  split
  next ha =>
    refine ⟨List.filter_sublist, fun u => ?_, by simp [setActivated], rfl⟩
    by_cases hut : u = t
    · subst hut
      simp [setActivated]
    · simp [setActivated, hut]
  next ha => exact ⟨List.Sublist.refl _, fun u => ⟨rfl, rfl⟩, by simpa using ha, rfl⟩

theorem startResume_inv (hi : ThreadInv cfg τ x) :
    ThreadInv cfg τ { resumeTimerThread τ x with calls := x.calls.erase (.inserted t) } := by
  have hcalls : ∀ u, .removed u ∈ x.calls.erase (.inserted t) ∨ .timed u ∈ x.calls.erase (.inserted t) →
      (x.timers.timer u).softTimer = true := fun u hu =>
    hi.calls u (hu.imp (fun hu => List.erase_subset hu) fun hu => List.erase_subset hu)
  unfold resumeTimerThread
  split
  next hsusp =>
    obtain ⟨hsub, hfield, -, htick⟩ := rtTimerStop_soft cfg x.timers τ
    exact hi.of_sub (rtTimerStop_rowsOk hi.rows) (fun u => (hfield u).1) hcalls hsub
      (fun u _ => (hfield u).2) htick rfl fun h => by simp at h
  next hsusp =>
    exact hi.of_sub hi.rows (fun _ => rfl) hcalls (List.Sublist.refl _) (fun _ _ => rfl) rfl rfl
      fun h => absurd h hsusp

theorem threadTick_inv (hi : ThreadInv cfg τ x) (hok : x.place.isDelay = false) :
    ThreadInv cfg τ { x with timers := { x.timers with tick := x.timers.tick + 1 } } := by
  refine ⟨hi.rows.of_row rfl fun _ => rfl, hi.hardTimer, hi.calls, hi.chained, ?_, hi.asleep⟩
  have hplace := hi.place
  cases hp : x.place with
  | delay => simp [hp, EntryPlace.isDelay] at hok
  | alone =>
    rw [hp] at hplace
    exact hplace
  | found =>
    rw [hp] at hplace
    exact hplace
  | top => trivial
  | check => trivial

/-- Settling or starting a hard timer puts nothing into the soft list. -/
theorem timerStarted_soft (hst : TimerStarted cfg s t s') (hard : (s.timer t).softTimer = false) :
    ((s'.bottom cfg .soft).Sublist (s.bottom cfg .soft)) ∧
    (∀ u, (s'.timer u).softTimer = (s.timer u).softTimer) ∧
    ∀ u, u ≠ t → s'.timer u = s.timer u := by
  refine ⟨?_, fun u => ?_, fun u hu => by simp [hst.timer, hu]⟩
  · rw [hst.other .soft (by simp [listOf_hard hard])]
    exact List.filter_sublist
  · by_cases hut : u = t
    · subst hut
      simp [hst.timer, startedTimer]
    · simp [hst.timer, hut]

theorem not_mem_soft (h : RowsOk cfg s) (hard : (s.timer t).softTimer = false) :
    t ∉ s.bottom cfg .soft := fun ht => by
  have hown := h.own .soft t ht
  simp [listOf_hard hard] at hown

theorem expire_inv (hi : ThreadInv cfg τ x)
    (hs : settleTimer cfg (timerRemove x.timers τ) τ rearm = some s') :
    ThreadInv cfg τ { x with timers := s', stat := .ready } := by
  have hr : RowsOk cfg (timerRemove x.timers τ) := hi.rows.timerRemove
  have hrows := (settleTimer_spec hr hs).1
  have htick := (settleTimer_bottom hr hs).2.2.2
  have hmain : ((s'.bottom cfg .soft).Sublist (x.timers.bottom cfg .soft)) ∧
      (∀ u, (s'.timer u).softTimer = (x.timers.timer u).softTimer) ∧
      ∀ u, u ≠ τ → s'.timer u = x.timers.timer u := by
    unfold settleTimer at hs
    cases rearm with
    | true =>
      have hr1 := setActivated_rowsOk (t := τ) (b := false) hr
      obtain ⟨hsub, hsoft, htimer⟩ := timerStarted_soft (rtTimerStart_spec hr1 hs).2
        (by simpa [setActivated] using hi.hardTimer)
      refine ⟨hsub.trans List.filter_sublist, fun u => (hsoft u).trans ?_, fun u hu => ?_⟩
      · by_cases hut : u = τ
        · subst hut
          simp [setActivated]
        · simp [setActivated, hut]
      · rw [htimer u hu]
        simp [setActivated, hu]
    | false =>
      obtain rfl := Option.some.inj hs
      refine ⟨List.filter_sublist, fun u => ?_, fun u hu => by simp [setActivated, hu]⟩
      by_cases hut : u = τ
      · subst hut
        simp [setActivated]
      · simp [setActivated, hut]
  obtain ⟨hsub, hsoft, htimer⟩ := hmain
  refine hi.of_sub hrows hsoft hi.calls hsub (fun u hu => ?_) htick rfl fun h => by simp at h
  have hut : u ≠ τ := ne_of_mem_of_not_mem (hsub.subset hu) (not_mem_soft hi.rows hi.hardTimer)
  rw [htimer u hut]

/-- The thread suspends itself with no soft timer linked. -/
theorem suspendSelf_inv (hi : ThreadInv cfg τ x) (hplace : x.place = .alone) :
    ThreadInv cfg τ { x with
      timers := (rtTimerStop x.timers τ).2, stat := .suspend, place := .check } := by
  obtain ⟨hsub, hfield, hoff, htick⟩ := rtTimerStop_soft cfg x.timers τ
  have hempty : x.timers.bottom cfg .soft = [] := by
    have h := hi.place
    rwa [hplace] at h
  refine ⟨rtTimerStop_rowsOk hi.rows, (hfield τ).1 ▸ hi.hardTimer,
    fun t ht => (hfield t).1 ▸ hi.calls t ht, hi.chained.sub hsub fun u _ => (hfield u).2, trivial,
    fun _ _ => ⟨fun _ => List.sublist_nil.mp (hempty ▸ hsub), fun h => ?_⟩⟩
  simp [hoff] at h

/-- The thread sleeps until the tick it has read. -/
theorem threadSleep_inv {next cur : Tick} (hi : ThreadInv cfg τ x) (hplace : x.place = .delay next cur)
    (hs : rtThreadSleep cfg x.timers τ (next - cur) = some s') :
    ThreadInv cfg τ { x with timers := s', stat := .suspend, place := .check } := by
  obtain ⟨hnone, hcur⟩ : NoneBefore cfg x.timers next ∧ cur = x.timers.tick := by
    have h := hi.place
    rwa [hplace] at h
  obtain ⟨hsub, hfield, -, htick⟩ := rtTimerStop_soft cfg x.timers τ
  have hstop := rtTimerStop_rowsOk (t := τ) hi.rows
  have hset : RowsOk cfg (rtTimerControl (rtTimerStop x.timers τ).2 τ .setTime (next - cur)).1 :=
    hstop.set (f := fun x => { x with initTick := next - cur }) fun _ => rfl
  obtain ⟨hrows, hst⟩ := rtTimerStart_spec hset hs
  have hhard : ((rtTimerControl (rtTimerStop x.timers τ).2 τ .setTime (next - cur)).1.timer τ).softTimer =
      false := by
    simp only [rtTimerControl, Timers.set_self]
    exact (hfield τ).1.trans hi.hardTimer
  obtain ⟨hsub', hsoft', htimer'⟩ := timerStarted_soft hst hhard
  have hout := not_mem_soft hi.rows hi.hardTimer
  have hsubAll : (s'.bottom cfg .soft).Sublist (x.timers.bottom cfg .soft) := hsub'.trans hsub
  have htimeout : ∀ u ∈ s'.bottom cfg .soft,
      (s'.timer u).timeoutTick = (x.timers.timer u).timeoutTick := fun u hu => by
    have hut : u ≠ τ := ne_of_mem_of_not_mem (hsubAll.subset hu) hout
    rw [htimer' u hut, rtTimerControl, Timers.set_of_ne hut, (hfield u).2]
  have hsoft : ∀ u, (s'.timer u).softTimer = (x.timers.timer u).softTimer := fun u => by
    rw [hsoft' u, ← (hfield u).1, rtTimerControl]
    by_cases hut : u = τ
    · subst hut
      simp
    · simp [hut]
  have hwake : (s'.timer τ).timeoutTick = next := by
    rw [hst.timer]
    simp only [Function.update_self, startedTimer, rtTimerControl, Timers.set_self, Timers.set_tick,
      htick, hcur]
    bv_omega
  have hon : (s'.timer τ).activated = true := by simp [hst.timer, startedTimer]
  refine ⟨hrows, hsoft τ ▸ hi.hardTimer, fun t ht => hsoft t ▸ hi.calls t ht,
    hi.chained.sub hsubAll htimeout, trivial, fun _ _ => ⟨fun h => ?_, fun _ => ?_⟩⟩
  · simp [hon] at h
  · rw [hwake]
    exact hnone.sub fun u hu => ⟨hsubAll.subset hu, htimeout u hu⟩

/-- The re-arm of the soft loop keeps the list in order. -/
theorem settleTimer_chained (hrows : RowsOk cfg s) (h : Chained s (s.bottom cfg .soft))
    (hs : settleTimer cfg s t rearm = some s')
    (hfits : rearm = true → FitsSoftList cfg s t (s.tick + (s.timer t).initTick)) :
    Chained s' (s'.bottom cfg .soft) ∧ ∀ u, (s'.timer u).softTimer = (s.timer u).softTimer := by
  unfold settleTimer at hs
  cases rearm with
  | false =>
    obtain rfl := Option.some.inj hs
    have hfield : ∀ u, ((setActivated s t false).timer u).softTimer = (s.timer u).softTimer ∧
        ((setActivated s t false).timer u).timeoutTick = (s.timer u).timeoutTick := fun u => by
      by_cases hut : u = t
      · subst hut
        simp [setActivated]
      · simp [setActivated, hut]
    exact ⟨h.sub (List.Sublist.refl _) fun u _ => (hfield u).2, fun u => (hfield u).1⟩
  | true =>
    have hr := setActivated_rowsOk (t := t) (b := false) hrows
    obtain ⟨hrows', hst⟩ := rtTimerStart_spec hr hs
    have hlist : listOf ((setActivated s t false).timer t) = listOf (s.timer t) := by
      simp [setActivated, listOf]
    have htimer : ∀ u, u ≠ t → s'.timer u = s.timer u := fun u hu => by
      simp [hst.timer, setActivated, hu]
    have hself : s'.timer t = { s.timer t with
        activated := true, timeoutTick := s.tick + (s.timer t).initTick } := by
      simp [hst.timer, startedTimer, setActivated]
    refine ⟨?_, fun u => ?_⟩
    · have hold : Chained s' ((s.bottom cfg .soft).filter (· ≠ t)) :=
        h.sub List.filter_sublist fun u hu => by
          rw [htimer u (by simpa using (List.mem_filter.mp hu).2)]
      by_cases hl : .soft = listOf (s.timer t)
      · obtain ⟨p, A, B, hcut, hrow⟩ := hst.own
        rw [hlist, ← hl] at hcut hrow
        rw [hrow]
        refine hold.insert hcut ?_
        obtain ⟨b, hb, hrest⟩ := (hfits rfl).window
        refine ⟨b, by rwa [hself], fun u hu => ?_⟩
        rw [htimer u (by simpa using (List.mem_filter.mp hu).2)]
        exact hrest u hu
      · rw [hst.other .soft (hlist ▸ hl)]
        exact hold
    · by_cases hut : u = t
      · rw [hut, hself]
      · rw [htimer u hut]

theorem softStep_chained {y : Expiry} {soft : SoftCheck} (hrows : RowsOk cfg s)
    (h : Chained s (s.bottom cfg .soft)) (hs : softStep cfg ⟨s, .idle, soft⟩ = some y)
    (hfits : ∀ t ∈ soft.restarted, FitsSoftList cfg s t (s.tick + (s.timer t).initTick)) :
    RowsOk cfg y.timers ∧ Chained y.timers (y.timers.bottom cfg .soft) ∧
      ∀ u, (y.timers.timer u).softTimer = (s.timer u).softTimer := by
  have he := softStep_effect rfl hs
  refine ⟨expiryEffect_rowsOk hrows he, ?_⟩
  cases he with
  | softUnlink => exact ⟨h.sub List.filter_sublist fun _ _ => rfl, fun _ => rfl⟩
  | @softSettle t n cur rearm s' _ hsoft hs' =>
    have hsoft : soft = .settle t n cur rearm := hsoft
    refine settleTimer_chained hrows h hs' fun hr => hfits t ?_
    simp [hsoft, hr, SoftCheck.restarted]
  | _ => exact ⟨h, fun _ => rfl⟩

theorem entryStep_inv (hi : ThreadInv cfg τ x) (hok : ThreadUndisturbed cfg x .thread)
    (hready : x.stat = .ready) (hs : entryStep cfg τ x = some x') : ThreadInv cfg τ x' := by
  unfold entryStep at hs
  split at hs
  next hplace =>
    obtain rfl := Option.some.inj hs
    obtain ⟨hempty, hnone⟩ := hi.chained.noneBefore (hok.1 hplace)
    refine ⟨hi.rows, hi.hardTimer, hi.calls, hi.chained, ?_, hi.asleep⟩
    dsimp only
    split
    next he => exact hempty he
    next => exact hnone
  next hplace =>
    obtain rfl := Option.some.inj hs
    exact suspendSelf_inv hi hplace
  next next hplace =>
    obtain rfl := Option.some.inj hs
    have h := hi.place
    rw [hplace] at h
    refine ⟨hi.rows, hi.hardTimer, hi.calls, hi.chained, ?_, hi.asleep⟩
    dsimp only
    split
    · exact ⟨h, rfl⟩
    · trivial
  next next cur hplace =>
    obtain ⟨s', hs', rfl⟩ := Option.map_eq_some_iff.mp hs
    exact threadSleep_inv hi hplace hs'
  next hplace =>
    obtain ⟨y, hy, rfl⟩ := Option.map_eq_some_iff.mp hs
    obtain ⟨hrows, hchained, hsoft⟩ := softStep_chained hi.rows hi.chained hy hok.2
    refine ⟨hrows, hsoft τ ▸ hi.hardTimer, fun t ht => hsoft t ▸ hi.calls t ht, hchained, ?_,
      fun h => ?_⟩
    · dsimp only
      split <;> trivial
    · simp [hready] at h

theorem threadStep_inv (hi : ThreadInv cfg τ x) (hok : ThreadUndisturbed cfg x a)
    (hs : threadStep cfg τ x a = some x') : ThreadInv cfg τ x' := by
  cases a with
  | startRemove t =>
    obtain ⟨ht, hs⟩ := Option.ite_none_right_eq_some.mp hs
    obtain rfl := Option.some.inj hs
    exact startRemove_inv hi ht
  | startTime t =>
    obtain ⟨⟨ht, -⟩, hs⟩ := Option.ite_none_right_eq_some.mp hs
    obtain rfl := Option.some.inj hs
    exact startTime_inv hi ht hok
  | startInsert t =>
    obtain ⟨ht, hs⟩ := Option.ite_none_right_eq_some.mp hs
    obtain rfl := Option.some.inj hs
    exact startInsert_inv hi ht hok.1 hok.2.1 hok.2.2
  | startResume t =>
    obtain ⟨-, hs⟩ := Option.ite_none_right_eq_some.mp hs
    obtain rfl := Option.some.inj hs
    exact startResume_inv hi
  | tick =>
    obtain rfl := Option.some.inj hs
    exact threadTick_inv hi hok
  | expire =>
    obtain ⟨-, hs⟩ := Option.ite_none_right_eq_some.mp hs
    obtain ⟨s', hs', rfl⟩ := Option.map_eq_some_iff.mp hs
    exact expire_inv hi hs'
  | thread =>
    obtain ⟨hready, hs⟩ := Option.ite_none_right_eq_some.mp hs
    exact entryStep_inv hi hok hready hs

theorem timerThreadStart_inv (h : TimerThreadStart τ x) : ThreadInv cfg τ x := by
  have hempty : x.timers.bottom cfg .soft = [] := h.timers.row _ _
  refine ⟨h.timers.rowsOk, h.threadTimer, fun t ht => by simp [h.calls] at ht, ?_, ?_, fun hs => ?_⟩
  · rw [hempty]
    exact List.Pairwise.nil
  · rw [h.place]
    trivial
  · simp [h.stat] at hs

/-- The states of the timer thread and the starts around it in runs whose steps all meet `ok`. -/
abbrev ThreadReach (cfg : SkipListConfig) (τ : TimerId) (ok : TimerThread → EntryAction → Prop) :
    TimerThread → Prop := Reach (threadStep cfg τ) ok (TimerThreadStart τ)

end

def timerThreadInit : TimerThread := ⟨someTimers, .idle, .ready, .top, []⟩

theorem timerThreadInit_start : TimerThreadStart 0 timerThreadInit :=
  ⟨⟨fun _ _ => rfl, fun _ => ⟨_, _, _, rfl⟩⟩, rfl, rfl, rfl, rfl, rfl⟩

/-- A whole call of `rt_timer_start`. -/
def startCall (t : TimerId) : List EntryAction :=
  [.startRemove t, .startTime t, .startInsert t, .startResume t]

/-- The thread sleeps on timer 2, started before it looked. -/
def asleepOnTwo : TimerThread :=
  (runFrom (threadStep twoRows 0) (startCall 2 ++ [.thread, .thread, .thread])
    timerThreadInit).get (by decide +kernel)

/-- The thread sleeps, and a start of timer 2 is at the point of resuming it. -/
def aboutToResume : TimerThread :=
  (runFrom (threadStep twoRows 0) [.thread, .thread, .startRemove 2, .startTime 2, .startInsert 2]
    timerThreadInit).get (by decide +kernel)

/-- Timer 2 is started between the thread's look at the empty list and its suspension. -/
def missedStart : TimerThread :=
  (runFrom (threadStep twoRows 0) ([.thread] ++ startCall 2 ++ [.thread])
    timerThreadInit).get (by decide +kernel)

end RTThread
