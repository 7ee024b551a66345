import RTThread.MutexPriority

namespace RTThread

/-- `block`, `resume` and `fail` are the sections in which the functions of semaphores, events,
mailboxes and message queues call `rt_ipc_list_suspend`, `rt_ipc_list_resume` and one round of
`rt_ipc_list_resume_all`; `resumeThread` is `rt_event_send`, which resumes threads anywhere in the
list. Of the record of an object that is no mutex only the flag is used. -/
inductive IpcAction where
  | mutex (a : MutexAction)
  | block (t : ThreadId) (q : ObjectId) (time : Int)
  | resume (q : ObjectId)
  | resumeThread (q : ObjectId) (t : ThreadId)
  | fail (q : ObjectId)

def blockOn (s : MutexState) (t : ThreadId) (q : ObjectId) (time : Int) : Threads :=
  suspendFor (setError s.toThreads t .eok) q t (s.mutex q).flag time

def ipcStep (s : MutexState) : IpcAction → Option MutexState
  | .mutex a => mutexStep s a
  | .block t q time => if canCall s t then some { s with toThreads := blockOn s t q time } else none
  | .resume q => (rtIpcListResume s.toThreads q).map fun threads => { s with toThreads := threads }
  | .resumeThread q t =>
    if t ∈ s.waiters q then some { s with toThreads := rtThreadResume s.toThreads t } else none
  | .fail q => (s.waiters q).head?.map fun n => { s with toThreads := failWaiter s.toThreads n }

/-- When each thread last began to wait. -/
structure Arrivals where
  stamp : ThreadId → Nat
  clock : Nat

def arrive (s s' : MutexState) (c : Arrivals) : Arrivals :=
  { stamp := fun u =>
      if (s.thread u).stat = .ready ∧ (s'.thread u).stat = .suspend then c.clock else c.stamp u
    clock := c.clock + 1 }

def arrivalStep (x : MutexState × Arrivals) (a : IpcAction) : Option (MutexState × Arrivals) :=
  (ipcStep x.1 a).map fun s' => (s', arrive x.1 s' x.2)

def MutexState.priority (s : MutexState) (u : ThreadId) : Nat := (s.thread u).currentPriority

/-- More urgent, or as urgent and waiting for longer. -/
def Before (priority stamp : ThreadId → Nat) (u v : ThreadId) : Prop :=
  priority u < priority v ∨ priority u = priority v ∧ stamp u < stamp v

/-- The list of every object created with `RT_IPC_FLAG_PRIO` is in order. -/
def PrioOrdered (x : MutexState × Arrivals) : Prop :=
  ∀ q, (x.1.mutex q).flag = .prio → (x.1.waiters q).Pairwise (Before x.1.priority x.2.stamp)

/-- The owner to which a thread lends its priority when it blocks on a mutex. -/
def lendsTo (s : MutexState) (m : ObjectId) (t : ThreadId) : Option ThreadId :=
  (s.mutex m).owner.filter fun o => s.priority t < s.priority o

/-- In the list it waits in, the thread `o` belongs behind those before it when it gets the
priority of `t`. -/
def KeepsPlace (x : MutexState × Arrivals) (t o : ThreadId) : Prop :=
  ∀ q, (x.1.mutex q).flag = .prio → ∀ u, [u, o].Sublist (x.1.waiters q) →
    x.1.priority u < x.1.priority t ∨ x.1.priority u = x.1.priority t ∧ x.2.stamp u < x.2.stamp o

/-- A boost of a thread that itself waits leaves it in its place. -/
def BoostsInPlace (x : MutexState × Arrivals) : IpcAction → Prop
  | .mutex (.take t m time) =>
    (x.1.mutex m).owner ≠ some t → (x.1.mutex m).value = 0 → time ≠ 0 →
      ∀ o, lendsTo x.1 m t = some o → KeepsPlace x t o
  | .mutex (.retry t) =>
    ∀ m time fs, x.1.frames t = .block m time :: fs →
      ∀ o, lendsTo x.1 m t = some o → KeepsPlace x t o
  | _ => True

structure IpcStart (x : MutexState × Arrivals) : Prop where
  mutexes : MutexStart x.1
  clock : ∀ t, x.2.stamp t < x.2.clock

/-- Threads may leave the lists, those that stay keep their places and their priorities. -/
structure Eases (s s' : MutexState) : Prop where
  sub : ∀ q, (s'.waiters q).Sublist (s.waiters q)
  priority : ∀ u q, u ∈ s'.waiters q → (s'.thread u).currentPriority = (s.thread u).currentPriority
  stat : ∀ u q, u ∈ s'.waiters q → (s'.thread u).stat = (s.thread u).stat
  flag : ∀ m, (s'.mutex m).flag = (s.mutex m).flag

/-- A thread that was ready is inserted into the list of `q`; the priorities of others may change. -/
structure Joins (s s' : MutexState) (q : ObjectId) (t : ThreadId) (flag : IpcFlag) : Prop where
  ready : (s.thread t).stat = .ready
  keeps : (s'.thread t).currentPriority = (s.thread t).currentPriority
  waiters : s'.waiters = Function.update s.waiters q
    (match flag with
    | .fifo => s.waiters q ++ [t]
    | .prio => insertByPriority (fun u => (s'.thread u).currentPriority) t (s.waiters q))
  stat : ∀ u, (s'.thread u).stat = if u = t then .suspend else (s.thread u).stat
  flag : ∀ m, (s'.mutex m).flag = (s.mutex m).flag

section
variable {s s' s'' : MutexState} {t u : ThreadId} {m q : ObjectId} {f : Thread → Thread}
  {g : Mutex → Mutex} {fs : List Frame} {threads : Threads} {time : Int} {flag : IpcFlag}

theorem Eases.refl : Eases s s :=
  ⟨fun _ => List.Sublist.refl _, fun _ _ _ => rfl, fun _ _ _ => rfl, fun _ => rfl⟩

theorem Eases.trans (h : Eases s s') (h' : Eases s' s'') : Eases s s'' := by
  refine ⟨fun q => (h'.sub q).trans (h.sub q), fun u q hu => ?_, fun u q hu => ?_, fun m => ?_⟩
  · exact (h'.priority u q hu).trans (h.priority u q ((h'.sub q).subset hu))
  · exact (h'.stat u q hu).trans (h.stat u q ((h'.sub q).subset hu))
  · exact (h'.flag m).trans (h.flag m)

theorem Eases.waitOk (h : Eases s s') (hw : WaitOk s.toThreads) : WaitOk s'.toThreads := by
  refine ⟨fun q => (hw.nodup q).sublist (h.sub q), fun u q r hq hr => ?_, fun u q hu => ?_⟩
  · exact hw.one u q r ((h.sub q).subset hq) ((h.sub r).subset hr)
  · exact (h.stat u q hu).trans (hw.suspended u q ((h.sub q).subset hu))

/-- A step that changes fields of threads other than priority and state, or of mutexes. -/
theorem Eases.of_same (hw : s'.waiters = s.waiters)
    (hp : ∀ u, (s'.thread u).currentPriority = (s.thread u).currentPriority)
    (hst : ∀ u, (s'.thread u).stat = (s.thread u).stat)
    (hf : ∀ m, (s'.mutex m).flag = (s.mutex m).flag) : Eases s s' :=
  ⟨fun q => by rw [hw], fun u _ _ => hp u, fun u _ _ => hst u, hf⟩

theorem eases_setThread (hp : (f (s.thread t)).currentPriority = (s.thread t).currentPriority)
    (hst : (f (s.thread t)).stat = (s.thread t).stat) : Eases s (s.setThread t f) :=
  .of_same rfl (setThread_field _ hp) (setThread_field _ hst) fun _ => rfl

theorem eases_setMutex (hf : (g (s.mutex m)).flag = (s.mutex m).flag) : Eases s (s.setMutex m g) := by
  refine .of_same rfl (fun _ => rfl) (fun _ => rfl) fun r => ?_
  by_cases hr : r = m
  · rw [hr, setMutex_self, hf]
  · rw [setMutex_ne hr]

theorem eases_setFrames : Eases s (s.setFrames t fs) :=
  .of_same rfl (fun _ => rfl) (fun _ => rfl) fun _ => rfl

theorem eases_resume : Eases s { s with toThreads := rtThreadResume s.toThreads t } := by
  by_cases hsusp : (s.thread t).stat = .suspend
  · have hmem : ∀ {u q}, u ∈ (rtThreadResume s.toThreads t).waiters q → u ≠ t := fun {u q} hu => by
      rw [rtThreadResume_waiters hsusp] at hu
      exact (mem_rtListRemove.mp hu).2
    refine ⟨fun q => ?_, fun u q hu => ?_, fun u q hu => ?_, fun _ => rfl⟩
    · dsimp only
      rw [rtThreadResume_waiters hsusp]
      exact List.filter_sublist
    · exact congrArg Thread.currentPriority (rtThreadResume_thread_ne (hmem hu))
    · exact congrArg Thread.stat (rtThreadResume_thread_ne (hmem hu))
  · have hsame : rtThreadResume s.toThreads t = s.toThreads := if_neg hsusp
    rw [hsame]
    exact .refl

/-- A thread on no list may get any priority. -/
theorem eases_changePriority {p : Nat} (ht : ∀ q, t ∉ s.waiters q) :
    Eases s { s with toThreads := changePriority s.toThreads t p } := by
  have hsame : ∀ {u q}, u ∈ s.waiters q → (changePriority s.toThreads t p).thread u = s.thread u :=
    fun hu => Threads.set_ne (ne_of_mem_of_not_mem hu (ht _))
  refine ⟨fun q => List.Sublist.refl _, fun u q hu => ?_, fun u q hu => ?_, fun _ => rfl⟩
  · exact congrArg Thread.currentPriority (hsame hu)
  · exact congrArg Thread.stat (hsame hu)

theorem eases_timeout (h : rtThreadTimeout s.toThreads t = some threads) :
    Eases s { s with toThreads := threads } := by
  obtain ⟨-, -, hother, -, hwait⟩ := rtThreadTimeout_spec h
  have hmem : ∀ {u q}, u ∈ threads.waiters q → u ≠ t := fun {u q} hu => by
    rw [hwait] at hu
    exact (mem_rtListRemove.mp hu).2
  refine ⟨fun q => ?_, fun u q hu => ?_, fun u q hu => ?_, fun _ => rfl⟩
  · dsimp only
    rw [hwait]
    exact List.filter_sublist
  · exact congrArg Thread.currentPriority (hother u (hmem hu))
  · exact congrArg Thread.stat (hother u (hmem hu))

theorem eases_giveUpMutex (ht : ∀ q, t ∉ s.waiters q) : Eases s (giveUpMutex s m t) := by
  have hrestored : Eases s (restorePriority s m t) := by
    unfold restorePriority
    split
    · exact eases_changePriority ht
    · exact .refl
  unfold giveUpMutex handOver
  dsimp only
  split
  next n ns _ =>
    have howner : Eases (restorePriority s m t) ((restorePriority s m t).setMutex m fun x =>
        { x with
          owner := some n
          originalPriority := ((restorePriority s m t).thread n).currentPriority
          hold := (x.hold + 1) % 256 }) := eases_setMutex rfl
    exact hrestored.trans (howner.trans eases_resume)
  next => exact hrestored.trans (eases_setMutex rfl)

theorem eases_release (hw : WaitOk s.toThreads) (hr : (s.thread t).stat = .ready) :
    Eases s (rtMutexRelease s m t) := by
  unfold rtMutexRelease
  split
  · exact eases_setThread rfl rfl
  · have hheld : Eases s (s.setMutex m fun x => { x with hold := (x.hold + 255) % 256 }) :=
      eases_setMutex rfl
    dsimp only
    split
    · exact hheld.trans (eases_giveUpMutex fun _ => hw.not_mem hr)
    · exact hheld

theorem eases_signalDeliver : Eases s (signalDeliver s t) := by
  unfold signalDeliver
  split
  · exact .refl
  · split
    · exact eases_resume
    · exact .refl

theorem eases_handleSigBegin (h : handleSigBegin s t = some s') : Eases s s' := by
  obtain ⟨-, h⟩ := Option.ite_none_right_eq_some.mp h
  split at h
  · simp at h
  · obtain rfl := Option.some.inj h
    exact (eases_setThread rfl rfl).trans eases_setFrames

theorem eases_handleSigEnd (h : handleSigEnd s t = some s') : Eases s s' := by
  unfold handleSigEnd at h
  split at h
  · obtain rfl := Option.some.inj h
    exact (eases_setThread rfl rfl).trans eases_setFrames
  · simp at h

theorem eases_wakeMutexTake (h : wakeMutexTake s t = some s') : Eases s s' := by
  unfold wakeMutexTake at h
  split at h
  · split at h
    · exact Option.some.inj h ▸ eases_setFrames
    · exact Option.some.inj h ▸ eases_setFrames
  · simp at h

/-- Suspending a ready thread, perhaps after a boost, inserts it into the list. -/
theorem joins_suspend (hw : WaitOk s.toThreads) (hr : (s.thread t).stat = .ready)
    (hthreads : s'.toThreads = suspendFor threads q t flag time) (hwait : threads.waiters = s.waiters)
    (hkeeps : (threads.thread t).currentPriority = (s.thread t).currentPriority)
    (hstat : ∀ u, (threads.thread u).stat = (s.thread u).stat)
    (hflag : ∀ m, (s'.mutex m).flag = (s.mutex m).flag) :
    Joins s s' q t flag ∧
      ∀ u, (s'.thread u).currentPriority = (threads.thread u).currentPriority := by
  have hout : ∀ r, t ∉ threads.waiters r := fun r => hwait ▸ hw.not_mem hr
  obtain ⟨hlists, hthread⟩ := suspendFor_spec q flag time hout (hstat t ▸ hr)
  rw [← hthreads] at hlists hthread
  have hprio : ∀ u, (s'.thread u).currentPriority = (threads.thread u).currentPriority := fun u => by
    rw [hthread]
    split
    next hu => rw [hu]
    next => rfl
  refine ⟨⟨hr, (hprio t).trans hkeeps, ?_, fun u => ?_, hflag⟩, hprio⟩
  · rw [hlists, hwait]
    cases flag with
    | fifo => simp [insertWaiter, hwait]
    | prio => simp [insertWaiter, hwait, hprio]
  · rw [hthread]
    split
    · rfl
    · exact hstat u

/-- Blocking on a mutex after lending the priority to its owner. -/
theorem suspendOnMutex_joins (hw : WaitOk s.toThreads) (hr : (s.thread t).stat = .ready)
    (h : suspendOnMutex s m t time = some s') : ∃ o, (s.mutex m).owner = some o ∧
      s'.mutex = s.mutex ∧ Joins s s' m t (s.mutex m).flag ∧
      ∀ u, (s'.thread u).currentPriority = if u = o then
        min (s.thread o).currentPriority (s.thread t).currentPriority
        else (s.thread u).currentPriority := by
  obtain ⟨b, hb, hs'⟩ := Option.map_eq_some_iff.mp h
  obtain ⟨o, ho, hmutex, -, hwait, hthread⟩ := boostOwner_spec hb
  have hthreads : s'.toThreads = suspendFor b.toThreads m t (b.mutex m).flag time := by
    rw [← hs']
    rfl
  have hmutex' : s'.mutex = s.mutex := by rw [← hs', hmutex]
  have hprio : ∀ u, (b.thread u).currentPriority = if u = o then
      min (s.thread o).currentPriority (s.thread t).currentPriority
      else (s.thread u).currentPriority := fun u => by rw [hthread]
  have hkeeps : (b.thread t).currentPriority = (s.thread t).currentPriority := by
    rw [hprio]
    split
    next ht => rw [← ht, Nat.min_self]
    next => rfl
  obtain ⟨hjoins, hlent⟩ := joins_suspend hw hr hthreads hwait hkeeps (fun u => by rw [hthread])
    fun r => by rw [hmutex']
  rw [hmutex] at hjoins
  exact ⟨o, ho, hmutex', hjoins, fun u => (hlent u).trans (hprio u)⟩

end

/-- What a step does to the lists, and when it meets the condition. -/
inductive IpcEffect (x : MutexState × Arrivals) (s' : MutexState) (a : IpcAction) : Prop where
  | eases (he : Eases x.1 s') (hok : BoostsInPlace x a)
  | joins {q t} (hj : Joins x.1 s' q t (x.1.mutex q).flag) (hp : ∀ u, s'.priority u = x.1.priority u)
    (hok : BoostsInPlace x a)
  | lends {q t o} (hj : Joins x.1 s' q t (x.1.mutex q).flag) (ho : (x.1.mutex q).owner = some o)
    (hp : ∀ u, s'.priority u =
      if u = o then min (x.1.priority o) (x.1.priority t) else x.1.priority u)
    (hok : BoostsInPlace x a ↔ ∀ o, lendsTo x.1 q t = some o → KeepsPlace x t o)

section
variable {x : MutexState × Arrivals} {s' : MutexState} {t : ThreadId} {q m : ObjectId} {time : Int}
  {a : IpcAction}

/-- Steps that leave the state as it is before or after do not change what a block does. -/
theorem Joins.congr {s b s' : MutexState} {flag : IpcFlag} (hj : Joins b s' q t flag)
    (hwait : b.waiters = s.waiters) (hp : ∀ u, b.priority u = s.priority u)
    (hst : ∀ u, (b.thread u).stat = (s.thread u).stat) (hf : ∀ m, (b.mutex m).flag = (s.mutex m).flag) :
    Joins s s' q t flag := by
  refine ⟨hst t ▸ hj.ready, hj.keeps.trans (hp t), ?_, fun u => ?_, fun m => (hj.flag m).trans (hf m)⟩
  · rw [hj.waiters, hwait]
  · rw [hj.stat, hst]

theorem Joins.setFrames {s s' : MutexState} {flag : IpcFlag} {u : ThreadId} {fs : List Frame}
    (hj : Joins s s' q t flag) : Joins s (s'.setFrames u fs) q t flag :=
  ⟨hj.ready, hj.keeps, hj.waiters, hj.stat, hj.flag⟩

theorem take_effect (hw : WaitOk x.1.toThreads) (hr : (x.1.thread t).stat = .ready)
    (h : rtMutexTake x.1 m t time = some s') : IpcEffect x s' (.mutex (.take t m time)) := by
  have hreset : Eases x.1 (x.1.setThread t fun y => { y with error := .eok }) := eases_setThread rfl rfl
  unfold rtMutexTake at h
  dsimp only at h
  split at h
  next ho =>
    obtain rfl := Option.some.inj h
    exact .eases (hreset.trans (eases_setMutex rfl)) fun hne => absurd ho hne
  next ho =>
    split at h
    next hv =>
      obtain rfl := Option.some.inj h
      refine .eases (hreset.trans (eases_setMutex rfl)) fun _ h0 => ?_
      simp [h0] at hv
    next hv =>
      split at h
      next htime =>
        obtain rfl := Option.some.inj h
        exact .eases (hreset.trans (eases_setThread rfl rfl)) fun _ _ hne => absurd htime hne
      next htime =>
        obtain ⟨b, hb, rfl⟩ := Option.map_eq_some_iff.mp h
        have hsame : ∀ {β : Type} (p : Thread → β), (∀ y : Thread, p { y with error := .eok } = p y) →
            ∀ u, p ((x.1.setThread t fun y => { y with error := .eok }).thread u) = p (x.1.thread u) :=
          fun p hp => setThread_field p (hp _)
        obtain ⟨o, howner, -, hj, hp⟩ := suspendOnMutex_joins (hreset.waitOk hw)
          ((hsame Thread.stat (fun _ => rfl) t).trans hr) hb
        have hprio := hsame Thread.currentPriority fun _ => rfl
        have hjoins := hj.congr (s := x.1) rfl hprio (hsame Thread.stat fun _ => rfl) fun _ => rfl
        refine .lends hjoins.setFrames howner (fun u => (hp u).trans ?_) ?_
        · rw [hprio o, hprio t, hprio u]
          rfl
        · have h0 : (x.1.mutex m).value = 0 := Nat.le_zero.mp (Nat.le_of_not_lt hv)
          exact ⟨fun hok => hok ho h0 htime, fun hok _ _ _ => hok⟩

theorem retry_effect (hw : WaitOk x.1.toThreads) (hr : (x.1.thread t).stat = .ready)
    (h : retryMutexTake x.1 t = some s') : IpcEffect x s' (.mutex (.retry t)) := by
  unfold retryMutexTake at h
  split at h
  next m time fs hf =>
    have hok : BoostsInPlace x (.mutex (.retry t)) := fun m' time' fs' hf' => by simp [hf] at hf'
    split at h
    · exact .eases (Option.some.inj h ▸ eases_setFrames) hok
    · split at h
      · exact .eases (Option.some.inj h ▸ (eases_setThread rfl rfl).trans eases_setFrames) hok
      · exact .eases (Option.some.inj h ▸ eases_setFrames) hok
  next m fs hf =>
    have hok : BoostsInPlace x (.mutex (.retry t)) := fun m' time' fs' hf' => by simp [hf] at hf'
    exact .eases (Option.some.inj h ▸ (eases_setMutex rfl).trans eases_setFrames) hok
  next m time fs hf =>
    obtain ⟨b, hb, rfl⟩ := Option.map_eq_some_iff.mp h
    obtain ⟨o, howner, -, hj, hp⟩ := suspendOnMutex_joins hw hr hb
    refine .lends hj.setFrames howner hp ⟨fun hok => hok m time fs hf, fun hok m' time' fs' hf' => ?_⟩
    rw [hf] at hf'
    cases hf'
    exact hok
  next => simp at h

theorem mutexStep_ipcEffect {a : MutexAction} (hw : WaitOk x.1.toThreads) (h : mutexStep x.1 a = some s') :
    IpcEffect x s' (.mutex a) := by
  cases a with
  | take t m time =>
    obtain ⟨hcall, h⟩ := Option.ite_none_right_eq_some.mp h
    exact take_effect hw (canCall_ready hcall) h
  | release t m =>
    obtain ⟨hcall, h⟩ := Option.ite_none_right_eq_some.mp h
    exact .eases (Option.some.inj h ▸ eases_release hw (canCall_ready hcall)) trivial
  | timeout t =>
    obtain ⟨threads, hth, rfl⟩ := Option.map_eq_some_iff.mp h
    exact .eases (eases_timeout hth) trivial
  | wake t =>
    obtain ⟨-, h⟩ := Option.ite_none_right_eq_some.mp h
    exact .eases (eases_wakeMutexTake h) trivial
  | retry t =>
    obtain ⟨hr, h⟩ := Option.ite_none_right_eq_some.mp h
    exact retry_effect hw hr h
  | killPend t signo => exact .eases (Option.some.inj h ▸ eases_setThread rfl rfl) trivial
  | killAppend t signo => exact .eases (Option.some.inj h ▸ eases_setThread rfl rfl) trivial
  | killDeliver t => exact .eases (Option.some.inj h ▸ eases_signalDeliver) trivial
  | sigBegin t => exact .eases (eases_handleSigBegin h) trivial
  | sigEnd t =>
    obtain ⟨-, h⟩ := Option.ite_none_right_eq_some.mp h
    exact .eases (eases_handleSigEnd h) trivial

theorem block_effect (hw : WaitOk x.1.toThreads) (hr : (x.1.thread t).stat = .ready)
    (hs : { x.1 with toThreads := blockOn x.1 t q time } = s') : IpcEffect x s' (.block t q time) := by
  have hsame : ∀ {β : Type} (p : Thread → β), (∀ y : Thread, p { y with error := .eok } = p y) →
      ∀ u, p ((setError x.1.toThreads t .eok).thread u) = p (x.1.thread u) := fun p hp =>
    setThread_field (s := x.1) (f := fun y => { y with error := .eok }) p (hp _)
  have hprio := hsame Thread.currentPriority fun _ => rfl
  have hthreads : s'.toThreads =
      suspendFor (setError x.1.toThreads t .eok) q t (x.1.mutex q).flag time := by
    rw [← hs]
    rfl
  obtain ⟨hjoins, hkept⟩ := joins_suspend hw hr hthreads rfl (hprio t)
    (hsame Thread.stat fun _ => rfl) fun _ => by rw [← hs]
  exact .joins hjoins (fun u => (hkept u).trans (hprio u)) trivial

theorem ipcStep_effect (hw : WaitOk x.1.toThreads) (h : ipcStep x.1 a = some s') : IpcEffect x s' a := by
  cases a with
  | mutex a => exact mutexStep_ipcEffect hw h
  | block t q time =>
    obtain ⟨hcall, h⟩ := Option.ite_none_right_eq_some.mp h
    exact block_effect hw (canCall_ready hcall) (Option.some.inj h)
  | resume q =>
    obtain ⟨threads, hth, rfl⟩ := Option.map_eq_some_iff.mp h
    obtain ⟨n, -, rfl⟩ := Option.map_eq_some_iff.mp hth
    exact .eases eases_resume trivial
  | resumeThread q t =>
    obtain ⟨-, h⟩ := Option.ite_none_right_eq_some.mp h
    exact .eases (Option.some.inj h ▸ eases_resume) trivial
  | fail q =>
    obtain ⟨n, -, rfl⟩ := Option.map_eq_some_iff.mp h
    have herror : Eases x.1 (x.1.setThread n fun y => { y with error := .error }) :=
      eases_setThread rfl rfl
    exact .eases (herror.trans eases_resume) trivial

end

section
variable {p p' stamp stamp' : ThreadId → Nat} {l : List ThreadId} {t o u : ThreadId}

theorem before_trans {a b c : ThreadId} (hab : Before p stamp a b) (hbc : Before p stamp b c) :
    Before p stamp a c := by
  unfold Before at *
  omega

/-- The loop of `rt_ipc_list_suspend` puts a thread that has just arrived behind those as urgent. -/
theorem insertByPriority_pairwise (h : l.Pairwise (Before p stamp)) (hnew : ∀ u ∈ l, stamp u < stamp t) :
    (insertByPriority p t l).Pairwise (Before p stamp) := by
  induction l with
  | nil => exact List.pairwise_singleton _ _
  | cons n ns ih =>
    obtain ⟨hn, hns⟩ := List.pairwise_cons.mp h
    have hstamp := hnew n List.mem_cons_self
    unfold insertByPriority
    split
    next hlt =>
      have hfirst : Before p stamp t n := Or.inl hlt
      refine List.pairwise_cons.mpr ⟨fun u hu => ?_, h⟩
      rcases List.mem_cons.mp hu with rfl | hu
      · exact hfirst
      · exact before_trans hfirst (hn u hu)
    next hge =>
      refine List.pairwise_cons.mpr ⟨fun u hu => ?_, ih hns fun u hu => hnew u (List.mem_cons_of_mem n hu)⟩
      rcases mem_insertByPriority.mp hu with rfl | hu
      · unfold Before
        omega
      · exact hn u hu

theorem sublist_insertByPriority : l.Sublist (insertByPriority p t l) := by
  induction l with
  | nil => exact List.nil_sublist _
  | cons n ns ih =>
    unfold insertByPriority
    split
    · exact List.sublist_cons_self t _
    · exact ih.cons_cons n

/-- Order depends only on the threads in the list. -/
theorem pairwise_before_congr (hp : ∀ u ∈ l, p' u = p u) (hs : ∀ u ∈ l, stamp' u = stamp u) :
    l.Pairwise (Before p' stamp') ↔ l.Pairwise (Before p stamp) := by
  refine List.Pairwise.iff_of_mem fun {a b} ha hb => ?_
  unfold Before
  rw [hp a ha, hp b hb, hs a ha, hs b hb]

/-- Making a thread more urgent keeps a list in order if it stays behind those before it. -/
theorem pairwise_boost_iff (h : l.Pairwise (Before p stamp)) (hn : l.Nodup) {urgency : Nat}
    (hlt : urgency < p o) (hp : ∀ u, p' u = if u = o then urgency else p u) :
    l.Pairwise (Before p' stamp) ↔
      ∀ u, [u, o].Sublist l → p u < urgency ∨ p u = urgency ∧ stamp u < stamp o := by
  have hne : ∀ {a b}, [a, b].Sublist l → a ≠ b := fun hab => by
    simpa using hn.sublist hab
  rw [List.pairwise_iff_forall_sublist] at h ⊢
  constructor
  · intro hall u hu
    have hbefore := hall hu
    unfold Before at hbefore
    rwa [hp u, hp o, if_neg (hne hu), if_pos rfl] at hbefore
  · intro hall a b hab
    have hold := h hab
    unfold Before at *
    by_cases hb : b = o
    · subst hb
      rw [hp a, hp b, if_neg (hne hab), if_pos rfl]
      exact hall a hab
    · rw [hp b, if_neg hb, hp a]
      split
      next ha =>
        subst ha
        omega
      next => exact hold

end

/-- Whoever waits arrived before now. -/
structure WaitInv (x : MutexState × Arrivals) : Prop where
  waits : WaitOk x.1.toThreads
  clock : ∀ t, x.2.stamp t < x.2.clock
  ordered : PrioOrdered x

section
variable {x x' : MutexState × Arrivals} {s' : MutexState} {t o : ThreadId} {q : ObjectId} {a : IpcAction}

/-- A waiting thread keeps its time of arrival. -/
theorem arrive_stamp (hw : WaitOk x.1.toThreads) {u : ThreadId} {r : ObjectId} (hu : u ∈ x.1.waiters r) :
    (arrive x.1 s' x.2).stamp u = x.2.stamp u := by
  have hsusp := hw.suspended u r hu
  simp [arrive, hsusp]

theorem arrive_clock (hc : ∀ t, x.2.stamp t < x.2.clock) (t : ThreadId) :
    (arrive x.1 s' x.2).stamp t < (arrive x.1 s' x.2).clock := by
  unfold arrive
  dsimp only
  split
  · omega
  · exact Nat.lt_succ_of_lt (hc t)

theorem Eases.ordered (he : Eases x.1 s') (hi : WaitInv x) : WaitInv (s', arrive x.1 s' x.2) := by
  refine ⟨he.waitOk hi.waits, arrive_clock hi.clock, fun q hq => ?_⟩
  have hold := (hi.ordered q (he.flag q ▸ hq)).sublist (he.sub q)
  exact (pairwise_before_congr (fun u hu => he.priority u q hu)
    fun u hu => arrive_stamp hi.waits ((he.sub q).subset hu)).mpr hold

theorem Joins.perm {s s' : MutexState} {flag : IpcFlag} (hj : Joins s s' q t flag) :
    (s'.waiters q).Perm (t :: s.waiters q) := by
  rw [hj.waiters, Function.update_self]
  cases flag with
  | fifo => exact List.perm_append_singleton t _
  | prio => exact insertByPriority_perm

theorem Joins.other {s s' : MutexState} {flag : IpcFlag} (hj : Joins s s' q t flag) {r : ObjectId}
    (hr : r ≠ q) : s'.waiters r = s.waiters r := by
  rw [hj.waiters, Function.update_of_ne hr]

theorem Joins.waitOk {s s' : MutexState} {flag : IpcFlag} (hj : Joins s s' q t flag) (hw : WaitOk s.toThreads) :
    WaitOk s'.toThreads := by
  have hout : ∀ r, t ∉ s.waiters r := fun r => hw.not_mem hj.ready
  have hmem : ∀ {u r}, u ∈ s'.waiters r → u ∈ s.waiters r ∨ u = t ∧ r = q := fun {u r} hu => by
    by_cases hr : r = q
    · subst hr
      rcases List.mem_cons.mp (hj.perm.mem_iff.mp hu) with rfl | hu
      · exact Or.inr ⟨rfl, rfl⟩
      · exact Or.inl hu
    · rw [hj.other hr] at hu
      exact Or.inl hu
  refine ⟨fun r => ?_, fun u r1 r2 h1 h2 => ?_, fun u r hu => ?_⟩
  · by_cases hr : r = q
    · subst hr
      exact hj.perm.nodup_iff.mpr (List.nodup_cons.mpr ⟨hout r, hw.nodup r⟩)
    · rw [hj.other hr]
      exact hw.nodup r
  · rcases hmem h1 with h1 | ⟨rfl, rfl⟩
    · rcases hmem h2 with h2 | ⟨rfl, rfl⟩
      · exact hw.one u r1 r2 h1 h2
      · exact absurd h1 (hout r1)
    · rcases hmem h2 with h2 | ⟨-, rfl⟩
      · exact absurd h2 (hout r2)
      · rfl
  · rw [hj.stat]
    split
    · rfl
    · rcases hmem hu with hu | ⟨rfl, -⟩
      · exact hw.suspended u r hu
      · contradiction

/-- After a thread joins a list the lists are in order if they are by the new priorities. -/
theorem Joins.ordered_iff (hj : Joins x.1 s' q t (x.1.mutex q).flag) (hi : WaitInv x) :
    PrioOrdered (s', arrive x.1 s' x.2) ↔ ∀ r, (x.1.mutex r).flag = .prio →
      (x.1.waiters r).Pairwise (Before s'.priority x.2.stamp) := by
  have hnow : (arrive x.1 s' x.2).stamp t = x.2.clock := by
    simp [arrive, hj.ready, hj.stat]
  have hsame : ∀ r, (x.1.waiters r).Pairwise (Before s'.priority (arrive x.1 s' x.2).stamp) ↔
      (x.1.waiters r).Pairwise (Before s'.priority x.2.stamp) := fun r =>
    pairwise_before_congr (fun _ _ => rfl) fun u hu => arrive_stamp hi.waits hu
  refine forall_congr' fun r => ?_
  dsimp only
  rw [hj.flag r]
  refine imp_congr_right fun hr => ?_
  rw [← hsame r]
  by_cases hrq : r = q
  · subst hrq
    have hlist : s'.waiters r = insertByPriority s'.priority t (x.1.waiters r) := by
      rw [hj.waiters, Function.update_self, hr]
      rfl
    rw [hlist]
    constructor
    · exact fun h => h.sublist sublist_insertByPriority
    · refine fun h => insertByPriority_pairwise h fun u hu => ?_
      rw [hnow, arrive_stamp hi.waits hu]
      exact hi.clock u
  · rw [hj.other hrq]

/-- A step leaves the lists in order exactly when it meets the condition. -/
theorem waitInv_step (hi : WaitInv x) (hs : arrivalStep x a = some x') :
    WaitOk x'.1.toThreads ∧ (∀ t, x'.2.stamp t < x'.2.clock) ∧ (PrioOrdered x' ↔ BoostsInPlace x a) := by
  obtain ⟨s', hstep, rfl⟩ := Option.map_eq_some_iff.mp hs
  have hclock : ∀ t, (arrive x.1 s' x.2).stamp t < (arrive x.1 s' x.2).clock := arrive_clock hi.clock
  cases ipcStep_effect hi.waits hstep with
  | eases he hok => exact ⟨he.waitOk hi.waits, hclock, iff_of_true (he.ordered hi).ordered hok⟩
  | joins hj hp hok =>
    refine ⟨hj.waitOk hi.waits, hclock, iff_of_true ((hj.ordered_iff hi).mpr fun r hr => ?_) hok⟩
    exact (pairwise_before_congr (fun u _ => hp u) fun _ _ => rfl).mpr (hi.ordered r hr)
  | @lends q t o hj ho hp hok =>
    refine ⟨hj.waitOk hi.waits, hclock, (hj.ordered_iff hi).trans (Iff.trans ?_ hok.symm)⟩
    by_cases hlt : x.1.priority t < x.1.priority o
    · have hlent : lendsTo x.1 q t = some o := by
        simp [lendsTo, ho, hlt]
      have hkeeps : (∀ o, lendsTo x.1 q t = some o → KeepsPlace x t o) ↔ KeepsPlace x t o := by
        simp [hlent]
      rw [hkeeps]
      refine forall_congr' fun r => imp_congr_right fun hr => ?_
      refine pairwise_boost_iff (hi.ordered r hr) (hi.waits.nodup r) hlt fun u => ?_
      rw [hp u, Nat.min_eq_right hlt.le]
    · have hsame : ∀ u, s'.priority u = x.1.priority u := fun u => by
        rw [hp u]
        split
        next hu => rw [hu, Nat.min_eq_left (Nat.le_of_not_lt hlt)]
        next => rfl
      have hnone : lendsTo x.1 q t = none := by
        simp [lendsTo, ho, Nat.le_of_not_lt hlt]
      refine iff_of_true (fun r hr => ?_) fun o h => by simp [hnone] at h
      exact (pairwise_before_congr (fun u _ => hsame u) fun _ _ => rfl).mpr (hi.ordered r hr)

theorem IpcStart.inv (h : IpcStart x) : WaitInv x := by
  have hempty := h.mutexes.waiters
  refine ⟨⟨fun q => ?_, fun u q r hu => ?_, fun u q hu => ?_⟩, h.clock, fun q _ => ?_⟩
  · rw [hempty]
    exact List.nodup_nil
  · simp [hempty] at hu
  · simp [hempty] at hu
  · rw [hempty]
    exact List.Pairwise.nil

/-- The states of runs whose steps all meet `ok`. -/
abbrev IpcReach (ok : MutexState × Arrivals → IpcAction → Prop) : MutexState × Arrivals → Prop :=
  Reach arrivalStep ok IpcStart

theorem ipcReach_inv (hr : IpcReach BoostsInPlace x) : WaitInv x :=
  hr.invariant (fun _ h => h.inv) fun _ _ _ hi hok hs =>
    have h := waitInv_step hi hs
    ⟨h.1, h.2.1, h.2.2.mpr hok⟩

/-- While every boost keeps a waiting thread in its place the lists are in order, so the first
thread of a list is the most urgent, and the first boost that does not breaks the order. -/
theorem ipcReach_prioOrdered (hr : IpcReach BoostsInPlace x) :
    PrioOrdered x ∧
    (∀ q n ns, (x.1.mutex q).flag = .prio → x.1.waiters q = n :: ns →
      ∀ u ∈ ns, Before x.1.priority x.2.stamp n u) ∧
    ∀ a x', arrivalStep x a = some x' → (PrioOrdered x' ↔ BoostsInPlace x a) := by
  have hi := ipcReach_inv hr
  refine ⟨hi.ordered, fun q n ns hq hlist => ?_, fun a x' hs => (waitInv_step hi hs).2.2⟩
  have hordered := hi.ordered q hq
  rw [hlist] at hordered
  exact (List.pairwise_cons.mp hordered).1

end

def readyForIpc : MutexState × Arrivals := (readyThreads oneUrgent .prio 0, ⟨fun _ => 0, 1⟩)

theorem readyForIpc_start : IpcStart readyForIpc :=
  ⟨readyThreads_start oneUrgent .prio 0, fun _ => Nat.zero_lt_one⟩

/-- Two threads wait for object 1, the more urgent one came last. -/
def twoWaiting : MutexState × Arrivals :=
  (runFrom arrivalStep [.block 1 1 (-1), .block 2 1 (-1)] readyForIpc).get (by decide +kernel)

theorem ipcReach_prioOrdered_twoWaiting : twoWaiting.1.waiters 1 = [2, 1] ∧ PrioOrdered twoWaiting := by
  have hr : IpcReach BoostsInPlace twoWaiting := by
    refine Reach.runFrom (runMeets_of_forall fun s a ha => ?_) (.start readyForIpc_start)
      (Option.some_get _).symm
    simp only [List.mem_cons, List.not_mem_nil, or_false] at ha
    rcases ha with rfl | rfl
    all_goals trivial
  exact ⟨by decide +kernel, (ipcReach_prioOrdered hr).1⟩

/-- Thread 3 waits for object 1 behind thread 1 and owns mutex 0, on which thread 2 blocks. -/
def boostedWaiter : MutexState × Arrivals :=
  (runFrom arrivalStep
    [.mutex (.take 3 0 (-1)), .block 1 1 (-1), .block 3 1 (-1), .mutex (.take 2 0 (-1))]
    readyForIpc).get (by decide +kernel)

/-- The boosted thread keeps its place behind a thread that is now less urgent. -/
theorem boost_breaks_order : ¬∀ x, IpcReach (fun _ _ => True) x → PrioOrdered x := by
  intro hall
  have hr : IpcReach (fun _ _ => True) boostedWaiter :=
    Reach.runFrom (runMeets_of_forall fun _ _ _ => trivial) (.start readyForIpc_start)
      (Option.some_get _).symm
  have hlist : boostedWaiter.1.waiters 1 = [1, 3] := by decide +kernel
  have hordered := hall boostedWaiter hr 1 (by decide +kernel)
  rw [hlist] at hordered
  have hbefore : Before boostedWaiter.1.priority boostedWaiter.2.stamp 1 3 := by
    simpa using hordered
  have h1 : boostedWaiter.1.priority 1 = 10 := by decide +kernel
  have h3 : boostedWaiter.1.priority 3 = 5 := by decide +kernel
  unfold Before at hbefore
  omega

end RTThread
