import RTThread.MutexSteps

namespace RTThread

/-- What holds between the steps of a run without signals. -/
structure MutexInv (s : MutexState) : Prop where
  suspended : ∀ m t, t ∈ s.waiters m → (s.thread t).stat = .suspend
  frames : ∀ t fr, fr ∈ s.frames t → ∃ m time, fr = .waiting m time
  error : ∀ t, (s.thread t).error ≠ .eintr
  single : ∀ m r t, t ∈ s.waiters m → t ∈ s.waiters r → m = r
  noSelfWait : ∀ m t, (s.mutex m).owner = some t → t ∉ s.waiters m
  free : ∀ m, (s.mutex m).owner = none ∧ (s.mutex m).value = 1 ∧ (s.mutex m).hold % 256 = 0 ∧
    s.waiters m = [] ∨ (s.mutex m).owner ≠ none ∧ (s.mutex m).value = 0

/-- Everything a step of a run without signals can do. -/
inductive MutexEffect (s s' : MutexState) : MutexAction → Prop where
  | idle {a} (hs : SameThreads s s') (hm : s'.mutex = s.mutex)
    (ht : ∀ t m time, a = .take t m time →
      (s.mutex m).owner ≠ some t ∧ (s.mutex m).owner ≠ none ∧ time = 0)
    (hr : ∀ t m, a = .release t m → (s.mutex m).owner ≠ some t) : MutexEffect s s' a
  | recurse {t m time} (hs : SameThreads s s') (ho : (s.mutex m).owner = some t)
    (hm : s'.mutex m = { s.mutex m with hold := ((s.mutex m).hold + 1) % 256 })
    (hn : ∀ r, r ≠ m → s'.mutex r = s.mutex r) : MutexEffect s s' (.take t m time)
  | acquire {t m time} (hs : SameThreads s s') (ho : (s.mutex m).owner = none)
    (hm : s'.mutex m = { s.mutex m with
      value := 0
      owner := some t
      originalPriority := (s.thread t).currentPriority
      hold := ((s.mutex m).hold + 1) % 256 })
    (hn : ∀ r, r ≠ m → s'.mutex r = s.mutex r) : MutexEffect s s' (.take t m time)
  | block {t m time o} (hr : (s.thread t).stat = .ready) (ho : o ≠ t) (ht : time ≠ 0)
    (hb : Blocked s s' m t o) : MutexEffect s s' (.take t m time)
  | keep {t m} (hs : SameThreads s s') (ho : (s.mutex m).owner = some t)
    (hh : ((s.mutex m).hold + 255) % 256 ≠ 0)
    (hm : s'.mutex m = { s.mutex m with hold := ((s.mutex m).hold + 255) % 256 })
    (hn : ∀ r, r ≠ m → s'.mutex r = s.mutex r) : MutexEffect s s' (.release t m)
  | free {t m} (hr : (s.thread t).stat = .ready) (hg : GaveUp s s' m t) (hw : s.waiters m = [])
    (hstat : ∀ u, (s'.thread u).stat = (s.thread u).stat) (hwait : s'.waiters = s.waiters)
    (hm : s'.mutex m = { s.mutex m with
      value := ((s.mutex m).value + 1) % 65536
      owner := none
      originalPriority := 0xff
      hold := 0 }) : MutexEffect s s' (.release t m)
  | pass {t m n ns} (hr : (s.thread t).stat = .ready) (hg : GaveUp s s' m t)
    (hw : s.waiters m = n :: ns)
    (hstat : ∀ u, (s'.thread u).stat = if u = n then .ready else (s.thread u).stat)
    (hwait : ∀ u r, u ∈ s'.waiters r ↔ u ∈ s.waiters r ∧ u ≠ n)
    (hm : s'.mutex m = { s.mutex m with
      owner := some n
      originalPriority := (s.thread n).currentPriority
      hold := 1 }) : MutexEffect s s' (.release t m)
  | timeout {t} (ht : (s.thread t).stat = .suspend)
    (hcur : ∀ u, (s'.thread u).currentPriority = (s.thread u).currentPriority)
    (hbase : ∀ u, (s'.thread u).initPriority = (s.thread u).initPriority)
    (hstat : ∀ u, (s'.thread u).stat = if u = t then .ready else (s.thread u).stat)
    (hwait : ∀ u r, u ∈ s'.waiters r ↔ u ∈ s.waiters r ∧ u ≠ t) (hm : s'.mutex = s.mutex) :
    MutexEffect s s' (.timeout t)

section
variable {s s' : MutexState} {m : ObjectId} {t u n : ThreadId} {time : Int} {a : MutexAction}
  {ns : List ThreadId}

theorem MutexInv.not_waiting (hi : MutexInv s) (hr : (s.thread t).stat = .ready) :
    t ∉ s.waiters m := by
  intro hm
  rw [hi.suspended m t hm] at hr
  cases hr

theorem MutexInv.value_pos (hi : MutexInv s) : 0 < (s.mutex m).value ↔ (s.mutex m).owner = none := by
  rcases hi.free m with ⟨ho, hv, _⟩ | ⟨ho, hv⟩
  · simp [ho, hv]
  · simp [ho, hv]

/-- What `rt_mutex_take` can do when it is called. -/
theorem rtMutexTake_effect (hi : MutexInv s) (hr : (s.thread t).stat = .ready)
    (h : rtMutexTake s m t time = some s') :
    MutexEffect s s' (.take t m time) ∧
      (∀ u, (s'.thread u).error = (s.thread u).error ∨ (s'.thread u).error ≠ .eintr) ∧
      (s'.frames = s.frames ∨ s'.frames = Function.update s.frames t (.waiting m time :: s.frames t)) := by
  have hsame : SameThreads s (s.setThread t fun x => { x with error := .eok }) :=
    sameThreads_setThread rfl rfl rfl
  have herr : ∀ u, ((s.setThread t fun x => { x with error := .eok }).thread u).error =
      (s.thread u).error ∨
      ((s.setThread t fun x => { x with error := .eok }).thread u).error ≠ .eintr := by
    intro u
    by_cases hu : u = t
    · subst hu
      simp
    · rw [setThread_ne hu]
      exact Or.inl rfl
  simp only [rtMutexTake] at h
  split at h
  next ho =>
    have ho : (s.mutex m).owner = some t := ho
    obtain rfl := Option.some.inj h
    exact ⟨.recurse ⟨hsame.cur, hsame.base, hsame.stat, rfl⟩ ho (by simp)
      fun r hrm => setMutex_ne hrm, herr, Or.inl rfl⟩
  next ho =>
  have ho : (s.mutex m).owner ≠ some t := ho
  split at h
  next hv =>
    have hv : 0 < (s.mutex m).value := hv
    obtain rfl := Option.some.inj h
    have hfree := (hi.value_pos).mp hv
    have hval : (s.mutex m).value = 1 := by
      rcases hi.free m with ⟨_, hv, _⟩ | ⟨hne, _⟩
      · exact hv
      · exact absurd hfree hne
    refine ⟨.acquire ⟨hsame.cur, hsame.base, hsame.stat, rfl⟩ hfree ?_ fun r hrm => setMutex_ne hrm,
      herr, Or.inl rfl⟩
    simp [takeAvailable, hval]
  next hv =>
  have howned : (s.mutex m).owner ≠ none := fun hn => hv ((hi.value_pos).mpr hn)
  split at h
  next htime =>
    obtain rfl := Option.some.inj h
    have hsame2 : SameThreads s ((s.setThread t fun x => { x with error := .eok }).setThread t
        fun x => { x with error := .etimeout }) := by
      have h2 := sameThreads_setThread (s := s.setThread t fun x => { x with error := .eok }) (t := t)
        (f := fun x => { x with error := .etimeout }) rfl rfl rfl
      exact ⟨fun u => (h2.cur u).trans (hsame.cur u), fun u => (h2.base u).trans (hsame.base u),
        fun u => (h2.stat u).trans (hsame.stat u), rfl⟩
    refine ⟨.idle hsame2 rfl ?_ (fun _ _ he => by cases he), fun u => ?_, Or.inl rfl⟩
    · intro t' m' time' he
      cases he
      exact ⟨ho, howned, htime⟩
    · by_cases hu : u = t
      · subst hu
        simp
      · rw [setThread_ne hu, setThread_ne hu]
        exact Or.inl rfl
  next htime =>
    obtain ⟨s1, h1, rfl⟩ := Option.map_eq_some_iff.mp h
    obtain ⟨hframes, herror, o, hb⟩ := suspendOnMutex_spec (by rw [hsame.stat, hr]) h1
    refine ⟨.block (o := o) hr ?_ htime ?_, fun u => ?_, Or.inr ?_⟩
    · rintro rfl
      exact ho hb.owner
    · obtain ⟨b1, b2, b3, b4, b5, b6⟩ := hb
      exact ⟨b1, b2, fun u => by simpa [hsame.cur] using b3 u, fun u => (b4 u).trans (hsame.base u),
        fun u => by simpa [hsame.stat] using b5 u, b6⟩
    · rw [setFrames_threads, herror]
      exact herr u
    · simp [MutexState.setFrames, hframes]

theorem handOver_mutex : (handOver s m n).mutex m =
    { s.mutex m with
      owner := some n
      originalPriority := (s.thread n).currentPriority
      hold := ((s.mutex m).hold + 1) % 256 } := Function.update_self ..

theorem handOver_mutex_ne {r : ObjectId} (h : r ≠ m) : (handOver s m n).mutex r = s.mutex r :=
  Function.update_of_ne h ..

theorem handOver_spec (hn : (s.thread n).stat = .suspend) :
    (∀ u, ((handOver s m n).thread u).currentPriority = (s.thread u).currentPriority) ∧
    (∀ u, ((handOver s m n).thread u).initPriority = (s.thread u).initPriority) ∧
    (∀ u, ((handOver s m n).thread u).error = (s.thread u).error) ∧
    (∀ u, ((handOver s m n).thread u).stat = if u = n then .ready else (s.thread u).stat) ∧
    (∀ u r, u ∈ (handOver s m n).waiters r ↔ u ∈ s.waiters r ∧ u ≠ n) := by
  have hself : (handOver s m n).thread n = { s.thread n with stat := .ready, timerActive := false } :=
    rtThreadResume_thread (s := s.toThreads) hn
  have hother : ∀ u, u ≠ n → (handOver s m n).thread u = s.thread u := fun u hu =>
    rtThreadResume_thread_ne (s := s.toThreads) hu
  refine ⟨fun u => ?_, fun u => ?_, fun u => ?_, fun u => ?_, fun u r => ?_⟩
  · by_cases hu : u = n
    · rw [hu, hself]
    · rw [hother u hu]
  · by_cases hu : u = n
    · rw [hu, hself]
    · rw [hother u hu]
  · by_cases hu : u = n
    · rw [hu, hself]
    · rw [hother u hu]
  · by_cases hu : u = n
    · rw [if_pos hu, hu, hself]
    · rw [if_neg hu, hother u hu]
  · show u ∈ (rtThreadResume s.toThreads n).waiters r ↔ _
    rw [rtThreadResume_waiters hn, mem_rtListRemove]

theorem giveUpMutex_nil (hw : (restorePriority s m t).waiters m = []) : giveUpMutex s m t =
    (restorePriority s m t).setMutex m fun x =>
      { x with value := (x.value + 1) % 65536, owner := none, originalPriority := 0xff } := by
  simp [giveUpMutex, hw]

theorem giveUpMutex_cons (hw : (restorePriority s m t).waiters m = n :: ns) :
    giveUpMutex s m t = handOver (restorePriority s m t) m n := by
  simp [giveUpMutex, hw]

/-- What `rt_mutex_release` can do. -/
theorem rtMutexRelease_effect (hi : MutexInv s) (hr : (s.thread t).stat = .ready) :
    MutexEffect s (rtMutexRelease s m t) (.release t m) ∧
      (∀ u, ((rtMutexRelease s m t).thread u).error = (s.thread u).error ∨
        ((rtMutexRelease s m t).thread u).error ≠ .eintr) ∧
      (rtMutexRelease s m t).frames = s.frames := by
  unfold rtMutexRelease
  split
  next ho =>
    refine ⟨.idle (sameThreads_setThread rfl rfl rfl) rfl (fun _ _ _ he => by cases he) ?_, ?_, rfl⟩
    · intro t' m' he
      cases he
      exact ho
    · intro u
      by_cases hu : u = t
      · subst hu
        simp
      · rw [setThread_ne hu]
        exact Or.inl rfl
  next ho =>
    have ho : (s.mutex m).owner = some t := not_not.mp ho
    simp only [setMutex_self]
    split
    next hz =>
      obtain ⟨hrm, hrf, hrw, hrt⟩ := restorePriority_spec
        (s := s.setMutex m fun x => { x with hold := (x.hold + 255) % 256 }) (m := m) (t := t)
      generalize hs1 : restorePriority (s.setMutex m fun x => { x with hold := (x.hold + 255) % 256 })
        m t = s1 at hrm hrf hrw hrt
      simp only [setMutex_self, setMutex_threads] at hrt hrw
      cases hw : s.waiters m with
      | nil =>
        rw [giveUpMutex_nil (by rw [hs1, hrw, hw]), hs1]
        refine ⟨.free hr ⟨ho, hz, fun u => ?_, fun u => ?_, fun r hne => ?_⟩ hw (fun u => ?_) hrw ?_,
          fun u => Or.inl ?_, hrf⟩
        · rw [setMutex_threads, hrt]
        · rw [setMutex_threads, hrt]
        · rw [setMutex_ne hne, hrm, setMutex_ne hne]
        · rw [setMutex_threads, hrt]
        · simp [hrm, hz]
        · rw [setMutex_threads, hrt]
      | cons n ns =>
        rw [giveUpMutex_cons (by rw [hs1, hrw, hw]), hs1]
        have hn : (s.thread n).stat = .suspend := hi.suspended m n (by simp [hw])
        have hnt : n ≠ t := by
          rintro rfl
          rw [hn] at hr
          cases hr
        have hn1 : (s1.thread n).stat = .suspend := by rw [hrt, hn]
        obtain ⟨hcur, hbase, herr, hstat, hwait⟩ := handOver_spec (m := m) hn1
        refine ⟨.pass hr ⟨ho, hz, fun u => ?_, fun u => ?_, fun r hne => ?_⟩ hw (fun u => ?_)
          (fun u r => ?_) ?_, fun u => Or.inl ?_, hrf⟩
        · rw [hcur, hrt]
        · rw [hbase, hrt]
        · rw [handOver_mutex_ne hne, hrm, setMutex_ne hne]
        · rw [hstat, hrt]
        · rw [hwait, hrw]
        · rw [handOver_mutex, hrm, hrt]
          simp [hnt, hz]
        · rw [herr, hrt]
    next hz =>
      refine ⟨.keep ⟨fun _ => rfl, fun _ => rfl, fun _ => rfl, rfl⟩ ho hz (by simp) fun r hne =>
        setMutex_ne hne, fun u => Or.inl rfl, rfl⟩

theorem timeout_effect {threads : Threads} (h : rtThreadTimeout s.toThreads t = some threads) :
    MutexEffect s { s with toThreads := threads } (.timeout t) ∧
      ∀ u, (threads.thread u).error = (s.thread u).error ∨ (threads.thread u).error ≠ .eintr := by
  obtain ⟨hst, _, hother, hself, hwait⟩ := rtThreadTimeout_spec h
  refine ⟨.timeout hst (fun u => ?_) (fun u => ?_) (fun u => ?_) (fun u r => ?_) rfl, fun u => ?_⟩
  · by_cases hu : u = t
    · rw [hu, hself]
    · rw [hother u hu]
  · by_cases hu : u = t
    · rw [hu, hself]
    · rw [hother u hu]
  · by_cases hu : u = t
    · rw [if_pos hu, hu, hself]
    · rw [if_neg hu, hother u hu]
  · show u ∈ threads.waiters r ↔ _
    rw [hwait, mem_rtListRemove]
  · by_cases hu : u = t
    · rw [hu, hself]
      exact Or.inr (by simp)
    · exact Or.inl (by rw [hother u hu])

/-- The error of a waiting thread is never `-RT_EINTR`, so it returns when it wakes. -/
theorem wakeMutexTake_effect (hi : MutexInv s) (h : wakeMutexTake s t = some s') :
    MutexEffect s s' (.wake t) ∧ s'.thread = s.thread ∧
      ∃ fr, s.frames t = fr :: s'.frames t ∧ ∀ u, u ≠ t → s'.frames u = s.frames u := by
  unfold wakeMutexTake at h
  split at h
  next m time fs hf =>
    have hw : waitResult (s.thread t).error = some (s.thread t).error := by
      have he := hi.error t
      cases hx : (s.thread t).error <;> simp_all [waitResult]
    rw [hw] at h
    obtain rfl := Option.some.inj h
    refine ⟨.idle ⟨fun _ => rfl, fun _ => rfl, fun _ => rfl, rfl⟩ rfl ?_ ?_, rfl, .waiting m time, ?_,
      fun u hu => setFrames_ne hu⟩
    · intro _ _ _ he
      cases he
    · intro _ _ he
      cases he
    · rw [hf, setFrames_self]
  next => simp at h

theorem mutexStep_effect (hi : MutexInv s) (ha : ¬a.isSignal) (h : mutexStep s a = some s') :
    MutexEffect s s' a ∧
      (∀ u, (s'.thread u).error = (s.thread u).error ∨ (s'.thread u).error ≠ .eintr) ∧
      ∀ u fr, fr ∈ s'.frames u → fr ∈ s.frames u ∨ ∃ m time, fr = .waiting m time := by
  cases a with
  | take t m time =>
    simp only [mutexStep] at h
    split at h
    next hc =>
      obtain ⟨heff, herr, hframes⟩ := rtMutexTake_effect hi (canCall_ready hc) h
      refine ⟨heff, herr, fun u fr hfr => ?_⟩
      rcases hframes with hf | hf
      · exact Or.inl (hf ▸ hfr)
      · rw [hf] at hfr
        by_cases hu : u = t
        · subst hu
          rw [Function.update_self, List.mem_cons] at hfr
          exact hfr.elim (fun he => Or.inr ⟨m, time, he⟩) Or.inl
        · rw [Function.update_of_ne hu] at hfr
          exact Or.inl hfr
    next => simp at h
  | release t m =>
    simp only [mutexStep] at h
    split at h
    next hc =>
      obtain rfl := Option.some.inj h
      obtain ⟨heff, herr, hframes⟩ := rtMutexRelease_effect hi (canCall_ready hc) (m := m)
      exact ⟨heff, herr, fun u fr hfr => Or.inl (hframes ▸ hfr)⟩
    next => simp at h
  | timeout t =>
    obtain ⟨threads, hth, rfl⟩ := Option.map_eq_some_iff.mp h
    obtain ⟨heff, herr⟩ := timeout_effect hth
    exact ⟨heff, herr, fun u fr hfr => Or.inl hfr⟩
  | wake t =>
    simp only [mutexStep] at h
    split at h
    next =>
      obtain ⟨heff, hthread, fr, hpop, hframes⟩ := wakeMutexTake_effect hi h
      refine ⟨heff, fun u => Or.inl (by rw [hthread]), fun u fr' hfr => Or.inl ?_⟩
      by_cases hu : u = t
      · subst hu
        rw [hpop]
        exact List.mem_cons_of_mem fr hfr
      · rwa [hframes u hu] at hfr
    next => simp at h
  | retry t =>
    simp only [mutexStep] at h
    split at h
    next =>
      unfold retryMutexTake at h
      split at h
      next m time fs hf => simpa using hi.frames t (.again m time) (by simp [hf])
      next m fs hf => simpa using hi.frames t (.acquire m) (by simp [hf])
      next m time fs hf => simpa using hi.frames t (.block m time) (by simp [hf])
      next => simp at h
    next => simp at h
  | killPend t signo => exact absurd rfl ha
  | killAppend t signo => exact absurd rfl ha
  | killDeliver t => exact absurd rfl ha
  | sigBegin t => exact absurd rfl ha
  | sigEnd t => exact absurd rfl ha

theorem MutexStart.inv (hs : MutexStart s) : MutexInv s := by
  refine ⟨fun m t ht => ?_, fun t fr hfr => ?_, fun t => ?_, fun m r t ht => ?_,
    fun m t _ => by simp [hs.waiters m], fun m => Or.inl ?_⟩
  · rw [hs.waiters m] at ht
    cases ht
  · rw [hs.frames t] at hfr
    cases hfr
  · rw [hs.error t]
    decide
  · rw [hs.waiters m] at ht
    cases ht
  · obtain ⟨flag, hf⟩ := hs.free m
    rw [hf]
    exact ⟨rfl, rfl, rfl, hs.waiters m⟩

/-- Free and owned mutexes after a step. -/
theorem MutexEffect.free_inv (hi : MutexInv s) (he : MutexEffect s s' a) (r : ObjectId) :
    (s'.mutex r).owner = none ∧ (s'.mutex r).value = 1 ∧ (s'.mutex r).hold % 256 = 0 ∧
      s'.waiters r = [] ∨ (s'.mutex r).owner ≠ none ∧ (s'.mutex r).value = 0 := by
  have hold := hi.free r
  have howned : ∀ m t, (s.mutex m).owner = some t → (s.mutex m).value = 0 := by
    intro m t ho
    rcases hi.free m with ⟨hn, _⟩ | ⟨_, hv⟩
    · rw [ho] at hn
      cases hn
    · exact hv
  cases he with
  | idle hs hm => rwa [hm, hs.waiters]
  | @recurse t m time hs ho hm hn =>
    by_cases hr : r = m
    · subst hr
      rw [hm]
      exact Or.inr ⟨by simp [ho], howned r t ho⟩
    · rwa [hn r hr, hs.waiters]
  | @acquire t m time hs ho hm hn =>
    by_cases hr : r = m
    · subst hr
      rw [hm]
      exact Or.inr ⟨by simp, rfl⟩
    · rwa [hn r hr, hs.waiters]
  | @block t m time o hready ho _ hb =>
    rw [hb.mutex]
    by_cases hr : r = m
    · subst hr
      exact Or.inr ⟨by simp [hb.owner], howned r o hb.owner⟩
    · refine hold.imp_left fun ⟨h1, h2, h3, h4⟩ => ⟨h1, h2, h3, ?_⟩
      refine List.eq_nil_iff_forall_not_mem.mpr fun u hu => ?_
      have := (hb.waiters u r).mp hu
      simp [hr, h4] at this
  | @keep t m hs ho hh hm hn =>
    by_cases hr : r = m
    · subst hr
      rw [hm]
      exact Or.inr ⟨by simp [ho], howned r t ho⟩
    · rwa [hn r hr, hs.waiters]
  | @free t m hready hg hw hstat hwait hm =>
    by_cases hr : r = m
    · subst hr
      rw [hm, hwait]
      exact Or.inl ⟨rfl, by simp [howned r t hg.owner], rfl, hw⟩
    · rwa [hg.others r hr, hwait]
  | @pass t m n ns hready hg hw hstat hwait hm =>
    by_cases hr : r = m
    · subst hr
      rw [hm]
      exact Or.inr ⟨by simp, howned r t hg.owner⟩
    · rw [hg.others r hr]
      refine hold.imp_left fun ⟨h1, h2, h3, h4⟩ => ⟨h1, h2, h3, ?_⟩
      refine List.eq_nil_iff_forall_not_mem.mpr fun u hu => ?_
      have := (hwait u r).mp hu
      simp [h4] at this
  | timeout _ _ _ _ hwait hm =>
    rw [hm]
    refine hold.imp_left fun ⟨h1, h2, h3, h4⟩ => ⟨h1, h2, h3, ?_⟩
    refine List.eq_nil_iff_forall_not_mem.mpr fun u hu => ?_
    have := (hwait u r).mp hu
    simp [h4] at this

/-- Waiting threads are suspended after a step. -/
theorem MutexEffect.suspended (hi : MutexInv s) (he : MutexEffect s s' a) (r : ObjectId)
    (hu : u ∈ s'.waiters r) : (s'.thread u).stat = .suspend := by
  cases he with
  | idle hs hm => rw [hs.stat, hi.suspended r u (hs.waiters ▸ hu)]
  | recurse hs => rw [hs.stat, hi.suspended r u (hs.waiters ▸ hu)]
  | acquire hs => rw [hs.stat, hi.suspended r u (hs.waiters ▸ hu)]
  | block _ _ _ hb =>
    rw [hb.stat]
    split
    · rfl
    next hne =>
      rcases (hb.waiters u r).mp hu with ⟨he, _⟩ | ⟨_, hu⟩
      · exact absurd he hne
      · exact hi.suspended r u hu
  | keep hs => rw [hs.stat, hi.suspended r u (hs.waiters ▸ hu)]
  | free _ hg hw hstat hwait => rw [hstat, hi.suspended r u (hwait ▸ hu)]
  | pass _ hg hw hstat hwait =>
    obtain ⟨hu, hne⟩ := (hwait u r).mp hu
    rw [hstat, if_neg hne, hi.suspended r u hu]
  | timeout _ _ _ hstat hwait =>
    obtain ⟨hu, hne⟩ := (hwait u r).mp hu
    rw [hstat, if_neg hne, hi.suspended r u hu]

/-- No owner waits for its own mutex after a step. -/
theorem MutexEffect.noSelfWait (hi : MutexInv s) (he : MutexEffect s s' a) (r : ObjectId)
    (ho : (s'.mutex r).owner = some u) : u ∉ s'.waiters r := by
  have hold := hi.noSelfWait r u
  cases he with
  | idle hs hm => exact hs.waiters ▸ hold (hm ▸ ho)
  | @recurse t m time hs hom hm hn =>
    rw [hs.waiters]
    by_cases hr : r = m
    · subst hr
      exact hold (by rwa [hm] at ho)
    · exact hold (by rwa [hn r hr] at ho)
  | @acquire t m time hs hom hm hn =>
    rw [hs.waiters]
    by_cases hr : r = m
    · subst hr
      rcases hi.free r with ⟨_, _, _, hw⟩ | ⟨hne, _⟩
      · simp [hw]
      · exact absurd hom hne
    · exact hold (by rwa [hn r hr] at ho)
  | @block t m time o hready hot _ hb =>
    intro hu
    rw [hb.mutex] at ho
    rcases (hb.waiters u r).mp hu with ⟨rfl, rfl⟩ | ⟨_, hu⟩
    · exact hot (Option.some.inj (hb.owner.symm.trans ho))
    · exact hold ho hu
  | @keep t m hs hom hh hm hn =>
    rw [hs.waiters]
    by_cases hr : r = m
    · subst hr
      exact hold (by rwa [hm] at ho)
    · exact hold (by rwa [hn r hr] at ho)
  | @free t m hready hg hw hstat hwait hm =>
    rw [hwait]
    by_cases hr : r = m
    · subst hr
      rw [hm] at ho
      cases ho
    · exact hold (by rwa [hg.others r hr] at ho)
  | @pass t m n ns hready hg hw hstat hwait hm =>
    intro hu
    obtain ⟨hu, hne⟩ := (hwait u r).mp hu
    by_cases hr : r = m
    · subst hr
      rw [hm] at ho
      exact hne (Option.some.inj ho).symm
    · exact hold (by rwa [hg.others r hr] at ho) hu
  | timeout _ _ _ _ hwait hm => exact fun hu => hold (hm ▸ ho) ((hwait u r).mp hu).1

/-- No thread gets onto a second suspend list. -/
theorem MutexEffect.single (hi : MutexInv s) (he : MutexEffect s s' a) {r : ObjectId}
    (hm : u ∈ s'.waiters m) (hr : u ∈ s'.waiters r) : m = r := by
  cases he with
  | idle hs => exact hi.single m r u (hs.waiters ▸ hm) (hs.waiters ▸ hr)
  | recurse hs => exact hi.single m r u (hs.waiters ▸ hm) (hs.waiters ▸ hr)
  | acquire hs => exact hi.single m r u (hs.waiters ▸ hm) (hs.waiters ▸ hr)
  | block _ _ _ hb =>
    rcases (hb.waiters u m).mp hm with ⟨h1, h2⟩ | ⟨h1, h2⟩
    · rcases (hb.waiters u r).mp hr with ⟨_, h4⟩ | ⟨h3, _⟩
      · rw [h2, h4]
      · exact absurd h1 h3
    · rcases (hb.waiters u r).mp hr with ⟨h3, _⟩ | ⟨_, h4⟩
      · exact absurd h3 h1
      · exact hi.single m r u h2 h4
  | keep hs => exact hi.single m r u (hs.waiters ▸ hm) (hs.waiters ▸ hr)
  | free _ _ _ _ hwait => exact hi.single m r u (hwait ▸ hm) (hwait ▸ hr)
  | pass _ _ _ _ hwait => exact hi.single m r u ((hwait u m).mp hm).1 ((hwait u r).mp hr).1
  | timeout _ _ _ _ hwait => exact hi.single m r u ((hwait u m).mp hm).1 ((hwait u r).mp hr).1

theorem mutexStep_inv (hi : MutexInv s) (ha : ¬a.isSignal) (h : mutexStep s a = some s') :
    MutexInv s' := by
  obtain ⟨heff, herr, hframes⟩ := mutexStep_effect hi ha h
  refine ⟨fun m t ht => heff.suspended hi m ht, fun t fr hfr => ?_, fun t => ?_,
    fun m r t hm hr => heff.single hi hm hr, fun m t => heff.noSelfWait hi m, heff.free_inv hi⟩
  · exact (hframes t fr hfr).elim (hi.frames t fr) id
  · exact (herr t).elim (fun he => he ▸ hi.error t) id

end

end RTThread
