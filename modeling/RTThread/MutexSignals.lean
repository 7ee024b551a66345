import RTThread.MutexCounting

namespace RTThread

/-- Calls nest only inside handlers. -/
def Nested : List Frame → Prop
  | [] => True
  | .handler _ :: fs => Nested fs
  | _ :: fs => outsideCall fs = true ∧ Nested fs

/-- The thread is at `__again`, or past its test and about to block on `m`. -/
def Retrying (fs : List Frame) (m : ObjectId) : Prop :=
  ∃ time rest, fs = .again m time :: rest ∨ fs = .block m time :: rest

/-- What one thread's frames, status, error, suspend list and mutexes have to do with each other. -/
structure ThreadOk (s : MutexState) (t : ThreadId) : Prop where
  nested : Nested (s.frames t)
  waiting : ∀ m, t ∈ s.waiters m →
    (s.thread t).stat = .suspend ∧ (s.mutex m).owner ≠ some t ∧
      ∃ time fs, s.frames t = .waiting m time :: fs
  listed : ∀ m time fs, s.frames t = .waiting m time :: fs → (s.thread t).stat = .suspend →
    t ∈ s.waiters m
  retry : ∀ m, Retrying (s.frames t) m →
    (s.thread t).stat = .ready ∧ (s.thread t).error = .eintr ∧ (s.mutex m).owner ≠ some t
  error : ∀ m time fs, s.frames t = .waiting m time :: fs →
    t ∈ s.waiters m ∨ (s.mutex m).owner = some t →
    (s.thread t).error = .eok ∨ (s.thread t).error = .eintr

/-- A thread whose wait ended with `-RT_EINTR` does not own the mutex it goes on to retry, and a
handler does not return to the retry of a mutex its thread owns. -/
def RetriesUnowned (s : MutexState) : MutexAction → Prop
  | .wake t => ∀ m time fs, s.frames t = .waiting m time :: fs → (s.thread t).error = .eintr →
    (s.mutex m).owner ≠ some t
  | .sigEnd t => ∀ signo fs m, s.frames t = .handler signo :: fs → Retrying fs m →
    (s.mutex m).owner ≠ some t
  | _ => True

section
variable {s s' : MutexState} {a : MutexAction} {m : ObjectId} {t u n : ThreadId} {time : Int}
  {fs : List Frame} {f : Thread → Thread}

theorem not_retrying_outside (ho : outsideCall fs = true) : ¬Retrying fs m := by
  rintro ⟨time, rest, rfl | rfl⟩ <;> simp [outsideCall] at ho

theorem not_retrying_waiting {r : ObjectId} : ¬Retrying (.waiting r time :: fs) m := by
  rintro ⟨time', rest, h | h⟩ <;> cases h

theorem outside_ne_waiting (ho : outsideCall fs = true) {rest : List Frame} :
    fs ≠ .waiting m time :: rest := by
  rintro rfl
  simp [outsideCall] at ho

/-- A step that changes nothing about a thread but the mutexes it no longer owns. -/
theorem ThreadOk.congr (h : ThreadOk s t) (hf : s'.frames t = s.frames t)
    (hs : (s'.thread t).stat = (s.thread t).stat) (he : (s'.thread t).error = (s.thread t).error)
    (hw : ∀ m, t ∈ s'.waiters m ↔ t ∈ s.waiters m)
    (ho : ∀ m, (s'.mutex m).owner = some t → (s.mutex m).owner = some t) : ThreadOk s' t := by
  refine ⟨hf ▸ h.nested, fun m hm => ?_, fun m time fs hfr hst => ?_, fun m hm => ?_,
    fun m time fs hfr hm => ?_⟩
  · obtain ⟨h1, h2, h3⟩ := h.waiting m ((hw m).mp hm)
    exact ⟨hs.trans h1, fun hx => h2 (ho m hx), by rwa [hf]⟩
  · exact (hw m).mpr (h.listed m time fs (hf ▸ hfr) (hs ▸ hst))
  · obtain ⟨h1, h2, h3⟩ := h.retry m (hf ▸ hm)
    exact ⟨hs.trans h1, he.trans h2, fun hx => h3 (ho m hx)⟩
  · rw [he]
    exact h.error m time fs (hf ▸ hfr) (hm.imp (hw m).mp (ho m))

theorem ThreadOk.not_waiting (h : ThreadOk s t) (hr : (s.thread t).stat = .ready) :
    t ∉ s.waiters m := by
  intro hm
  rw [(h.waiting m hm).1] at hr
  cases hr

/-- A ready thread is on no suspend list; only its retry and its pending result matter. -/
theorem ThreadOk.ready (hn : Nested (s.frames t)) (hs : (s.thread t).stat = .ready)
    (hw : ∀ m, t ∉ s.waiters m)
    (hretry : ∀ m, Retrying (s.frames t) m →
      (s.thread t).error = .eintr ∧ (s.mutex m).owner ≠ some t)
    (herr : ∀ m time fs, s.frames t = .waiting m time :: fs → (s.mutex m).owner = some t →
      (s.thread t).error = .eok ∨ (s.thread t).error = .eintr) : ThreadOk s t := by
  refine ⟨hn, fun m hm => absurd hm (hw m), fun m time fs _ hst => ?_, fun m hm => ⟨hs, hretry m hm⟩,
    fun m time fs hf hm => herr m time fs hf (hm.resolve_left (hw m))⟩
  rw [hs] at hst
  cases hst

theorem ThreadOk.outside (hn : Nested (s.frames t)) (hs : (s.thread t).stat = .ready)
    (hw : ∀ m, t ∉ s.waiters m) (ho : outsideCall (s.frames t) = true) : ThreadOk s t :=
  .ready hn hs hw (fun _ hm => absurd hm (not_retrying_outside ho))
    fun _ _ _ hf => absurd hf (outside_ne_waiting ho)

theorem canCall_outside (h : canCall s t = true) : outsideCall (s.frames t) = true := by
  simp only [canCall, Bool.and_eq_true] at h
  exact h.2

/-- Blocking on a mutex somebody else owns, from the first try or from a retry. -/
theorem suspendOnMutex_ok (hok : ∀ u, ThreadOk s u) (hr : (s.thread t).stat = .ready)
    (ho : (s.mutex m).owner ≠ some t) (hn : Nested (.waiting m time :: fs))
    (he : (s.thread t).error = .eok ∨ (s.thread t).error = .eintr)
    (h : suspendOnMutex s m t time = some s') (u : ThreadId) :
    ThreadOk (s'.setFrames t (.waiting m time :: fs)) u := by
  obtain ⟨hframes, herror, o, hb⟩ := suspendOnMutex_spec hr h
  by_cases hu : u = t
  · subst hu
    have hw : ∀ r, u ∈ s'.waiters r ↔ r = m := fun r => by
      simp [hb.waiters, (hok u).not_waiting hr]
    have hst : (s'.thread u).stat = .suspend := by rw [hb.stat, if_pos rfl]
    refine ⟨by rwa [setFrames_self], fun r hm => ?_, fun r time' fs' hf _ => ?_, fun r hret => ?_,
      fun r _ _ _ _ => ?_⟩
    · obtain rfl := (hw r).mp hm
      exact ⟨hst, by rw [setFrames_mutex, hb.mutex]; exact ho, time, fs, by rw [setFrames_self]⟩
    · rw [setFrames_self] at hf
      injection hf with hf _
      injection hf with hmr _
      exact (hw r).mpr hmr.symm
    · rw [setFrames_self] at hret
      exact absurd hret not_retrying_waiting
    · rw [setFrames_threads, herror]
      exact he
  · refine (hok u).congr ?_ ?_ ?_ (fun r => ?_) fun r => ?_
    · rw [setFrames_ne hu, hframes]
    · rw [setFrames_threads, hb.stat, if_neg hu]
    · rw [setFrames_threads, herror]
    · rw [setFrames_threads, hb.waiters]
      simp [hu]
    · rw [setFrames_mutex, hb.mutex]
      exact id

theorem setThread_ok (hok : ∀ u, ThreadOk s u) (hs : ∀ x, (f x).stat = x.stat)
    (he : ∀ x, (f x).error = x.error) (u : ThreadId) : ThreadOk (s.setThread t f) u :=
  (hok u).congr rfl (setThread_field _ (hs _) u) (setThread_field _ (he _) u) (fun _ => Iff.rfl)
    fun _ => id

/-- Changing the error of a thread outside any call. -/
theorem setError_ok (hok : ∀ u, ThreadOk s u) (hr : (s.thread t).stat = .ready)
    (ho : outsideCall (s.frames t) = true) (hs : ∀ x, (f x).stat = x.stat) (u : ThreadId) :
    ThreadOk (s.setThread t f) u := by
  by_cases hu : u = t
  · subst hu
    refine .outside (hok u).nested ?_ (fun m => (hok u).not_waiting hr) ho
    rw [setThread_self, hs, hr]
  · refine (hok u).congr rfl ?_ ?_ (fun _ => Iff.rfl) fun _ => id
    · rw [setThread_ne hu]
    · rw [setThread_ne hu]

theorem setMutex_ok {g : Mutex → Mutex} (hok : ∀ u, ThreadOk s u)
    (hg : (g (s.mutex m)).owner = (s.mutex m).owner) (u : ThreadId) :
    ThreadOk (s.setMutex m g) u := by
  refine (hok u).congr rfl rfl rfl (fun _ => Iff.rfl) fun r => ?_
  by_cases hr : r = m
  · subst hr
    rw [setMutex_self, hg]
    exact id
  · rw [setMutex_ne hr]
    exact id

/-- A ready thread outside any call becomes the owner of a mutex, or stops being it. -/
theorem setOwner_ok {g : Mutex → Mutex} (hok : ∀ u, ThreadOk s u) (hr : (s.thread t).stat = .ready)
    (ho : outsideCall (s.frames t) = true)
    (hg : (g (s.mutex m)).owner = some t ∨ (g (s.mutex m)).owner = none) (u : ThreadId) :
    ThreadOk (s.setMutex m g) u := by
  by_cases hu : u = t
  · subst hu
    exact .outside (hok u).nested hr (fun m => (hok u).not_waiting hr) ho
  · refine (hok u).congr rfl rfl rfl (fun _ => Iff.rfl) fun r hro => ?_
    by_cases hrm : r = m
    · subst hrm
      rw [setMutex_self] at hro
      rcases hg with hg | hg
      · rw [hg] at hro
        exact absurd (Option.some.inj hro).symm hu
      · rw [hg] at hro
        cases hro
    · rwa [setMutex_ne hrm] at hro

theorem changePriority_ok {p : Nat} (hok : ∀ u, ThreadOk s u) (u : ThreadId) :
    ThreadOk { s with toThreads := changePriority s.toThreads t p } u :=
  setThread_ok (f := fun x => { x with currentPriority := p }) hok (fun _ => rfl) (fun _ => rfl) u

theorem restorePriority_ok (hok : ∀ u, ThreadOk s u) (u : ThreadId) :
    ThreadOk (restorePriority s m t) u := by
  unfold restorePriority
  split
  · exact changePriority_ok hok u
  · exact hok u

/-- The thread the mutex is handed to was waiting for it with a clean or an interrupted error. -/
theorem handOver_ok (hok : ∀ u, ThreadOk s u) (hn : n ∈ s.waiters m) (u : ThreadId) :
    ThreadOk (handOver s m n) u := by
  obtain ⟨hst, _, time, fs, hf⟩ := (hok n).waiting m hn
  obtain ⟨_, _, herr, hstat, hwait⟩ := handOver_spec (m := m) hst
  by_cases hu : u = n
  · subst hu
    refine .ready (hok u).nested (by rw [hstat, if_pos rfl]) (fun r hr => ?_) (fun r hret => ?_)
      fun r time' fs' hf' _ => ?_
    · exact ((hwait u r).mp hr).2 rfl
    · exact absurd (show Retrying (s.frames u) r from hret) (by rw [hf]; exact not_retrying_waiting)
    · rw [herr]
      exact (hok u).error m time fs hf (Or.inl hn)
  · refine (hok u).congr rfl ?_ (herr u) (fun r => ?_) fun r hro => ?_
    · rw [hstat, if_neg hu]
    · rw [hwait]
      simp [hu]
    · by_cases hr : r = m
      · subst hr
        rw [handOver_mutex] at hro
        exact absurd (Option.some.inj hro).symm hu
      · rwa [handOver_mutex_ne hr] at hro

theorem rtMutexTake_ok (hok : ∀ u, ThreadOk s u) (hc : canCall s t = true)
    (h : rtMutexTake s m t time = some s') (u : ThreadId) : ThreadOk s' u := by
  have hr := canCall_ready hc
  have ho := canCall_outside hc
  have hok1 := setError_ok (f := fun x => { x with error := .eok }) hok hr ho fun _ => rfl
  have hr1 : ((s.setThread t fun x => { x with error := .eok }).thread t).stat = .ready := by
    rw [setThread_self, ← hr]
  simp only [rtMutexTake] at h
  split at h
  · obtain rfl := Option.some.inj h
    exact setMutex_ok hok1 rfl u
  split at h
  · obtain rfl := Option.some.inj h
    exact setOwner_ok hok1 hr1 ho (Or.inl rfl) u
  split at h
  · obtain rfl := Option.some.inj h
    refine setError_ok hok1 hr1 ho ?_ u
    exact fun _ => rfl
  next howner _ _ =>
    obtain ⟨s1, h1, rfl⟩ := Option.map_eq_some_iff.mp h
    exact suspendOnMutex_ok hok1 hr1 howner ⟨ho, (hok t).nested⟩ (Or.inl (by simp)) h1 u

theorem rtMutexRelease_ok (hok : ∀ u, ThreadOk s u) (hc : canCall s t = true) (u : ThreadId) :
    ThreadOk (rtMutexRelease s m t) u := by
  have hr := canCall_ready hc
  have ho := canCall_outside hc
  unfold rtMutexRelease
  split
  · refine setError_ok hok hr ho ?_ u
    exact fun _ => rfl
  simp only
  have hok1 := setMutex_ok (m := m) (g := fun x => { x with hold := (x.hold + 255) % 256 }) hok rfl
  split
  · have hok2 := fun u => restorePriority_ok (m := m) (t := t) hok1 u
    obtain ⟨_, hrf, hrw, hrt⟩ := restorePriority_spec
      (s := s.setMutex m fun x => { x with hold := (x.hold + 255) % 256 }) (m := m) (t := t)
    cases hw : s.waiters m with
    | nil =>
      rw [giveUpMutex_nil (by rw [hrw]; exact hw)]
      refine setOwner_ok (t := t) hok2 ?_ ?_ (Or.inr rfl) u
      · rw [hrt]
        exact hr
      · rw [hrf]
        exact ho
    | cons n ns =>
      rw [giveUpMutex_cons (by rw [hrw]; exact hw)]
      refine handOver_ok hok2 ?_ u
      rw [hrw]
      exact hw ▸ List.mem_cons_self
  · exact hok1 u

/-- A thread that stops waiting without being handed the mutex does not own it. -/
theorem resumed_ok {threads : Threads} (hok : ∀ u, ThreadOk s u)
    (hst : (s.thread t).stat = .suspend) (hother : ∀ u, u ≠ t → threads.thread u = s.thread u)
    (hself : (threads.thread t).stat = .ready)
    (hw : threads.waiters = (rtListRemove s.toThreads t).waiters) (u : ThreadId) :
    ThreadOk { s with toThreads := threads } u := by
  have hmem : ∀ u r, u ∈ threads.waiters r ↔ u ∈ s.waiters r ∧ u ≠ t := fun u r => by
    rw [hw, mem_rtListRemove]
  by_cases hu : u = t
  · subst hu
    refine .ready (hok u).nested hself (fun r hr => ((hmem u r).mp hr).2 rfl) (fun r hret => ?_)
      fun r time fs hf ho => ?_
    · rw [((hok u).retry r hret).1] at hst
      cases hst
    · exact absurd ho ((hok u).waiting r ((hok u).listed r time fs hf hst)).2.1
  · refine (hok u).congr rfl ?_ ?_ (fun r => ?_) fun _ => id
    · rw [show ({ s with toThreads := threads } : MutexState).thread u = s.thread u from hother u hu]
    · rw [show ({ s with toThreads := threads } : MutexState).thread u = s.thread u from hother u hu]
    · exact (hmem u r).trans (and_iff_left hu)

/-- New frames for a ready thread. -/
theorem setFrames_ok (hok : ∀ u, ThreadOk s u) (ht : ThreadOk (s.setFrames t fs) t) (u : ThreadId) :
    ThreadOk (s.setFrames t fs) u := by
  by_cases hu : u = t
  · exact hu ▸ ht
  · exact (hok u).congr (setFrames_ne hu) rfl rfl (fun _ => Iff.rfl) fun _ => id

theorem wakeMutexTake_ok (hok : ∀ u, ThreadOk s u) (hr : (s.thread t).stat = .ready)
    (hc : RetriesUnowned s (.wake t)) (h : wakeMutexTake s t = some s') (u : ThreadId) :
    ThreadOk s' u := by
  unfold wakeMutexTake at h
  split at h
  next m time fs hf =>
    have hn : outsideCall fs = true ∧ Nested fs := by
      have := (hok t).nested
      rwa [hf] at this
    have hw : ∀ r, t ∉ s.waiters r := fun r => (hok t).not_waiting hr
    split at h
    next he =>
      obtain rfl := Option.some.inj h
      have herr : (s.thread t).error = .eintr := by
        cases hx : (s.thread t).error <;> simp_all [waitResult]
      refine setFrames_ok hok (.ready ?_ hr hw (fun r hret => ⟨herr, ?_⟩) fun r _ _ hf' _ => ?_) u
      · rw [setFrames_self]
        exact hn
      · rw [setFrames_self] at hret
        obtain ⟨_, _, he | he⟩ := hret
        · injection he with he _
          injection he with hmr _
          exact hmr ▸ hc m time fs hf herr
        · cases he
      · rw [setFrames_self] at hf'
        cases hf'
    next =>
      obtain rfl := Option.some.inj h
      refine setFrames_ok hok (.outside ?_ hr hw ?_) u
      · rw [setFrames_self]
        exact hn.2
      · rw [setFrames_self]
        exact hn.1
  next => simp at h

/-- A step from `__again` on: the thread does not own the mutex it tests or blocks on. -/
theorem retryMutexTake_ok (hok : ∀ u, ThreadOk s u) (hr : (s.thread t).stat = .ready)
    (h : retryMutexTake s t = some s') (u : ThreadId) : ThreadOk s' u := by
  have hw : ∀ r, t ∉ s.waiters r := fun r => (hok t).not_waiting hr
  have hnested := (hok t).nested
  unfold retryMutexTake at h
  split at h
  next m time fs hf =>
    rw [hf] at hnested
    have hret := (hok t).retry m ⟨time, fs, Or.inl hf⟩
    split at h
    · obtain rfl := Option.some.inj h
      refine setFrames_ok hok (.ready ?_ hr hw (fun r hret' => ?_) fun r _ _ hf' _ => ?_) u
      · rw [setFrames_self]
        exact hnested
      · rw [setFrames_self] at hret'
        obtain ⟨_, _, he | he⟩ := hret' <;> cases he
      · rw [setFrames_self] at hf'
        cases hf'
    split at h
    · obtain rfl := Option.some.inj h
      have hok1 : ∀ u, ThreadOk (s.setFrames t fs) u := setFrames_ok hok
        (.outside (by rw [setFrames_self]; exact hnested.2) hr hw (by rw [setFrames_self]; exact hnested.1))
      refine setError_ok (t := t) hok1 hr ?_ (f := fun x => { x with error := .etimeout })
        (fun _ => rfl) u
      rw [setFrames_self]
      exact hnested.1
    · obtain rfl := Option.some.inj h
      refine setFrames_ok hok (.ready ?_ hr hw (fun r hret' => ?_) fun r _ _ hf' _ => ?_) u
      · rw [setFrames_self]
        exact hnested
      · rw [setFrames_self] at hret'
        obtain ⟨_, _, he | he⟩ := hret'
        · cases he
        · injection he with he _
          injection he with hmr _
          exact hmr ▸ hret.2
      · rw [setFrames_self] at hf'
        cases hf'
  next m fs hf =>
    obtain rfl := Option.some.inj h
    rw [hf] at hnested
    have hok1 : ∀ u, ThreadOk (s.setFrames t fs) u := setFrames_ok hok
      (.outside (by rw [setFrames_self]; exact hnested.2) hr hw (by rw [setFrames_self]; exact hnested.1))
    exact setOwner_ok (t := t) (m := m) hok1 hr (by rw [setFrames_self]; exact hnested.1)
      (g := fun x =>
        { x with
          value := (x.value + 65535) % 65536
          owner := some t
          originalPriority := (s.thread t).currentPriority
          hold := (x.hold + 1) % 256 }) (Or.inl rfl) u
  next m time fs hf =>
    obtain ⟨s1, h1, rfl⟩ := Option.map_eq_some_iff.mp h
    rw [hf] at hnested
    have hret := (hok t).retry m ⟨time, fs, Or.inr hf⟩
    exact suspendOnMutex_ok hok hr hret.2.2 hnested (Or.inr hret.2.1) h1 u
  next => simp at h

theorem handleSigBegin_ok (hok : ∀ u, ThreadOk s u) (h : handleSigBegin s t = some s')
    (u : ThreadId) : ThreadOk s' u := by
  unfold handleSigBegin at h
  split at h
  next hc =>
    split at h
    · simp at h
    next signo rest _ =>
      obtain rfl := Option.some.inj h
      have hok1 := setThread_ok (t := t) (f := fun x => { x with siList := rest }) hok
        (fun _ => rfl) fun _ => rfl
      refine setFrames_ok hok1 (.outside ?_ ?_ (fun r => (hok t).not_waiting hc.1) ?_) u
      · rw [setFrames_self]
        exact (hok t).nested
      · rw [setFrames_threads, setThread_self]
        exact hc.1
      · rw [setFrames_self]
        rfl
  next => simp at h

theorem handleSigEnd_ok (hok : ∀ u, ThreadOk s u) (hr : (s.thread t).stat = .ready)
    (hc : RetriesUnowned s (.sigEnd t)) (h : handleSigEnd s t = some s') (u : ThreadId) :
    ThreadOk s' u := by
  unfold handleSigEnd at h
  split at h
  next signo fs hf =>
    obtain rfl := Option.some.inj h
    by_cases hu : u = t
    · subst hu
      have herr : ∀ g : Thread → Thread, (∀ x, (g x).error = .eintr) →
          (((s.setThread u g).setFrames u fs).thread u).error = .eintr := fun g hg => by
        rw [setFrames_threads, setThread_self, hg]
      refine .ready ?_ ?_ (fun r => (hok u).not_waiting hr) (fun r hret => ⟨herr _ fun _ => rfl, ?_⟩)
        fun _ _ _ _ _ => Or.inr (herr _ fun _ => rfl)
      · have := (hok u).nested
        rw [hf] at this
        rwa [setFrames_self]
      · rw [setFrames_threads, setThread_self]
        exact hr
      · rw [setFrames_self] at hret
        exact hc signo fs r hf hret
    · refine (hok u).congr (setFrames_ne hu) ?_ ?_ (fun _ => Iff.rfl) fun _ => id
      · rw [setFrames_threads, setThread_ne hu]
      · rw [setFrames_threads, setThread_ne hu]
  next => simp at h

theorem signalDeliver_ok (hok : ∀ u, ThreadOk s u) (u : ThreadId) :
    ThreadOk (signalDeliver s t) u := by
  unfold signalDeliver
  split
  · exact hok u
  split
  next hst =>
    exact resumed_ok hok hst (fun u hu => rtThreadResume_thread_ne hu)
      (by rw [rtThreadResume_thread hst]) (rtThreadResume_waiters hst) u
  next => exact hok u

/-- One step, whoever takes it. -/
theorem mutexStep_ok (hok : ∀ u, ThreadOk s u) (hc : RetriesUnowned s a)
    (h : mutexStep s a = some s') (u : ThreadId) : ThreadOk s' u := by
  cases a with
  | take t m time =>
    simp only [mutexStep] at h
    split at h
    next hcall => exact rtMutexTake_ok hok hcall h u
    next => simp at h
  | release t m =>
    simp only [mutexStep] at h
    split at h
    next hcall => exact Option.some.inj h ▸ rtMutexRelease_ok hok hcall u
    next => simp at h
  | timeout t =>
    obtain ⟨threads, hth, rfl⟩ := Option.map_eq_some_iff.mp h
    obtain ⟨hst, _, hother, hself, hwait⟩ := rtThreadTimeout_spec hth
    exact resumed_ok hok hst hother (by rw [hself]) hwait u
  | wake t =>
    simp only [mutexStep] at h
    split at h
    next hr => exact wakeMutexTake_ok hok hr hc h u
    next => simp at h
  | retry t =>
    simp only [mutexStep] at h
    split at h
    next hr => exact retryMutexTake_ok hok hr h u
    next => simp at h
  | killPend t signo =>
    obtain rfl := Option.some.inj h
    refine setThread_ok hok ?_ ?_ u
    · exact fun _ => rfl
    · exact fun _ => rfl
  | killAppend t signo =>
    obtain rfl := Option.some.inj h
    refine setThread_ok hok ?_ ?_ u
    · exact fun _ => rfl
    · exact fun _ => rfl
  | killDeliver t => exact Option.some.inj h ▸ signalDeliver_ok hok u
  | sigBegin t => exact handleSigBegin_ok hok h u
  | sigEnd t =>
    simp only [mutexStep] at h
    split at h
    next hr => exact handleSigEnd_ok hok hr hc h u
    next => simp at h

theorem MutexStart.ok (hs : MutexStart s) (t : ThreadId) : ThreadOk s t := by
  refine ⟨?_, fun m hm => ?_, fun m time fs hf => ?_, fun m hm => ?_, fun m time fs hf => ?_⟩
  · rw [hs.frames t]
    trivial
  · rw [hs.waiters m] at hm
    cases hm
  · rw [hs.frames t] at hf
    cases hf
  · rw [hs.frames t] at hm
    exact absurd hm (not_retrying_outside rfl)
  · rw [hs.frames t] at hf
    cases hf

/-- The states of runs with signals whose steps all meet `ok`. -/
abbrev SignalReach (ok : MutexState → MutexAction → Prop) : MutexState → Prop :=
  Reach mutexStep ok MutexStart

end

/-- Thread two waits for a mutex of thread one, and a signal for it starts its handler. -/
def handlingWaiter : MutexState :=
  (runFrom mutexStep [.take 1 0 (-1), .take 2 0 (-1), .killPend 2 10, .killAppend 2 10,
    .killDeliver 2, .sigBegin 2] (readyThreads oneUrgent .fifo (sigBit 10))).get (by decide +kernel)

theorem handlingWaiter_reach : SignalReach RetriesUnowned handlingWaiter :=
  Reach.runFrom (runMeets_of_forall fun s a ha => by
    simp only [List.mem_cons, List.not_mem_nil, or_false] at ha
    rcases ha with rfl | rfl | rfl | rfl | rfl | rfl <;> trivial)
    (.start (readyThreads_start oneUrgent .fifo (sigBit 10))) (Option.some_get _).symm

def interruptedWaiter : MutexState := (mutexStep handlingWaiter (.sigEnd 2)).get (by decide +kernel)

/-- The interrupted thread waits again, is handed the mutex, and takes its old error for a new
interruption. -/
def selfWaiter : MutexState :=
  (runFrom mutexStep [.take 1 0 (-1), .take 2 0 (-1), .killPend 2 10, .killAppend 2 10,
    .killDeliver 2, .sigBegin 2, .sigEnd 2, .wake 2, .retry 2, .retry 2, .release 1 0, .wake 2,
    .retry 2, .retry 2] (readyThreads oneUrgent .fifo (sigBit 10))).get (by decide +kernel)

end RTThread
