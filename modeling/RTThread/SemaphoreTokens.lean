import RTThread.SemaphoreModel

namespace RTThread

/-- What holds of the semaphores and the threads between any two steps. -/
structure SemOk (s : SemState) : Prop where
  wait : WaitOk s.toThreads
  waiting : ∀ q t, t ∈ s.waiters q → s.frame t = some q ∧ (s.thread t).error = .eok
  empty : ∀ q, 0 < (s.sem q).value → s.waiters q = []
  fits : ∀ q, (s.sem q).value < 65536

/-- The tokens of a semaphore that are still there, taken, or on the way. -/
def tokens (x : SemState × List SemEvent) (q : ObjectId) : Nat :=
  (x.1.sem q).value + takes q x.2 + x.1.takesToCome q

/-- No token is lost and none is made up. -/
def Conserved (init : ObjectId → Nat) (x : SemState × List SemEvent) (q : ObjectId) : Prop :=
  init q + releases q x.2 = tokens x q

section
variable {s s' : SemState} {q r : ObjectId} {t u : ThreadId} {c : Caller} {time : Int} {value : Nat}
  {e : Option SemEvent} {log : List SemEvent} {a : SemAction} {init : ObjectId → Nat}
  {x x' : SemState × List SemEvent}

@[simp] theorem setValue_self : ((s.setValue q value).sem q).value = value := by
  simp [SemState.setValue]

@[simp] theorem setValue_ne (h : r ≠ q) : (s.setValue q value).sem r = s.sem r :=
  Function.update_of_ne h ..

theorem takesToCome_congr (h : ∀ u, s'.aboutToTake q u = s.aboutToTake q u) :
    s'.takesToCome q = s.takesToCome q := by
  have heq : s'.aboutToTake q = s.aboutToTake q := funext h
  simp only [SemState.takesToCome, heq]

@[simp] theorem takesToCome_setValue : (s.setValue q value).takesToCome r = s.takesToCome r :=
  takesToCome_congr fun _ => rfl

/-- A thread that has been handed a token is the only change. -/
theorem takesToCome_succ (hne : ∀ u, u ≠ t → s'.aboutToTake q u = s.aboutToTake q u)
    (hs : s.aboutToTake q t = false) (hs' : s'.aboutToTake q t = true) :
    s'.takesToCome q = s.takesToCome q + 1 :=
  total_eq_succ t (fun u hu => congrArg Bool.toNat (hne u hu)) (by rw [hs, hs']; rfl)

theorem aboutToTake_congr (hthread : s'.thread u = s.thread u) (hframe : s'.frame u = s.frame u) :
    s'.aboutToTake q u = s.aboutToTake q u := by
  unfold SemState.aboutToTake
  rw [hthread, hframe]

theorem aboutToTake_suspend (h : (s.thread t).stat = .suspend) : s.aboutToTake q t = false := by
  simp [SemState.aboutToTake, h]

/-- A new value leaves the rest alone. -/
theorem SemOk.setValue (h : SemOk s) (hlt : value < 65536) (hempty : 0 < value → s.waiters q = []) :
    SemOk (s.setValue q value) := by
  refine ⟨h.wait, h.waiting, fun r hr => ?_, fun r => ?_⟩
  · by_cases hrq : r = q
    · subst hrq
      rw [setValue_self] at hr
      exact hempty hr
    · rw [setValue_ne hrq] at hr
      exact h.empty r hr
  · by_cases hrq : r = q
    · subst hrq
      rwa [setValue_self]
    · rw [setValue_ne hrq]
      exact h.fits r

/-- A waiting thread leaves its list. -/
theorem SemOk.resumed (h : SemOk s) (hr : Resumed s.toThreads s'.toThreads t) (hsem : s'.sem = s.sem)
    (hframe : s'.frame = s.frame) : SemOk s' := by
  refine ⟨hr.waitOk h.wait, fun q u hu => ?_, fun q hv => ?_, fun q => hsem ▸ h.fits q⟩
  · obtain ⟨hmem, hne⟩ := hr.mem.mp hu
    obtain ⟨hf, herror⟩ := h.waiting q u hmem
    exact ⟨hframe ▸ hf, (congrArg Thread.error (hr.other u hne)).trans herror⟩
  · have hnil := h.empty q (hsem ▸ hv)
    refine List.eq_nil_iff_forall_not_mem.mpr fun u hu => ?_
    simpa [hnil] using (hr.mem.mp hu).1

/-- A thread falls asleep in `rt_sem_take`. -/
theorem suspend_tokens (h : SemOk s) (hready : (s.thread t).stat = .ready) (hv : (s.sem q).value = 0)
    (hframe : s.frame t = none) (hs' : s' = { s with
      toThreads := suspendFor (setError s.toThreads t .eok) q t (s.sem q).flag time }.setFrame t
      (some q)) :
    SemOk s' ∧ ∀ r, s'.takesToCome r = s.takesToCome r := by
  have hready' : ((setError s.toThreads t .eok).thread t).stat = .ready := by
    simpa [setError] using hready
  have hnot : ∀ r, t ∉ (setError s.toThreads t .eok).waiters r := fun r => h.wait.not_mem hready
  obtain ⟨-, hthread⟩ := suspendFor_spec q (s.sem q).flag time hnot hready'
  have hother : ∀ u, u ≠ t → s'.thread u = s.thread u := fun u hu => by
    rw [hs']
    exact (hthread u).trans (by rw [if_neg hu, setError, Threads.set_ne hu])
  have hself : s'.thread t =
      { s.thread t with stat := .suspend, error := .eok, timerActive := decide (0 < time) } := by
    rw [hs']
    exact (hthread t).trans (by rw [if_pos rfl, setError, Threads.set_self])
  have hframes : s'.frame = Function.update s.frame t (some q) := by rw [hs']; rfl
  have hmem : ∀ u r, u ∈ s'.waiters r ↔ u ∈ s.waiters r ∨ u = t ∧ r = q := fun u r => by
    rw [hs']
    exact mem_suspendFor hnot hready'
  have hsem : s'.sem = s.sem := by rw [hs']; rfl
  refine ⟨⟨?_, fun r u hu => ?_, fun r hr => ?_, fun r => hsem ▸ h.fits r⟩,
    fun r => takesToCome_congr fun u => ?_⟩
  · rw [hs']
    exact suspendFor_waitOk (h.wait.set rfl) hready'
  · rcases (hmem u r).mp hu with hu | ⟨rfl, rfl⟩
    · have hut : u ≠ t := ne_of_mem_of_not_mem hu (hnot r)
      rw [hframes, Function.update_of_ne hut, hother u hut]
      exact h.waiting r u hu
    · rw [hframes, Function.update_self, hself]
      exact ⟨rfl, rfl⟩
  · rw [hsem] at hr
    refine List.eq_nil_iff_forall_not_mem.mpr fun u hu => ?_
    rcases (hmem u r).mp hu with hu | ⟨-, rfl⟩
    · simp [h.empty r hr] at hu
    · omega
  · by_cases hu : u = t
    · subst hu
      rw [aboutToTake_suspend (by rw [hself])]
      simp [SemState.aboutToTake, hframe]
    · exact aboutToTake_congr (hother u hu) (by rw [hframes, Function.update_of_ne hu])

theorem rtSemTake_tokens (h : SemOk s) (hc : s.canCall c = true)
    (hs : rtSemTake s q c time = some (s', e)) :
    SemOk s' ∧ ∀ r, tokens (s', e.toList ++ log) r = tokens (s, log) r := by
  unfold rtSemTake at hs
  split at hs
  next hv =>
    obtain ⟨rfl, rfl⟩ := Prod.mk.inj (Option.some.inj hs)
    have hfits := h.fits q
    refine ⟨h.setValue (by omega) fun _ => h.empty q hv, fun r => ?_⟩
    by_cases hr : r = q
    · subst hr
      simp only [tokens, setValue_self, takesToCome_setValue, takes, Option.toList_some,
        List.singleton_append, List.count_cons_self]
      omega
    · have hcount : takes r (.returned q .eok :: log) = takes r log :=
        List.count_cons_of_ne (by simp [Ne.symm hr])
      simp only [tokens, setValue_ne hr, takesToCome_setValue, Option.toList_some,
        List.singleton_append, hcount]
  next hv =>
    split at hs
    next =>
      obtain ⟨rfl, rfl⟩ := Prod.mk.inj (Option.some.inj hs)
      refine ⟨h, fun r => ?_⟩
      have hcount : takes r (.returned q .etimeout :: log) = takes r log :=
        List.count_cons_of_ne (by simp)
      simp only [tokens, Option.toList_some, List.singleton_append, hcount]
    next =>
      split at hs
      next => exact absurd hs (by simp)
      next t =>
        obtain ⟨hs', rfl⟩ := Prod.mk.inj (Option.some.inj hs)
        simp only [SemState.canCall, decide_eq_true_eq] at hc
        obtain ⟨hok, hcome⟩ := suspend_tokens h hc.1 (by omega) hc.2 hs'.symm
        refine ⟨hok, fun r => ?_⟩
        have hsem : s'.sem = s.sem := by rw [← hs']; rfl
        simp only [tokens, hsem, hcome, Option.toList_none, List.nil_append]

/-- A call that was handed a token returns `RT_EOK`, and no other does. -/
theorem semWake_tokens (h : SemOk s) (hready : (s.thread t).stat = .ready)
    (hs : semWake s t = some (s', e)) :
    SemOk s' ∧ ∀ r, tokens (s', e.toList ++ log) r = tokens (s, log) r := by
  unfold semWake at hs
  split at hs
  next q hf =>
    obtain ⟨hs', rfl⟩ := Prod.mk.inj (Option.some.inj hs)
    have hframe : s'.frame = Function.update s.frame t none := by rw [← hs']; rfl
    have hthread : s'.thread = s.thread := by rw [← hs']; rfl
    have hsem : s'.sem = s.sem := by rw [← hs']; rfl
    have hother : ∀ r u, u ≠ t → s.aboutToTake r u = s'.aboutToTake r u := fun r u hu =>
      (aboutToTake_congr (congrFun hthread u) (by rw [hframe, Function.update_of_ne hu])).symm
    have hself : ∀ r, s'.aboutToTake r t = false := fun r => by
      simp [SemState.aboutToTake, hframe]
    refine ⟨⟨by rw [← hs']; exact h.wait, fun r u hu => ?_, by rw [← hs']; exact h.empty,
      by rw [hsem]; exact h.fits⟩, fun r => ?_⟩
    · have hu' : u ∈ s.waiters r := by rw [← hs'] at hu; exact hu
      have hut : u ≠ t := ne_of_mem_of_not_mem hu' (h.wait.not_mem hready)
      rw [hframe, Function.update_of_ne hut, hthread]
      exact h.waiting r u hu'
    · simp only [tokens, hsem, Option.toList_some, List.singleton_append]
      by_cases htaken : r = q ∧ (s.thread t).error = .eok
      · obtain ⟨rfl, herror⟩ := htaken
        have hsucc := takesToCome_succ (hother r) (hself r)
          (by simp [SemState.aboutToTake, hf, hready, herror])
        rw [hsucc, herror, takes, List.count_cons_self]
        rw [takes]
        omega
      · have hcount : takes r (.returned q (s.thread t).error :: log) = takes r log :=
          List.count_cons_of_ne (by simpa [eq_comm] using htaken)
        rw [hcount, takesToCome_congr fun u => ?_]
        by_cases hu : u = t
        · subst hu
          rw [hself]
          simp only [SemState.aboutToTake, hf, Option.some.injEq]
          have hno : ¬ (q = r ∧ (s.thread u).stat = .ready ∧ (s.thread u).error = .eok) := fun h3 =>
            htaken ⟨h3.1.symm, h3.2.2⟩
          simp [hno]
        · exact (hother r u hu).symm
  next => exact absurd hs (by simp)

theorem releases_of_ne (h : e ≠ some (.released r)) :
    releases r (e.toList ++ log) = releases r log := by
  cases e with
  | none => rfl
  | some ev => exact List.count_cons_of_ne fun heq => h (congrArg some heq)

theorem releases_self : releases q (.released q :: log) = releases q log + 1 :=
  List.count_cons_self

theorem rtSemTake_event (hs : rtSemTake s q c time = some (s', e)) : e ≠ some (.released r) := by
  unfold rtSemTake at hs
  split at hs
  next =>
    obtain ⟨-, rfl⟩ := Prod.mk.inj (Option.some.inj hs)
    simp
  next =>
    split at hs
    next =>
      obtain ⟨-, rfl⟩ := Prod.mk.inj (Option.some.inj hs)
      simp
    next =>
      split at hs
      next => exact absurd hs (by simp)
      next =>
        obtain ⟨-, rfl⟩ := Prod.mk.inj (Option.some.inj hs)
        simp

theorem semWake_event (hs : semWake s t = some (s', e)) : e ≠ some (.released r) := by
  unfold semWake at hs
  split at hs
  next =>
    obtain ⟨-, rfl⟩ := Prod.mk.inj (Option.some.inj hs)
    simp
  next => exact absurd hs (by simp)

/-- The token of a release goes to a waiting thread, or into the counter if there is room. -/
theorem rtSemRelease_tokens (log : List SemEvent) (h : SemOk s) :
    SemOk (rtSemRelease s q) ∧
      (∀ r, r ≠ q → tokens (rtSemRelease s q, .released q :: log) r = tokens (s, log) r) ∧
      if s.waiters q ≠ [] ∨ (s.sem q).value ≠ 65535 then
        tokens (rtSemRelease s q, .released q :: log) q = tokens (s, log) q + 1
      else tokens (rtSemRelease s q, .released q :: log) q + 65535 = tokens (s, log) q := by
  have htakes : ∀ r, takes r (.released q :: log) = takes r log := fun r =>
    List.count_cons_of_ne (by simp)
  have hfits := h.fits q
  unfold rtSemRelease
  split
  next n ns hn =>
    have hmem : n ∈ s.waiters q := by rw [hn]; exact List.mem_cons_self
    have hsusp := h.wait.suspended n q hmem
    obtain ⟨hframe, herror⟩ := h.waiting q n hmem
    have hr := rtThreadResume_resumed hsusp
    have hother : ∀ r u, u ≠ n →
        SemState.aboutToTake { s with toThreads := rtThreadResume s.toThreads n } r u =
          s.aboutToTake r u := fun r u hu => aboutToTake_congr (hr.other u hu) rfl
    refine ⟨h.resumed hr rfl rfl, fun r hrq => ?_, ?_⟩
    · simp only [tokens, htakes]
      rw [takesToCome_congr fun u => ?_]
      by_cases hu : u = n
      · subst hu
        simp [SemState.aboutToTake, hframe, Ne.symm hrq]
      · exact hother r u hu
    · rw [if_pos (.inl (by simp [hn]))]
      have hsucc := takesToCome_succ (hother q) (aboutToTake_suspend hsusp)
        (by simp [SemState.aboutToTake, hframe, rtThreadResume_thread hsusp, herror])
      simp only [tokens, htakes, hsucc]
      omega
  next hnil =>
    refine ⟨h.setValue (Nat.mod_lt _ (by decide)) fun _ => hnil, fun r hr => ?_, ?_⟩
    · simp only [tokens, htakes, setValue_ne hr, takesToCome_setValue]
    · simp only [tokens, htakes, setValue_self, takesToCome_setValue]
      split
      next hroom =>
        have hne := hroom.resolve_left (by simp [hnil])
        omega
      next hfull =>
        have heq : (s.sem q).value = 65535 := by
          by_contra hne
          exact hfull (.inr hne)
        omega

/-- An expiry takes a thread off its list and hands it nothing. -/
theorem timeout_tokens {threads : Threads} (h : SemOk s)
    (hs : rtThreadTimeout s.toThreads t = some threads) :
    SemOk { s with toThreads := threads } ∧
      ∀ r, tokens ({ s with toThreads := threads }, log) r = tokens (s, log) r := by
  obtain ⟨hsusp, -, hother, hself, -⟩ := rtThreadTimeout_spec hs
  refine ⟨h.resumed (rtThreadTimeout_resumed hs) rfl rfl, fun r => ?_⟩
  simp only [tokens]
  rw [takesToCome_congr fun u => ?_]
  by_cases hu : u = t
  · subst hu
    rw [aboutToTake_suspend hsusp]
    simp [SemState.aboutToTake, hself]
  · exact aboutToTake_congr (hother u hu) rfl

/-- A step keeps the account exactly if it meets `KeepsToken`. -/
theorem semLogStep_conserved (h : SemOk x.1) (hx : ∀ q, Conserved init x q)
    (hs : semLogStep x a = some x') : SemOk x'.1 ∧ ((∀ q, Conserved init x' q) ↔ KeepsToken x a) := by
  obtain ⟨⟨s', e⟩, hstep, rfl⟩ := Option.map_eq_some_iff.mp hs
  have hkeeps : (SemOk s' ∧ ∀ r, tokens (s', e.toList ++ x.2) r = tokens x r) →
      (∀ r, e ≠ some (.released r)) → KeepsToken x a →
      SemOk s' ∧ ((∀ r, Conserved init (s', e.toList ++ x.2) r) ↔ KeepsToken x a) := by
    rintro ⟨hok, htokens⟩ he hk
    refine ⟨hok, iff_of_true (fun r => ?_) hk⟩
    unfold Conserved
    rw [htokens, releases_of_ne (he r)]
    exact hx r
  cases a with
  | take c q time =>
    obtain ⟨hc, hstep⟩ := Option.ite_none_right_eq_some.mp hstep
    exact hkeeps (rtSemTake_tokens h hc hstep) (fun r => rtSemTake_event hstep) trivial
  | trytake c q =>
    obtain ⟨hc, hstep⟩ := Option.ite_none_right_eq_some.mp hstep
    exact hkeeps (rtSemTake_tokens h hc hstep) (fun r => rtSemTake_event hstep) trivial
  | release q =>
    obtain ⟨rfl, rfl⟩ := Prod.mk.inj (Option.some.inj hstep)
    obtain ⟨hok, hother, hself⟩ := rtSemRelease_tokens (q := q) x.2 h
    refine ⟨hok, ⟨fun hall => ?_, fun hk r => ?_⟩⟩
    · by_contra hno
      have hfull : ¬ (x.1.waiters q ≠ [] ∨ (x.1.sem q).value ≠ 65535) := hno
      rw [if_neg hfull] at hself
      have hq : init q + releases q (.released q :: x.2) =
        tokens (rtSemRelease x.1 q, .released q :: x.2) q := hall q
      have hold : init q + releases q x.2 = tokens (x.1, x.2) q := hx q
      rw [releases_self] at hq
      omega
    · have hold : init r + releases r x.2 = tokens (x.1, x.2) r := hx r
      change init r + releases r (.released q :: x.2) =
        tokens (rtSemRelease x.1 q, .released q :: x.2) r
      by_cases hr : r = q
      · subst hr
        have hroom : x.1.waiters r ≠ [] ∨ (x.1.sem r).value ≠ 65535 := hk
        rw [if_pos hroom] at hself
        rw [releases_self]
        omega
      · have hcount : releases r (.released q :: x.2) = releases r x.2 :=
          List.count_cons_of_ne (by simp [Ne.symm hr])
        rw [hcount, hother r hr]
        exact hold
  | wake t =>
    obtain ⟨hready, hstep⟩ := Option.ite_none_right_eq_some.mp hstep
    exact hkeeps (semWake_tokens h hready hstep) (fun r => semWake_event hstep) trivial
  | timeout t =>
    obtain ⟨threads, ht, heq⟩ := Option.map_eq_some_iff.mp hstep
    obtain ⟨rfl, rfl⟩ := Prod.mk.inj heq
    exact hkeeps (timeout_tokens h ht) (fun r => by simp) trivial

theorem SemStart.conserved (hinit : ∀ q, init q < 65536) (h : SemStart init s) :
    SemOk s ∧ ∀ q, Conserved init (s, []) q := by
  have hvalue : ∀ q, (s.sem q).value = init q := fun q => by
    obtain ⟨flag, hq⟩ := h.sem q
    rw [hq]
    exact Nat.mod_eq_of_lt (hinit q)
  refine ⟨⟨⟨fun q => by simp [h.waiters], fun u q r hu => by simp [h.waiters] at hu,
    fun u q hu => by simp [h.waiters] at hu⟩, fun q t ht => by simp [h.waiters] at ht,
    fun q _ => h.waiters q, fun q => by rw [hvalue]; exact hinit q⟩, fun q => ?_⟩
  have hcome : s.takesToCome q = 0 :=
    total_eq_zero fun t => by simp [SemState.aboutToTake, h.frame]
  simp only [Conserved, tokens, hvalue, hcome, releases, takes, List.count_nil]

/-- No token is lost in runs that meet `KeepsToken`; a step that does not meet it loses tokens. -/
theorem semReach_conserves (hinit : ∀ q, init q < 65536) (hr : SemReach KeepsToken init x) :
    (∀ q, init q + releases q x.2 = (x.1.sem q).value + takes q x.2 + x.1.takesToCome q ∧
        (0 < (x.1.sem q).value → x.1.waiters q = [])) ∧
      ∀ a x', semLogStep x a = some x' → ((∀ q, Conserved init x' q) ↔ KeepsToken x a) := by
  have hok : SemOk x.1 ∧ ∀ q, Conserved init x q := by
    refine hr.invariant (I := fun x => SemOk x.1 ∧ ∀ q, Conserved init x q) (fun y hy => ?_)
      fun y a y' hy hk hs => ?_
    · obtain ⟨hstart, hlog⟩ := hy
      have hpair : y = (y.1, []) := by rw [← hlog]
      rw [hpair]
      exact hstart.conserved hinit
    · obtain ⟨hok', hiff⟩ := semLogStep_conserved hy.1 hy.2 hs
      exact ⟨hok', hiff.mpr hk⟩
  exact ⟨fun q => ⟨hok.2 q, hok.1.empty q⟩,
    fun a x' hs => (semLogStep_conserved hok.1 hok.2 hs).2⟩

end

/-- Semaphores with all tokens that fit. -/
def fullSemaphores : SemState where
  thread _ := ⟨.ready, 10, 10, .eok, false, 0, 0, []⟩
  waiters _ := []
  sem _ := rtSemInit .fifo 65535
  frame _ := none

theorem fullSemaphores_start : SemStart (fun _ => 65535) fullSemaphores :=
  ⟨fun _ => ⟨.fifo, rfl⟩, fun _ => rfl, fun _ => rfl⟩

/-- A token is taken and given back. -/
def afterTakeRelease : SemState × List SemEvent :=
  (runFrom semLogStep [.take (.thread 1) 0 0, .release 0] (fullSemaphores, [])).get (by decide +kernel)

theorem semReach_conserves_afterTakeRelease :
    65535 + releases 0 afterTakeRelease.2 =
      (afterTakeRelease.1.sem 0).value + takes 0 afterTakeRelease.2 + afterTakeRelease.1.takesToCome 0 := by
  have hr : SemReach KeepsToken (fun _ => 65535) afterTakeRelease :=
    Reach.runFrom (by decide +kernel) (.start ⟨fullSemaphores_start, rfl⟩) (Option.some_get _).symm
  exact ((semReach_conserves (fun _ => by decide) hr).1 0).1

theorem release_loses_tokens : ¬ ∀ init x, (∀ q, init q < 65536) → SemReach (fun _ _ => True) init x →
    ∀ q, init q + releases q x.2 = (x.1.sem q).value + takes q x.2 + x.1.takesToCome q := by
  intro h
  have hr : SemReach (fun _ _ => True) (fun _ => 65535) (rtSemRelease fullSemaphores 0, [.released 0]) :=
    Reach.step (a := .release 0) (.start ⟨fullSemaphores_start, rfl⟩ : Reach _ _ _ (fullSemaphores, []))
      trivial rfl
  have heq := h _ _ (fun _ => by decide) hr 0
  have hcome : (rtSemRelease fullSemaphores 0).takesToCome 0 = 0 :=
    total_eq_zero fun t => by simp [SemState.aboutToTake, rtSemRelease, fullSemaphores, SemState.setValue]
  have hvalue : ((rtSemRelease fullSemaphores 0).sem 0).value = 0 := by decide +kernel
  have hcounts : releases 0 [.released 0] = 1 ∧ takes 0 [.released 0] = 0 := by decide
  simp only [hcome, hvalue, hcounts] at heq
  omega

end RTThread
