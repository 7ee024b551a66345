import RTThread.MutexPriority

namespace RTThread

/-- Successful takes and releases of a mutex since its owner became owner. -/
structure Tally where
  takes : Nat
  releases : Nat

/-- A new owner starts with the take, its own or the handed one, that made it owner. -/
def tally (s s' : MutexState) (a : MutexAction) (c : ObjectId → Tally) (m : ObjectId) : Tally :=
  if (s'.mutex m).owner ≠ (s.mutex m).owner then ⟨1, 0⟩
  else
    match a with
    | .take t r _ =>
      if r = m ∧ (s.mutex m).owner = some t then ⟨(c m).takes + 1, (c m).releases⟩ else c m
    | .release t r =>
      if r = m ∧ (s.mutex m).owner = some t then ⟨(c m).takes, (c m).releases + 1⟩ else c m
    | _ => c m

def countStep (s : MutexState × (ObjectId → Tally)) (a : MutexAction) :
    Option (MutexState × (ObjectId → Tally)) :=
  (mutexStep s.1 a).map fun s' => (s', tally s.1 s' a s.2)

/-- Runs without signals that count the takes and releases of each mutex. -/
abbrev CountReach : MutexState × (ObjectId → Tally) → Prop :=
  Reach countStep (fun _ a => ¬a.isSignal) fun s => MutexStart s.1

/-- The hold counter is the number of takes not yet released, in eight bits. -/
def HoldCounts (s : MutexState × (ObjectId → Tally)) : Prop :=
  ∀ m t, (s.1.mutex m).owner = some t → (s.2 m).releases < (s.2 m).takes ∧
    (s.1.mutex m).hold = ((s.2 m).takes - (s.2 m).releases) % 256

section
variable {s s' : MutexState} {c : ObjectId → Tally} {a : MutexAction} {m : ObjectId} {t : ThreadId}

theorem tally_kept (ho : (s'.mutex m).owner = (s.mutex m).owner)
    (ht : ∀ t time, a = .take t m time → (s.mutex m).owner ≠ some t)
    (hr : ∀ t, a = .release t m → (s.mutex m).owner ≠ some t) : tally s s' a c m = c m := by
  unfold tally
  rw [if_neg (not_not.mpr ho)]
  cases a with
  | take t r time =>
    refine if_neg ?_
    rintro ⟨rfl, howner⟩
    exact ht t time rfl howner
  | release t r =>
    refine if_neg ?_
    rintro ⟨rfl, howner⟩
    exact hr t rfl howner
  | _ => rfl

theorem holdCounts_same (ho : (s'.mutex m).owner = (s.mutex m).owner)
    (hh : (s'.mutex m).hold = (s.mutex m).hold) (htally : tally s s' a c m = c m)
    (hc : HoldCounts (s, c)) (hm : (s'.mutex m).owner = some t) :
    (tally s s' a c m).releases < (tally s s' a c m).takes ∧
      (s'.mutex m).hold = ((tally s s' a c m).takes - (tally s s' a c m).releases) % 256 := by
  rw [htally, hh]
  exact hc m t (ho ▸ hm)

/-- Every step keeps the counter in step with the takes and releases. -/
theorem holdCounts_step (hi : MutexInv s) (hc : HoldCounts (s, c)) (he : MutexEffect s s' a) :
    HoldCounts (s', tally s s' a c) := by
  intro r u hu
  show (tally s s' a c r).releases < _ ∧ (s'.mutex r).hold = _
  have hu : (s'.mutex r).owner = some u := hu
  cases he with
  | @idle _ hs hm ht hr =>
    refine holdCounts_same (by rw [hm]) (by rw [hm]) (tally_kept (by rw [hm]) ?_ ?_) hc hu
    · exact fun t time ha => (ht t r time ha).1
    · exact fun t ha => hr t r ha
  | @recurse t m time hs ho hm hn =>
    by_cases hr : r = m
    · subst hr
      obtain ⟨hlt, hh⟩ := hc r t ho
      simp only at hlt hh
      simp only [tally, hm, ho, ne_eq, not_true_eq_false, if_false, and_self, if_true]
      omega
    · refine holdCounts_same (by rw [hn r hr]) (by rw [hn r hr]) (tally_kept (by rw [hn r hr]) ?_ ?_) hc hu
      · intro t' time' ha
        cases ha
        exact absurd rfl hr
      · intro t' ha
        cases ha
  | @acquire t m time hs ho hm hn =>
    by_cases hr : r = m
    · subst hr
      have hz : (s.mutex r).hold % 256 = 0 := by
        rcases hi.free r with ⟨_, _, hz, _⟩ | ⟨hne, _⟩
        · exact hz
        · exact absurd ho hne
      simp only [tally, hm, ho, ne_eq, reduceCtorEq, not_false_eq_true, if_true]
      omega
    · refine holdCounts_same (by rw [hn r hr]) (by rw [hn r hr]) (tally_kept (by rw [hn r hr]) ?_ ?_) hc hu
      · intro t' time' ha
        cases ha
        exact absurd rfl hr
      · intro t' ha
        cases ha
  | @block t m time o _ hot _ hb =>
    have hm := hb.mutex
    refine holdCounts_same (by rw [hm]) (by rw [hm]) (tally_kept (by rw [hm]) ?_ ?_) hc hu
    · intro t' time' ha ho
      cases ha
      exact hot (Option.some.inj (hb.owner.symm.trans ho))
    · intro t' ha
      cases ha
  | @keep t m hs ho hh hm hn =>
    by_cases hr : r = m
    · subst hr
      obtain ⟨hlt, hh'⟩ := hc r t ho
      simp only at hlt hh'
      simp only [tally, hm, ho, ne_eq, not_true_eq_false, if_false, and_self, if_true]
      omega
    · refine holdCounts_same (by rw [hn r hr]) (by rw [hn r hr]) (tally_kept (by rw [hn r hr]) ?_ ?_) hc hu
      · intro t' time' ha
        cases ha
      · intro t' ha
        cases ha
        exact absurd rfl hr
  | @free t m _ hg hw hstat hwait hm =>
    by_cases hr : r = m
    · subst hr
      rw [hm] at hu
      cases hu
    · have hn := hg.others r hr
      refine holdCounts_same (by rw [hn]) (by rw [hn]) (tally_kept (by rw [hn]) ?_ ?_) hc hu
      · intro t' time' ha
        cases ha
      · intro t' ha
        cases ha
        exact absurd rfl hr
  | @pass t m n ns hready hg hw hstat hwait hm =>
    by_cases hr : r = m
    · subst hr
      have hnt : n ≠ t := by
        rintro rfl
        exact hi.not_waiting hready (m := r) (by simp [hw])
      simp [tally, hm, hg.owner, hnt]
    · have hn := hg.others r hr
      refine holdCounts_same (by rw [hn]) (by rw [hn]) (tally_kept (by rw [hn]) ?_ ?_) hc hu
      · intro t' time' ha
        cases ha
      · intro t' ha
        cases ha
        exact absurd rfl hr
  | timeout _ _ _ _ _ hm =>
    refine holdCounts_same (by rw [hm]) (by rw [hm]) (tally_kept (by rw [hm]) ?_ ?_) hc hu
    · intro t' time' ha
      cases ha
    · intro t' ha
      cases ha

theorem CountReach.inv {x : MutexState × (ObjectId → Tally)} (hr : CountReach x) :
    MutexInv x.1 ∧ HoldCounts x := by
  refine hr.invariant (I := fun x => MutexInv x.1 ∧ HoldCounts x) (fun x hs => ⟨hs.inv, ?_⟩)
    fun x a x' hx ha hs => ?_
  · intro m t ho
    obtain ⟨flag, hf⟩ := hs.free m
    rw [hf] at ho
    cases ho
  · obtain ⟨s', h, rfl⟩ := Option.map_eq_some_iff.mp hs
    exact ⟨mutexStep_inv hx.1 ha h, holdCounts_step hx.1 hx.2 (mutexStep_effect hx.1 ha h).1⟩

/-- A release by the owner gives the mutex up exactly when the hold counter comes to zero. -/
theorem release_gives_up (hi : MutexInv s) (ho : (s.mutex m).owner = some t)
    (he : MutexEffect s s' (.release t m)) :
    (s'.mutex m).owner ≠ some t ↔ ((s.mutex m).hold + 255) % 256 = 0 := by
  cases he with
  | idle hs hm ht hr => exact absurd ho (hr t m rfl)
  | keep hs ho' hh hm =>
    rw [hm]
    exact iff_of_false (not_not.mpr ho) hh
  | free _ hg _ _ _ hm =>
    rw [hm]
    exact iff_of_true (by simp) hg.hold
  | @pass _ _ n ns hready hg hw _ _ hm =>
    rw [hm]
    refine iff_of_true ?_ hg.hold
    rintro he
    obtain rfl : n = t := Option.some.inj he
    exact hi.not_waiting hready (m := m) (by simp [hw])

/-- Ownership in every run: `value`, owner and suspend list agree, and a release by the owner gives
the mutex up at the right moment exactly when the takes it has left to release are one, or not one
modulo 256. -/
theorem countReach_exact (hr : CountReach (s, c)) :
    (∀ m, ((s.mutex m).value = 1 ↔ (s.mutex m).owner = none) ∧
      ((s.mutex m).owner = none → s.waiters m = [])) ∧
    (∀ m t u, (s.mutex m).owner = some t → (s.mutex m).owner = some u → t = u) ∧
    ∀ t m s', (s.mutex m).owner = some t → mutexStep s (.release t m) = some s' →
      (((s'.mutex m).owner ≠ some t ↔ (c m).takes = (c m).releases + 1) ↔
        (c m).takes - (c m).releases = 1 ∨ ((c m).takes - (c m).releases) % 256 ≠ 1) := by
  obtain ⟨hi, hc⟩ := hr.inv
  refine ⟨fun m => ?_, fun m t u ht hu => Option.some.inj (ht.symm.trans hu), fun t m s' ho hs => ?_⟩
  · rcases hi.free m with ⟨ho, hv, _, hw⟩ | ⟨ho, hv⟩
    · exact ⟨iff_of_true hv ho, fun _ => hw⟩
    · have hne : (s.mutex m).value ≠ 1 := by
        rw [hv]
        decide
      exact ⟨iff_of_false hne ho, fun hn => absurd hn ho⟩
  · rw [release_gives_up hi ho (mutexStep_effect hi (by simp [MutexAction.isSignal]) hs).1]
    obtain ⟨hlt, hh⟩ := hc m t ho
    simp only at hlt hh
    have hzero : ((s.mutex m).hold + 255) % 256 = 0 ↔
        ((c m).takes - (c m).releases) % 256 = 1 := by
      rw [hh]
      omega
    have hlast : (c m).takes = (c m).releases + 1 ↔ (c m).takes - (c m).releases = 1 := by omega
    rw [hzero, hlast]
    by_cases hd : (c m).takes - (c m).releases = 1
    · simp [hd]
    · simp [hd]

end

theorem recursive_take (k : Nat) : ∃ s c, CountReach (s, c) ∧ canCall s 1 = true ∧
    (s.mutex 0).owner = some 1 ∧ c 0 = ⟨k + 1, 0⟩ := by
  induction k with
  | zero =>
    let x := (countStep (readyThreads oneUrgent .fifo 0, fun _ => ⟨0, 0⟩) (.take 1 0 (-1))).get
      (by decide +kernel)
    have hx : CountReach x :=
      .step (a := .take 1 0 (-1)) (.start (readyThreads_start oneUrgent .fifo 0)) (by decide)
        (Option.some_get _).symm
    exact ⟨x.1, x.2, hx, by decide +kernel, by decide +kernel, rfl⟩
  | succ k ih =>
    obtain ⟨s, c, hr, hcall, ho, hc⟩ := ih
    let s' : MutexState := (s.setThread 1 fun x => { x with error := .eok }).setMutex 0 fun x =>
      { x with hold := (x.hold + 1) % 256 }
    have hstep : mutexStep s (.take 1 0 (-1)) = some s' := by
      simp [mutexStep, hcall, rtMutexTake, ho, s']
    have hs' : countStep (s, c) (.take 1 0 (-1)) = some (s', tally s s' (.take 1 0 (-1)) c) := by
      simp [countStep, hstep]
    refine ⟨s', _, hr.step (by decide) hs', ?_, by simp [s', ho], ?_⟩
    · have hframes : s'.frames = s.frames := rfl
      have hstat : (s'.thread 1).stat = (s.thread 1).stat := by simp [s']
      rw [canCall, hframes, hstat]
      exact hcall
    · simp [tally, s', ho, hc]

theorem countReach_exact_partial : ∃ s c, CountReach (s, c) ∧ c 0 = ⟨3, 0⟩ ∧
    ((rtMutexRelease s 0 1).mutex 0).owner = some 1 := by
  obtain ⟨s, c, hr, hcall, ho, hc⟩ := recursive_take 2
  have hstep : mutexStep s (.release 1 0) = some (rtMutexRelease s 0 1) := by
    simp [mutexStep, hcall]
  have hlaw := ((countReach_exact hr).2.2 1 0 _ ho hstep).mpr (Or.inr (by simp [hc]))
  refine ⟨s, c, hr, hc, ?_⟩
  by_contra hne
  have := hlaw.mp hne
  simp [hc] at this

/-- After 257 takes the eight-bit counter stands at one, and one release gives the mutex up. -/
theorem hold_counter_wraps : ¬∀ s c, CountReach (s, c) → ∀ t m s', (s.mutex m).owner = some t →
    mutexStep s (.release t m) = some s' →
    ((s'.mutex m).owner ≠ some t ↔ (c m).takes = (c m).releases + 1) := by
  intro hall
  obtain ⟨s, c, hr, hcall, ho, hc⟩ := recursive_take 256
  have hstep : mutexStep s (.release 1 0) = some (rtMutexRelease s 0 1) := by
    simp [mutexStep, hcall]
  obtain ⟨hi, hcount⟩ := hr.inv
  have hh : (s.mutex 0).hold = 1 := by
    have := (hcount 0 1 ho).2
    simpa [hc] using this
  have hgive := release_gives_up hi ho (mutexStep_effect hi (by decide) hstep).1
  have hlaw := hgive.symm.trans (hall s c hr 1 0 _ ho hstep)
  rw [hh, hc] at hlaw
  simp at hlaw

end RTThread
