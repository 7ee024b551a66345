import RTThread.MutexEffects

namespace RTThread

/-- Runs without signals whose steps all meet `ok`. -/
abbrev MutexReach (ok : MutexState → MutexAction → Prop) : MutexState → Prop :=
  Reach mutexStep (fun s a => ¬a.isSignal ∧ ok s a) MutexStart

/-- A thread that owns no mutex is at its own priority. -/
def PriorityRestored (s : MutexState) : Prop :=
  ∀ t, (∀ m, (s.mutex m).owner ≠ some t) → (s.thread t).currentPriority = (s.thread t).initPriority

/-- A release that gives up the last mutex of a thread writes its own priority back. -/
def RestoresOwn (s : MutexState) : MutexAction → Prop
  | .release t m => (s.mutex m).owner = some t → ((s.mutex m).hold + 255) % 256 = 0 →
    (∀ r, r ≠ m → (s.mutex r).owner ≠ some t) →
    (s.mutex m).originalPriority = (s.thread t).initPriority
  | _ => True

/-- An owner is at least as urgent as everyone who waits for its mutex. -/
def OwnerUrgent (s : MutexState) : Prop :=
  ∀ m o w, (s.mutex m).owner = some o → w ∈ s.waiters m →
    (s.thread o).currentPriority ≤ (s.thread w).currentPriority

/-- Blocking does not raise an owner above the owner of a mutex it waits for itself; giving up a
mutex leaves the thread urgent enough for those it still owns, and the mutex goes to the most
urgent waiter. -/
def KeepsUrgent (s : MutexState) : MutexAction → Prop
  | .take t m time => time ≠ 0 → ∀ o, (s.mutex m).owner = some o → o ≠ t →
    (s.thread t).currentPriority < (s.thread o).currentPriority →
    ∀ r p, o ∈ s.waiters r → (s.mutex r).owner = some p →
      (s.thread p).currentPriority ≤ (s.thread t).currentPriority
  | .release t m => (s.mutex m).owner = some t → ((s.mutex m).hold + 255) % 256 = 0 →
    (∀ r w, r ≠ m → (s.mutex r).owner = some t → w ∈ s.waiters r →
      (s.mutex m).originalPriority ≤ (s.thread w).currentPriority) ∧
    ∀ n ns, s.waiters m = n :: ns → ∀ w ∈ ns,
      (s.thread n).currentPriority ≤ (s.thread w).currentPriority
  | _ => True

section
variable {s s' : MutexState} {a : MutexAction} {ok : MutexState → MutexAction → Prop}

theorem MutexReach.inv (hr : MutexReach ok s) : MutexInv s :=
  hr.invariant (fun _ hs => hs.inv) fun _ _ _ hi ha hs => mutexStep_inv hi ha.1 hs

theorem mutexReach_run {as : List MutexAction} (ha : ∀ a ∈ as, ¬a.isSignal) (hs : MutexStart s)
    (h : runFrom mutexStep as s = some s') : MutexReach (fun _ _ => True) s' :=
  Reach.runFrom (runMeets_of_forall fun _ a hm => ⟨ha a hm, trivial⟩) (.start hs) h

theorem priorityRestored_same (hs : SameThreads s s')
    (ho : ∀ m t, (s'.mutex m).owner = some t ∨ (s.mutex m).owner ≠ some t) (hp : PriorityRestored s) :
    PriorityRestored s' := by
  intro t ht
  rw [hs.cur, hs.base]
  exact hp t fun m => (ho m t).resolve_left (ht m)

theorem GaveUp.ne_of_owner {m : ObjectId} {t u : ThreadId} (hg : GaveUp s s' m t) (hu : u ≠ t)
    (hne : ∀ r, (s'.mutex r).owner ≠ some u) (r : ObjectId) : (s.mutex r).owner ≠ some u := by
  by_cases hr : r = m
  · subst hr
    rw [hg.owner]
    exact fun he => hu (Option.some.inj he).symm
  · rw [← hg.others r hr]
    exact hne r

/-- What giving up a mutex does to the priorities of threads that own nothing. -/
theorem GaveUp.priorityRestored {m : ObjectId} {t : ThreadId} (hg : GaveUp s s' m t)
    (hlost : (s'.mutex m).owner ≠ some t) (hp : PriorityRestored s) :
    PriorityRestored s' ↔ RestoresOwn s (.release t m) := by
  constructor
  · intro hp' _ _ hlast
    have hnone : ∀ r, (s'.mutex r).owner ≠ some t := by
      intro r
      by_cases hr : r = m
      · exact hr ▸ hlost
      · rw [hg.others r hr]
        exact hlast r hr
    have hcur := hp' t hnone
    rwa [hg.cur, if_pos rfl, hg.base] at hcur
  · intro hc u hu
    rw [hg.cur, hg.base]
    split
    next hut =>
      subst hut
      exact hc hg.owner hg.hold fun r hr => hg.others r hr ▸ hu r
    next hut => exact hp u (hg.ne_of_owner hut hu)

/-- One step keeps priorities restored exactly when a last release writes the own priority back. -/
theorem priorityRestored_step (hi : MutexInv s) (hp : PriorityRestored s)
    (he : MutexEffect s s' a) : PriorityRestored s' ↔ RestoresOwn s a := by
  cases he with
  | idle hs hm _ hr =>
    refine ⟨fun _ => ?_, fun _ => priorityRestored_same hs (fun m t => ?_) hp⟩
    · cases a with
      | release t m => exact fun ho => absurd ho (hr t m rfl)
      | _ => trivial
    · rw [hm]
      exact em _
  | @recurse t m time hs ho hm hn =>
    refine iff_of_true (priorityRestored_same hs (fun r u => ?_) hp) trivial
    by_cases hr : r = m
    · rw [hr, hm]
      exact em _
    · rw [hn r hr]
      exact em _
  | @acquire t m time hs ho hm hn =>
    refine iff_of_true (priorityRestored_same hs (fun r u => ?_) hp) trivial
    by_cases hr : r = m
    · rw [hr, ho]
      exact Or.inr (by simp)
    · rw [hn r hr]
      exact em _
  | @block t m time o hready ho _ hb =>
    refine iff_of_true (fun u hu => ?_) trivial
    rw [hb.cur, hb.base]
    rw [hb.mutex] at hu
    split
    next huo => exact absurd (huo ▸ hb.owner) (hu m)
    next => exact hp u hu
  | @keep t m hs ho hh hm hn =>
    refine ⟨fun _ _ hz => absurd hz hh, fun _ => priorityRestored_same hs (fun r u => ?_) hp⟩
    by_cases hr : r = m
    · rw [hr, hm]
      exact em _
    · rw [hn r hr]
      exact em _
  | free _ hg _ _ _ hm => exact hg.priorityRestored (by simp [hm]) hp
  | @pass t m n ns hready hg hw hstat hwait hm =>
    refine hg.priorityRestored ?_ hp
    rw [hm]
    rintro he
    obtain rfl : n = t := Option.some.inj he
    have := hi.suspended m n (by simp [hw])
    rw [hready] at this
    cases this
  | timeout _ hcur hbase _ _ hm =>
    refine iff_of_true (fun u hu => ?_) trivial
    rw [hcur, hbase]
    exact hp u (hm ▸ hu)

theorem MutexStart.priorityRestored (hs : MutexStart s) : PriorityRestored s :=
  fun t _ => hs.priority t

theorem ownerUrgent_same (hs : SameThreads s s')
    (ho : ∀ m t, (s'.mutex m).owner = some t → s.waiters m = [] ∨ (s.mutex m).owner = some t)
    (hp : OwnerUrgent s) : OwnerUrgent s' := by
  intro m o w hmo hw
  rw [hs.cur, hs.cur]
  rw [hs.waiters] at hw
  rcases ho m o hmo with he | he
  · rw [he] at hw
    cases hw
  · exact hp m o w he hw

/-- Blocking keeps owners urgent exactly when the owner does not wait for someone less urgent. -/
theorem Blocked.ownerUrgent {m : ObjectId} {t o : ThreadId} {time : Int} (hi : MutexInv s)
    (hot : o ≠ t) (htime : time ≠ 0) (hb : Blocked s s' m t o) (hp : OwnerUrgent s) :
    OwnerUrgent s' ↔ KeepsUrgent s (.take t m time) := by
  constructor
  · intro hp' _ o' ho' _ hlt r p hor hrp
    obtain rfl : o = o' := Option.some.inj (hb.owner.symm.trans ho')
    have hpo : p ≠ o := by
      rintro rfl
      exact hi.noSelfWait r p hrp hor
    have hle := hp' r p o (by rw [hb.mutex, hrp]) ((hb.waiters o r).mpr (Or.inr ⟨hot, hor⟩))
    rw [hb.cur, hb.cur, if_neg hpo, if_pos rfl] at hle
    omega
  · intro hc r p w hrp hw
    rw [hb.mutex] at hrp
    have hcp : (s'.thread p).currentPriority ≤ (s.thread p).currentPriority := by
      rw [hb.cur]
      split
      next he =>
        subst he
        exact Nat.min_le_left _ _
      next => exact Nat.le_refl _
    rcases (hb.waiters w r).mp hw with ⟨rfl, rfl⟩ | ⟨hwt, hwr⟩
    · obtain rfl : o = p := Option.some.inj (hb.owner.symm.trans hrp)
      rw [hb.cur o, hb.cur w, if_pos rfl, if_neg (Ne.symm hot)]
      exact Nat.min_le_right _ _
    · have hold := hp r p w hrp hwr
      by_cases hwo : w = o
      · subst hwo
        have hpw : p ≠ w := by
          rintro rfl
          exact hi.noSelfWait r p hrp hwr
        have := hc htime w hb.owner hot
        rw [hb.cur p, hb.cur w, if_neg hpw, if_pos rfl]
        by_cases hlt : (s.thread t).currentPriority < (s.thread w).currentPriority
        · have := this hlt r p hwr hrp
          omega
        · omega
      · rw [hb.cur w, if_neg hwo]
        omega

/-- Giving up a mutex keeps owners urgent exactly when the thread stays urgent for what it still
owns and the mutex goes to the most urgent waiter. -/
theorem GaveUp.ownerUrgent {m : ObjectId} {t : ThreadId} (hi : MutexInv s)
    (hready : (s.thread t).stat = .ready) (hg : GaveUp s s' m t) (hp : OwnerUrgent s)
    (hwait : ∀ u r, u ∈ s'.waiters r ↔ u ∈ s.waiters r ∧ (s.waiters m).head? ≠ some u)
    (howner : (s'.mutex m).owner = (s.waiters m).head?) :
    OwnerUrgent s' ↔ KeepsUrgent s (.release t m) := by
  have hother : ∀ r w, w ∈ s.waiters r →
      (s'.thread w).currentPriority = (s.thread w).currentPriority := by
    intro r w hw
    rw [hg.cur, if_neg]
    rintro rfl
    exact hi.not_waiting hready hw
  have hself : (s'.thread t).currentPriority = (s.mutex m).originalPriority := by
    rw [hg.cur, if_pos rfl]
  constructor
  · intro hp' _ _
    constructor
    · intro r w hr hro hw
      have hw' : w ∈ s'.waiters r := by
        refine (hwait w r).mpr ⟨hw, fun hhead => hr ?_⟩
        exact hi.single r m w hw (List.mem_of_mem_head? hhead)
      have hle := hp' r t w (by rw [hg.others r hr, hro]) hw'
      rwa [hself, hother r w hw] at hle
    · intro n ns hm w hw
      by_cases hwn : w = n
      · rw [hwn]
      · have hwm : w ∈ s.waiters m := by simp [hm, hw]
        have hle := hp' m n w (by simp [howner, hm])
          ((hwait w m).mpr ⟨hwm, by simp [hm, Ne.symm hwn]⟩)
        rwa [hother m n (by simp [hm]), hother m w hwm] at hle
  · intro hc r p w hrp hw
    obtain ⟨hkeep, hhead⟩ := hc hg.owner hg.hold
    obtain ⟨hw, hne⟩ := (hwait w r).mp hw
    by_cases hr : r = m
    · subst hr
      rw [howner] at hrp
      obtain ⟨ns, hns⟩ := List.head?_eq_some_iff.mp hrp
      rw [hother r p (by simp [hns]), hother r w hw]
      refine hhead p ns hns w ?_
      rw [hns] at hw
      exact (List.mem_cons.mp hw).resolve_left fun he => hne (he ▸ hrp)
    · rw [hg.others r hr] at hrp
      rw [hother r w hw]
      by_cases hpt : p = t
      · subst hpt
        rw [hself]
        exact hkeep r w hr hrp hw
      · rw [hg.cur, if_neg hpt]
        exact hp r p w hrp hw

/-- One step keeps owners urgent exactly when it meets `KeepsUrgent`. -/
theorem ownerUrgent_step (hi : MutexInv s) (hp : OwnerUrgent s) (he : MutexEffect s s' a) :
    OwnerUrgent s' ↔ KeepsUrgent s a := by
  cases he with
  | idle hs hm ht hr =>
    refine iff_of_true (ownerUrgent_same hs (fun m t ho => Or.inr (hm ▸ ho)) hp) ?_
    cases a with
    | take t m time => exact fun hne => absurd (ht t m time rfl).2.2 hne
    | release t m => exact fun ho => absurd ho (hr t m rfl)
    | _ => trivial
  | @recurse t m time hs ho hm hn =>
    refine iff_of_true (ownerUrgent_same hs (fun r u hu => Or.inr ?_) hp)
      fun _ o ho' hot => absurd (Option.some.inj (ho'.symm.trans ho)) hot
    by_cases hr : r = m
    · subst hr
      rwa [hm] at hu
    · rwa [hn r hr] at hu
  | @acquire t m time hs ho hm hn =>
    refine iff_of_true (ownerUrgent_same hs (fun r u hu => ?_) hp) fun _ o ho' => by
      rw [ho] at ho'
      cases ho'
    by_cases hr : r = m
    · subst hr
      rcases hi.free r with ⟨_, _, _, hw⟩ | ⟨hne, _⟩
      · exact Or.inl hw
      · exact absurd ho hne
    · exact Or.inr (by rwa [hn r hr] at hu)
  | @block t m time o hready hot htime hb => exact hb.ownerUrgent hi hot htime hp
  | @keep t m hs ho hh hm hn =>
    refine iff_of_true (ownerUrgent_same hs (fun r u hu => Or.inr ?_) hp) fun _ hz => absurd hz hh
    by_cases hr : r = m
    · subst hr
      rwa [hm] at hu
    · rwa [hn r hr] at hu
  | free hready hg hw _ hwait hm =>
    exact hg.ownerUrgent hi hready hp (fun u r => by simp [hwait, hw]) (by simp [hm, hw])
  | pass hready hg hw _ hwait hm =>
    exact hg.ownerUrgent hi hready hp (fun u r => by simp [hwait, hw, eq_comm]) (by simp [hm, hw])
  | timeout _ hcur _ _ hwait hm =>
    refine iff_of_true (fun m o w ho hw => ?_) trivial
    rw [hcur, hcur]
    exact hp m o w (hm ▸ ho) ((hwait w m).mp hw).1

theorem MutexStart.ownerUrgent (hs : MutexStart s) : OwnerUrgent s := by
  intro m o w _ hw
  rw [hs.waiters m] at hw
  cases hw

end

/-- Ready threads with the given priorities and signal mask, every mutex made with `flag`. -/
def readyThreads (priority : ThreadId → Nat) (flag : IpcFlag) (mask : Nat) : MutexState :=
  ⟨⟨fun t => ⟨.ready, priority t, priority t, .eok, false, 0, mask, []⟩, fun _ => []⟩,
    fun _ => rtMutexInit flag, fun _ => []⟩

theorem readyThreads_start (priority : ThreadId → Nat) (flag : IpcFlag) (mask : Nat) :
    MutexStart (readyThreads priority flag mask) :=
  ⟨fun _ => rfl, fun _ => rfl, fun _ => rfl, fun _ => rfl, fun _ => ⟨flag, rfl⟩, fun _ => rfl⟩

/-- Thread two is urgent, the others are not. -/
def oneUrgent (t : ThreadId) : Nat := if t = 2 then 5 else 10

section
variable {s : MutexState}

/-- As long as every last release of a thread writes the thread's own priority back, threads that
own no mutex are at their own priority; the first release that does not breaks this. -/
theorem mutexReach_priorityRestored (hr : MutexReach RestoresOwn s) : PriorityRestored s ∧
    ∀ a s', ¬a.isSignal → mutexStep s a = some s' → (PriorityRestored s' ↔ RestoresOwn s a) := by
  have hp : PriorityRestored s := by
    induction hr with
    | start h => exact h.priorityRestored
    | step hr ha hs ih =>
      have hi := MutexReach.inv hr
      exact (priorityRestored_step hi ih (mutexStep_effect hi ha.1 hs).1).mpr ha.2
  have hi := hr.inv
  exact ⟨hp, fun a s' ha hs => priorityRestored_step hi hp (mutexStep_effect hi ha hs).1⟩

end

def oneOwner : MutexState :=
  (mutexStep (readyThreads oneUrgent .fifo 0) (.take 1 0 (-1))).get (by decide +kernel)

/-- The urgent thread waits for the mutex of thread one. -/
def urgentWaiting : MutexState := (mutexStep oneOwner (.take 2 0 (-1))).get (by decide +kernel)

theorem urgentWaiting_reach {ok : MutexState → MutexAction → Prop}
    (h1 : ok (readyThreads oneUrgent .fifo 0) (.take 1 0 (-1))) (h2 : ok oneOwner (.take 2 0 (-1))) :
    MutexReach ok urgentWaiting :=
  Reach.step (Reach.step (.start (readyThreads_start oneUrgent .fifo 0)) ⟨by decide, h1⟩
    (Option.some_get _).symm) ⟨by decide, h2⟩ (Option.some_get _).symm

theorem urgentWaiting_release :
    mutexStep urgentWaiting (.release 1 0) = some (rtMutexRelease urgentWaiting 0 1) := by
  have hcall : canCall urgentWaiting 1 = true := by decide +kernel
  simp [mutexStep, hcall]

theorem mutexReach_priorityRestored_release : PriorityRestored (rtMutexRelease urgentWaiting 0 1) := by
  have hr : MutexReach RestoresOwn urgentWaiting := urgentWaiting_reach trivial trivial
  have hown : RestoresOwn urgentWaiting (.release 1 0) := by
    intro _ _ _
    decide +kernel
  exact (mutexReach_priorityRestored (hr.step ⟨by decide, hown⟩ urgentWaiting_release)).1

/-- Thread one takes mutex one while it is boosted for mutex zero, and gives mutex one up last. -/
def boostedOverlap : MutexState :=
  (runFrom mutexStep [.take 1 0 (-1), .take 2 0 (-1), .take 1 1 (-1), .release 1 0, .wake 2,
    .release 2 0, .take 2 1 (-1), .release 1 1] (readyThreads oneUrgent .fifo 0)).get
    (by decide +kernel)

theorem boostedOverlap_owns_nothing : ∀ m, (boostedOverlap.mutex m).owner ≠ some 1
  | 0 => by decide +kernel
  | 1 => by decide +kernel
  | m + 2 => by
    have hn : (boostedOverlap.mutex (m + 2)).owner = none := rfl
    simp [hn]

theorem release_order_keeps_boost :
    ¬∀ s, MutexReach (fun _ _ => True) s → PriorityRestored s := by
  intro hall
  have hr : MutexReach (fun _ _ => True) boostedOverlap :=
    mutexReach_run (by decide) (readyThreads_start oneUrgent .fifo 0) (Option.some_get _).symm
  have hp := hall boostedOverlap hr 1 boostedOverlap_owns_nothing
  revert hp
  decide +kernel

section
variable {s : MutexState}

/-- Owners stay at least as urgent as their waiters in every run whose steps meet `KeepsUrgent`;
the first step that does not meet it makes some owner less urgent than a waiter. -/
theorem mutexReach_ownerUrgent (hr : MutexReach KeepsUrgent s) : OwnerUrgent s ∧
    ∀ a s', ¬a.isSignal → mutexStep s a = some s' → (OwnerUrgent s' ↔ KeepsUrgent s a) := by
  have hp : OwnerUrgent s := by
    induction hr with
    | start h => exact h.ownerUrgent
    | step hr ha hs ih =>
      have hi := MutexReach.inv hr
      exact (ownerUrgent_step hi ih (mutexStep_effect hi ha.1 hs).1).mpr ha.2
  have hi := hr.inv
  exact ⟨hp, fun a s' ha hs => ownerUrgent_step hi hp (mutexStep_effect hi ha hs).1⟩

end

theorem mutexReach_ownerUrgent_release : OwnerUrgent (rtMutexRelease urgentWaiting 0 1) := by
  have h1 : KeepsUrgent (readyThreads oneUrgent .fifo 0) (.take 1 0 (-1)) := by
    intro _ o ho
    cases ho
  have h2 : KeepsUrgent oneOwner (.take 2 0 (-1)) := by
    intro _ _ _ _ _ _ _ hw
    cases hw
  have h3 : KeepsUrgent urgentWaiting (.release 1 0) := by
    refine fun _ _ => ⟨fun r w hr ho => ?_, fun n ns hw => ?_⟩
    · obtain ⟨r, rfl⟩ := Nat.exists_eq_succ_of_ne_zero hr
      cases ho
    · obtain rfl : ns = [] := (List.cons.inj hw).2.symm
      simp
  exact (mutexReach_ownerUrgent ((urgentWaiting_reach h1 h2).step ⟨by decide, h3⟩
    urgentWaiting_release)).1

/-- Two threads wait in arrival order; the mutex goes to the first, which is less urgent. -/
def fifoHandOver : MutexState :=
  (runFrom mutexStep [.take 1 0 (-1), .take 3 0 (-1), .take 2 0 (-1), .release 1 0]
    (readyThreads oneUrgent .fifo 0)).get (by decide +kernel)

theorem handover_leaves_urgent_waiter :
    ¬∀ s, MutexReach (fun _ _ => True) s → OwnerUrgent s := by
  intro hall
  have hr : MutexReach (fun _ _ => True) fifoHandOver :=
    mutexReach_run (by decide) (readyThreads_start oneUrgent .fifo 0) (Option.some_get _).symm
  have hp := hall fifoHandOver hr 0 3 2 (by decide +kernel) (by decide +kernel)
  revert hp
  decide +kernel

end RTThread
