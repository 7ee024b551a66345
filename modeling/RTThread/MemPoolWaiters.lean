import RTThread.MemPoolModel

namespace RTThread

/-- How often a thread on each pool's suspend list has timed out. -/
abbrev Expiries := ObjectId → Nat

def countExpiries (s : PoolState) (a : PoolAction) (expired : Expiries) (p : ObjectId) : Nat :=
  match a with
  | .timeout t => if t ∈ s.waiters p then expired p + 1 else expired p
  | _ => expired p

def poolCountStep (x : PoolState × Expiries) (a : PoolAction) : Option (PoolState × Expiries) :=
  (poolStep x.1 a).map fun s' => (s', countExpiries x.1 a x.2)

/-- Runs of a set of pools, counting the expiries that hit their suspend lists. -/
abbrev PoolReach (A : AlignSize) : PoolState × Expiries → Prop :=
  Reach poolCountStep (fun _ _ => True) fun x => PoolStart A x.1 ∧ x.2 = fun _ => 0

/-- A suspended thread is on one list, once; each counter is off by the expiries so far. -/
structure PoolInv (s : PoolState) (expired : Expiries) : Prop where
  suspended : ∀ p t, t ∈ s.waiters p → (s.thread t).stat = .suspend
  single : ∀ p q t, t ∈ s.waiters p → t ∈ s.waiters q → p = q
  nodup : ∀ p, (s.waiters p).Nodup
  count : ∀ p, (s.pool p).suspendThreadCount = word ((s.waiters p).length + expired p)

section
variable {s s' : PoolState} {expired : Expiries} {a : PoolAction} {p q : ObjectId} {t u n : ThreadId}
  {time : Int} {threads : Threads}

theorem waiters_length_lt (h : PoolInv s expired) (p : ObjectId) :
    (s.waiters p).length < 4294967296 := by
  have := (h.nodup p).length_le_card
  rw [Fintype.card_fin] at this
  omega

/-- Steps that touch neither the suspend lists nor their counters. -/
theorem PoolInv.congr (h : PoolInv s expired) (hw : s'.waiters = s.waiters)
    (hs : ∀ u, (s'.thread u).stat = (s.thread u).stat)
    (hc : ∀ p, (s'.pool p).suspendThreadCount = (s.pool p).suspendThreadCount) :
    PoolInv s' expired := by
  refine ⟨fun p t ht => ?_, fun p q t hp hq => ?_, fun p => ?_, fun p => ?_⟩
  · rw [hs]
    exact h.suspended p t (hw ▸ ht)
  · exact h.single p q t (hw ▸ hp) (hw ▸ hq)
  · rw [hw]
    exact h.nodup p
  · rw [hc, hw]
    exact h.count p

theorem setPool_count {f : MemPool → MemPool}
    (hf : ∀ x, (f x).suspendThreadCount = x.suspendThreadCount) (q : ObjectId) :
    ((s.setPool p f).pool q).suspendThreadCount = (s.pool q).suspendThreadCount := by
  by_cases hq : q = p
  · subst hq
    simp [PoolState.setPool, hf]
  · simp [PoolState.setPool, hq]

theorem setPool_mem_inv {f : MemPool → MemPool} (h : PoolInv s expired)
    (hf : ∀ x, (f x).suspendThreadCount = x.suspendThreadCount) (m : Memory) :
    PoolInv { s.setPool p f with mem := m } expired :=
  h.congr rfl (fun _ => rfl) (setPool_count hf)

theorem length_filter_ne {ws : List ThreadId} (hn : ws.Nodup) :
    (ws.filter (· ≠ t)).length + (if t ∈ ws then 1 else 0) = ws.length := by
  have he : ws.filter (· ≠ t) = ws.erase t := by
    rw [hn.erase_eq_filter]
    exact List.filter_congr fun u _ => by simp [bne, beq_eq_decide]
  rw [he]
  split
  next hm =>
    have := List.length_erase_of_mem hm
    have := List.length_pos_of_mem hm
    omega
  next hm => rw [List.erase_of_not_mem hm, Nat.add_zero]

theorem PoolInv.not_waiting (h : PoolInv s expired) (hr : (s.thread t).stat = .ready) :
    t ∉ s.waiters p := by
  intro hm
  rw [h.suspended p t hm] at hr
  cases hr

/-- A ready thread becomes the first of one list. -/
theorem suspendOnPool_spec (h : PoolInv s expired) (hr : (s.thread t).stat = .ready) :
    (suspendOnPool s.toThreads p t).waiters = Function.update s.waiters p (t :: s.waiters p) ∧
      ∀ u, ((suspendOnPool s.toThreads p t).thread u).stat =
        if u = t then .suspend else (s.thread u).stat := by
  have hr' : ((setError s.toThreads t .eok).thread t).stat = .ready := by
    simp [setError, hr]
  have hwait : (rtThreadSuspend (setError s.toThreads t .eok) t).waiters = s.waiters := by
    rw [rtThreadSuspend_of_ready hr']
    funext q
    exact List.filter_eq_self.mpr fun u hu => by
      have hne : u ≠ t := fun he => h.not_waiting hr (he ▸ hu)
      simpa using hne
  refine ⟨?_, fun u => ?_⟩
  · simp only [suspendOnPool, hwait]
  · show ((rtThreadSuspend (setError s.toThreads t .eok) t).thread u).stat = _
    split
    next hu => rw [hu, rtThreadSuspend_thread hr']
    next hu => rw [rtThreadSuspend_thread_ne hu, setError, Threads.set_ne hu]

theorem mpWait_inv (h : PoolInv s expired) (hr : (s.thread t).stat = .ready) :
    PoolInv (mpWait s p t time) expired := by
  obtain ⟨hw, hs⟩ := suspendOnPool_spec (p := p) h hr
  have hstart : ∀ th : Threads, (if 0 < time then startThreadTimer th t else th).waiters = th.waiters ∧
      ∀ u, ((if 0 < time then startThreadTimer th t else th).thread u).stat = (th.thread u).stat := by
    intro th
    split
    · refine ⟨rfl, fun u => ?_⟩
      by_cases hu : u = t
      · subst hu
        simp [startThreadTimer]
      · simp [startThreadTimer, hu]
    · exact ⟨rfl, fun _ => rfl⟩
  have hwait : (mpWait s p t time).waiters = Function.update s.waiters p (t :: s.waiters p) :=
    (hstart _).1.trans hw
  have hstat : ∀ u, ((mpWait s p t time).thread u).stat = if u = t then .suspend else (s.thread u).stat :=
    fun u => ((hstart _).2 u).trans (hs u)
  have hmem : ∀ u q, u ∈ (mpWait s p t time).waiters q ↔ u = t ∧ q = p ∨ u ∈ s.waiters q := by
    intro u q
    rw [hwait]
    by_cases hq : q = p
    · subst hq
      simp
    · simp [hq]
  refine ⟨fun q u hu => ?_, fun q r u hq hr' => ?_, fun q => ?_, fun q => ?_⟩
  · rw [hstat]
    split
    · rfl
    next hne => exact h.suspended q u (((hmem u q).mp hu).resolve_left fun he => hne he.1)
  · rcases (hmem u q).mp hq with ⟨hut, hqp⟩ | huq
    · refine ((hmem u r).mp hr').elim (fun he => hqp.trans he.2.symm) fun hm => ?_
      exact absurd (hut ▸ hm) (h.not_waiting hr)
    · rcases (hmem u r).mp hr' with ⟨hut, _⟩ | hur
      · exact absurd (hut ▸ huq) (h.not_waiting hr)
      · exact h.single q r u huq hur
  · rw [hwait]
    by_cases hq : q = p
    · subst hq
      rw [Function.update_self]
      exact List.nodup_cons.mpr ⟨h.not_waiting hr, h.nodup q⟩
    · rw [Function.update_of_ne hq]
      exact h.nodup q
  · have hcount := h.count q
    rw [hwait]
    by_cases hq : q = p
    · subst hq
      rw [Function.update_self, List.length_cons]
      have hself : ((mpWait s q t time).pool q).suspendThreadCount =
          word ((s.pool q).suspendThreadCount + 1) :=
        (congrArg MemPool.suspendThreadCount (Function.update_self ..)).trans rfl
      rw [hself, hcount]
      unfold word
      omega
    · rw [Function.update_of_ne hq, ← hcount]
      show (Function.update s.pool p _ q).suspendThreadCount = _
      rw [Function.update_of_ne hq]

/-- A thread leaves its list: the lists, the other threads and the distance of each counter. -/
theorem PoolInv.leave {expired' : Expiries} (h : PoolInv s expired)
    (hw : s'.waiters = (rtListRemove s.toThreads t).waiters)
    (hs : ∀ u, u ≠ t → (s'.thread u).stat = (s.thread u).stat)
    (hc : ∀ p, (s'.pool p).suspendThreadCount =
      word (((s.waiters p).filter (· ≠ t)).length + expired' p)) : PoolInv s' expired' := by
  have hmem : ∀ u q, u ∈ s'.waiters q ↔ u ∈ s.waiters q ∧ u ≠ t := fun u q => by
    rw [hw, mem_rtListRemove]
  refine ⟨fun q u hu => ?_, fun q r u hq hr => ?_, fun q => ?_, fun q => ?_⟩
  · obtain ⟨hu, hne⟩ := (hmem u q).mp hu
    rw [hs u hne]
    exact h.suspended q u hu
  · exact h.single q r u ((hmem u q).mp hq).1 ((hmem u r).mp hr).1
  · rw [hw]
    exact (h.nodup q).filter _
  · rw [hc, hw]
    rfl

theorem timeout_inv (h : PoolInv s expired) (ht : rtThreadTimeout s.toThreads t = some threads) :
    PoolInv { s with toThreads := threads } (countExpiries s (.timeout t) expired) := by
  obtain ⟨_, _, hother, _, hwait⟩ := rtThreadTimeout_spec ht
  refine h.leave (t := t) hwait (fun u hu => ?_) fun q => ?_
  · show (threads.thread u).stat = _
    rw [hother u hu]
  · show (s.pool q).suspendThreadCount = _
    have hlen := length_filter_ne (t := t) (h.nodup q)
    rw [h.count q]
    simp only [countExpiries]
    split
    next hm =>
      rw [if_pos hm] at hlen
      rw [← hlen]
      congr 1
      omega
    next hm =>
      rw [if_neg hm] at hlen
      rw [← hlen, Nat.add_zero]

theorem mpResumeFirst_inv (h : PoolInv s expired) (hr : mpResumeFirst s p = some s') :
    PoolInv s' expired := by
  unfold mpResumeFirst at hr
  split at hr
  next => simp at hr
  next n ns hw =>
    obtain rfl := Option.some.inj hr
    have hn : n ∈ s.waiters p := by simp [hw]
    have hst : ((setError s.toThreads n .eok).thread n).stat = .suspend := by
      simp [setError, h.suspended p n hn]
    refine h.leave (t := n) (rtThreadResume_waiters hst) (fun u hu => ?_) fun q => ?_
    · show ((rtThreadResume (setError s.toThreads n .eok) n).thread u).stat = _
      rw [rtThreadResume_thread_ne hu, setError, Threads.set_ne hu]
    · have hlen := length_filter_ne (t := n) (h.nodup q)
      have hcount := h.count q
      by_cases hq : q = p
      · subst hq
        rw [if_pos hn] at hlen
        refine (congrArg MemPool.suspendThreadCount (Function.update_self ..)).trans ?_
        show wordSub (s.pool q).suspendThreadCount 1 = _
        rw [hcount, ← hlen]
        unfold word wordSub
        omega
      · rw [if_neg fun hm => hq (h.single q p n hm hn)] at hlen
        show (Function.update s.pool p _ q).suspendThreadCount = _
        rw [Function.update_of_ne hq, hcount, ← hlen, Nat.add_zero]

theorem mpAllocSection_inv (h : PoolInv s expired) (hr : (s.thread t).stat = .ready)
    (ha : mpAllocSection s p t time = some s') : PoolInv s' expired := by
  unfold mpAllocSection at ha
  split at ha
  · split at ha
    · obtain rfl := Option.some.inj ha
      exact h.congr rfl (fun _ => rfl) fun _ => rfl
    · obtain rfl := Option.some.inj ha
      exact mpWait_inv h hr
  · obtain ⟨s1, h1, rfl⟩ := Option.map_eq_some_iff.mp ha
    simp only [mpTakeBlock, Option.bind_eq_bind, Option.bind_eq_some_iff] at h1
    obtain ⟨_, _, h1⟩ := h1
    obtain rfl := Option.some.inj h1
    refine h.congr rfl (fun _ => rfl) fun q => ?_
    exact setPool_count (s := s) (p := p) (f := fun x =>
      { x with blockFreeCount := x.blockFreeCount - 1, blockList := read32 s.mem (s.pool p).blockList })
      (fun _ => rfl) q

theorem rtMpFree_inv {block : Nat} (h : PoolInv s expired) (hf : rtMpFree s block = some s') :
    PoolInv s' expired := by
  simp only [rtMpFree] at hf
  split at hf
  · refine mpResumeFirst_inv (setPool_mem_inv h ?_ _) hf
    exact fun _ => rfl
  · rw [← Option.some.inj hf]
    refine setPool_mem_inv h ?_ _
    exact fun _ => rfl

/-- One step keeps each counter off by exactly the expiries so far. -/
theorem poolStep_inv (h : PoolInv s expired) (hs : poolStep s a = some s') :
    PoolInv s' (countExpiries s a expired) := by
  cases a with
  | alloc t p time =>
    simp only [poolStep] at hs
    split at hs
    next hr => exact mpAllocSection_inv h hr.1 hs
    next => simp at hs
  | wake t =>
    simp only [poolStep] at hs
    split at hs
    · unfold mpWake at hs
      split at hs
      · split at hs
        · exact Option.some.inj hs ▸ h.congr rfl (fun _ => rfl) fun _ => rfl
        · exact Option.some.inj hs ▸ h.congr rfl (fun _ => rfl) fun _ => rfl
      next => simp at hs
    next => simp at hs
  | again t =>
    simp only [poolStep] at hs
    split at hs
    · split at hs
      next hr => exact mpAllocSection_inv h hr hs
      next => simp at hs
    next => simp at hs
  | free block => exact rtMpFree_inv h hs
  | timeout t =>
    obtain ⟨threads, ht, rfl⟩ := Option.map_eq_some_iff.mp hs
    exact timeout_inv h ht
  | tick => exact Option.some.inj hs ▸ h.congr rfl (fun _ => rfl) fun _ => rfl

theorem PoolStart.inv {A : AlignSize} (h : PoolStart A s) : PoolInv s fun _ => 0 := by
  refine ⟨fun p t ht => ?_, fun p q t hp => ?_, fun p => ?_, fun p => ?_⟩
  · rw [h.waiters p] at ht
    cases ht
  · rw [h.waiters p] at hp
    cases hp
  · rw [h.waiters p]
    exact List.nodup_nil
  · have hcount : (s.pool p).suspendThreadCount = 0 := by
      obtain ⟨m, start, size, blockSize, hp | ⟨m', hp⟩⟩ := h.pool p
      · rw [hp]
        rfl
      · simp only [rtMpCreate] at hp
        split at hp
        · simp at hp
        · rw [← (Prod.mk.inj (Option.some.inj hp)).2]
    rw [hcount, h.waiters p]
    rfl

theorem PoolReach.inv {A : AlignSize} {x : PoolState × Expiries} (hr : PoolReach A x) :
    PoolInv x.1 x.2 := by
  refine hr.invariant (I := fun x => PoolInv x.1 x.2) (fun x hx => ?_) fun x a x' hx _ hs => ?_
  · rw [hx.2]
    exact hx.1.inv
  · obtain ⟨s', h, rfl⟩ := Option.map_eq_some_iff.mp hs
    exact poolStep_inv hx h

theorem mpResumeFirst_isSome (hw : s.waiters p ≠ []) : (mpResumeFirst s p).isSome := by
  unfold mpResumeFirst
  split
  next he => exact absurd he hw
  next => rfl

/-- The counter of a pool equals the length of its suspend list exactly when the expiries that hit
the list are none, modulo the counter's 32 bits; before the first one every `rt_mp_free` that looks
for a thread finds one. -/
theorem poolReach_count {A : AlignSize} (hr : PoolReach A (s, expired)) (p : ObjectId) :
    ((s.pool p).suspendThreadCount = (s.waiters p).length ↔ expired p % 4294967296 = 0) ∧
    (expired p = 0 → (0 < (s.pool p).suspendThreadCount → s.waiters p ≠ []) ∧
      ∀ block, read32 s.mem (wordSub block 4) = p → (rtMpFree s block).isSome) := by
  have h := hr.inv
  have hcount : (s.pool p).suspendThreadCount = word ((s.waiters p).length + expired p) := h.count p
  have hlen := waiters_length_lt h p
  simp only at hlen
  have hiff : (s.pool p).suspendThreadCount = (s.waiters p).length ↔ expired p % 4294967296 = 0 := by
    rw [hcount]
    unfold word
    omega
  have hfull : expired p = 0 → 0 < (s.pool p).suspendThreadCount → s.waiters p ≠ [] := by
    intro he hpos hnil
    rw [hcount, he, hnil] at hpos
    simp [word] at hpos
  refine ⟨hiff, fun he => ⟨hfull he, fun block hb => ?_⟩⟩
  simp only [rtMpFree, hb]
  split
  next hpos => exact mpResumeFirst_isSome (hfull he hpos)
  next => rfl

end

/-- Ready threads and, at each pool's address, a pool of one block. -/
def smallPools (A : AlignSize) : PoolState :=
  let threads : Threads := ⟨fun _ => ⟨.ready, 10, 10, .eok, false, 0, 0, []⟩, fun _ => []⟩
  { threads with
    pool := fun p => (rtMpInit A ⟨fun _ => 0⟩ (64 * p) 16 8).2
    mem := (rtMpInit A ⟨fun _ => 0⟩ 64 16 8).1
    tick := 0
    frame := fun _ => .outside }

theorem smallPools_start (A : AlignSize) : PoolStart A (smallPools A) :=
  ⟨fun _ => rfl, fun _ => rfl, fun _ => rfl, fun p =>
    ⟨⟨fun _ => 0⟩, 64 * p, 16, 8, Or.inl rfl⟩⟩

/-- The only block is taken, and a second thread waits for it with a timeout. -/
def timedWaiter : PoolState × Expiries :=
  (runFrom poolCountStep [.alloc 1 1 0, .alloc 2 1 5] (smallPools align4, fun _ => 0)).get
    (by decide +kernel)

theorem timedWaiter_reach : PoolReach align4 timedWaiter :=
  Reach.runFrom (runMeets_of_forall fun _ _ _ => trivial) (.start ⟨smallPools_start align4, rfl⟩) (Option.some_get _).symm

theorem poolReach_count_waiting : (timedWaiter.1.pool 1).suspendThreadCount = 1 := by
  have hcount := (poolReach_count timedWaiter_reach 1).1.mpr (by decide +kernel)
  have hlen : (timedWaiter.1.waiters 1).length = 1 := by decide +kernel
  exact hcount.trans hlen

def expiredWaiter : PoolState × Expiries :=
  (poolCountStep timedWaiter (.timeout 2)).get (by decide +kernel)

/-- The thread timer takes the thread off the list and leaves the pool's counter as it was. -/
theorem expiry_leaves_count : ¬∀ x, PoolReach align4 x → ∀ p,
    (x.1.pool p).suspendThreadCount = (x.1.waiters p).length := by
  intro hall
  have hcount := hall expiredWaiter (timedWaiter_reach.step trivial (Option.some_get _).symm) 1
  revert hcount
  decide +kernel

end RTThread
