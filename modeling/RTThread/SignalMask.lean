import RTThread.SignalQueue

namespace RTThread

/-- The thread's signal is unblocked. -/
def SigState.Unblocked (s : SigState) (t : ThreadId) (n : Nat) : Prop :=
  (s.thread t).sigMask &&& sigMask n ≠ 0

instance decidableUnblocked (s : SigState) (t : ThreadId) (n : Nat) : Decidable (s.Unblocked t n) :=
  inferInstanceAs (Decidable (_ ≠ _))

/-- The handler of the signal is about to be called. -/
def SigFrame.calls (n : Nat) : SigFrame → Bool
  | .taken m _ h => decide (m = n ∧ h ≠ .ignore)
  | _ => false

/-- `rt_thread_handle_sig` takes the node of an unblocked or ignored signal, and a thread blocks no
signal whose node is taken for a handler that has not been called. -/
def KeepsMask (s : SigState) : SigAction → Prop
  | .take t =>
    let n := siSigno s.mem (s.thread t).siList
    s.handler t n = .ignore ∨ s.Unblocked t n
  | .mask t signo => ∀ f ∈ s.frames t, f.calls signo = false
  | _ => True

instance decidableKeepsMask (s : SigState) (a : SigAction) : Decidable (KeepsMask s a) := by
  unfold KeepsMask
  split <;> infer_instance

/-- Nodes that have been taken for a handler belong to unblocked signals. -/
def TakenUnblocked (s : SigState) : Prop :=
  ∀ t n, ∀ f ∈ s.frames t, f.calls n = true → s.Unblocked t n

section
variable {s s' : SigState} {t u : ThreadId} {n m : Nat} {e : List SigEvent} {x : SigThread → SigThread}
  {fs : List SigFrame}

@[simp] theorem SigState.setFrames_self : (s.setFrames t fs).frames t = fs :=
  Function.update_self ..

theorem SigState.setFrames_ne (hu : u ≠ t) : (s.setFrames t fs).frames u = s.frames u :=
  Function.update_of_ne hu ..

theorem Unblocked.lt (h : s.Unblocked t n) : n < 32 := by
  by_contra hn
  have hzero : sigMask n = 0#32 := BitVec.eq_of_getLsbD_eq fun i hi => by
    rw [sigMask_getLsbD hi, decide_eq_false (by omega), BitVec.getLsbD_zero]
  refine h ?_
  rw [hzero]
  exact BitVec.and_zero

theorem unblocked_iff (hn : n < 32) : s.Unblocked t n ↔ (s.thread t).sigMask.getLsbD n = true := by
  rw [SigState.Unblocked, ne_eq, and_sigMask_eq_zero hn, Bool.not_eq_false]

/-- The masks keep the signals of the taken nodes, and no more nodes are taken. -/
theorem TakenUnblocked.of_sub (h : TakenUnblocked s)
    (hmask : ∀ t n, s.Unblocked t n → s'.Unblocked t n)
    (hframes : ∀ t n, ∀ f ∈ s'.frames t, f.calls n = true → f ∈ s.frames t) : TakenUnblocked s' :=
  fun t n f hf hcalls => hmask t n (h t n f (hframes t n f hf hcalls) hcalls)

theorem set_takenUnblocked (h : TakenUnblocked s)
    (hmask : (x (s.thread t)).sigMask = (s.thread t).sigMask) : TakenUnblocked (s.set t x) := by
  refine h.of_sub (fun u n hn => ?_) fun _ _ _ hf _ => hf
  rw [SigState.Unblocked]
  by_cases hu : u = t
  · subst hu
    rwa [SigState.set_self, hmask]
  · rwa [SigState.set_ne hu]

theorem setFrames_takenUnblocked (h : TakenUnblocked s)
    (hfs : ∀ n, ∀ f ∈ fs, f.calls n = true → s.Unblocked t n) :
    TakenUnblocked (s.setFrames t fs) := by
  intro u n f hf hcalls
  by_cases hu : u = t
  · subst hu
    rw [SigState.setFrames_self] at hf
    exact hfs n f hf hcalls
  · rw [SigState.setFrames_ne hu] at hf
    exact h u n f hf hcalls

/-- `rt_signal_mask` blocks no signal whose handler is about to be called. -/
theorem rtSignalMask_takenUnblocked (h : TakenUnblocked s)
    (hok : ∀ f ∈ s.frames t, f.calls n = false) : TakenUnblocked (s.rtSignalMask t n) := by
  intro u m f hf hcalls
  have hold := h u m f hf hcalls
  have hm := Unblocked.lt hold
  rw [unblocked_iff hm] at hold ⊢
  rw [SigState.rtSignalMask]
  by_cases hu : u = t
  · subst hu
    have hne : n ≠ m := by
      rintro rfl
      rw [hok f hf] at hcalls
      exact Bool.false_ne_true hcalls
    rw [SigState.set_self, clearPending_getLsbD, hold, decide_eq_true hne, Bool.true_and]
  · rwa [SigState.set_ne hu]

theorem rtSignalUnmask_takenUnblocked (h : TakenUnblocked s) :
    TakenUnblocked (s.rtSignalUnmask t n) := by
  refine h.of_sub (fun u m hold => ?_) fun _ _ _ hf _ => hf
  have hm := Unblocked.lt hold
  rw [unblocked_iff hm] at hold ⊢
  rw [SigState.rtSignalUnmask]
  by_cases hu : u = t
  · subst hu
    rw [SigState.set_self, BitVec.getLsbD_or, hold, Bool.true_or]
  · rwa [SigState.set_ne hu]

/-- `rt_thread_handle_sig` takes an allowed node. -/
theorem handleTake_takenUnblocked (h : TakenUnblocked s) (hok : KeepsMask s (.take t))
    (hs : s.handleTake t = some s') : TakenUnblocked s' := by
  obtain ⟨-, hs⟩ := Option.ite_none_right_eq_some.mp hs
  obtain rfl := Option.some.inj hs
  have hset := set_takenUnblocked h (t := t) (x := fun y =>
    { y with siList := if s.mem (listField (s.thread t).siList) = 0 then 0
      else slistEntry (s.mem (listField (s.thread t).siList)) }) rfl
  refine setFrames_takenUnblocked hset fun n f hf hcalls => ?_
  rw [SigState.Unblocked, SigState.set_self]
  rcases List.mem_cons.mp hf with rfl | hf
  · obtain ⟨rfl, hignore⟩ := of_decide_eq_true hcalls
    exact hok.resolve_left hignore
  · exact h t n f hf hcalls

theorem resume_takenUnblocked (h : TakenUnblocked s) : TakenUnblocked (s.resume t) := by
  unfold SigState.resume
  split
  · exact set_takenUnblocked h rfl
  · exact h

/-- What a turn of `rt_thread_kill` changes has nothing to do with the masks and frames. -/
theorem killNext_takenUnblocked {f : KillFrame} (h : TakenUnblocked s)
    (hs : s.killNext f = some s') : TakenUnblocked s' := by
  cases f with
  | search t signo node =>
    obtain rfl := Option.some.inj hs
    unfold SigState.killSearch
    split
    · exact h
    · split <;> exact h
  | alloc t signo =>
    obtain rfl := Option.some.inj hs
    unfold SigState.killAlloc
    split <;> exact h
  | append t signo node =>
    by_cases hnil : (s.thread t).siList = 0
    · have heq := (if_pos hnil).symm.trans hs
      obtain rfl := Option.some.inj heq
      exact set_takenUnblocked h (t := t) (x := fun x => { x with siList := node }) rfl
    · obtain ⟨last, -, rfl⟩ := Option.map_eq_some_iff.mp ((if_neg hnil).symm.trans hs)
      exact h
  | deliver t =>
    obtain rfl := Option.some.inj hs
    unfold SigState.signalDeliver
    split <;> exact h
  | wake t =>
    obtain rfl := Option.some.inj hs
    exact resume_takenUnblocked h

theorem waitFound_takenUnblocked (h : TakenUnblocked s) (prev : Option Word) (node : Word) :
    TakenUnblocked (s.waitFound t prev node).1 := by
  cases prev with
  | none =>
    have hset := set_takenUnblocked h (t := t) (x := fun x =>
      { x with siList := s.mem (listField node) }) rfl
    exact set_takenUnblocked hset (t := t) (x := fun x =>
      { x with sigPending := x.sigPending &&& ~~~sigMask (siSigno s.mem node) }) rfl
  | some p =>
    exact set_takenUnblocked h (t := t) (x := fun x =>
      { x with sigPending := x.sigPending &&& ~~~sigMask (siSigno s.mem node) }) rfl

theorem waitSearch_takenUnblocked {set : Word} (h : TakenUnblocked s) {fuel : Nat}
    {prev : Option Word} {node : Word} {si : SigInfo}
    (hs : s.waitSearch t set fuel prev node = some (s', si)) : TakenUnblocked s' := by
  induction fuel generalizing prev node with
  | zero =>
    obtain ⟨-, hs⟩ := Option.ite_none_right_eq_some.mp hs
    obtain ⟨rfl, -⟩ := Prod.mk.inj (Option.some.inj hs)
    exact h
  | succ fuel ih =>
    unfold SigState.waitSearch at hs
    split at hs
    next =>
      obtain ⟨rfl, -⟩ := Prod.mk.inj (Option.some.inj hs)
      exact h
    next =>
      split at hs
      next =>
        obtain ⟨rfl, -⟩ := Prod.mk.inj (Option.some.inj hs)
        exact waitFound_takenUnblocked h prev node
      next => exact ih hs

/-- Waiting for signals calls no handler. -/
def CallsNone (e : List SigEvent) : Prop := ∀ t n h b, .invoked t n h b ∉ e

theorem waitDone_takenUnblocked {set : Word} (h : TakenUnblocked s)
    (hs : s.waitDone t set = some (s', e)) : TakenUnblocked s' ∧ CallsNone e := by
  obtain ⟨⟨s1, si⟩, hsearch, heq⟩ := Option.map_eq_some_iff.mp hs
  obtain ⟨rfl, rfl⟩ := Prod.mk.inj heq
  exact ⟨waitSearch_takenUnblocked h hsearch, by simp [CallsNone]⟩

theorem rtSignalWait_takenUnblocked {set : Word} {timeout : Int} (h : TakenUnblocked s)
    (hs : s.rtSignalWait t set timeout = some (s', e)) : TakenUnblocked s' ∧ CallsNone e := by
  unfold SigState.rtSignalWait at hs
  split at hs
  next =>
    obtain ⟨rfl, rfl⟩ := Prod.mk.inj (Option.some.inj hs)
    exact ⟨h, by simp [CallsNone]⟩
  next =>
    split at hs
    next => exact waitDone_takenUnblocked h hs
    next =>
      split at hs <;> obtain ⟨rfl, rfl⟩ := Prod.mk.inj (Option.some.inj hs)
      · exact ⟨h, by simp [CallsNone]⟩
      · have hset := set_takenUnblocked h (t := t) (x := fun x =>
          { x with stat := .suspend, sigWait := true, timerActive := decide (timeout ≠ -1) }) rfl
        refine ⟨setFrames_takenUnblocked hset fun n f hf hcalls => ?_, by simp [CallsNone]⟩
        rcases List.mem_cons.mp hf with rfl | hf
        · exact absurd hcalls Bool.false_ne_true
        · exact hset t n f hf hcalls

theorem waitWoken_takenUnblocked (h : TakenUnblocked s) (hs : s.waitWoken t = some (s', e)) :
    TakenUnblocked s' ∧ CallsNone e := by
  unfold SigState.waitWoken at hs
  split at hs
  next _ set fs hframes =>
    have hset := set_takenUnblocked h (t := t) (x := fun x => { x with sigWait := false }) rfl
    have hpop : TakenUnblocked ((s.set t fun x => { x with sigWait := false }).setFrames t fs) := by
      refine setFrames_takenUnblocked hset fun n f hf hcalls => hset t n f ?_ hcalls
      rw [SigState.set_frames, hframes]
      exact List.mem_cons_of_mem _ hf
    split at hs
    next =>
      obtain ⟨rfl, rfl⟩ := Prod.mk.inj (Option.some.inj hs)
      exact ⟨set_takenUnblocked hpop rfl, by simp [CallsNone]⟩
    next => exact waitDone_takenUnblocked hpop hs
  next => simp at hs

/-- Every call of a handler in the events is of an unblocked signal. -/
def CallsUnblocked (e : List SigEvent) : Prop := ∀ t n h b, .invoked t n h b ∈ e → b = true

theorem CallsNone.unblocked (h : CallsNone e) : CallsUnblocked e :=
  fun t n handler b hmem => absurd hmem (h t n handler b)

theorem callsUnblocked_nil : CallsUnblocked [] := by simp [CallsUnblocked]

theorem handleInvoke_takenUnblocked (h : TakenUnblocked s) (hs : s.handleInvoke t = some (s', e)) :
    TakenUnblocked s' ∧ CallsUnblocked e := by
  unfold SigState.handleInvoke at hs
  split at hs
  next _ n a handler fs hframes =>
    obtain ⟨rfl, rfl⟩ := Prod.mk.inj (Option.some.inj hs)
    refine ⟨setFrames_takenUnblocked h fun m f hf hcalls => ?_, ?_⟩
    · rcases List.mem_cons.mp hf with rfl | hf
      · exact absurd hcalls Bool.false_ne_true
      · exact h t m f (hframes ▸ List.mem_cons_of_mem _ hf) hcalls
    · split
      · exact callsUnblocked_nil
      next hignore =>
        have hunblocked : s.Unblocked t n := h t n (.taken n a handler)
          (hframes ▸ List.mem_cons_self) (by simp [SigFrame.calls, hignore])
        intro u m k b hmem
        obtain ⟨-, -, -, rfl⟩ := SigEvent.invoked.inj (List.mem_singleton.mp hmem)
        exact decide_eq_true hunblocked
  next => simp at hs

theorem handleFinish_takenUnblocked (h : TakenUnblocked s) (hs : s.handleFinish t = some s') :
    TakenUnblocked s' := by
  unfold SigState.handleFinish at hs
  split at hs
  next _ n a fs hframes =>
    obtain rfl := Option.some.inj hs
    have hclear := set_takenUnblocked h (t := t) (x := fun x =>
      { x with sigPending := x.sigPending &&& ~~~sigMask n }) rfl
    have herror : TakenUnblocked (((s.clearPending t n).rtMpFree a).set t fun x =>
        { x with error := .eintr }) := set_takenUnblocked hclear rfl
    refine setFrames_takenUnblocked herror fun m f hf hcalls => herror t m f ?_ hcalls
    exact hframes.symm ▸ List.mem_cons_of_mem _ hf
  next => simp at hs

/-- An allowed step calls handlers of unblocked signals only. -/
theorem sigStep_takenUnblocked {a : SigAction} (h : TakenUnblocked s) (hok : KeepsMask s a)
    (hs : sigStep s a = some (s', e)) : TakenUnblocked s' ∧ CallsUnblocked e := by
  cases a with
  | install t signo handler =>
    obtain ⟨-, hs⟩ := Option.ite_none_right_eq_some.mp hs
    obtain ⟨rfl, rfl⟩ := Prod.mk.inj (Option.some.inj hs)
    refine ⟨?_, callsUnblocked_nil⟩
    unfold SigState.rtSignalInstall
    split
    · exact set_takenUnblocked h rfl
    · exact h
  | mask t signo =>
    obtain ⟨-, hs⟩ := Option.ite_none_right_eq_some.mp hs
    obtain ⟨rfl, rfl⟩ := Prod.mk.inj (Option.some.inj hs)
    exact ⟨rtSignalMask_takenUnblocked h hok, callsUnblocked_nil⟩
  | unmask t signo =>
    obtain ⟨-, hs⟩ := Option.ite_none_right_eq_some.mp hs
    obtain ⟨rfl, rfl⟩ := Prod.mk.inj (Option.some.inj hs)
    exact ⟨rtSignalUnmask_takenUnblocked h, callsUnblocked_nil⟩
  | wait t set timeout =>
    obtain ⟨-, hs⟩ := Option.ite_none_right_eq_some.mp hs
    obtain ⟨hinv, hnone⟩ := rtSignalWait_takenUnblocked h hs
    exact ⟨hinv, hnone.unblocked⟩
  | woken t =>
    obtain ⟨-, hs⟩ := Option.ite_none_right_eq_some.mp hs
    obtain ⟨hinv, hnone⟩ := waitWoken_takenUnblocked h hs
    exact ⟨hinv, hnone.unblocked⟩
  | kill t signo =>
    obtain ⟨rfl, rfl⟩ := Prod.mk.inj (Option.some.inj hs)
    refine ⟨?_, callsUnblocked_nil⟩
    unfold SigState.rtThreadKill
    split
    · split
      · exact h
      · exact set_takenUnblocked h (t := t) (x := fun x =>
          { x with sigPending := x.sigPending ||| sigMask signo }) rfl
    · exact h
  | killNext f =>
    obtain ⟨-, hs⟩ := Option.ite_none_right_eq_some.mp hs
    obtain ⟨s1, hs1, heq⟩ := Option.map_eq_some_iff.mp hs
    obtain ⟨rfl, rfl⟩ := Prod.mk.inj heq
    exact ⟨killNext_takenUnblocked h hs1, callsUnblocked_nil⟩
  | take t =>
    obtain ⟨-, hs⟩ := Option.ite_none_right_eq_some.mp hs
    obtain ⟨s1, hs1, heq⟩ := Option.map_eq_some_iff.mp hs
    obtain ⟨rfl, rfl⟩ := Prod.mk.inj heq
    exact ⟨handleTake_takenUnblocked h hok hs1, callsUnblocked_nil⟩
  | invoke t =>
    obtain ⟨-, hs⟩ := Option.ite_none_right_eq_some.mp hs
    exact handleInvoke_takenUnblocked h hs
  | finish t =>
    obtain ⟨-, hs⟩ := Option.ite_none_right_eq_some.mp hs
    obtain ⟨s1, hs1, heq⟩ := Option.map_eq_some_iff.mp hs
    obtain ⟨rfl, rfl⟩ := Prod.mk.inj heq
    exact ⟨handleFinish_takenUnblocked h hs1, callsUnblocked_nil⟩
  | block t timed =>
    obtain ⟨-, hs⟩ := Option.ite_none_right_eq_some.mp hs
    obtain ⟨rfl, rfl⟩ := Prod.mk.inj (Option.some.inj hs)
    exact ⟨set_takenUnblocked h rfl, callsUnblocked_nil⟩
  | resume t =>
    obtain ⟨rfl, rfl⟩ := Prod.mk.inj (Option.some.inj hs)
    exact ⟨resume_takenUnblocked h, callsUnblocked_nil⟩
  | timeout t =>
    obtain ⟨-, hs⟩ := Option.ite_none_right_eq_some.mp hs
    obtain ⟨rfl, rfl⟩ := Prod.mk.inj (Option.some.inj hs)
    exact ⟨set_takenUnblocked h rfl, callsUnblocked_nil⟩

end

/-- Thread 0 installs a handler for signal 10 and unblocks the signal, and its handler is called. -/
def handledRun : List SigAction :=
  [.install 0 10 (.user 1), .unmask 0 10] ++ killCall 0 10 536870916 ++
    [.killNext (.wake 0), .take 0, .invoke 0, .finish 0]

theorem handled_some : (runFrom sigLogStep handledRun (quietSignals, [])).isSome = true := by
  decide +kernel

/-- Signal 10 is blocked and queued before signal 12, which is not. -/
def blockedHeadRun : List SigAction :=
  [.install 0 10 (.user 1), .install 0 12 (.user 2), .unmask 0 12] ++ killCall 0 10 536870916 ++
    killCall 0 12 536870932 ++ [.killNext (.wake 0), .take 0, .invoke 0]

theorem blockedHead_some : (runFrom sigLogStep blockedHeadRun (quietSignals, [])).isSome = true := by
  decide +kernel

end RTThread
