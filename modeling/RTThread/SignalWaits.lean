import RTThread.SignalQueue

namespace RTThread

/-- A call of `rt_signal_wait` that has suspended: what it waits for, and whether its timer has
expired while no wanted signal was queued. -/
structure SigWaitCall where
  set : Word
  expired : Bool

/-- A return of `rt_signal_wait`: what was asked and how it went, with the queue and the memory in
front of the return and the queue behind it. -/
structure SigWaitReturn where
  set : Word
  zeroTimeout : Bool
  wasPending : Bool
  expired : Bool
  result : SigWaitResult
  before : List Word
  mem : Word → Word
  after : List Word

/-- The signals of all threads, the calls of `rt_signal_wait` under way, and those that returned. -/
structure SigWaitRun where
  state : SigState
  calls : ThreadId → Option SigWaitCall
  returns : List SigWaitReturn

/-- A step of the signals; or another call of the thread leaves its result in `thread->error`. -/
inductive SigWaitAction where
  | sig (a : SigAction)
  | errno (t : ThreadId) (err : Err)

namespace SigState

/-- A wanted signal is in the queue. -/
def Arrived (s : SigState) (t : ThreadId) (set : Word) : Prop :=
  ∃ b ∈ s.queueNodes t, s.wanted set b = true

instance decidableArrived (s : SigState) (t : ThreadId) (set : Word) : Decidable (s.Arrived t set) :=
  inferInstanceAs (Decidable (∃ b ∈ s.queueNodes t, s.wanted set b = true))

end SigState

def waitedResult : List SigEvent → Option SigWaitResult
  | [.waited _ result] => some result
  | _ => none

/-- The entry for a call that returns, if the events of the step say so. -/
def waitReturns (s s' : SigState) (t : ThreadId) (call : SigWaitCall) (zeroTimeout : Bool)
    (e : List SigEvent) : List SigWaitReturn :=
  ((waitedResult e).map fun result =>
    ⟨call.set, zeroTimeout, decide ((s.thread t).sigPending &&& call.set ≠ 0), call.expired, result,
      s.queueNodes t, s.mem, s'.queueNodes t⟩).toList

def sigWaitStep (x : SigWaitRun) : SigWaitAction → Option SigWaitRun
  | .errno t err =>
    if x.state.Calls t then
      some { x with state := x.state.set t fun y => { y with error := err } }
    else none
  | .sig a =>
    (sigStep x.state a).map fun r =>
      match a with
      | .wait t set timeout =>
        let returns := waitReturns x.state r.1 t ⟨set, false⟩ (decide (timeout = 0)) r.2
        ⟨r.1, if returns = [] then Function.update x.calls t (some ⟨set, false⟩) else x.calls,
          returns ++ x.returns⟩
      | .woken t =>
        ⟨r.1, Function.update x.calls t none,
          (x.calls t).toList.flatMap (fun call => waitReturns x.state r.1 t call false r.2) ++ x.returns⟩
      | .timeout t =>
        ⟨r.1, Function.update x.calls t ((x.calls t).map fun call =>
          { call with expired := call.expired || !decide (x.state.Arrived t call.set) }), x.returns⟩
      | _ => { x with state := r.1 }

/-- A timeout is reported where the timeout was 0 with nothing wanted pending, or where the timer
expired first; a success hands over a wanted signal and takes its node off the queue. -/
def SigWaitReturn.Honest (r : SigWaitReturn) : Prop :=
  match r.result with
  | .einval => r.set = 0
  | .etimeout => r.zeroTimeout = true ∧ r.wasPending = false ∨ r.expired = true
  | .eok si => ∃ as b bs, r.before = as ++ b :: bs ∧ r.after = as ++ bs ∧
      sigMask (siSigno r.mem b) &&& r.set ≠ 0 ∧ si = some (r.mem b, r.mem (b + 4))

/-- A suspended thread is not resumed in `rt_signal_wait` with an old timeout in `thread->error`. -/
def ResumesFresh (s : SigState) (t : ThreadId) : Prop :=
  s.waitingFor t ≠ none → (s.thread t).stat = .suspend → (s.thread t).error ≠ .etimeout

instance decidableResumesFresh (s : SigState) (t : ThreadId) : Decidable (ResumesFresh s t) :=
  inferInstanceAs (Decidable (_ → _ → _))

/-- The list is searched only if a wanted node is in it, and not taken from its front with nodes
behind. -/
def FindsWanted (s : SigState) (t : ThreadId) (set : Word) : Prop :=
  s.queueNodes t ≠ [] ∧ s.SearchSafe t set

instance decidableFindsWanted (s : SigState) (t : ThreadId) (set : Word) :
    Decidable (FindsWanted s t set) := inferInstanceAs (Decidable (_ ∧ _))

def KeepsWait (x : SigWaitRun) : SigWaitAction → Prop
  | .errno _ _ => True
  | .sig (.wait t set _) => (x.state.thread t).sigPending &&& set = 0 ∨ FindsWanted x.state t set
  | .sig (.woken t) =>
    ∀ set ∈ x.state.waitingFor t, (x.state.thread t).error = .etimeout ∨ FindsWanted x.state t set
  | .sig (.timeout t) => ∀ set ∈ x.state.waitingFor t, ¬x.state.Arrived t set
  | .sig (.resume t) => ResumesFresh x.state t
  | .sig (.killNext (.wake t)) => ResumesFresh x.state t
  | .sig a => KeepsSignals x.state a

instance decidableKeepsWait (x : SigWaitRun) (a : SigWaitAction) : Decidable (KeepsWait x a) := by
  unfold KeepsWait
  split <;> infer_instance

theorem KeepsWait.signals {x : SigWaitRun} {a : SigAction} (h : KeepsWait x (.sig a)) :
    KeepsSignals x.state a := by
  cases a with
  | wait t set timeout => exact h.imp_right And.right
  | woken t =>
    intro set hset
    exact (h set hset).imp_right And.right
  | killNext f =>
    cases f with
    | wake t => exact trivial
    | _ => exact h
  | timeout t => exact trivial
  | resume t => exact trivial
  | _ => exact h

/-- Only the innermost frame waits, and the thread is marked as waiting while it does. -/
structure WaitFrames (s : SigState) (t : ThreadId) : Prop where
  tail : ∀ f ∈ (s.frames t).tail, ∀ set, f ≠ .waiting set
  flag : s.waitingFor t ≠ none → (s.thread t).sigWait = true

structure WaitsInv (x : SigWaitRun) : Prop where
  lists : ∃ q, SigInv x.state q
  frames : ∀ t, WaitFrames x.state t
  calls : ∀ t, (x.calls t).map SigWaitCall.set = x.state.waitingFor t
  error : ∀ t c, x.calls t = some c → (x.state.thread t).stat = .ready →
    (x.state.thread t).error = .etimeout → c.expired = true
  honest : ∀ r ∈ x.returns, r.Honest

/-- No thread enters or leaves a wait, or is made ready in one with a timeout. -/
structure Calm (s s' : SigState) : Prop where
  frames : s'.frames = s.frames
  sigWait : ∀ t, (s'.thread t).sigWait = (s.thread t).sigWait
  error : ∀ t, s.waitingFor t ≠ none → (s'.thread t).stat = .ready → (s'.thread t).error = .etimeout →
    (s.thread t).stat = .ready ∧ (s.thread t).error = .etimeout

section
variable {x x' : SigWaitRun} {s s' : SigState} {q : ThreadId → List Word} {t u : ThreadId} {set : Word}
  {e : List SigEvent}

theorem waitingFor_congr (h : s'.frames t = s.frames t) : s'.waitingFor t = s.waitingFor t := by
  unfold SigState.waitingFor
  rw [h]

theorem WaitsInv.calm (hi : WaitsInv x) (hlists : ∃ q, SigInv s' q) (h : Calm x.state s') :
    WaitsInv { x with state := s' } := by
  have hwaits : ∀ t, s'.waitingFor t = x.state.waitingFor t := fun t =>
    waitingFor_congr (congrFun h.frames t)
  refine ⟨hlists, fun t => ⟨?_, ?_⟩, fun t => ?_, fun t c hc hready herror => ?_, hi.honest⟩
  · rw [h.frames]
    exact (hi.frames t).tail
  · rw [hwaits, h.sigWait]
    exact (hi.frames t).flag
  · rw [hwaits]
    exact hi.calls t
  · have hwaiting : x.state.waitingFor t ≠ none := by
      rw [← hi.calls t, hc]
      simp
    obtain ⟨hready', herror'⟩ := h.error t hwaiting hready herror
    exact hi.error t c hc hready' herror'

theorem Calm.of_same (hframes : s'.frames = s.frames)
    (hthread : ∀ t, (s'.thread t).sigWait = (s.thread t).sigWait ∧
      (s'.thread t).stat = (s.thread t).stat ∧ (s'.thread t).error = (s.thread t).error) : Calm s s' := by
  refine ⟨hframes, fun t => (hthread t).1, fun t _ hready herror => ?_⟩
  rw [← (hthread t).2.1, ← (hthread t).2.2]
  exact ⟨hready, herror⟩

theorem Calm.refl : Calm s s := .of_same rfl fun _ => ⟨rfl, rfl, rfl⟩

/-- A change of other fields of a thread. -/
theorem set_calm {f : SigThread → SigThread} (hf : ∀ y, (f y).sigWait = y.sigWait ∧
    (f y).stat = y.stat ∧ (f y).error = y.error) : Calm s (s.set t f) := by
  refine .of_same rfl fun u => ?_
  by_cases hu : u = t
  · subst hu
    rw [SigState.set_self]
    exact hf _
  · rw [SigState.set_ne hu]
    exact ⟨rfl, rfl, rfl⟩

/-- A thread that is not in `rt_signal_wait` blocks, is resumed or gets another error. -/
theorem set_calm_outside {f : SigThread → SigThread} (ht : s.waitingFor t = none)
    (hf : ∀ y, (f y).sigWait = y.sigWait) : Calm s (s.set t f) := by
  refine ⟨rfl, fun u => ?_, fun u hu hready herror => ?_⟩
  · by_cases h : u = t
    · subst h
      rw [SigState.set_self, hf]
    · rw [SigState.set_ne h]
  · have h : u ≠ t := by
      rintro rfl
      exact hu ht
    rw [SigState.set_ne h] at hready herror
    exact ⟨hready, herror⟩

theorem resume_calm (h : ResumesFresh s t) : Calm s (s.resume t) := by
  unfold SigState.resume
  split
  next hsuspend =>
    refine ⟨rfl, fun u => ?_, fun u hu hready herror => ?_⟩
    · by_cases hut : u = t
      · subst hut
        rw [SigState.set_self]
      · rw [SigState.set_ne hut]
    · by_cases hut : u = t
      · subst hut
        rw [SigState.set_self] at herror
        exact absurd herror (h hu hsuspend)
      · rw [SigState.set_ne hut] at hready herror
        exact ⟨hready, herror⟩
  next => exact .refl

theorem killNext_calm {f : KillFrame} (hok : ∀ t, f = .wake t → ResumesFresh s t)
    (hs : s.killNext f = some s') : Calm s s' := by
  cases f with
  | search t signo node =>
    obtain rfl := Option.some.inj hs
    unfold SigState.killSearch
    split
    · exact .of_same rfl fun _ => ⟨rfl, rfl, rfl⟩
    · split
      · exact .of_same rfl fun _ => ⟨rfl, rfl, rfl⟩
      · exact .of_same rfl fun _ => ⟨rfl, rfl, rfl⟩
  | alloc t signo =>
    obtain rfl := Option.some.inj hs
    unfold SigState.killAlloc
    split
    · exact .of_same rfl fun _ => ⟨rfl, rfl, rfl⟩
    · exact .of_same rfl fun _ => ⟨rfl, rfl, rfl⟩
  | append t signo node =>
    change s.killAppend t signo node = some s' at hs
    unfold SigState.killAppend at hs
    split at hs
    · obtain rfl := Option.some.inj hs
      have hset : Calm s (s.set t fun x => { x with siList := node }) := set_calm fun _ => ⟨rfl, rfl, rfl⟩
      exact ⟨hset.frames, hset.sigWait, hset.error⟩
    · obtain ⟨last, -, rfl⟩ := Option.map_eq_some_iff.mp hs
      exact .of_same rfl fun _ => ⟨rfl, rfl, rfl⟩
  | deliver t =>
    obtain rfl := Option.some.inj hs
    unfold SigState.signalDeliver
    split
    · exact .of_same rfl fun _ => ⟨rfl, rfl, rfl⟩
    · exact .of_same rfl fun _ => ⟨rfl, rfl, rfl⟩
  | wake t =>
    obtain rfl := Option.some.inj hs
    have hresume := resume_calm (hok t rfl)
    exact ⟨hresume.frames, hresume.sigWait, hresume.error⟩

theorem Calls.waitingFor (h : s.Calls t) : s.waitingFor t = none := by
  unfold SigState.Calls at h
  unfold SigState.waitingFor
  cases hf : s.frames t with
  | nil => rfl
  | cons f fs =>
    cases f with
    | waiting set =>
      rw [hf] at h
      exact absurd h.2 id
    | taken signo node handler => rfl
    | handling signo node => rfl

theorem waitFound_calm (prev : Option Word) (b : Word) : Calm s (s.waitFound t prev b).1 := by
  have hclear : ∀ s1 : SigState, Calm s s1 →
      Calm s ((s1.clearPending t (siSigno s.mem b)).rtMpFree b) := by
    intro s1 h1
    have hset : Calm s1 (s1.clearPending t (siSigno s.mem b)) := set_calm fun _ => ⟨rfl, rfl, rfl⟩
    refine ⟨hset.frames.trans h1.frames, fun u => (hset.sigWait u).trans (h1.sigWait u),
      fun u hu hready herror => ?_⟩
    have hwaiting : s1.waitingFor u ≠ none := by
      rwa [waitingFor_congr (congrFun h1.frames u)]
    obtain ⟨hready1, herror1⟩ := hset.error u hwaiting hready herror
    exact h1.error u hu hready1 herror1
  unfold SigState.waitFound
  cases prev with
  | none => exact hclear _ (set_calm fun _ => ⟨rfl, rfl, rfl⟩)
  | some p => exact hclear _ (.of_same rfl fun _ => ⟨rfl, rfl, rfl⟩)

/-- The search of an allowed call: what it hands over, and the queue behind it. -/
theorem waitDone_hands (hi : SigInv s q) (hfinds : FindsWanted s t set)
    (hs : s.waitDone t set = some (s', e)) :
    (∃ q', SigInv s' q') ∧ Calm s s' ∧ ∃ as b bs, s.queueNodes t = as ++ b :: bs ∧
      s'.queueNodes t = as ++ bs ∧ sigMask (siSigno s.mem b) &&& set ≠ 0 ∧
      e = [.waited t (.eok (some (s.mem b, s.mem (b + 4))))] := by
  obtain ⟨hne, hsafe⟩ := hfinds
  rw [hi.queueNodes_eq] at hne
  obtain ⟨as, b, bs, s1, hq, hb, hdone, hs1, hinv⟩ := waitDone_found hi hne hsafe
  obtain ⟨rfl, rfl⟩ := Prod.mk.inj (Option.some.inj (hdone.symm.trans hs))
  refine ⟨⟨_, hinv⟩, hs1 ▸ waitFound_calm _ _, as, b, bs, ?_, ?_, of_decide_eq_true hb, rfl⟩
  · rw [hi.queueNodes_eq, hq]
  · rw [hinv.queueNodes_eq, Function.update_self]

theorem WaitFrames.noWait (h : WaitFrames s t) (hnone : s.waitingFor t = none) :
    ∀ f ∈ s.frames t, ∀ set, f ≠ .waiting set := by
  intro f hf set heq
  have htail := h.tail
  unfold SigState.waitingFor at hnone
  cases hfs : s.frames t with
  | nil =>
    rw [hfs] at hf
    exact absurd hf List.not_mem_nil
  | cons g fs =>
    rw [hfs] at hf hnone htail
    rcases List.mem_cons.mp hf with rfl | hf
    · rw [heq] at hnone
      exact absurd hnone (by simp)
    · exact htail f hf set heq

theorem waitingFor_none (h : ∀ f ∈ s.frames t, ∀ set, f ≠ .waiting set) : s.waitingFor t = none := by
  unfold SigState.waitingFor
  split
  next _ set fs hframes => exact absurd rfl (h (.waiting set) (by rw [hframes]; exact List.mem_cons_self) set)
  next => rfl

/-- A thread that is not in `rt_signal_wait`, and does not enter it, changes its frames. -/
theorem WaitsInv.outside (hi : WaitsInv x) (ht : x.state.waitingFor t = none)
    (hlists : ∃ q, SigInv s' q)
    (hother : ∀ u, u ≠ t → s'.frames u = x.state.frames u ∧ s'.thread u = x.state.thread u)
    (hframes : ∀ f ∈ s'.frames t, ∀ set, f ≠ .waiting set) : WaitsInv { x with state := s' } := by
  have hnone := waitingFor_none hframes
  have hcall : x.calls t = none := Option.map_eq_none_iff.mp ((hi.calls t).trans ht)
  refine ⟨hlists, fun u => ?_, fun u => ?_, fun u c hc hready herror => ?_, hi.honest⟩
  · by_cases hu : u = t
    · subst hu
      exact ⟨fun f hf => hframes f (List.mem_of_mem_tail hf), fun h => absurd hnone h⟩
    · refine ⟨?_, ?_⟩
      · rw [(hother u hu).1]
        exact (hi.frames u).tail
      · rw [waitingFor_congr (hother u hu).1, (hother u hu).2]
        exact (hi.frames u).flag
  · by_cases hu : u = t
    · subst hu
      show (x.calls u).map _ = s'.waitingFor u
      rw [hcall, hnone]
      rfl
    · show (x.calls u).map _ = s'.waitingFor u
      rw [waitingFor_congr (hother u hu).1]
      exact hi.calls u
  · by_cases hu : u = t
    · subst hu
      exact absurd (hcall.symm.trans hc) (by simp)
    · rw [(hother u hu).2] at hready herror
      exact hi.error u c hc hready herror

/-- A call suspends its thread. -/
theorem WaitsInv.enters (hi : WaitsInv x) (hcalls : x.state.Calls t) {timed : Bool}
    (hlists : ∃ q, SigInv ((x.state.set t fun y =>
      { y with stat := .suspend, sigWait := true, timerActive := timed }).setFrames t
        (.waiting set :: x.state.frames t)) q) :
    WaitsInv ⟨(x.state.set t fun y =>
      { y with stat := .suspend, sigWait := true, timerActive := timed }).setFrames t
        (.waiting set :: x.state.frames t), Function.update x.calls t (some ⟨set, false⟩), x.returns⟩ := by
  have hnew : ((x.state.set t fun y =>
      { y with stat := .suspend, sigWait := true, timerActive := timed }).setFrames t
        (.waiting set :: x.state.frames t)).frames t = .waiting set :: x.state.frames t :=
    Function.update_self ..
  have hold : ∀ u, u ≠ t → ((x.state.set t fun y =>
      { y with stat := .suspend, sigWait := true, timerActive := timed }).setFrames t
        (.waiting set :: x.state.frames t)).frames u = x.state.frames u :=
    fun u hu => Function.update_of_ne hu ..
  have hthread : ∀ u, u ≠ t → ((x.state.set t fun y =>
      { y with stat := .suspend, sigWait := true, timerActive := timed }).setFrames t
        (.waiting set :: x.state.frames t)).thread u = x.state.thread u :=
    fun u hu => Function.update_of_ne hu ..
  have hself : ((x.state.set t fun y =>
      { y with stat := .suspend, sigWait := true, timerActive := timed }).setFrames t
        (.waiting set :: x.state.frames t)).thread t =
      { x.state.thread t with stat := .suspend, sigWait := true, timerActive := timed } :=
    Function.update_self ..
  refine ⟨hlists, fun u => ?_, fun u => ?_, fun u c hc hready herror => ?_, hi.honest⟩
  · by_cases hu : u = t
    · subst hu
      refine ⟨?_, fun _ => ?_⟩
      · rw [hnew]
        exact (hi.frames u).noWait (Calls.waitingFor hcalls)
      · rw [hself]
    · refine ⟨?_, ?_⟩
      · rw [hold u hu]
        exact (hi.frames u).tail
      · rw [waitingFor_congr (hold u hu), hthread u hu]
        exact (hi.frames u).flag
  · show (Function.update x.calls t (some ⟨set, false⟩) u).map _ = _
    by_cases hu : u = t
    · subst hu
      rw [Function.update_self]
      unfold SigState.waitingFor
      rw [hnew]
      rfl
    · rw [Function.update_of_ne hu]
      exact (hi.calls u).trans (waitingFor_congr (hold u hu)).symm
  · change Function.update x.calls t (some ⟨set, false⟩) u = some c at hc
    by_cases hu : u = t
    · subst hu
      rw [hself] at hready
      exact absurd hready (by simp)
    · rw [Function.update_of_ne hu] at hc
      rw [hthread u hu] at hready herror
      exact hi.error u c hc hready herror

/-- The call of a thread that waits returns. -/
theorem WaitsInv.leaves (hi : WaitsInv x) {fs : List SigFrame}
    (hframes : x.state.frames t = .waiting set :: fs) (hlists : ∃ q, SigInv s' q)
    (hcalm : Calm ((x.state.set t fun y => { y with sigWait := false }).setFrames t fs) s')
    {returns : List SigWaitReturn} (hhonest : ∀ r ∈ returns, r.Honest) :
    WaitsInv ⟨s', Function.update x.calls t none, returns ++ x.returns⟩ := by
  have htail := (hi.frames t).tail
  rw [hframes, List.tail_cons] at htail
  have hleft : s'.frames t = fs := (congrFun hcalm.frames t).trans (Function.update_self ..)
  have hnone : s'.waitingFor t = none := by
    unfold SigState.waitingFor
    rw [hleft]
    cases fs with
    | nil => rfl
    | cons f fs =>
      cases f with
      | waiting set' => exact absurd rfl (htail _ List.mem_cons_self set')
      | taken signo node handler => rfl
      | handling signo node => rfl
  have hother : ∀ u, u ≠ t → s'.frames u = x.state.frames u := fun u hu =>
    (congrFun hcalm.frames u).trans (Function.update_of_ne hu ..)
  have hthread : ∀ u, u ≠ t →
      ((x.state.set t fun y => { y with sigWait := false }).setFrames t fs).thread u = x.state.thread u :=
    fun u hu => Function.update_of_ne hu ..
  refine ⟨hlists, fun u => ?_, fun u => ?_, fun u c hc hready herror => ?_, fun r hr => ?_⟩
  · by_cases hu : u = t
    · subst hu
      refine ⟨fun f hf => ?_, fun h => absurd hnone h⟩
      rw [hleft] at hf
      exact htail f (List.mem_of_mem_tail hf)
    · refine ⟨?_, ?_⟩
      · rw [hother u hu]
        exact (hi.frames u).tail
      · rw [waitingFor_congr (hother u hu), hcalm.sigWait u, hthread u hu]
        exact (hi.frames u).flag
  · show (Function.update x.calls t none u).map _ = s'.waitingFor u
    by_cases hu : u = t
    · subst hu
      rw [Function.update_self, hnone]
      rfl
    · rw [Function.update_of_ne hu, waitingFor_congr (hother u hu)]
      exact hi.calls u
  · change Function.update x.calls t none u = some c at hc
    by_cases hu : u = t
    · subst hu
      rw [Function.update_self] at hc
      exact absurd hc (by simp)
    · rw [Function.update_of_ne hu] at hc
      have hwaiting : ((x.state.set t fun y => { y with sigWait := false }).setFrames t fs).waitingFor u ≠
          none := by
        have hsame : ((x.state.set t fun y => { y with sigWait := false }).setFrames t fs).frames u =
            x.state.frames u := Function.update_of_ne hu ..
        rw [waitingFor_congr hsame, ← hi.calls u, hc]
        simp
      obtain ⟨hready', herror'⟩ := hcalm.error u hwaiting hready herror
      rw [hthread u hu] at hready' herror'
      exact hi.error u c hc hready' herror'
  · rcases List.mem_append.mp hr with hr | hr
    · exact hhonest r hr
    · exact hi.honest r hr

theorem mem_waitReturns {call : SigWaitCall} {z : Bool} {result : SigWaitResult} {r : SigWaitReturn}
    (hr : r ∈ waitReturns s s' t call z [.waited t result]) :
    r = ⟨call.set, z, decide ((s.thread t).sigPending &&& call.set ≠ 0), call.expired, result,
      s.queueNodes t, s.mem, s'.queueNodes t⟩ := List.mem_singleton.mp hr

theorem waitWoken_keeps (hi : WaitsInv x) (hok : KeepsWait x (.sig (.woken t)))
    (hs : x.state.waitWoken t = some (s', e)) (hready : (x.state.thread t).stat = .ready) :
    WaitsInv ⟨s', Function.update x.calls t none,
      (x.calls t).toList.flatMap (fun call => waitReturns x.state s' t call false e) ++ x.returns⟩ := by
  have hlists : ∃ q, SigInv s' q :=
    sigStep_inv (a := .woken t) hi.lists.choose_spec hok.signals ((if_pos hready).trans hs)
  unfold SigState.waitWoken at hs
  split at hs
  next _ set fs hframes =>
    have hset : x.state.waitingFor t = some set := by
      unfold SigState.waitingFor
      rw [hframes]
    obtain ⟨call, hcall, hcset⟩ := Option.map_eq_some_iff.mp ((hi.calls t).trans hset)
    split at hs
    next herror =>
      obtain ⟨rfl, rfl⟩ := Prod.mk.inj (Option.some.inj hs)
      apply hi.leaves hframes hlists
      · refine ⟨rfl, fun u => ?_, fun u hu hready' herror' => ?_⟩
        · by_cases hut : u = t
          · subst hut
            rw [SigState.set_self]
          · rw [SigState.set_ne hut]
        · by_cases hut : u = t
          · subst hut
            rw [SigState.set_self] at herror'
            exact absurd herror' (by simp)
          · rw [SigState.set_ne hut] at hready' herror'
            exact ⟨hready', herror'⟩
      · intro r hr
        rw [hcall] at hr
        obtain rfl := mem_waitReturns (List.flatMap_singleton .. ▸ hr)
        exact .inr (hi.error t call hcall hready herror)
    next herror =>
      obtain ⟨q, hq⟩ := hi.lists
      have hq1 := (waiting_sigSame hframes).inv hq
      have hfinds := (hok set hset).resolve_left herror
      rw [FindsWanted, SigState.SearchSafe, hq.queueNodes_eq, ← hq1.queueNodes_eq] at hfinds
      obtain ⟨-, hcalm, as, b, bs, hbefore, hafter, hwanted, rfl⟩ := waitDone_hands hq1 hfinds hs
      apply hi.leaves hframes hlists hcalm
      intro r hr
      rw [hcall] at hr
      obtain rfl := mem_waitReturns (List.flatMap_singleton .. ▸ hr)
      rw [hq1.queueNodes_eq, ← hq.queueNodes_eq] at hbefore
      exact ⟨as, b, bs, hbefore, hafter, hcset ▸ hwanted, rfl⟩
  next => simp at hs

theorem rtSignalWait_keeps {timeout : Int} (hi : WaitsInv x) (hcalls : x.state.Calls t)
    (hok : KeepsWait x (.sig (.wait t set timeout)))
    (hs : x.state.rtSignalWait t set timeout = some (s', e)) :
    WaitsInv ⟨s', if waitReturns x.state s' t ⟨set, false⟩ (decide (timeout = 0)) e = [] then
        Function.update x.calls t (some ⟨set, false⟩) else x.calls,
      waitReturns x.state s' t ⟨set, false⟩ (decide (timeout = 0)) e ++ x.returns⟩ := by
  have hlists : ∃ q, SigInv s' q :=
    sigStep_inv (a := .wait t set timeout) hi.lists.choose_spec hok.signals
      ((if_pos hcalls).trans hs)
  have hreturns : ∀ result, Calm x.state s' → e = [.waited t result] →
      (∀ r ∈ waitReturns x.state s' t ⟨set, false⟩ (decide (timeout = 0)) e, r.Honest) →
      WaitsInv ⟨s', if waitReturns x.state s' t ⟨set, false⟩ (decide (timeout = 0)) e = [] then
          Function.update x.calls t (some ⟨set, false⟩) else x.calls,
        waitReturns x.state s' t ⟨set, false⟩ (decide (timeout = 0)) e ++ x.returns⟩ := by
    intro result hcalm he hhonest
    have hkept := hi.calm hlists hcalm
    have hne : waitReturns x.state s' t ⟨set, false⟩ (decide (timeout = 0)) e ≠ [] := by
      rw [he]
      exact List.cons_ne_nil _ _
    rw [if_neg hne]
    refine ⟨hkept.lists, hkept.frames, hkept.calls, hkept.error, fun r hr => ?_⟩
    rcases List.mem_append.mp hr with hr | hr
    · exact hhonest r hr
    · exact hi.honest r hr
  unfold SigState.rtSignalWait at hs
  split at hs
  next hzero =>
    obtain ⟨rfl, rfl⟩ := Prod.mk.inj (Option.some.inj hs)
    refine hreturns _ .refl rfl fun r hr => ?_
    obtain rfl := mem_waitReturns hr
    exact hzero
  next =>
    split at hs
    next hpending =>
      obtain ⟨q, hq⟩ := hi.lists
      obtain ⟨-, hcalm, as, b, bs, hbefore, hafter, hwanted, rfl⟩ :=
        waitDone_hands hq (hok.resolve_left hpending) hs
      refine hreturns _ hcalm rfl fun r hr => ?_
      obtain rfl := mem_waitReturns hr
      exact ⟨as, b, bs, hbefore, hafter, hwanted, rfl⟩
    next hpending =>
      split at hs
      next hzero =>
        obtain ⟨rfl, rfl⟩ := Prod.mk.inj (Option.some.inj hs)
        refine hreturns _ .refl rfl fun r hr => ?_
        obtain rfl := mem_waitReturns hr
        exact .inl ⟨decide_eq_true hzero, decide_eq_false hpending⟩
      next =>
        obtain ⟨rfl, rfl⟩ := Prod.mk.inj (Option.some.inj hs)
        exact hi.enters hcalls hlists

/-- The timer of a thread expires. -/
theorem timeout_keeps (hi : WaitsInv x) (hok : KeepsWait x (.sig (.timeout t)))
    (hs : sigStep x.state (.timeout t) = some (s', e)) :
    WaitsInv ⟨s', Function.update x.calls t ((x.calls t).map fun call =>
      { call with expired := call.expired || !decide (x.state.Arrived t call.set) }), x.returns⟩ := by
  obtain ⟨q, hq⟩ := hi.lists
  have hlists := sigStep_inv hq hok.signals hs
  obtain ⟨-, hs⟩ := Option.ite_none_right_eq_some.mp hs
  obtain ⟨rfl, -⟩ := Prod.mk.inj (Option.some.inj hs)
  refine ⟨hlists, fun u => ⟨(hi.frames u).tail, fun h => ?_⟩, fun u => ?_, fun u c hc hready herror => ?_,
    hi.honest⟩
  · have hflag := (hi.frames u).flag h
    by_cases hu : u = t
    · subst hu
      rw [SigState.set_self]
      exact hflag
    · rw [SigState.set_ne hu]
      exact hflag
  · have hcall := hi.calls u
    show (Function.update x.calls t _ u).map _ = x.state.waitingFor u
    by_cases hu : u = t
    · subst hu
      rw [Function.update_self, Option.map_map]
      exact hcall
    · rw [Function.update_of_ne hu]
      exact hcall
  · change Function.update x.calls t _ u = some c at hc
    by_cases hu : u = t
    · subst hu
      rw [Function.update_self] at hc
      obtain ⟨call, hcall, rfl⟩ := Option.map_eq_some_iff.mp hc
      have hset : call.set ∈ x.state.waitingFor u := by
        rw [← hi.calls u, hcall]
        rfl
      have hnot := hok call.set hset
      show (call.expired || !decide (x.state.Arrived u call.set)) = true
      rw [decide_eq_false hnot, Bool.not_false, Bool.or_true]
    · rw [Function.update_of_ne hu] at hc
      rw [SigState.set_ne hu] at hready herror
      exact hi.error u c hc hready herror

theorem sigWaitStep_inv {a : SigWaitAction} (hi : WaitsInv x) (hok : KeepsWait x a)
    (hs : sigWaitStep x a = some x') : WaitsInv x' := by
  obtain ⟨q, hq⟩ := hi.lists
  cases a with
  | errno t err =>
    obtain ⟨hcalls, hs⟩ := Option.ite_none_right_eq_some.mp hs
    obtain rfl := Option.some.inj hs
    exact hi.calm ⟨q, (set_sigSame rfl rfl).inv hq⟩
      (set_calm_outside (Calls.waitingFor hcalls) fun _ => rfl)
  | sig a =>
    obtain ⟨r, hr, rfl⟩ := Option.map_eq_some_iff.mp hs
    obtain ⟨s', e⟩ := r
    have hlists := sigStep_inv hq hok.signals hr
    cases a with
    | wait t set timeout =>
      obtain ⟨hcalls, hr⟩ := Option.ite_none_right_eq_some.mp hr
      exact rtSignalWait_keeps hi hcalls hok hr
    | woken t =>
      obtain ⟨hready, hr⟩ := Option.ite_none_right_eq_some.mp hr
      exact waitWoken_keeps hi hok hr hready
    | timeout t => exact timeout_keeps hi hok hr
    | resume t =>
      obtain ⟨rfl, -⟩ := Prod.mk.inj (Option.some.inj hr)
      exact hi.calm hlists (resume_calm hok)
    | block t timed =>
      obtain ⟨hcalls, hr⟩ := Option.ite_none_right_eq_some.mp hr
      obtain ⟨rfl, -⟩ := Prod.mk.inj (Option.some.inj hr)
      have hset : Calm x.state (x.state.set t fun y => { y with stat := .suspend, timerActive := timed }) :=
        set_calm_outside (Calls.waitingFor hcalls) fun _ => rfl
      exact hi.calm hlists hset
    | install t signo handler =>
      obtain ⟨-, hr⟩ := Option.ite_none_right_eq_some.mp hr
      obtain ⟨rfl, -⟩ := Prod.mk.inj (Option.some.inj hr)
      refine hi.calm hlists ?_
      unfold SigState.rtSignalInstall
      split
      · have hset : Calm x.state (x.state.set t fun y => { y with sigVectors := some (Function.update
            ((x.state.thread t).sigVectors.getD SigState.rtThreadAllocSig) signo handler) }) :=
          set_calm fun _ => ⟨rfl, rfl, rfl⟩
        exact hset
      · exact .refl
    | mask t signo =>
      obtain ⟨-, hr⟩ := Option.ite_none_right_eq_some.mp hr
      obtain ⟨rfl, -⟩ := Prod.mk.inj (Option.some.inj hr)
      have hset : Calm x.state (x.state.rtSignalMask t signo) := set_calm fun _ => ⟨rfl, rfl, rfl⟩
      exact hi.calm hlists hset
    | unmask t signo =>
      obtain ⟨-, hr⟩ := Option.ite_none_right_eq_some.mp hr
      obtain ⟨rfl, -⟩ := Prod.mk.inj (Option.some.inj hr)
      have hset : Calm x.state (x.state.rtSignalUnmask t signo) := set_calm fun _ => ⟨rfl, rfl, rfl⟩
      exact hi.calm hlists hset
    | kill t signo =>
      obtain ⟨rfl, -⟩ := Prod.mk.inj (Option.some.inj hr)
      refine hi.calm hlists ?_
      unfold SigState.rtThreadKill
      split
      · split
        · exact .of_same rfl fun _ => ⟨rfl, rfl, rfl⟩
        · have hset : Calm x.state (x.state.set t fun y =>
              { y with sigPending := y.sigPending ||| sigMask signo }) := set_calm fun _ => ⟨rfl, rfl, rfl⟩
          exact ⟨hset.frames, hset.sigWait, hset.error⟩
      · exact .refl
    | killNext f =>
      obtain ⟨hf, hr⟩ := Option.ite_none_right_eq_some.mp hr
      obtain ⟨s1, hs1, heq⟩ := Option.map_eq_some_iff.mp hr
      obtain ⟨rfl, -⟩ := Prod.mk.inj heq
      refine hi.calm hlists (killNext_calm ?_ hs1)
      rintro t rfl
      exact hok
    | take t =>
      obtain ⟨-, hr⟩ := Option.ite_none_right_eq_some.mp hr
      obtain ⟨s1, hs1, heq⟩ := Option.map_eq_some_iff.mp hr
      obtain ⟨rfl, -⟩ := Prod.mk.inj heq
      obtain ⟨⟨-, hflag, -⟩, hs1⟩ := Option.ite_none_right_eq_some.mp hs1
      obtain rfl := Option.some.inj hs1
      have hnone : x.state.waitingFor t = none := by
        by_contra hne
        rw [(hi.frames t).flag hne] at hflag
        exact absurd hflag (by decide)
      refine hi.outside hnone hlists (fun u hu => ⟨Function.update_of_ne hu .., Function.update_of_ne hu ..⟩) ?_
      intro f hf set
      rw [show SigState.frames _ t = _ from Function.update_self ..] at hf
      rcases List.mem_cons.mp hf with rfl | hf
      · exact SigFrame.noConfusion
      · exact (hi.frames t).noWait hnone f hf set
    | invoke t =>
      obtain ⟨-, hr⟩ := Option.ite_none_right_eq_some.mp hr
      unfold SigState.handleInvoke at hr
      split at hr
      next _ signo node handler fs hframes =>
        obtain ⟨rfl, -⟩ := Prod.mk.inj (Option.some.inj hr)
        have hnone : x.state.waitingFor t = none := by
          unfold SigState.waitingFor
          rw [hframes]
        have hother := (hi.frames t).noWait hnone
        rw [hframes] at hother
        refine hi.outside hnone hlists (fun u hu => ⟨Function.update_of_ne hu .., rfl⟩) ?_
        intro f hf set
        rw [show SigState.frames _ t = _ from Function.update_self ..] at hf
        rcases List.mem_cons.mp hf with rfl | hf
        · exact SigFrame.noConfusion
        · exact hother f (List.mem_cons_of_mem _ hf) set
      next => simp at hr
    | finish t =>
      obtain ⟨-, hr⟩ := Option.ite_none_right_eq_some.mp hr
      obtain ⟨s1, hs1, heq⟩ := Option.map_eq_some_iff.mp hr
      obtain ⟨rfl, -⟩ := Prod.mk.inj heq
      unfold SigState.handleFinish at hs1
      split at hs1
      next _ signo node fs hframes =>
        obtain rfl := Option.some.inj hs1
        have hnone : x.state.waitingFor t = none := by
          unfold SigState.waitingFor
          rw [hframes]
        have hother := (hi.frames t).noWait hnone
        rw [hframes] at hother
        refine hi.outside hnone hlists (fun u hu => ⟨Function.update_of_ne hu .., ?_⟩) ?_
        · exact (Function.update_of_ne hu ..).trans (Function.update_of_ne hu ..)
        · intro f hf set
          rw [show SigState.frames _ t = _ from Function.update_self ..] at hf
          exact hother f (List.mem_cons_of_mem _ hf) set
      next => simp at hs1

/-- The signals of created threads, with no call of `rt_signal_wait` yet. -/
structure SigWaitStart (x : SigWaitRun) : Prop where
  signals : SigStart x.state
  calls : x.calls = fun _ => none
  returns : x.returns = []

abbrev SigWaitReach : SigWaitRun → Prop := Reach sigWaitStep KeepsWait SigWaitStart

theorem SigWaitStart.inv (h : SigWaitStart x) : WaitsInv x := by
  have hnone : ∀ t, x.state.waitingFor t = none := by
    intro t
    unfold SigState.waitingFor
    rw [h.signals.frames t]
  refine ⟨⟨_, sigStart_inv h.signals⟩, fun t => ⟨?_, fun ht => absurd (hnone t) ht⟩, fun t => ?_,
    fun t c hc => ?_, ?_⟩
  · rw [h.signals.frames t]
    exact fun f hf => absurd hf List.not_mem_nil
  · rw [hnone, h.calls]
    rfl
  · rw [h.calls] at hc
    exact absurd hc (by simp)
  · rw [h.returns]
    exact fun r hr => absurd hr List.not_mem_nil

/-- In every run of allowed steps each return of `rt_signal_wait` is honest. -/
theorem rtSignalWait_honest (hr : SigWaitReach x) : ∀ r ∈ x.returns, r.Honest :=
  (hr.invariant (fun _ h => h.inv) fun _ _ _ hi hok hs => sigWaitStep_inv hi hok hs).honest

end

/-- Signal 10 is queued, and taken by `rt_signal_wait` from its only node; before, `rt_mutex_take`
has left a timeout in `thread->error`. -/
def waitQueuedRun : List SigWaitAction :=
  .errno 0 .etimeout :: (killCall 0 10 536870916).map .sig ++ [.sig (.wait 0 (sigMask 10) 5)]

def quietWaits : SigWaitRun := ⟨quietSignals, fun _ => none, []⟩

theorem quietWaits_start : SigWaitStart quietWaits := ⟨quietSignals_start, rfl, rfl⟩

theorem waitQueued_some : (runFrom sigWaitStep waitQueuedRun quietWaits).isSome = true := by
  decide +kernel

def waitQueuedState : SigWaitRun := (runFrom sigWaitStep waitQueuedRun quietWaits).get waitQueued_some

theorem rtSignalWait_honest_queued :
    waitQueuedState.returns.length = 1 ∧ ∀ r ∈ waitQueuedState.returns, r.Honest := by
  have hrun : runFrom sigWaitStep waitQueuedRun quietWaits = some waitQueuedState :=
    (Option.some_get _).symm
  exact ⟨by decide +kernel,
    rtSignalWait_honest (Reach.runFrom (by decide +kernel) (.start quietWaits_start) hrun)⟩

/-- After an earlier timeout, a thread waits for signal 10 forever and is woken by that signal. -/
def oldTimeoutRun : List SigWaitAction :=
  [.errno 0 .etimeout, .sig (.unmask 0 10), .sig (.wait 0 (sigMask 10) (-1))] ++
    (killCall 0 10 536870916).map .sig ++ [.sig (.killNext (.wake 0)), .sig (.woken 0)]

theorem oldTimeout_some : (runFrom sigWaitStep oldTimeoutRun quietWaits).isSome = true := by
  decide +kernel

def oldTimeoutState : SigWaitRun := (runFrom sigWaitStep oldTimeoutRun quietWaits).get oldTimeout_some

/-- The call returns `-RT_ETIMEOUT` with no timer armed and its signal in the queue. -/
theorem oldTimeout_dishonest : ¬ ∀ x, Reach sigWaitStep (fun _ _ => True) SigWaitStart x →
    ∀ r ∈ x.returns, r.Honest := by
  intro hclaim
  have hrun : runFrom sigWaitStep oldTimeoutRun quietWaits = some oldTimeoutState :=
    (Option.some_get _).symm
  have hhonest := hclaim oldTimeoutState
    (Reach.runFrom (runMeets_of_forall fun _ _ _ => trivial) (.start quietWaits_start) hrun)
  have hreturned : ∃ r ∈ oldTimeoutState.returns,
      r.result = .etimeout ∧ r.zeroTimeout = false ∧ r.expired = false := by
    decide +kernel
  obtain ⟨r, hr, hresult, hzero, hexpired⟩ := hreturned
  have hcase := hhonest r hr
  rw [SigWaitReturn.Honest, hresult] at hcase
  rcases hcase with ⟨htrue, -⟩ | htrue
  · rw [hzero] at htrue
    exact absurd htrue (by decide)
  · rw [hexpired] at htrue
    exact absurd htrue (by decide)

end RTThread
