import RTThread.IpcLists
import RTThread.Runs

namespace RTThread

/-- Where a thread stands inside `rt_completion_wait`: in `rt_schedule()`, or back from it with its
error read and about to disable interrupts. -/
inductive CompletionFrame where
  | outside
  | waiting (c : ObjectId)
  | woken (c : ObjectId) (result : Err)
deriving DecidableEq

/-- `flag c` says that completion `c` is `RT_COMPLETED`; `testing c` counts the calls of
`rt_completion_done` that found it not completed and have not disabled interrupts yet. -/
structure CompletionState extends Threads where
  flag : ObjectId → Bool
  frame : ThreadId → CompletionFrame
  testing : ObjectId → Nat

/-- A call of `rt_completion_done` finds the flag uncompleted; it sets it, `already` if it was set
before; a wait returns, `cleared` if it turned a completed flag to `RT_UNCOMPLETED`. -/
inductive CompletionEvent where
  | found (c : ObjectId)
  | completed (c : ObjectId) (already : Bool)
  | returned (c : ObjectId) (result : Err) (cleared : Bool)
deriving DecidableEq

def CompletionState.setFlag (s : CompletionState) (c : ObjectId) (b : Bool) : CompletionState :=
  { s with flag := Function.update s.flag c b }

def CompletionState.setFrame (s : CompletionState) (t : ThreadId) (f : CompletionFrame) :
    CompletionState :=
  { s with frame := Function.update s.frame t f }

def CompletionState.setTesting (s : CompletionState) (c : ObjectId) (n : Nat) : CompletionState :=
  { s with testing := Function.update s.testing c n }

/-- `rt_completion_wait` up to `rt_schedule()` or its return; `none` where its assertion fails. -/
def rtCompletionWait (s : CompletionState) (c : ObjectId) (t : ThreadId) (timeout : Int) :
    Option (CompletionState × List CompletionEvent) :=
  if s.flag c then some (s.setFlag c false, [.returned c .eok true])
  else if s.waiters c ≠ [] then none
  else if timeout = 0 then some (s, [.returned c .etimeout false])
  else
    some ({ s with
      toThreads := suspendFor (setError s.toThreads t .eok) c t .fifo timeout }.setFrame t
      (.waiting c), [])

/-- `rt_schedule()` has returned and `thread->error` is read. -/
def completionWoken (s : CompletionState) (t : ThreadId) :
    Option (CompletionState × List CompletionEvent) :=
  match s.frame t with
  | .waiting c => some (s.setFrame t (.woken c (s.thread t).error), [])
  | _ => none

/-- The end of `rt_completion_wait`, with interrupts disabled again. -/
def completionClean (s : CompletionState) (t : ThreadId) :
    Option (CompletionState × List CompletionEvent) :=
  match s.frame t with
  | .woken c result =>
    some ((s.setFlag c false).setFrame t .outside, [.returned c result (s.flag c)])
  | _ => none

/-- `rt_completion_done` up to its test of the flag. -/
def rtCompletionDone (s : CompletionState) (c : ObjectId) :
    CompletionState × List CompletionEvent :=
  if s.flag c then (s, []) else (s.setTesting c (s.testing c + 1), [.found c])

/-- The rest of `rt_completion_done`, with interrupts disabled. -/
def completionSet (s : CompletionState) (c : ObjectId) :
    Option (CompletionState × List CompletionEvent) :=
  if s.testing c = 0 then none
  else
    let s' := (s.setTesting c (s.testing c - 1)).setFlag c true
    match s.waiters c with
    | [] => some (s', [.completed c (s.flag c)])
    | n :: _ =>
      some ({ s' with toThreads := rtThreadResume s.toThreads n }, [.completed c (s.flag c)])

inductive CompletionAction where
  | wait (t : ThreadId) (c : ObjectId) (timeout : Int)
  | woken (t : ThreadId)
  | clean (t : ThreadId)
  | done (c : ObjectId)
  | set (c : ObjectId)
  | timeout (t : ThreadId)

/-- A thread runs when it is ready; `rt_completion_done` is called by threads and interrupts. -/
def completionStep (s : CompletionState) :
    CompletionAction → Option (CompletionState × List CompletionEvent)
  | .wait t c timeout =>
    if (s.thread t).stat = .ready ∧ s.frame t = .outside then rtCompletionWait s c t timeout
    else none
  | .woken t => if (s.thread t).stat = .ready then completionWoken s t else none
  | .clean t => if (s.thread t).stat = .ready then completionClean s t else none
  | .done c => some (rtCompletionDone s c)
  | .set c => completionSet s c
  | .timeout t =>
    (rtThreadTimeout s.toThreads t).map fun threads => ({ s with toThreads := threads }, [])

/-- A step and all that has happened so far, the last event first. -/
def completionLogStep (x : CompletionState × List CompletionEvent) (a : CompletionAction) :
    Option (CompletionState × List CompletionEvent) :=
  (completionStep x.1 a).map fun (s, e) => (s, e ++ x.2)

/-- Completions after `rt_completion_init`. -/
structure CompletionStart (s : CompletionState) : Prop where
  flag : ∀ c, s.flag c = false
  waiters : ∀ c, s.waiters c = []
  frame : ∀ t, s.frame t = .outside
  testing : ∀ c, s.testing c = 0

/-- Each completion has one waiting thread. -/
def OneWaiter (waiter : ObjectId → ThreadId) : CompletionAction → Prop
  | .wait t c _ => t = waiter c
  | _ => True

/-- The flag is not set again before it is cleared, and a wait that timed out finds it clear. -/
def KeepsCompletion (s : CompletionState) : CompletionAction → Prop
  | .set c => s.flag c = false
  | .clean t =>
    match s.frame t with
    | .woken c .etimeout => s.flag c = false
    | _ => True
  | _ => True

def founds (c : ObjectId) (log : List CompletionEvent) : Nat := log.count (.found c)

/-- The waits that returned `RT_EOK` and cleared a completed flag. -/
def consumptions (c : ObjectId) (log : List CompletionEvent) : Nat :=
  log.count (.returned c .eok true)

/-- Each call of `rt_completion_done` that found the flag uncompleted has been consumed, or its
completion is still there or under way; and waits that clear a completion are those that return
`RT_EOK`. -/
structure Consumed (x : CompletionState × List CompletionEvent) (c : ObjectId) : Prop where
  account : founds c x.2 = consumptions c x.2 + (x.1.flag c).toNat + x.1.testing c
  honest : ∀ result cleared, .returned c result cleared ∈ x.2 → (cleared = true ↔ result = .eok)

/-- Completions that were set over another one, or cleared by a wait that had timed out. -/
def lostCompletions (c : ObjectId) (log : List CompletionEvent) : Nat :=
  log.count (.completed c true) + log.count (.returned c .etimeout true)

/-- What holds of the waiting threads in every run. -/
structure CompletionOk (waiter : ObjectId → ThreadId) (s : CompletionState) : Prop where
  wait : WaitOk s.toThreads
  listed : ∀ c t, t ∈ s.waiters c →
    s.frame t = .waiting c ∧ s.flag c = false ∧ (s.thread t).error = .eok
  waiting : ∀ t c, s.frame t = .waiting c → t = waiter c ∧ (t ∈ s.waiters c ∨
    (s.thread t).stat = .ready ∧
      ((s.thread t).error = .eok ∧ s.flag c = true ∨ (s.thread t).error = .etimeout))
  woken : ∀ t c result, s.frame t = .woken c result → t = waiter c ∧
    (result = .eok ∧ s.flag c = true ∨ result = .etimeout)

/-- The waiting thread of `c` is not inside a wait for it. -/
def NotInWait (s : CompletionState) (c : ObjectId) : Prop :=
  ∀ t, s.frame t ≠ .waiting c ∧ ∀ result, s.frame t ≠ .woken c result

section
variable {waiter : ObjectId → ThreadId} {s s' : CompletionState} {c d : ObjectId} {t u : ThreadId}
  {timeout : Int} {b : Bool} {f : CompletionFrame} {e : List CompletionEvent} {result : Err}
  {a : CompletionAction} {n : Nat}

@[simp] theorem completionFlag_self : (s.setFlag c b).flag c = b := Function.update_self ..

@[simp] theorem completionFlag_ne (h : d ≠ c) : (s.setFlag c b).flag d = s.flag d :=
  Function.update_of_ne h ..

@[simp] theorem completionFrame_self : (s.setFrame t f).frame t = f := Function.update_self ..

@[simp] theorem completionFrame_ne (h : u ≠ t) : (s.setFrame t f).frame u = s.frame u :=
  Function.update_of_ne h ..

theorem CompletionOk.notInWait (h : CompletionOk waiter s) (ht : t = waiter c)
    (ho : s.frame t = .outside) : NotInWait s c := by
  refine fun u => ⟨fun hu => ?_, fun result hu => ?_⟩
  · have hut : u = t := (h.waiting u c hu).1.trans ht.symm
    rw [hut, ho] at hu
    cases hu
  · have hut : u = t := (h.woken u c result hu).1.trans ht.symm
    rw [hut, ho] at hu
    cases hu

/-- The flag of a completion nobody is waiting for can change. -/
theorem CompletionOk.setFlag (h : CompletionOk waiter s) (hc : NotInWait s c) :
    CompletionOk waiter (s.setFlag c b) := by
  refine ⟨h.wait, fun d t ht => ?_, fun t d hf => ?_, fun t d result hf => ?_⟩
  · obtain ⟨hf, hflag, he⟩ := h.listed d t ht
    have hd : d ≠ c := by
      rintro rfl
      exact (hc t).1 hf
    exact ⟨hf, (completionFlag_ne hd).trans hflag, he⟩
  · have hd : d ≠ c := by
      rintro rfl
      exact (hc t).1 hf
    rw [completionFlag_ne hd]
    exact h.waiting t d hf
  · have hd : d ≠ c := by
      rintro rfl
      exact (hc t).2 result hf
    rw [completionFlag_ne hd]
    exact h.woken t d result hf

theorem CompletionOk.setTesting (h : CompletionOk waiter s) :
    CompletionOk waiter (s.setTesting c n) := ⟨h.wait, h.listed, h.waiting, h.woken⟩

/-- A thread that is on no list enters a frame that fits its state. -/
theorem CompletionOk.setFrame (h : CompletionOk waiter s) (hnot : ∀ c, t ∉ s.waiters c)
    (hw : ∀ c, f ≠ .waiting c)
    (hwoken : ∀ c result, f = .woken c result → t = waiter c ∧
      (result = .eok ∧ s.flag c = true ∨ result = .etimeout)) :
    CompletionOk waiter (s.setFrame t f) := by
  refine ⟨h.wait, fun d u hu => ?_, fun u d hf => ?_, fun u d result hf => ?_⟩
  · have hut : u ≠ t := ne_of_mem_of_not_mem hu (hnot d)
    rw [completionFrame_ne hut]
    exact h.listed d u hu
  · by_cases hut : u = t
    · subst hut
      exact absurd (completionFrame_self.symm.trans hf) (hw d)
    · exact h.waiting u d ((completionFrame_ne hut).symm.trans hf)
  · by_cases hut : u = t
    · subst hut
      exact hwoken d result (completionFrame_self.symm.trans hf)
    · exact h.woken u d result ((completionFrame_ne hut).symm.trans hf)

/-- The waiting thread of `c` falls asleep. -/
theorem suspend_ok (h : CompletionOk waiter s) (ht : t = waiter c) (hflag : s.flag c = false)
    (hready : (s.thread t).stat = .ready) (ho : s.frame t = .outside) :
    CompletionOk waiter ({ s with
      toThreads := suspendFor (setError s.toThreads t .eok) c t .fifo timeout }.setFrame t
      (.waiting c)) := by
  have hready' : ((setError s.toThreads t .eok).thread t).stat = .ready := by
    simpa [setError] using hready
  have hnot : ∀ r, t ∉ (setError s.toThreads t .eok).waiters r := fun r => h.wait.not_mem hready
  obtain ⟨-, hthread⟩ := suspendFor_spec c .fifo timeout hnot hready'
  have hmem : ∀ u r, u ∈ (suspendFor (setError s.toThreads t .eok) c t .fifo timeout).waiters r ↔
      u ∈ s.waiters r ∨ u = t ∧ r = c := fun u r => mem_suspendFor hnot hready'
  have hother : ∀ u, u ≠ t →
      (suspendFor (setError s.toThreads t .eok) c t .fifo timeout).thread u = s.thread u :=
    fun u hu => by rw [hthread, if_neg hu, setError, Threads.set_ne hu]
  refine ⟨suspendFor_waitOk (h.wait.set rfl) hready', fun r u hu => ?_, fun u r hf => ?_,
    fun u r result hf => ?_⟩
  · rcases (hmem u r).mp hu with hu | ⟨rfl, rfl⟩
    · have hut : u ≠ t := ne_of_mem_of_not_mem hu (hnot r)
      obtain ⟨hf, hfl, he⟩ := h.listed r u hu
      exact ⟨(completionFrame_ne hut).trans hf, hfl, (congrArg Thread.error (hother u hut)).trans he⟩
    · refine ⟨completionFrame_self, hflag, (congrArg Thread.error (hthread u)).trans ?_⟩
      simp [setError]
  · by_cases hut : u = t
    · subst hut
      obtain rfl : c = r := by injection completionFrame_self.symm.trans hf
      exact ⟨ht, .inl ((hmem u c).mpr (.inr ⟨rfl, rfl⟩))⟩
    · obtain ⟨hw, hrest⟩ := h.waiting u r ((completionFrame_ne hut).symm.trans hf)
      refine ⟨hw, hrest.imp (fun hl => (hmem u r).mpr (.inl hl)) fun hr => ?_⟩
      have heq := hother u hut
      exact ⟨(congrArg Thread.stat heq).trans hr.1, by
        simpa only [CompletionState.setFrame, heq] using hr.2⟩
  · by_cases hut : u = t
    · subst hut
      cases completionFrame_self.symm.trans hf
    · exact h.woken u r result ((completionFrame_ne hut).symm.trans hf)

/-- A suspended thread is made ready, because its timer expired or its completion is there. -/
theorem CompletionOk.resumed (h : CompletionOk waiter s) (hsusp : (s.thread t).stat = .suspend)
    (hr : Resumed s.toThreads s'.toThreads t) (hframe : s'.frame = s.frame)
    (hset : ∀ d, s.flag d = true → s'.flag d = true)
    (hlisted : ∀ d u, u ∈ s'.waiters d → s'.flag d = false)
    (hself : ∀ d, t ∈ s.waiters d → (s'.thread t).error = .eok ∧ s'.flag d = true ∨
      (s'.thread t).error = .etimeout) : CompletionOk waiter s' := by
  refine ⟨hr.waitOk h.wait, fun d u hu => ?_, fun u d hf => ?_, fun u d result hf => ?_⟩
  · obtain ⟨hmem, hut⟩ := hr.mem.mp hu
    obtain ⟨hf, -, he⟩ := h.listed d u hmem
    exact ⟨hframe ▸ hf, hlisted d u hu, (congrArg Thread.error (hr.other u hut)).trans he⟩
  · rw [hframe] at hf
    obtain ⟨hw, hl | ⟨hready, hresult⟩⟩ := h.waiting u d hf
    · by_cases hut : u = t
      · subst hut
        exact ⟨hw, .inr ⟨hr.stat, hself d hl⟩⟩
      · exact ⟨hw, .inl (hr.mem.mpr ⟨hl, hut⟩)⟩
    · have hut : u ≠ t := by
        rintro rfl
        rw [hsusp] at hready
        cases hready
      rw [hr.other u hut]
      exact ⟨hw, .inr ⟨hready, hresult.imp_left fun hok => ⟨hok.1, hset d hok.2⟩⟩⟩
  · rw [hframe] at hf
    obtain ⟨hw, hresult⟩ := h.woken u d result hf
    exact ⟨hw, hresult.imp_left fun hok => ⟨hok.1, hset d hok.2⟩⟩

/-- Completing what nobody is suspended for. -/
theorem CompletionOk.setTrue (h : CompletionOk waiter s) (hc : s.waiters c = []) :
    CompletionOk waiter (s.setFlag c true) := by
  have hset : ∀ d, s.flag d = true → (s.setFlag c true).flag d = true := fun d hd => by
    by_cases hdc : d = c
    · rw [hdc, completionFlag_self]
    · rw [completionFlag_ne hdc, hd]
  refine ⟨h.wait, fun d t ht => ?_, fun t d hf => ?_, fun t d result hf => ?_⟩
  · obtain ⟨hf, hflag, he⟩ := h.listed d t ht
    have hd : d ≠ c := by
      rintro rfl
      have hmem : t ∈ s.waiters d := ht
      simp [hc] at hmem
    exact ⟨hf, (completionFlag_ne hd).trans hflag, he⟩
  · obtain ⟨hw, hrest⟩ := h.waiting t d hf
    exact ⟨hw, hrest.imp_right fun hr => ⟨hr.1, hr.2.imp_left fun hok => ⟨hok.1, hset d hok.2⟩⟩⟩
  · obtain ⟨hw, hresult⟩ := h.woken t d result hf
    exact ⟨hw, hresult.imp_left fun hok => ⟨hok.1, hset d hok.2⟩⟩

/-- What a step that logs `e` does to the account of completion `d`. -/
def Balanced (s s' : CompletionState) (e : List CompletionEvent) (d : ObjectId) : Prop :=
  founds d e + (s.flag d).toNat + s.testing d =
    consumptions d e + (s'.flag d).toNat + s'.testing d + lostCompletions d e

/-- The waits of `e` returned `RT_EOK` for a completion, or timed out. -/
def Answered (e : List CompletionEvent) : Prop :=
  ∀ d result cleared, .returned d result cleared ∈ e →
    result = .eok ∧ cleared = true ∨ result = .etimeout

theorem answered_singleton : Answered [.returned c result b] ↔
    (result = .eok ∧ b = true ∨ result = .etimeout) := by
  refine ⟨fun h => h c result b List.mem_cons_self, fun h d result' cleared he => ?_⟩
  obtain ⟨-, rfl, rfl⟩ : d = c ∧ result' = result ∧ cleared = b := by simpa using he
  exact h

theorem rtCompletionWait_ok (h : CompletionOk waiter s) (ht : t = waiter c)
    (hready : (s.thread t).stat = .ready) (ho : s.frame t = .outside)
    (hs : rtCompletionWait s c t timeout = some (s', e)) :
    CompletionOk waiter s' ∧ Answered e ∧ ∀ d, Balanced s s' e d := by
  unfold rtCompletionWait at hs
  split at hs
  next hflag =>
    obtain ⟨rfl, rfl⟩ := Prod.mk.inj (Option.some.inj hs)
    refine ⟨h.setFlag (h.notInWait ht ho), answered_singleton.mpr (.inl ⟨rfl, rfl⟩), fun d => ?_⟩
    by_cases hd : d = c
    · subst hd
      simp [Balanced, founds, consumptions, lostCompletions, hflag, CompletionState.setFlag]
    · simp [Balanced, founds, consumptions, lostCompletions, hd, Ne.symm hd,
        CompletionState.setFlag]
  next hflag =>
    split at hs
    next => cases hs
    next =>
      split at hs
      next =>
        obtain ⟨rfl, rfl⟩ := Prod.mk.inj (Option.some.inj hs)
        refine ⟨h, answered_singleton.mpr (.inr rfl), fun d => ?_⟩
        simp [Balanced, founds, consumptions, lostCompletions]
      next =>
        obtain ⟨rfl, rfl⟩ := Prod.mk.inj (Option.some.inj hs)
        refine ⟨suspend_ok h ht (Bool.not_eq_true _ ▸ hflag) hready ho, by simp [Answered],
          fun d => ?_⟩
        simp [Balanced, founds, consumptions, lostCompletions, CompletionState.setFrame]

theorem completionWoken_ok (h : CompletionOk waiter s) (hready : (s.thread t).stat = .ready)
    (hs : completionWoken s t = some (s', e)) :
    CompletionOk waiter s' ∧ Answered e ∧ ∀ d, Balanced s s' e d := by
  unfold completionWoken at hs
  split at hs
  next c hf =>
    obtain ⟨rfl, rfl⟩ := Prod.mk.inj (Option.some.inj hs)
    have hnot : ∀ d, t ∉ s.waiters d := fun d => h.wait.not_mem hready
    obtain ⟨hw, hl | ⟨-, hresult⟩⟩ := h.waiting t c hf
    · exact absurd hl (hnot c)
    · refine ⟨h.setFrame hnot (by simp) fun d result hd => ?_, by simp [Answered], fun d => rfl⟩
      obtain ⟨rfl, rfl⟩ : c = d ∧ (s.thread t).error = result := by injection hd with h1 h2; exact ⟨h1, h2⟩
      exact ⟨hw, hresult⟩
  next => cases hs

theorem completionClean_ok (h : CompletionOk waiter s) (hready : (s.thread t).stat = .ready)
    (hs : completionClean s t = some (s', e)) :
    CompletionOk waiter s' ∧ Answered e ∧ ∀ d, Balanced s s' e d := by
  unfold completionClean at hs
  split at hs
  next c result hf =>
    obtain ⟨rfl, rfl⟩ := Prod.mk.inj (Option.some.inj hs)
    have hnot : ∀ d, t ∉ s.waiters d := fun d => h.wait.not_mem hready
    obtain ⟨hw, hresult⟩ := h.woken t c result hf
    have hout := h.setFrame (f := .outside) hnot (by simp) (by simp)
    refine ⟨hout.setFlag (hout.notInWait hw completionFrame_self), ?_, fun d => ?_⟩
    · exact answered_singleton.mpr (hresult.imp_left fun hok => hok)
    · by_cases hd : d = c
      · subst hd
        rcases hresult with ⟨rfl, hflag⟩ | rfl
        · simp [Balanced, founds, consumptions, lostCompletions, hflag, CompletionState.setFlag,
            CompletionState.setFrame]
        · cases hflag : s.flag d
          · simp [Balanced, founds, consumptions, lostCompletions, hflag, CompletionState.setFlag,
              CompletionState.setFrame]
          · simp [Balanced, founds, consumptions, lostCompletions, hflag, CompletionState.setFlag,
              CompletionState.setFrame]
            omega
      · simp [Balanced, founds, consumptions, lostCompletions, hd, Ne.symm hd,
          CompletionState.setFlag, CompletionState.setFrame]
  next => cases hs

theorem rtCompletionDone_ok (h : CompletionOk waiter s) (hs : rtCompletionDone s c = (s', e)) :
    CompletionOk waiter s' ∧ Answered e ∧ ∀ d, Balanced s s' e d := by
  unfold rtCompletionDone at hs
  split at hs
  next =>
    obtain ⟨rfl, rfl⟩ := Prod.mk.inj hs
    exact ⟨h, by simp [Answered], fun d => rfl⟩
  next =>
    obtain ⟨rfl, rfl⟩ := Prod.mk.inj hs
    refine ⟨h.setTesting, by simp [Answered], fun d => ?_⟩
    by_cases hd : d = c
    · subst hd
      simp [Balanced, founds, consumptions, lostCompletions, CompletionState.setTesting]
      omega
    · simp [Balanced, founds, consumptions, lostCompletions, hd, Ne.symm hd,
        CompletionState.setTesting]

theorem completionSet_ok (h : CompletionOk waiter s) (hs : completionSet s c = some (s', e)) :
    CompletionOk waiter s' ∧ Answered e ∧ ∀ d, Balanced s s' e d := by
  unfold completionSet at hs
  split at hs
  next => cases hs
  next htesting =>
    have hbalance : ∀ s'' : CompletionState, s''.flag = Function.update s.flag c true →
        s''.testing = Function.update s.testing c (s.testing c - 1) →
        ∀ d, Balanced s s'' [.completed c (s.flag c)] d := by
      intro s'' hflag htest d
      by_cases hd : d = c
      · subst hd
        cases hf : s.flag d <;>
        simp [Balanced, founds, consumptions, lostCompletions, hflag, htest, hf] <;> omega
      · simp [Balanced, founds, consumptions, lostCompletions, hflag, htest, hd, Ne.symm hd]
    split at hs
    next hnil =>
      obtain ⟨rfl, rfl⟩ := Prod.mk.inj (Option.some.inj hs)
      exact ⟨h.setTesting.setTrue hnil, by simp [Answered], hbalance _ rfl rfl⟩
    next n ns hcons =>
      obtain ⟨rfl, rfl⟩ := Prod.mk.inj (Option.some.inj hs)
      have hmem : n ∈ s.waiters c := by simp [hcons]
      have hsusp := h.wait.suspended n c hmem
      obtain ⟨hf, -, herror⟩ := h.listed c n hmem
      have hr := rtThreadResume_resumed hsusp
      refine ⟨h.resumed hsusp hr rfl (fun d hd => ?_) (fun d u hu => ?_) (fun d hd => .inl ⟨?_, ?_⟩),
        by simp [Answered], hbalance _ rfl rfl⟩
      · by_cases hdc : d = c
        · rw [hdc]
          exact completionFlag_self
        · exact (completionFlag_ne hdc).trans hd
      · obtain ⟨hu, hun⟩ := hr.mem.mp hu
        obtain ⟨hfu, hflag, -⟩ := h.listed d u hu
        have hdc : d ≠ c := by
          rintro rfl
          exact hun ((h.waiting u d hfu).1.trans (h.waiting n d hf).1.symm)
        exact (completionFlag_ne hdc).trans hflag
      · exact (congrArg Thread.error (rtThreadResume_thread hsusp)).trans herror
      · obtain rfl : c = d := h.wait.one n c d hmem hd
        exact completionFlag_self

theorem timeout_ok (h : CompletionOk waiter s) {threads : Threads}
    (hs : rtThreadTimeout s.toThreads t = some threads) :
    CompletionOk waiter { s with toThreads := threads } := by
  obtain ⟨hsusp, -, -, hself, -⟩ := rtThreadTimeout_spec hs
  have hr := rtThreadTimeout_resumed hs
  refine h.resumed hsusp hr rfl (fun _ hd => hd) (fun d u hu => ?_) (fun _ _ => .inr ?_)
  · exact (h.listed d u (hr.mem.mp hu).1).2.1
  · rw [hself]

theorem completionStep_ok (h : CompletionOk waiter s) (hone : OneWaiter waiter a)
    (hs : completionStep s a = some (s', e)) :
    CompletionOk waiter s' ∧ Answered e ∧ ∀ d, Balanced s s' e d := by
  cases a with
  | wait t c timeout =>
    obtain ⟨⟨hready, ho⟩, hs⟩ := Option.ite_none_right_eq_some.mp hs
    exact rtCompletionWait_ok h hone hready ho hs
  | woken t =>
    obtain ⟨hready, hs⟩ := Option.ite_none_right_eq_some.mp hs
    exact completionWoken_ok h hready hs
  | clean t =>
    obtain ⟨hready, hs⟩ := Option.ite_none_right_eq_some.mp hs
    exact completionClean_ok h hready hs
  | done c => exact rtCompletionDone_ok h (Option.some.inj hs)
  | set c => exact completionSet_ok h hs
  | timeout t =>
    obtain ⟨threads, hthreads, hs⟩ := Option.map_eq_some_iff.mp hs
    obtain ⟨rfl, rfl⟩ := Prod.mk.inj hs
    exact ⟨timeout_ok h hthreads, by simp [Answered], fun d => rfl⟩

theorem lost_set : (∀ d, lostCompletions d [.completed c b] = 0) ↔ b = false := by
  refine ⟨fun h => ?_, ?_⟩
  · have hc := h c
    cases b with
    | false => rfl
    | true => simp [lostCompletions] at hc
  · rintro rfl d
    simp [lostCompletions]

theorem lost_returned : (∀ d, lostCompletions d [.returned c result b] = 0) ↔
    (result = .etimeout → b = false) := by
  refine ⟨?_, fun h d => ?_⟩
  · rintro h rfl
    have hc := h c
    cases b with
    | false => rfl
    | true => simp [lostCompletions] at hc
  · have hne : CompletionEvent.returned c result b ≠ .returned d .etimeout true := by
      rintro he
      injection he with _ h2 h3
      simp [h3] at h
      exact h h2
    simp [lostCompletions, hne]

/-- The steps that break the rule are those that log a lost completion. -/
theorem keepsCompletion_iff (hs : completionStep s a = some (s', e)) :
    KeepsCompletion s a ↔ ∀ c, lostCompletions c e = 0 := by
  cases a with
  | wait t c timeout =>
    refine iff_of_true trivial fun d => ?_
    obtain ⟨-, hs⟩ := Option.ite_none_right_eq_some.mp hs
    unfold rtCompletionWait at hs
    split at hs
    · obtain ⟨-, rfl⟩ := Prod.mk.inj (Option.some.inj hs)
      exact lost_returned.mpr (by simp) d
    · obtain ⟨-, hs⟩ := Option.ite_none_left_eq_some.mp hs
      split at hs <;> obtain ⟨-, rfl⟩ := Prod.mk.inj (Option.some.inj hs)
      · exact lost_returned.mpr (by simp) d
      · rfl
  | woken t =>
    refine iff_of_true trivial fun d => ?_
    obtain ⟨-, hs⟩ := Option.ite_none_right_eq_some.mp hs
    unfold completionWoken at hs
    split at hs
    · obtain ⟨-, rfl⟩ := Prod.mk.inj (Option.some.inj hs)
      rfl
    · cases hs
  | clean t =>
    obtain ⟨-, hs⟩ := Option.ite_none_right_eq_some.mp hs
    unfold completionClean at hs
    split at hs
    next c result hf =>
      obtain ⟨-, rfl⟩ := Prod.mk.inj (Option.some.inj hs)
      rw [lost_returned, KeepsCompletion, hf]
      cases result <;> simp
    next => cases hs
  | done c =>
    refine iff_of_true trivial fun d => ?_
    have he : (rtCompletionDone s c).2 = e := congrArg Prod.snd (Option.some.inj hs)
    unfold rtCompletionDone at he
    split at he <;> subst he
    · rfl
    · simp [lostCompletions]
  | set c =>
    have hs : completionSet s c = some (s', e) := hs
    unfold completionSet at hs
    obtain ⟨-, hs⟩ := Option.ite_none_left_eq_some.mp hs
    have he : e = [.completed c (s.flag c)] := by
      split at hs <;> obtain ⟨-, rfl⟩ := Prod.mk.inj (Option.some.inj hs) <;> rfl
    rw [he, lost_set]
    rfl
  | timeout t =>
    refine iff_of_true trivial fun d => ?_
    obtain ⟨threads, -, hs⟩ := Option.map_eq_some_iff.mp hs
    obtain ⟨-, rfl⟩ := Prod.mk.inj hs
    rfl

/-- What holds after any run: the account is kept up to the completions that were lost. -/
structure CompletionLedger (waiter : ObjectId → ThreadId)
    (x : CompletionState × List CompletionEvent) : Prop where
  ok : CompletionOk waiter x.1
  answered : Answered x.2
  account : ∀ c, founds c x.2 =
    consumptions c x.2 + (x.1.flag c).toNat + x.1.testing c + lostCompletions c x.2

theorem CompletionLedger.step {x x' : CompletionState × List CompletionEvent}
    (h : CompletionLedger waiter x) (hone : OneWaiter waiter a)
    (hs : completionLogStep x a = some x') : CompletionLedger waiter x' := by
  obtain ⟨⟨s', e⟩, hstep, rfl⟩ := Option.map_eq_some_iff.mp hs
  obtain ⟨hok, hanswered, hbalance⟩ := completionStep_ok h.ok hone hstep
  refine ⟨hok, fun d result cleared he => ?_, fun c => ?_⟩
  · rcases List.mem_append.mp he with he | he
    · exact hanswered d result cleared he
    · exact h.answered d result cleared he
  · have hnew := hbalance c
    have hold := h.account c
    simp only [Balanced, founds, consumptions, lostCompletions, List.count_append] at hnew hold ⊢
    omega

theorem CompletionLedger.start (h : CompletionStart s) : CompletionLedger waiter (s, []) := by
  refine ⟨⟨⟨fun q => ?_, fun u q r hq => ?_, fun u q hu => ?_⟩, fun c t ht => ?_, fun t c hf => ?_,
    fun t c result hf => ?_⟩, by simp [Answered], fun c => ?_⟩
  · simp [h.waiters q]
  · simp [h.waiters q] at hq
  · simp [h.waiters q] at hu
  · simp [h.waiters c] at ht
  · simp [h.frame t] at hf
  · simp [h.frame t] at hf
  · simp [founds, consumptions, lostCompletions, h.flag c, h.testing c]

/-- The account is kept exactly where nothing was lost. -/
theorem CompletionLedger.consumed_iff {x : CompletionState × List CompletionEvent}
    (h : CompletionLedger waiter x) : (∀ c, Consumed x c) ↔ ∀ c, lostCompletions c x.2 = 0 := by
  refine ⟨fun hc c => ?_, fun hlost c => ⟨?_, fun result cleared he => ?_⟩⟩
  · have hold := h.account c
    have haccount := (hc c).account
    omega
  · have hold := h.account c
    have hnone := hlost c
    omega
  · rcases h.answered c result cleared he with ⟨rfl, rfl⟩ | rfl
    · simp
    · have hnone := hlost c
      cases cleared with
      | false => simp
      | true =>
        have hpos := List.count_pos_iff.mpr he
        unfold lostCompletions at hnone
        omega

/-- A run loses nothing exactly where each of its steps keeps to the rule. -/
theorem CompletionLedger.run {as : List CompletionAction}
    {x x' : CompletionState × List CompletionEvent} (h : CompletionLedger waiter x)
    (hone : ∀ a ∈ as, OneWaiter waiter a) (hrun : runFrom completionLogStep as x = some x') :
    CompletionLedger waiter x' ∧ ((∀ c, lostCompletions c x'.2 = 0) ↔
      (∀ c, lostCompletions c x.2 = 0) ∧
        RunMeets completionLogStep (fun y a => KeepsCompletion y.1 a) as x) := by
  induction as generalizing x with
  | nil =>
    obtain rfl := Option.some.inj hrun
    exact ⟨h, (and_iff_left trivial).symm⟩
  | cons a as ih =>
    obtain ⟨x1, hs, hrun⟩ := Option.bind_eq_some_iff.mp hrun
    obtain ⟨hone, hrest⟩ := List.forall_mem_cons.mp hone
    obtain ⟨hledger, hiff⟩ := ih (h.step hone hs) hrest hrun
    refine ⟨hledger, hiff.trans ?_⟩
    have hmeets : RunMeets completionLogStep (fun y a => KeepsCompletion y.1 a) (a :: as) x ↔
        KeepsCompletion x.1 a ∧
          RunMeets completionLogStep (fun y a => KeepsCompletion y.1 a) as x1 := by
      simp [RunMeets, hs]
    obtain ⟨⟨s', e⟩, hstep, rfl⟩ := Option.map_eq_some_iff.mp hs
    have hlost : (∀ c, lostCompletions c (e ++ x.2) = 0) ↔
        (∀ c, lostCompletions c e = 0) ∧ ∀ c, lostCompletions c x.2 = 0 := by
      rw [← forall_and]
      refine forall_congr' fun c => ?_
      simp only [lostCompletions, List.count_append]
      omega
    rw [hmeets, hlost, keepsCompletion_iff hstep]
    tauto

/-- Each `rt_completion_done` is consumed by one wait that returns `RT_EOK`, and no other wait clears
a completion, exactly where every step keeps to the rule. -/
theorem completion_consumed_iff {as : List CompletionAction}
    {x : CompletionState × List CompletionEvent} (hstart : CompletionStart s)
    (hone : ∀ a ∈ as, OneWaiter waiter a) (hrun : runFrom completionLogStep as (s, []) = some x) :
    (∀ c, Consumed x c) ↔
      RunMeets completionLogStep (fun y a => KeepsCompletion y.1 a) as (s, []) := by
  obtain ⟨hledger, hiff⟩ := (CompletionLedger.start hstart).run hone hrun
  rw [hledger.consumed_iff, hiff]
  exact and_iff_right fun c => rfl

end

/-- One completion; the thread that waits for it is ready. -/
def completionStart : CompletionState where
  thread _ := ⟨.ready, 10, 10, .eok, false, 0, 0, []⟩
  waiters _ := []
  flag _ := false
  frame _ := .outside
  testing _ := 0

theorem completionStart_start : CompletionStart completionStart :=
  ⟨fun _ => rfl, fun _ => rfl, fun _ => rfl, fun _ => rfl⟩

/-- A wait with a timeout is completed, and the next one expires. -/
def completedThenExpired : List CompletionAction :=
  [.wait 1 0 5, .done 0, .set 0, .woken 1, .clean 1, .wait 1 0 5, .timeout 1, .woken 1, .clean 1]

theorem completedThenExpired_some :
    (runFrom completionLogStep completedThenExpired (completionStart, [])).isSome = true := by
  decide +kernel

theorem completedThenExpired_oneWaiter :
    ∀ a ∈ completedThenExpired, OneWaiter (fun _ => 1) a := by
  simp [completedThenExpired, OneWaiter]

theorem completion_consumed_iff_completedThenExpired : (∀ c, Consumed
    ((runFrom completionLogStep completedThenExpired (completionStart, [])).get
      completedThenExpired_some) c) ↔ RunMeets completionLogStep
    (fun y a => KeepsCompletion y.1 a) completedThenExpired (completionStart, []) :=
  completion_consumed_iff completionStart_start completedThenExpired_oneWaiter
    (Option.some_get _).symm

/-- The timer expires, the completion comes, and then the thread runs again. -/
def expiredThenCompleted : List CompletionAction :=
  [.wait 1 0 5, .timeout 1, .done 0, .set 0, .woken 1, .clean 1]

theorem expiredThenCompleted_some :
    (runFrom completionLogStep expiredThenCompleted (completionStart, [])).isSome = true := by
  decide +kernel

theorem late_completion_lost : ¬∀ as x, (∀ a ∈ as, OneWaiter (fun _ => 1) a) →
    runFrom completionLogStep as (completionStart, []) = some x → ∀ c, Consumed x c := by
  intro h
  have hhonest := (h expiredThenCompleted _ (by simp [expiredThenCompleted, OneWaiter])
    (Option.some_get expiredThenCompleted_some).symm 0).honest .etimeout true (by decide +kernel)
  simp at hhonest

end RTThread
