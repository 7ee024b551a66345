import RTThread.IpcLists

namespace RTThread

def sigBit (signo : Nat) : Nat := 1 <<< signo

/-- `rt_thread_kill` marks the signal as pending. -/
def pendSignal (s : Threads) (t : ThreadId) (signo : Nat) : Threads :=
  s.set t fun x => { x with sigPending := x.sigPending ||| sigBit signo }

/-- `rt_thread_kill` appends a node to the thread's list. -/
def appendSignal (s : Threads) (t : ThreadId) (signo : Nat) : Threads :=
  s.set t fun x => { x with siList := x.siList ++ [signo] }

/-- `_signal_deliver`: a suspended thread is resumed to handle the signal; a ready one handles it
in its own context. -/
def deliverSignal (s : Threads) (t : ThreadId) : Threads :=
  if (s.thread t).sigPending &&& (s.thread t).sigMask = 0 then s
  else if (s.thread t).stat = .suspend then rtThreadResume s t
  else s

/-- `rt_thread_handle_sig` takes the first node off the list to call its handler. -/
def takeSignal (s : Threads) (t : ThreadId) : Option (Threads × Nat) :=
  if (s.thread t).stat = .ready ∧ (s.thread t).sigPending &&& (s.thread t).sigMask ≠ 0 then
    match (s.thread t).siList with
    | [] => none
    | signo :: rest => some (s.set t fun x => { x with siList := rest }, signo)
  else none

/-- `rt_thread_handle_sig` after the handler has returned. -/
def finishSignal (s : Threads) (t : ThreadId) (signo : Nat) : Threads :=
  s.set t fun x =>
    { x with
      sigPending := x.sigPending &&& (4294967295 ^^^ sigBit signo)
      error := .eintr }

/-- Statuses, errors and timers of the threads and the lists are the same. -/
structure SameWaiting (s s' : Threads) : Prop where
  waiters : s'.waiters = s.waiters
  stat : ∀ u, (s'.thread u).stat = (s.thread u).stat
  error : ∀ u, (s'.thread u).error = (s.thread u).error

section
variable {s s' : Threads} {t : ThreadId} {signo : Nat} {f : Thread → Thread}

theorem set_sameWaiting (hstat : (f (s.thread t)).stat = (s.thread t).stat)
    (herror : (f (s.thread t)).error = (s.thread t).error) : SameWaiting s (s.set t f) := by
  refine ⟨rfl, fun u => ?_, fun u => ?_⟩ <;> by_cases hu : u = t
  · rw [hu, Threads.set_self, hstat]
  · rw [Threads.set_ne hu]
  · rw [hu, Threads.set_self, herror]
  · rw [Threads.set_ne hu]

theorem pendSignal_sameWaiting : SameWaiting s (pendSignal s t signo) := set_sameWaiting rfl rfl

theorem appendSignal_sameWaiting : SameWaiting s (appendSignal s t signo) := set_sameWaiting rfl rfl

theorem takeSignal_spec (h : takeSignal s t = some (s', signo)) :
    (s.thread t).stat = .ready ∧ SameWaiting s s' := by
  obtain ⟨hc, h⟩ := Option.ite_none_right_eq_some.mp h
  split at h
  next => simp at h
  next =>
    obtain ⟨rfl, -⟩ := Prod.mk.inj (Option.some.inj h)
    exact ⟨hc.1, set_sameWaiting rfl rfl⟩

/-- Delivering a signal resumes the thread if it is suspended. -/
theorem deliverSignal_cases :
    deliverSignal s t = s ∨ (s.thread t).stat = .suspend ∧ deliverSignal s t = rtThreadResume s t := by
  unfold deliverSignal
  split
  · exact .inl rfl
  · split
    next hsusp => exact .inr ⟨hsusp, rfl⟩
    next => exact .inl rfl

end

end RTThread
