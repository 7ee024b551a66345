import RTThread.BitSets
import RTThread.Delivery
import RTThread.IpcLists
import RTThread.Runs

namespace RTThread

/-- `struct rt_event`; the list of its suspended threads is kept with the threads. -/
structure Event where
  flag : IpcFlag
  set : BitVec 32

def eventFlagAnd : BitVec 8 := 0x01
def eventFlagOr : BitVec 8 := 0x02
def eventFlagClear : BitVec 8 := 0x04

/-- `frame t` is the event in whose `rt_event_recv` the thread `t` has called `rt_schedule()`. -/
structure EventState extends Threads where
  event : ObjectId → Event
  eventSet : ThreadId → BitVec 32
  eventInfo : ThreadId → BitVec 8
  frame : ThreadId → Option ObjectId

def EventState.setEvent (s : EventState) (q : ObjectId) (f : BitVec 32 → BitVec 32) : EventState :=
  { s with event := Function.update s.event q { s.event q with set := f (s.event q).set } }

/-- What a call of `rt_event_recv` comes to: the thread sleeps, or the call returns with a code and
what it has stored through `recved`. -/
inductive RecvOutcome where
  | blocked
  | returned (err : Err) (recved : Option (BitVec 32))
deriving DecidableEq

/-- The end of a turn of the loop of `rt_event_send` with `status == RT_EOK`. -/
def resumeReceiver (q : ObjectId) (s : EventState) (t : ThreadId) : EventState :=
  let s := if s.eventInfo t &&& eventFlagClear ≠ 0 then s.setEvent q (· &&& ~~~s.eventSet t) else s
  { s with toThreads := rtThreadResume s.toThreads t }

/-- A turn of the loop of `rt_event_send`. -/
def sendTurn (q : ObjectId) (s : EventState) (t : ThreadId) : EventState :=
  let set := (s.event q).set
  if s.eventInfo t &&& eventFlagAnd ≠ 0 then
    if s.eventSet t &&& set = s.eventSet t then resumeReceiver q s t else s
  else if s.eventInfo t &&& eventFlagOr ≠ 0 then
    if s.eventSet t &&& set ≠ 0 then
      resumeReceiver q { s with eventSet := Function.update s.eventSet t (s.eventSet t &&& set) } t
    else s
  else s

/-- The loop moves to the next node before the resumption unlinks the present one. -/
def rtEventSend (s : EventState) (q : ObjectId) (set : BitVec 32) : EventState :=
  if set = 0 then s
  else
    let s := s.setEvent q (· ||| set)
    (s.waiters q).foldl (sendTurn q) s

/-- `status == RT_EOK` in `rt_event_recv`; no value where its assertion fails. -/
def recvStatus (set want : BitVec 32) (option : BitVec 8) : Option Bool :=
  if option &&& eventFlagAnd ≠ 0 then some (set &&& want = want)
  else if option &&& eventFlagOr ≠ 0 then some (set &&& want ≠ 0)
  else none

def rtEventRecv (s : EventState) (q : ObjectId) (t : ThreadId) (want : BitVec 32) (option : BitVec 8)
    (timeout : Int) : Option (EventState × RecvOutcome) :=
  if want = 0 then some (s, .returned .error none)
  else
    let s := { s with toThreads := setError s.toThreads t .eok }
    (recvStatus (s.event q).set want option).map fun status =>
      if status then
        (if option &&& eventFlagClear ≠ 0 then s.setEvent q (· &&& ~~~want) else s,
          .returned (s.thread t).error (some ((s.event q).set &&& want)))
      else if timeout = 0 then
        ({ s with toThreads := setError s.toThreads t .etimeout }, .returned .etimeout none)
      else
        ({ s with
            eventSet := Function.update s.eventSet t want
            eventInfo := Function.update s.eventInfo t option
            frame := Function.update s.frame t (some q)
            toThreads := suspendFor s.toThreads q t (s.event q).flag timeout }, .blocked)

/-- What `rt_event_recv` returns once `rt_schedule()` has returned in it. -/
def recvWoken (s : EventState) (t : ThreadId) : RecvOutcome :=
  if (s.thread t).error ≠ .eok then .returned (s.thread t).error none
  else .returned (s.thread t).error (some (s.eventSet t))

/-- `RT_IPC_CMD_RESET`; every other command returns an error. -/
def rtEventReset (s : EventState) (q : ObjectId) : EventState :=
  { s with toThreads := rtIpcListResumeAll s.toThreads q }.setEvent q fun _ => 0

/-- What can happen next; `send` and `reset` also come from interrupts. -/
inductive EventAction where
  | send (q : ObjectId) (set : BitVec 32)
  | recv (t : ThreadId) (q : ObjectId) (want : BitVec 32) (option : BitVec 8) (timeout : Int)
  | wake (t : ThreadId)
  | timeout (t : ThreadId)
  | reset (q : ObjectId)

def eventStep (s : EventState) : EventAction → Option EventState
  | .send q set => some (rtEventSend s q set)
  | .recv t q want option timeout =>
    if (s.thread t).stat = .ready ∧ s.frame t = none then
      (rtEventRecv s q t want option timeout).map Prod.fst
    else none
  | .wake t =>
    if (s.thread t).stat = .ready ∧ s.frame t ≠ none then
      some { s with frame := Function.update s.frame t none }
    else none
  | .timeout t => (rtThreadTimeout s.toThreads t).map fun threads => { s with toThreads := threads }
  | .reset q => some (rtEventReset s q)

/-- Every event just initialised, and nobody inside `rt_event_recv`. -/
structure EventStart (s : EventState) : Prop where
  set : ∀ q, (s.event q).set = 0
  waiters : ∀ q, s.waiters q = []
  frame : ∀ t, s.frame t = none

/-- The condition with which a thread waits. -/
def interest (want : BitVec 32) (option : BitVec 8) : Interest Nat where
  wanted := bits want
  all := option &&& eventFlagAnd ≠ 0
  clear := option &&& eventFlagClear ≠ 0

def EventState.interest (s : EventState) (t : ThreadId) : Interest Nat :=
  RTThread.interest (s.eventSet t) (s.eventInfo t)

/-- What every state reached keeps of the threads waiting for events. -/
structure EventOk (s : EventState) : Prop where
  wait : WaitOk s.toThreads
  want : ∀ t q, t ∈ s.waiters q → s.eventSet t ≠ 0
  option : ∀ t q, t ∈ s.waiters q →
    s.eventInfo t &&& eventFlagAnd ≠ 0 ∨ s.eventInfo t &&& eventFlagOr ≠ 0
  error : ∀ t q, t ∈ s.waiters q → (s.thread t).error = .eok

/-- What a receiver has when the events `q` have been sent; one still waiting has nothing. -/
def sendOutcome (s : EventState) (q : ObjectId) (t : ThreadId) : RecvOutcome :=
  if t ∈ s.waiters q then .returned .etimeout none else recvWoken s t

/-- A call of `rt_event_recv`. -/
structure Request where
  thread : ThreadId
  want : BitVec 32
  option : BitVec 8

/-- The calls with which the threads on the list wait, in list order. -/
def EventState.requests (s : EventState) (q : ObjectId) : List Request :=
  (s.waiters q).map fun t => ⟨t, s.eventSet t, s.eventInfo t⟩

/-- `rt_event_recv` with timeout 0, one call after another. -/
def recvInTurn (q : ObjectId) :
    List Request → EventState → Option (EventState × List RecvOutcome)
  | [], s => some (s, [])
  | r :: rs, s => do
    let (s, x) ← rtEventRecv s q r.thread r.want r.option 0
    let (s, xs) ← recvInTurn q rs s
    some (s, x :: xs)

/-- The code and the stored set with which a call says what was received. -/
inductive Receives : RecvOutcome → Option (Set Nat) → Prop where
  | some (v : BitVec 32) : Receives (.returned .eok (some v)) (some (bits v))
  | none : Receives (.returned .etimeout none) none

section
variable {s s' : EventState} {q r : ObjectId} {t u : ThreadId} {l : List ThreadId}
  {set want : BitVec 32} {option : BitVec 8} {x y : RecvOutcome} {e : Option (Set Nat)} {b : Bool}

theorem Receives.unique (hx : Receives x e) (hy : Receives y e) : x = y := by
  cases hx with
  | none => cases hy; rfl
  | some v =>
    generalize he : Option.some (bits v) = e' at hy
    cases hy with
    | none => simp at he
    | some w => rw [bits_injective (Option.some.inj he)]

theorem receives_unique {xs ys : List RecvOutcome} {es : List (Option (Set Nat))}
    (hx : List.Forall₂ Receives xs es) (hy : List.Forall₂ Receives ys es) : xs = ys := by
  induction hx generalizing ys with
  | nil =>
    cases hy
    rfl
  | cons hx _ ih =>
    cases hy with
    | cons hy hys => rw [hx.unique hy, ih hys]

theorem holds_of_and (h : option &&& eventFlagAnd ≠ 0) :
    (interest want option).Holds (bits set) ↔ want &&& set = want := by
  rw [and_eq_left_iff_subset]
  simp only [Interest.Holds, interest]
  tauto

theorem holds_of_or (h : ¬ option &&& eventFlagAnd ≠ 0) :
    (interest want option).Holds (bits set) ↔ want &&& set ≠ 0 := by
  rw [and_ne_zero_iff_nonempty]
  simp only [Interest.Holds, interest]
  tauto

theorem recvStatus_holds (h : recvStatus set want option = some b) :
    b = true ↔ (interest want option).Holds (bits set) := by
  unfold recvStatus at h
  split at h
  next hand =>
    obtain rfl := Option.some.inj h
    rw [holds_of_and hand, BitVec.and_comm, decide_eq_true_iff]
  next hand =>
    split at h
    next =>
      obtain rfl := Option.some.inj h
      rw [holds_of_or hand, BitVec.and_comm, decide_eq_true_iff]
    next => simp at h

theorem recvStatus_some (set want : BitVec 32) (h : option &&& eventFlagAnd ≠ 0 ∨ option &&& eventFlagOr ≠ 0) :
    ∃ b, recvStatus set want option = some b := by
  unfold recvStatus
  split
  · exact ⟨_, rfl⟩
  · next hand =>
    rw [if_pos (h.resolve_left hand)]
    exact ⟨_, rfl⟩

@[simp] theorem setEvent_self {f : BitVec 32 → BitVec 32} :
    ((s.setEvent q f).event q).set = f (s.event q).set := by
  simp [EventState.setEvent]

theorem setEvent_ne {f : BitVec 32 → BitVec 32} (h : r ≠ q) :
    (s.setEvent q f).event r = s.event r := Function.update_of_ne h ..

/-- The bits a receiver that waits with `want` and `option` leaves behind. -/
theorem leaves_of_clear (want : BitVec 32) (option : BitVec 8) (set : BitVec 32) :
    (interest want option).Leaves (bits set)
      (bits (if option &&& eventFlagClear ≠ 0 then set &&& ~~~want else set)) := by
  split
  next hc => exact .inl ⟨hc, bits_andNot⟩
  next hc => exact .inr ⟨hc, rfl⟩

/-- A receive with timeout 0 is one service of the receiver. -/
theorem rtEventRecv_served (hwant : want ≠ 0)
    (hopt : option &&& eventFlagAnd ≠ 0 ∨ option &&& eventFlagOr ≠ 0) :
    ∃ s' x, rtEventRecv s q t want option 0 = some (s', x) ∧
      ((interest want option).Holds (bits (s.event q).set) ∧
          (interest want option).Leaves (bits (s.event q).set) (bits (s'.event q).set) ∧
          Receives x (some (bits want ∩ bits (s.event q).set)) ∨
        ¬ (interest want option).Holds (bits (s.event q).set) ∧ s'.event = s.event ∧
          Receives x none) := by
  obtain ⟨b, hb⟩ := recvStatus_some (s.event q).set want hopt
  have hholds := recvStatus_holds hb
  unfold rtEventRecv
  rw [if_neg hwant]
  dsimp only
  rw [hb, Option.map_some]
  cases b with
  | true =>
    simp only [if_true]
    refine ⟨_, _, rfl, .inl ⟨hholds.mp rfl, ?_, ?_⟩⟩
    · have hl := leaves_of_clear want option (s.event q).set
      split at hl
      next hc => rwa [if_pos hc, setEvent_self]
      next hc => rwa [if_neg hc]
    · rw [Set.inter_comm, ← bits_and]
      simp only [setError, Threads.set_self]
      exact .some _
  | false =>
    simp only [Bool.false_eq_true, if_false, if_true]
    exact ⟨_, _, rfl, .inr ⟨by simpa using hholds.not, rfl, .none⟩⟩

theorem recvInTurn_delivered {rs : List Request} (hr : ∀ r ∈ rs, r.want ≠ 0 ∧
    (r.option &&& eventFlagAnd ≠ 0 ∨ r.option &&& eventFlagOr ≠ 0)) :
    ∃ s' xs es, recvInTurn q rs s = some (s', xs) ∧ List.Forall₂ Receives xs es ∧
      Delivered (bits (s.event q).set) (rs.map fun r => interest r.want r.option) es
        (bits (s'.event q).set) := by
  induction rs generalizing s with
  | nil => exact ⟨s, [], [], rfl, .nil, .nil⟩
  | cons r rs ih =>
    obtain ⟨hwant, hopt⟩ := hr r List.mem_cons_self
    obtain ⟨s1, x, h1, hturn⟩ := rtEventRecv_served (s := s) (q := q) (t := r.thread) hwant hopt
    obtain ⟨s', xs, es, h2, hxs, hd⟩ := ih (s := s1) fun r' hr' => hr r' (List.mem_cons_of_mem r hr')
    have hrun : recvInTurn q (r :: rs) s = some (s', x :: xs) := by simp [recvInTurn, h1, h2]
    rcases hturn with ⟨hholds, hleaves, hx⟩ | ⟨hholds, hevent, hx⟩
    · exact ⟨s', x :: xs, _, hrun, .cons hx hxs, .served hholds hleaves hd⟩
    · rw [hevent] at hd
      exact ⟨s', x :: xs, _, hrun, .cons hx hxs, .passed hholds hd⟩

/-- What one turn of the loop of `rt_event_send` does when it resumes its thread. -/
structure Served (q : ObjectId) (t : ThreadId) (s s' : EventState) : Prop where
  resumed : Resumed s.toThreads s'.toThreads t
  error : (s'.thread t).error = (s.thread t).error
  leaves : (s.interest t).Leaves (bits (s.event q).set) (bits (s'.event q).set)
  received : bits (s'.eventSet t) = bits (s.eventSet t) ∩ bits (s.event q).set
  eventSet : ∀ u, u ≠ t → s'.eventSet u = s.eventSet u
  eventInfo : s'.eventInfo = s.eventInfo
  frame : s'.frame = s.frame
  event : ∀ r, r ≠ q → s'.event r = s.event r

/-- Clearing the received bits leaves the same events as clearing the wanted ones. -/
theorem leaves_received {v : BitVec 32} (option : BitVec 8) (hv : bits v = bits want ∩ bits set) :
    (interest want option).Leaves (bits set)
      (bits (if option &&& eventFlagClear ≠ 0 then set &&& ~~~v else set)) := by
  split
  next hc =>
    refine .inl ⟨hc, ?_⟩
    rw [bits_andNot, hv]
    exact Set.sdiff_inter_self_eq_sdiff
  next hc => exact .inr ⟨hc, rfl⟩

theorem resumeReceiver_served {v : BitVec 32} (ht : (s.thread t).stat = .suspend)
    (hv : bits v = bits (s.eventSet t) ∩ bits (s.event q).set) :
    Served q t s (resumeReceiver q { s with eventSet := Function.update s.eventSet t v } t) := by
  have hl := leaves_received (s.eventInfo t) hv
  have herror : ((rtThreadResume s.toThreads t).thread t).error = (s.thread t).error := by
    rw [rtThreadResume_thread ht]
  unfold resumeReceiver
  dsimp only
  rw [Function.update_self]
  split
  next hc =>
    rw [if_pos hc] at hl
    refine ⟨rtThreadResume_resumed ht, herror, ?_, ?_, fun u hu => ?_, rfl, rfl, fun r hr => ?_⟩
    · rwa [← setEvent_self (s := s) (q := q) (f := (· &&& ~~~v))] at hl
    · simpa [EventState.setEvent] using hv
    · exact Function.update_of_ne hu ..
    · exact Function.update_of_ne hr ..
  next hc =>
    rw [if_neg hc] at hl
    refine ⟨rtThreadResume_resumed ht, herror, hl, ?_, fun u hu => ?_, rfl, rfl, fun r hr => rfl⟩
    · simpa using hv
    · exact Function.update_of_ne hu ..

theorem resumeReceiver_served_all (ht : (s.thread t).stat = .suspend)
    (hall : s.eventSet t &&& (s.event q).set = s.eventSet t) :
    Served q t s (resumeReceiver q s t) := by
  have hv : bits (s.eventSet t) = bits (s.eventSet t) ∩ bits (s.event q).set := by
    rw [← bits_and, hall]
  have h := resumeReceiver_served ht hv
  rwa [Function.update_eq_self] at h

/-- Everything one turn of the loop can do. -/
theorem sendTurn_cases (hs : EventOk s) (ht : t ∈ s.waiters q) :
    (s.interest t).Holds (bits (s.event q).set) ∧ Served q t s (sendTurn q s t) ∨
      ¬ (s.interest t).Holds (bits (s.event q).set) ∧ sendTurn q s t = s := by
  have hsusp := hs.wait.suspended t q ht
  unfold sendTurn EventState.interest
  dsimp only
  split
  next hand =>
    rw [holds_of_and hand]
    split
    next hall => exact .inl ⟨hall, resumeReceiver_served_all hsusp hall⟩
    next hall => exact .inr ⟨hall, rfl⟩
  next hand =>
    rw [if_pos ((hs.option t q ht).resolve_left hand), holds_of_or hand]
    split
    next hany => exact .inl ⟨hany, resumeReceiver_served hsusp bits_and⟩
    next hany => exact .inr ⟨hany, rfl⟩

theorem Served.waiting (h : Served q t s s') (hu : u ∈ s'.waiters r) :
    u ∈ s.waiters r ∧ s'.eventSet u = s.eventSet u ∧ s'.thread u = s.thread u := by
  obtain ⟨hur, hut⟩ := h.resumed.mem.mp hu
  exact ⟨hur, h.eventSet u hut, h.resumed.other u hut⟩

theorem Served.eventOk (h : Served q t s s') (hs : EventOk s) : EventOk s' := by
  refine ⟨h.resumed.waitOk hs.wait, fun u r hu => ?_, fun u r hu => ?_, fun u r hu => ?_⟩ <;>
    obtain ⟨hur, hset, hthread⟩ := h.waiting hu
  · rw [hset]
    exact hs.want u r hur
  · rw [h.eventInfo]
    exact hs.option u r hur
  · rw [hthread]
    exact hs.error u r hur

/-- Turns for the threads `l`; the threads not in `l`, and those still waiting, are as they were. -/
structure SendKeeps (q : ObjectId) (l : List ThreadId) (s s' : EventState) : Prop where
  waiters : ∀ r, (s'.waiters r).Sublist (s.waiters r)
  mem : ∀ u r, u ∉ l → (u ∈ s'.waiters r ↔ u ∈ s.waiters r)
  same : ∀ u, u ∉ l ∨ (∃ r, u ∈ s'.waiters r) →
    s'.thread u = s.thread u ∧ s'.eventSet u = s.eventSet u
  resumed : ∀ u ∈ l, u ∉ s'.waiters q →
    (s'.thread u).stat = .ready ∧ (s'.thread u).error = (s.thread u).error
  eventInfo : s'.eventInfo = s.eventInfo
  frame : s'.frame = s.frame
  event : ∀ r, r ≠ q → s'.event r = s.event r

theorem SendKeeps.nil : SendKeeps q [] s s :=
  ⟨fun r => List.Sublist.refl _, fun _ _ _ => Iff.rfl, fun _ _ => ⟨rfl, rfl⟩, fun u hu => by simp at hu,
    rfl, rfl, fun _ _ => rfl⟩

theorem SendKeeps.passed (h : SendKeeps q l s s') (ht : t ∈ s.waiters q) (htl : t ∉ l) :
    SendKeeps q (t :: l) s s' := by
  refine ⟨h.waiters, fun u r hu => h.mem u r fun hul => hu (List.mem_cons_of_mem t hul), fun u hu => ?_,
    fun u hu hwait => ?_, h.eventInfo, h.frame, h.event⟩
  · exact h.same u (hu.imp_left fun hu hul => hu (List.mem_cons_of_mem t hul))
  · rcases List.mem_cons.mp hu with rfl | hul
    · exact absurd ((h.mem u q htl).mpr ht) hwait
    · exact h.resumed u hul hwait

theorem Served.keeps {s1 : EventState} (h1 : Served q t s s1) (htl : t ∉ l) (h : SendKeeps q l s1 s') :
    SendKeeps q (t :: l) s s' := by
  refine ⟨fun r => (h.waiters r).trans ?_, fun u r hu => ?_, fun u hu => ?_, fun u hu hwait => ?_,
    h.eventInfo.trans h1.eventInfo, h.frame.trans h1.frame, fun r hr => (h.event r hr).trans (h1.event r hr)⟩
  · rw [h1.resumed.waiters]
    exact List.filter_sublist
  · obtain ⟨hut, hul⟩ := not_or.mp (List.mem_cons.not.mp hu)
    rw [h.mem u r hul, h1.resumed.mem]
    exact and_iff_left hut
  · have hut : u ≠ t := by
      rcases hu with hu | ⟨r, hr⟩
      · exact (not_or.mp (List.mem_cons.not.mp hu)).1
      · exact (h1.resumed.mem.mp ((h.waiters r).subset hr)).2
    obtain ⟨hthread, hset⟩ := h.same u (hu.imp_left fun hu hul => hu (List.mem_cons_of_mem t hul))
    exact ⟨hthread.trans (h1.resumed.other u hut), hset.trans (h1.eventSet u hut)⟩
  · rcases List.mem_cons.mp hu with rfl | hul
    · rw [(h.same u (.inl htl)).1]
      exact ⟨h1.resumed.stat, h1.error⟩
    · obtain ⟨hstat, herror⟩ := h.resumed u hul hwait
      exact ⟨hstat, herror.trans (congrArg Thread.error (h1.resumed.other u (ne_of_mem_of_not_mem hul htl)))⟩

/-- The loop of `rt_event_send` serves the threads of the list in turn. -/
theorem sendTurns_delivered (hs : EventOk s) (hn : l.Nodup) (hl : ∀ u ∈ l, u ∈ s.waiters q) :
    EventOk (l.foldl (sendTurn q) s) ∧ SendKeeps q l s (l.foldl (sendTurn q) s) ∧
      ∃ es, List.Forall₂ (fun u e => Receives (sendOutcome (l.foldl (sendTurn q) s) q u) e) l es ∧
        Delivered (bits (s.event q).set) (l.map s.interest) es
          (bits ((l.foldl (sendTurn q) s).event q).set) := by
  induction l generalizing s with
  | nil => exact ⟨hs, .nil, [], .nil, .nil⟩
  | cons t l ih =>
    obtain ⟨htl, hn⟩ := List.nodup_cons.mp hn
    have ht : t ∈ s.waiters q := hl t List.mem_cons_self
    rw [List.foldl_cons]
    rcases sendTurn_cases hs ht with ⟨hholds, h1⟩ | ⟨hholds, h1⟩
    · generalize sendTurn q s t = s1 at h1 ⊢
      have hl1 : ∀ u ∈ l, u ∈ s1.waiters q := fun u hu =>
        h1.resumed.mem.mpr ⟨hl u (List.mem_cons_of_mem t hu), ne_of_mem_of_not_mem hu htl⟩
      have hinterest : l.map s1.interest = l.map s.interest := List.map_congr_left fun u hu => by
        rw [EventState.interest, h1.eventSet u (ne_of_mem_of_not_mem hu htl), h1.eventInfo]
        rfl
      obtain ⟨hok, hkeeps, es, hes, hd⟩ := ih (h1.eventOk hs) hn hl1
      rw [hinterest] at hd
      generalize l.foldl (sendTurn q) s1 = s' at hok hkeeps hes hd ⊢
      have hout : sendOutcome s' q t = .returned .eok (some (s1.eventSet t)) := by
        obtain ⟨hthread, hset⟩ := hkeeps.same t (.inl htl)
        have hgone : t ∉ s'.waiters q := fun hmem => (h1.resumed.mem.mp ((hkeeps.waiters q).subset hmem)).2 rfl
        rw [sendOutcome, if_neg hgone, recvWoken, hthread, h1.error, hs.error t q ht, hset]
        rfl
      refine ⟨hok, h1.keeps htl hkeeps, _, .cons ?_ hes, .served hholds h1.leaves hd⟩
      rw [hout]
      have hreceived := Receives.some (s1.eventSet t)
      rwa [h1.received] at hreceived
    · rw [h1]
      obtain ⟨hok, hkeeps, es, hes, hd⟩ := ih hs hn fun u hu => hl u (List.mem_cons_of_mem t hu)
      refine ⟨hok, hkeeps.passed ht htl, _, .cons ?_ hes, .passed hholds hd⟩
      rw [sendOutcome, if_pos ((hkeeps.mem t q htl).mpr ht)]
      exact .none

end

end RTThread
