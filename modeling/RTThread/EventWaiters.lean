import RTThread.EventDelivery

namespace RTThread

/-- The condition with which `t` waits for the events `q` is met. -/
def Satisfied (s : EventState) (q : ObjectId) (t : ThreadId) : Prop :=
  if s.eventInfo t &&& eventFlagAnd ≠ 0 then (s.event q).set &&& s.eventSet t = s.eventSet t
  else s.eventInfo t &&& eventFlagOr ≠ 0 ∧ (s.event q).set &&& s.eventSet t ≠ 0

/-- Nobody begins to wait, and the threads still waiting are as they were. -/
structure Shrinks (s s' : EventState) : Prop where
  waiters : ∀ q, (s'.waiters q).Sublist (s.waiters q)
  thread : ∀ u q, u ∈ s'.waiters q → s'.thread u = s.thread u
  eventSet : ∀ u q, u ∈ s'.waiters q → s'.eventSet u = s.eventSet u
  eventInfo : s'.eventInfo = s.eventInfo

/-- A call of `rt_event_recv` that waits. -/
structure Sleeps (s : EventState) (t : ThreadId) (q : ObjectId) (want : BitVec 32) (option : BitVec 8)
    (timeout : Int) (s' : EventState) : Prop where
  ready : (s.thread t).stat = .ready
  wanted : want ≠ 0
  status : recvStatus (s.event q).set want option = some false
  threads : s'.toThreads = suspendFor (setError s.toThreads t .eok) q t (s.event q).flag timeout
  event : s'.event = s.event
  eventSet : s'.eventSet = Function.update s.eventSet t want
  eventInfo : s'.eventInfo = Function.update s.eventInfo t option

section
variable {s s' : EventState} {a : EventAction} {q r : ObjectId} {t u : ThreadId}
  {set want : BitVec 32} {option : BitVec 8} {timeout : Int} {x : RecvOutcome}

theorem EventOk.satisfied_iff (hs : EventOk s) (ht : t ∈ s.waiters q) :
    Satisfied s q t ↔ (s.interest t).Holds (bits (s.event q).set) := by
  unfold Satisfied EventState.interest
  split
  next hand => rw [holds_of_and hand, BitVec.and_comm]
  next hand =>
    rw [holds_of_or hand, BitVec.and_comm (s.event q).set]
    exact and_iff_right ((hs.option t q ht).resolve_left hand)

theorem Shrinks.eventOk (h : Shrinks s s') (hs : EventOk s) : EventOk s' := by
  have hsub : ∀ u q, u ∈ s'.waiters q → u ∈ s.waiters q := fun u q hu => (h.waiters q).subset hu
  refine ⟨hs.wait.of_sub h.waiters fun u q hu => congrArg Thread.stat (h.thread u q hu),
    fun u q hu => ?_, fun u q hu => ?_, fun u q hu => ?_⟩
  · rw [h.eventSet u q hu]
    exact hs.want u q (hsub u q hu)
  · rw [h.eventInfo]
    exact hs.option u q (hsub u q hu)
  · rw [h.thread u q hu]
    exact hs.error u q (hsub u q hu)

theorem Shrinks.interest (h : Shrinks s s') (hu : u ∈ s'.waiters q) : s'.interest u = s.interest u := by
  rw [EventState.interest, h.eventSet u q hu, h.eventInfo]
  rfl

theorem Resumed.shrinks (h : Resumed s.toThreads s'.toThreads t) (hset : s'.eventSet = s.eventSet)
    (hinfo : s'.eventInfo = s.eventInfo) : Shrinks s s' := by
  refine ⟨fun q => ?_, fun u q hu => h.other u (h.mem.mp hu).2, fun u q _ => by rw [hset], hinfo⟩
  rw [h.waiters]
  exact List.filter_sublist

theorem setError_shrinks {e : Err} (hs : EventOk s) (ht : (s.thread t).stat = .ready) :
    Shrinks s { s with toThreads := setError s.toThreads t e } := by
  refine ⟨fun q => List.Sublist.refl _, fun u q hu => ?_, fun u q _ => rfl, rfl⟩
  have hut : u ≠ t := ne_of_mem_of_not_mem hu (hs.wait.not_mem ht)
  simp [setError, hut]

theorem rtEventReset_shrinks (hs : EventOk s) : Shrinks s (rtEventReset s q) := by
  obtain ⟨-, hq, hother, hrest, -⟩ := rtIpcListResumeAll_spec hs.wait q
  have hne : ∀ u r, u ∈ (rtEventReset s q).waiters r → r ≠ q := by
    rintro u r hu rfl
    have hnil : (rtEventReset s r).waiters r = [] := hq
    simp [hnil] at hu
  refine ⟨fun r => ?_, fun u r hu => hrest u fun huq => ?_, fun u r _ => rfl, rfl⟩
  · by_cases hr : r = q
    · subst hr
      exact hq ▸ List.nil_sublist _
    · exact hother r hr ▸ List.Sublist.refl _
  · have hur : u ∈ s.waiters r := hother r (hne u r hu) ▸ hu
    exact hne u r hu (hs.wait.one u r q hur huq)

/-- Everything `rt_event_recv` can do. -/
theorem rtEventRecv_cases (hs : EventOk s) (ht : (s.thread t).stat = .ready)
    (h : rtEventRecv s q t want option timeout = some (s', x)) :
    Shrinks s s' ∧ (∀ r, bits (s'.event r).set ⊆ bits (s.event r).set) ∨
      Sleeps s t q want option timeout s' := by
  unfold rtEventRecv at h
  split at h
  next =>
    obtain ⟨rfl, -⟩ := Prod.mk.inj (Option.some.inj h)
    exact .inl ⟨⟨fun q => List.Sublist.refl _, fun _ _ _ => rfl, fun _ _ _ => rfl, rfl⟩, fun r => subset_rfl⟩
  next hwant =>
    dsimp only at h
    obtain ⟨status, hstatus, h⟩ := Option.map_eq_some_iff.mp h
    have heok := setError_shrinks (e := .eok) hs ht
    split at h
    next =>
      obtain ⟨rfl, -⟩ := Prod.mk.inj h
      split
      next =>
        refine .inl ⟨⟨heok.waiters, heok.thread, heok.eventSet, rfl⟩, fun r => ?_⟩
        by_cases hr : r = q
        · subst hr
          rw [setEvent_self, bits_andNot]
          exact Set.sdiff_subset
        · rw [setEvent_ne hr]
      next => exact .inl ⟨heok, fun r => subset_rfl⟩
    next hfalse =>
      split at h
      next =>
        obtain ⟨rfl, -⟩ := Prod.mk.inj h
        refine .inl ⟨⟨heok.waiters, fun u r hu => ?_, heok.eventSet, rfl⟩, fun r => subset_rfl⟩
        have hut : u ≠ t := ne_of_mem_of_not_mem hu (hs.wait.not_mem ht)
        simp [setError, hut]
      next =>
        obtain ⟨rfl, -⟩ := Prod.mk.inj h
        rw [Bool.not_eq_true] at hfalse
        exact .inr ⟨ht, hwant, hfalse ▸ hstatus, rfl, rfl, rfl, rfl⟩

/-- Everything a step can do. -/
theorem eventStep_cases (hs : EventOk s) (h : eventStep s a = some s') :
    (Shrinks s s' ∧ ∀ r, bits (s'.event r).set ⊆ bits (s.event r).set) ∨
      (∃ q set, s' = rtEventSend s q set) ∨
      ∃ t q want option timeout, Sleeps s t q want option timeout s' := by
  cases a with
  | send q set => exact .inr (.inl ⟨q, set, (Option.some.inj h).symm⟩)
  | recv t q want option timeout =>
    obtain ⟨hc, h⟩ := Option.ite_none_right_eq_some.mp h
    obtain ⟨⟨s1, x⟩, hrecv, rfl⟩ := Option.map_eq_some_iff.mp h
    rcases rtEventRecv_cases hs hc.1 hrecv with hshrinks | hsleeps
    · exact .inl hshrinks
    · exact .inr (.inr ⟨t, q, want, option, timeout, hsleeps⟩)
  | wake t =>
    obtain ⟨-, h⟩ := Option.ite_none_right_eq_some.mp h
    obtain rfl := Option.some.inj h
    exact .inl ⟨⟨fun q => List.Sublist.refl _, fun _ _ _ => rfl, fun _ _ _ => rfl, rfl⟩, fun r => subset_rfl⟩
  | timeout t =>
    obtain ⟨threads, htimeout, rfl⟩ := Option.map_eq_some_iff.mp h
    exact .inl ⟨(rtThreadTimeout_resumed htimeout).shrinks rfl rfl, fun r => subset_rfl⟩
  | reset q =>
    obtain rfl := Option.some.inj h
    refine .inl ⟨rtEventReset_shrinks hs, fun r => ?_⟩
    by_cases hr : r = q
    · subst hr
      simp [rtEventReset]
    · exact (congrArg (fun e => bits e.set) (setEvent_ne hr)).subset

/-- The threads waiting after a call that waits. -/
theorem Sleeps.waiting (h : Sleeps s t q want option timeout s') (hs : EventOk s)
    (hu : u ∈ s'.waiters r) :
    u = t ∧ r = q ∧ s'.eventSet u = want ∧ s'.eventInfo u = option ∧ (s'.thread u).error = .eok ∨
      u ∈ s.waiters r ∧ s'.eventSet u = s.eventSet u ∧ s'.eventInfo u = s.eventInfo u ∧
        s'.thread u = s.thread u := by
  have hready : ((setError s.toThreads t .eok).thread t).stat = .ready := by
    simpa [setError] using h.ready
  have hnot : ∀ r, t ∉ (setError s.toThreads t .eok).waiters r := fun r => hs.wait.not_mem h.ready
  obtain ⟨-, hthread⟩ := suspendFor_spec q (s.event q).flag timeout hnot hready
  rw [h.threads, mem_suspendFor hnot hready] at hu
  rw [h.threads, h.eventSet, h.eventInfo, hthread]
  rcases hu with hu | ⟨rfl, rfl⟩
  · have hut : u ≠ t := ne_of_mem_of_not_mem hu (hnot r)
    refine .inr ⟨hu, ?_⟩
    simp [setError, hut]
  · refine .inl ⟨rfl, rfl, ?_⟩
    simp [setError]

theorem Sleeps.eventOk (h : Sleeps s t q want option timeout s') (hs : EventOk s) : EventOk s' := by
  have hready : ((setError s.toThreads t .eok).thread t).stat = .ready := by
    simpa [setError] using h.ready
  have hoption : option &&& eventFlagAnd ≠ 0 ∨ option &&& eventFlagOr ≠ 0 := by
    have hstatus := h.status
    unfold recvStatus at hstatus
    split at hstatus
    next hand => exact .inl hand
    next =>
      split at hstatus
      next hor => exact .inr hor
      next => simp at hstatus
  refine ⟨?_, fun u r hu => ?_, fun u r hu => ?_, fun u r hu => ?_⟩
  · rw [h.threads]
    exact suspendFor_waitOk (hs.wait.set rfl) hready
  all_goals
    rcases h.waiting hs hu with ⟨-, -, hset, hinfo, herror⟩ | ⟨hur, hset, hinfo, hthread⟩
  · rw [hset]
    exact h.wanted
  · rw [hset]
    exact hs.want u r hur
  · rwa [hinfo]
  · rw [hinfo]
    exact hs.option u r hur
  · exact herror
  · rw [hthread]
    exact hs.error u r hur

/-- What sending non-zero events does to the list they are sent to. -/
theorem rtEventSend_delivered (hs : EventOk s) (hset : set ≠ 0) :
    EventOk (rtEventSend s q set) ∧ SendKeeps q (s.waiters q) (s.setEvent q (· ||| set)) (rtEventSend s q set) ∧
      ∃ es, List.Forall₂ (fun u e => Receives (sendOutcome (rtEventSend s q set) q u) e) (s.waiters q) es ∧
        Delivered (bits ((s.event q).set ||| set)) ((s.waiters q).map s.interest) es
          (bits ((rtEventSend s q set).event q).set) := by
  have hs1 : EventOk (s.setEvent q (· ||| set)) := ⟨hs.wait, hs.want, hs.option, hs.error⟩
  have h := sendTurns_delivered hs1 (hs.wait.nodup q) fun u hu => hu
  rw [setEvent_self] at h
  unfold rtEventSend
  rw [if_neg hset]
  exact h

theorem rtEventSend_eventOk (hs : EventOk s) : EventOk (rtEventSend s q set) := by
  by_cases hset : set = 0
  · simpa [rtEventSend, hset] using hs
  · exact (rtEventSend_delivered hs hset).1

theorem eventStep_eventOk (hs : EventOk s) (h : eventStep s a = some s') : EventOk s' := by
  rcases eventStep_cases hs h with ⟨hshrinks, -⟩ | ⟨q, set, rfl⟩ | ⟨t, q, want, option, timeout, hsleeps⟩
  · exact hshrinks.eventOk hs
  · exact rtEventSend_eventOk hs
  · exact hsleeps.eventOk hs

theorem EventStart.eventOk (h : EventStart s) : EventOk s := by
  have hno : ∀ u q, u ∉ s.waiters q := fun u q => by simp [h.waiters q]
  refine ⟨⟨fun q => by simp [h.waiters q], ?_, ?_⟩, ?_, ?_, ?_⟩
  · exact fun u q r hu => absurd hu (hno u q)
  all_goals exact fun u q hu => absurd hu (hno u q)

/-- Every state reached keeps its waiting threads well formed. -/
theorem eventReach_eventOk (hr : Reach eventStep (fun _ _ => True) EventStart s) : EventOk s :=
  hr.invariant (fun _ h => h.eventOk) fun _ _ _ hs _ h => eventStep_eventOk hs h

/-- Sending to waiting receivers is sending to nobody, and then letting the receivers call in list
order. -/
theorem rtEventSend_linearises {idle : EventState} (hs : EventOk s) (hset : set ≠ 0)
    (hidle : idle.waiters q = []) (hevent : (idle.event q).set = (s.event q).set) :
    ∃ final, recvInTurn q (s.requests q) (rtEventSend idle q set) =
        some (final, (s.waiters q).map (sendOutcome (rtEventSend s q set) q)) ∧
      (final.event q).set = ((rtEventSend s q set).event q).set ∧
      ((rtEventSend s q set).waiters q).Sublist (s.waiters q) ∧
      (∀ t ∈ s.waiters q, t ∉ (rtEventSend s q set).waiters q →
        ((rtEventSend s q set).thread t).stat = .ready ∧
          ∃ v, sendOutcome (rtEventSend s q set) q t = .returned .eok (some v)) ∧
      ∀ u, u ∉ s.waiters q → (rtEventSend s q set).thread u = s.thread u := by
  obtain ⟨-, hkeeps, es, hes, hd⟩ := rtEventSend_delivered hs hset
  have hsent : ((rtEventSend idle q set).event q).set = (s.event q).set ||| set := by
    have hwait : (idle.setEvent q (· ||| set)).waiters q = [] := hidle
    unfold rtEventSend
    rw [if_neg hset]
    dsimp only
    rw [hwait, List.foldl_nil, setEvent_self, hevent]
  have hrequests : ∀ r ∈ s.requests q, r.want ≠ 0 ∧
      (r.option &&& eventFlagAnd ≠ 0 ∨ r.option &&& eventFlagOr ≠ 0) := by
    intro r hr
    obtain ⟨t, ht, rfl⟩ := List.mem_map.mp hr
    exact ⟨hs.want t q ht, hs.option t q ht⟩
  obtain ⟨final, xs, es', hrun, hxs, hd'⟩ :=
    recvInTurn_delivered (q := q) (s := rtEventSend idle q set) hrequests
  have hmap : (s.requests q).map (fun r => RTThread.interest r.want r.option) =
      (s.waiters q).map s.interest := List.map_map
  rw [hsent, hmap] at hd'
  obtain ⟨rfl, hbits⟩ := hd.unique hd'
  have houtcomes : xs = (s.waiters q).map (sendOutcome (rtEventSend s q set) q) :=
    receives_unique hxs (List.forall₂_map_left_iff.mpr hes)
  refine ⟨final, houtcomes ▸ hrun, (bits_injective hbits).symm, hkeeps.waiters q, fun t ht hgone => ?_,
    fun u hu => (hkeeps.same u (.inl hu)).1⟩
  obtain ⟨hstat, herror⟩ := hkeeps.resumed t ht hgone
  have hcode : ((rtEventSend s q set).thread t).error = .eok := herror.trans (hs.error t q ht)
  refine ⟨hstat, (rtEventSend s q set).eventSet t, ?_⟩
  rw [sendOutcome, if_neg hgone, recvWoken, hcode]
  rfl

theorem rtEventSend_shrinks (set : BitVec 32) (hs : EventOk s) : Shrinks s (rtEventSend s q set) := by
  by_cases hset : set = 0
  · simp only [rtEventSend, hset, if_true]
    exact ⟨fun q => List.Sublist.refl _, fun _ _ _ => rfl, fun _ _ _ => rfl, rfl⟩
  · obtain ⟨-, hkeeps, -⟩ := rtEventSend_delivered hs hset (q := q)
    exact ⟨hkeeps.waiters, fun u r hu => (hkeeps.same u (.inr ⟨r, hu⟩)).1,
      fun u r hu => (hkeeps.same u (.inr ⟨r, hu⟩)).2, hkeeps.eventInfo⟩

theorem rtEventSend_event_ne (hs : EventOk s) (hr : r ≠ q) :
    (rtEventSend s q set).event r = s.event r := by
  by_cases hset : set = 0
  · simp [rtEventSend, hset]
  · obtain ⟨-, hkeeps, -⟩ := rtEventSend_delivered hs hset (q := q)
    exact (hkeeps.event r hr).trans (setEvent_ne hr)

/-- One pass over the list leaves no satisfied thread waiting. -/
theorem rtEventSend_notSatisfied (hs : EventOk s) (hset : set ≠ 0)
    (hu : u ∈ (rtEventSend s q set).waiters q) : ¬ Satisfied (rtEventSend s q set) q u := by
  obtain ⟨hok, hkeeps, es, hes, hd⟩ := rtEventSend_delivered hs hset (q := q)
  have hmem : u ∈ s.waiters q := (hkeeps.waiters q).subset hu
  obtain ⟨n, hn⟩ := List.mem_iff_getElem?.mp hmem
  obtain ⟨hlen, hnu⟩ := List.getElem?_eq_some_iff.mp hn
  have hlen' : n < es.length := hes.length_eq ▸ hlen
  have hnone : es[n]? = some none := by
    have hout := hes.get hlen hlen'
    simp only [List.get_eq_getElem, hnu, sendOutcome, if_pos hu] at hout
    rw [List.getElem?_eq_getElem hlen']
    generalize es[n] = e at hout
    cases hout
    rfl
  rw [hok.satisfied_iff hu, (rtEventSend_shrinks set hs).interest hu]
  refine hd.not_holds (n := n) ?_ hnone
  rw [List.getElem?_map, hn, Option.map_some]

/-- A thread whose condition does not hold is not satisfied by fewer events. -/
theorem Shrinks.notSatisfied (h : Shrinks s s') (hs : EventOk s)
    (hbits : bits (s'.event q).set ⊆ bits (s.event q).set) (hu : u ∈ s'.waiters q)
    (hnot : ¬ Satisfied s q u) : ¬ Satisfied s' q u := by
  have hus : u ∈ s.waiters q := (h.waiters q).subset hu
  rw [hs.satisfied_iff hus] at hnot
  rw [(h.eventOk hs).satisfied_iff hu, h.interest hu]
  exact fun hholds => hnot (hholds.mono hbits)

theorem Sleeps.notSatisfied (h : Sleeps s t q want option timeout s') (hs : EventOk s)
    (hu : u ∈ s'.waiters r) (hnot : u ∈ s.waiters r → ¬ Satisfied s r u) : ¬ Satisfied s' r u := by
  rw [(h.eventOk hs).satisfied_iff hu, EventState.interest, h.event]
  rcases h.waiting hs hu with ⟨-, rfl, hset, hinfo, -⟩ | ⟨hur, hset, hinfo, -⟩
  · rw [hset, hinfo, ← recvStatus_holds h.status]
    simp
  · rw [hset, hinfo]
    exact (hs.satisfied_iff hur).not.mp (hnot hur)

theorem eventStep_notSatisfied (hs : EventOk s) (hn : ∀ q, ∀ u ∈ s.waiters q, ¬ Satisfied s q u)
    (h : eventStep s a = some s') : ∀ q, ∀ u ∈ s'.waiters q, ¬ Satisfied s' q u := by
  intro r u hu
  rcases eventStep_cases hs h with ⟨hshrinks, hbits⟩ | ⟨q, set, rfl⟩ | ⟨t, q, want, option, timeout, hsleeps⟩
  · exact hshrinks.notSatisfied hs (hbits r) hu (hn r u ((hshrinks.waiters r).subset hu))
  · have hshrinks := rtEventSend_shrinks set hs (q := q)
    have hold := hn r u ((hshrinks.waiters r).subset hu)
    by_cases hr : r = q
    · subst hr
      by_cases hset : set = 0
      · simpa [rtEventSend, hset] using hold
      · exact rtEventSend_notSatisfied hs hset hu
    · exact hshrinks.notSatisfied hs (rtEventSend_event_ne hs hr ▸ subset_rfl) hu hold
  · exact hsleeps.notSatisfied hs hu (hn r u)

/-- No thread waits for events that have come. -/
theorem eventReach_notSatisfied (hr : Reach eventStep (fun _ _ => True) EventStart s) (q : ObjectId) :
    ∀ u ∈ s.waiters q, ¬ Satisfied s q u := by
  induction hr generalizing q with
  | start h =>
    intro u hu
    simp [h.waiters q] at hu
  | step hr _ hs ih => exact eventStep_notSatisfied (eventReach_eventOk hr) (fun q => ih q) hs q

end

def eventStartState : EventState where
  thread _ := ⟨.ready, 10, 10, .eok, false, 0, 0, []⟩
  waiters _ := []
  event _ := ⟨.fifo, 0⟩
  eventSet _ := 0
  eventInfo _ := 0
  frame _ := none

/-- One thread waits for any of two events, to take them, and one for both of two. -/
def twoReceivers : EventState :=
  (runFrom eventStep [.recv 1 0 3 6 (-1), .recv 2 0 5 1 (-1)] eventStartState).get (by decide +kernel)

theorem twoReceivers_reach : Reach eventStep (fun _ _ => True) EventStart twoReceivers :=
  Reach.runFrom (runMeets_of_forall fun _ _ _ => trivial) (.start ⟨fun _ => rfl, fun _ => rfl, fun _ => rfl⟩)
    (Option.some_get _).symm

/-- The first thread is resumed and takes away an event that the second waits for. -/
theorem rtEventSend_linearises_twoReceivers :
    ∃ final, recvInTurn 0 (twoReceivers.requests 0) (rtEventSend eventStartState 0 5) =
        some (final, [.returned .eok (some 1), .returned .etimeout none]) ∧ (final.event 0).set = 4 := by
  obtain ⟨final, hrun, hset, -⟩ := @rtEventSend_linearises twoReceivers 0 5 eventStartState
    (eventReach_eventOk twoReceivers_reach) (by decide) rfl (by decide +kernel)
  have houtcomes : (twoReceivers.waiters 0).map (sendOutcome (rtEventSend twoReceivers 0 5) 0) =
      [.returned .eok (some 1), .returned .etimeout none] := by decide +kernel
  rw [houtcomes] at hrun
  exact ⟨final, hrun, hset.trans (by decide +kernel)⟩

theorem eventReach_notSatisfied_twoReceivers :
    ¬ Satisfied twoReceivers 0 1 ∧ ¬ Satisfied twoReceivers 0 2 :=
  ⟨eventReach_notSatisfied twoReceivers_reach 0 1 (by decide +kernel),
    eventReach_notSatisfied twoReceivers_reach 0 2 (by decide +kernel)⟩

end RTThread
