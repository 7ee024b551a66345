import RTThread.DataQueueModel

namespace RTThread

/-- How many items are stored: the distance of the indices as the 16-bit numbers they are. -/
def DataQueue.count (x : DataQueue) : Nat := (x.putIndex + 65536 - x.getIndex) % 65536

/-- Where the `i`th stored item lies. -/
def DataQueue.slot (x : DataQueue) (i : Nat) : Nat := (x.getIndex + i) % 65536 % x.size

/-- The stored items, oldest first. -/
def DataQueue.contents (x : DataQueue) : List DataItem :=
  (List.range x.count).map fun i => x.queue (x.slot i)

/-- The put index has not wrapped, or else there is room and a free slot where it points. -/
def DataQueue.RoomAhead (x : DataQueue) : Prop :=
  x.getIndex ≤ x.putIndex ∨ x.count < x.size ∧ ∀ i < x.count, x.slot i ≠ x.putIndex % x.size

structure DataQueue.Ok (x : DataQueue) : Prop where
  size : 0 < x.size ∧ x.size ≤ 65535
  getIndex : x.getIndex < 65536
  putIndex : x.putIndex < 65536
  count : x.count ≤ x.size

/-- The items pushed to `q`, in order. -/
def pushedTo (q : ObjectId) : List DqEvent → List DataItem
  | [] => []
  | .pushed r item :: log => if r = q then pushedTo q log ++ [item] else pushedTo q log
  | _ :: log => pushedTo q log

/-- The items popped from `q`, in order. -/
def poppedFrom (q : ObjectId) : List DqEvent → List DataItem
  | [] => []
  | .popped r item :: log => if r = q then poppedFrom q log ++ [item] else poppedFrom q log
  | _ :: log => poppedFrom q log

/-- The queue and the item, if the step is at the test of the loop of `rt_data_queue_push`. -/
def DqAction.pushes (s : DqState) : DqAction → Option (ObjectId × DataItem)
  | .push _ q item _ => some (q, item)
  | .again t =>
    match s.frame t with
    | .again q (.push item) _ => some (q, item)
    | _ => none
  | _ => none

/-- A push that does not block has room ahead. -/
def KeepsItems (s : DqState) (a : DqAction) : Prop :=
  ∀ p ∈ a.pushes s, (s.dataQueue p.1).blocked (.push p.2) = true ∨ (s.dataQueue p.1).RoomAhead

instance decidableRoomAhead : DecidablePred DataQueue.RoomAhead := fun x =>
  inferInstanceAs (Decidable (_ ∨ _ ∧ ∀ i < x.count, _))

instance decidableKeepsItems : DecidableRel KeepsItems := fun s a =>
  Option.decidableForallMem (a.pushes s)

/-- Every queue just initialised with a size from 1 to 65535, nobody in a call. -/
structure DqStart (s : DqState) : Prop where
  dataQueue : ∀ q, ∃ queue size lwm evtNotify, 0 < size ∧ size ≤ 65535 ∧
    s.dataQueue q = rtDataQueueInit queue size lwm evtNotify
  waiters : ∀ q, s.waiters q = []
  frame : ∀ t, s.frame t = .outside

def DqReach (ok : DqState → DqAction → Prop) : DqState × List DqEvent → Prop :=
  Reach dqLogStep (fun x a => ok x.1 a) fun x => DqStart x.1 ∧ x.2 = []

/-- What a step does to the queues, if it pushes only where there is room ahead. -/
inductive DqEffect (s s' : DqState) (e : List DqEvent) : Prop where
  | keeps (hq : s'.dataQueue = s.dataQueue)
      (he : ∀ q log, pushedTo q (e ++ log) = pushedTo q log ∧ poppedFrom q (e ++ log) = poppedFrom q log)
  | put (q : ObjectId) (item : DataItem) (hb : (s.dataQueue q).blocked (.push item) = false)
      (hroom : (s.dataQueue q).RoomAhead)
      (hq : s'.dataQueue = Function.update s.dataQueue q ((s.dataQueue q).put item))
      (he : ∀ r log, pushedTo r (e ++ log) =
          (if r = q then pushedTo r log ++ [item] else pushedTo r log) ∧
        poppedFrom r (e ++ log) = poppedFrom r log)
  | take (q : ObjectId) (hb : (s.dataQueue q).blocked .pop = false)
      (hq : s'.dataQueue = Function.update s.dataQueue q (s.dataQueue q).take)
      (he : ∀ r log, pushedTo r (e ++ log) = pushedTo r log ∧
        poppedFrom r (e ++ log) =
          if r = q then poppedFrom r log ++ [(s.dataQueue q).first] else poppedFrom r log)

section
variable {x : DataQueue} {s s' : DqState} {q r : ObjectId} {item : DataItem} {c : Caller} {t : ThreadId}
  {call : DqCall} {timeout : Int} {e : List DqEvent} {log : List DqEvent} {i : Nat}

theorem slot_count (h : x.Ok) : x.slot x.count = x.putIndex % x.size := by
  have hget := h.getIndex
  have hput := h.putIndex
  have hmod : (x.getIndex + x.count) % 65536 = x.putIndex := by
    unfold DataQueue.count
    omega
  rw [DataQueue.slot, hmod]

theorem contents_length : x.contents.length = x.count := by simp [DataQueue.contents]

theorem blocked_pop (h : x.Ok) : x.blocked .pop = true ↔ x.contents = [] := by
  have hget := h.getIndex
  have hput := h.putIndex
  rw [← List.length_eq_zero_iff, contents_length]
  simp only [DataQueue.blocked, DataQueue.count, decide_eq_true_eq]
  omega

/-- As long as there is room ahead, a push blocks exactly when the queue is full. -/
theorem blocked_push (h : x.Ok) (hroom : x.blocked (.push item) = true ∨ x.RoomAhead) :
    x.blocked (.push item) = true ↔ x.contents.length = x.size := by
  have hget := h.getIndex
  have hput := h.putIndex
  have hsize := h.size
  rw [contents_length]
  unfold DataQueue.RoomAhead at hroom
  simp only [DataQueue.blocked, DataQueue.count, decide_eq_true_eq] at hroom ⊢
  omega

/-- A push that has room ahead writes a slot in which nothing is stored. -/
theorem slot_free (h : x.Ok) (hb : x.blocked (.push item) = false) (hroom : x.RoomAhead) :
    x.count < x.size ∧ ∀ i < x.count, x.slot i ≠ x.putIndex % x.size := by
  have hcount := h.count
  have hput := h.putIndex
  have hfull := (blocked_push h (.inr hroom)).not.mp (Bool.not_eq_true _ ▸ hb)
  rw [contents_length] at hfull
  rcases hroom with hle | hroom
  · refine ⟨by omega, fun i hi heq => ?_⟩
    have hdist : x.putIndex = x.getIndex + x.count := by
      unfold DataQueue.count
      omega
    have hlt : x.getIndex + i < 65536 := by omega
    have hslot : x.slot i = (x.getIndex + i) % x.size := by
      rw [DataQueue.slot, Nat.mod_eq_of_lt hlt]
    rw [hslot, hdist] at heq
    have hcancel : i % x.size = x.count % x.size :=
      Nat.ModEq.add_left_cancel' x.getIndex heq
    rw [Nat.mod_eq_of_lt (by omega), Nat.mod_eq_of_lt (by omega)] at hcancel
    omega
  · exact hroom

theorem DataQueue.Ok.put (h : x.Ok) (hb : x.blocked (.push item) = false) (hroom : x.RoomAhead) :
    (x.put item).Ok ∧ (x.put item).contents = x.contents ++ [item] := by
  obtain ⟨hlt, hfree⟩ := slot_free h hb hroom
  have hsize := h.size
  have hget := h.getIndex
  have hput := h.putIndex
  have hcount : (x.put item).count = x.count + 1 := by
    simp only [DataQueue.put, DataQueue.count] at hlt ⊢
    omega
  have hslot : ∀ i, (x.put item).slot i = x.slot i := fun _ => rfl
  refine ⟨⟨hsize, hget, Nat.mod_lt _ (by decide), by rw [hcount]; exact hlt⟩, ?_⟩
  unfold DataQueue.contents
  rw [hcount, List.range_succ, List.map_append]
  have hold : (List.range x.count).map (fun i => (x.put item).queue ((x.put item).slot i)) =
      (List.range x.count).map fun i => x.queue (x.slot i) :=
    List.map_congr_left fun i hi => Function.update_of_ne (hfree i (List.mem_range.mp hi)) ..
  have hnew : (x.put item).queue ((x.put item).slot x.count) = item := by
    rw [hslot, slot_count h]
    exact Function.update_self ..
  rw [hold]
  simp [hnew]

theorem DataQueue.Ok.take (h : x.Ok) (hb : x.blocked .pop = false) :
    x.take.Ok ∧ x.contents = x.first :: x.take.contents := by
  have hne := (blocked_pop h).not.mp (Bool.not_eq_true _ ▸ hb)
  rw [← List.length_eq_zero_iff, contents_length] at hne
  have hcount' := h.count
  have hget := h.getIndex
  have hput := h.putIndex
  have hcount : x.count = x.take.count + 1 := by
    simp only [DataQueue.take, DataQueue.count] at hne ⊢
    omega
  refine ⟨⟨h.size, Nat.mod_lt _ (by decide), hput, ?_⟩, ?_⟩
  · change x.take.count ≤ x.size
    omega
  · unfold DataQueue.contents
    rw [hcount, List.range_succ_eq_map, List.map_cons, List.map_map]
    have hfirst : x.slot 0 = x.getIndex % x.size := by
      rw [DataQueue.slot, Nat.add_zero, Nat.mod_eq_of_lt hget]
    rw [hfirst]
    refine congrArg _ (List.map_congr_left fun i _ => ?_)
    have hslot : x.slot (i + 1) = x.take.slot i := by
      simp only [DataQueue.slot, DataQueue.take]
      congr 1
      omega
    rw [Function.comp_apply, hslot]
    rfl

theorem notify_keeps {event : DqNotify} : pushedTo r (x.notify q event ++ log) = pushedTo r log ∧
    poppedFrom r (x.notify q event ++ log) = poppedFrom r log := by
  unfold DataQueue.notify
  split <;> exact ⟨rfl, rfl⟩

theorem dqPush_effect (hb : (s.dataQueue q).blocked (.push item) = false)
    (hroom : (s.dataQueue q).RoomAhead) : DqEffect s (dqPush s q item).1 (dqPush s q item).2 := by
  refine .put q item hb hroom ?_ fun r log => ?_
  · unfold dqPush
    dsimp only
    split <;> rfl
  · unfold dqPush
    dsimp only
    split
    · simp only [List.singleton_append, pushedTo, poppedFrom, eq_comm, and_self]
    · rw [List.append_assoc, notify_keeps.1, notify_keeps.2]
      simp only [List.singleton_append, pushedTo, poppedFrom, eq_comm, and_self]

theorem dqPop_effect (hb : (s.dataQueue q).blocked .pop = false) :
    DqEffect s (dqPop s q).1 (dqPop s q).2 := by
  refine .take q hb ?_ fun r log => ?_
  · unfold dqPop
    dsimp only
    split
    · dsimp only
      split <;> rfl
    · rfl
  · unfold dqPop
    dsimp only
    split
    all_goals
      rw [List.append_assoc, notify_keeps.1, notify_keeps.2]
      simp only [List.singleton_append, pushedTo, poppedFrom, eq_comm, and_self]

theorem leave_dataQueue : (s.leave c).dataQueue = s.dataQueue := by
  cases c <;> rfl

theorem DqEffect.congr {s1 : DqState} (h : DqEffect s1 s' e) (hs : s1.dataQueue = s.dataQueue) :
    DqEffect s s' e := by
  cases h with
  | keeps hq he => exact .keeps (hq.trans hs) he
  | put q item hb hroom hq he => exact .put q item (hs ▸ hb) (hs ▸ hroom) (hs ▸ hq) he
  | take q hb hq he => exact .take q (hs ▸ hb) (hs ▸ hq) (hs ▸ he)

theorem dqLoop_effect (hk : ∀ item, call = .push item →
      (s.dataQueue q).blocked (.push item) = true ∨ (s.dataQueue q).RoomAhead)
    (h : dqLoop s q c call timeout = some (s', e)) : DqEffect s s' e := by
  have hleave : (s.leave c).dataQueue = s.dataQueue := leave_dataQueue
  unfold dqLoop at h
  split at h
  next =>
    split at h
    next =>
      obtain ⟨rfl, rfl⟩ := Prod.mk.inj (Option.some.inj h)
      exact .keeps hleave fun _ _ => ⟨rfl, rfl⟩
    next =>
      split at h
      next => cases h
      next =>
        obtain ⟨rfl, rfl⟩ := Prod.mk.inj (Option.some.inj h)
        exact .keeps rfl fun _ _ => ⟨rfl, rfl⟩
  next hb =>
    rw [Bool.not_eq_true] at hb
    split at h
    next item =>
      have hroom := (hk item rfl).resolve_left (by simp [hb])
      have heffect : DqEffect (s.leave c) (dqPush (s.leave c) q item).1 (dqPush (s.leave c) q item).2 :=
        dqPush_effect (by rw [hleave]; exact hb) (by rw [hleave]; exact hroom)
      rw [Option.some.inj h] at heffect
      exact heffect.congr hleave
    next =>
      have heffect := dqPop_effect (s := s.leave c) (q := q) (by rw [hleave]; exact hb)
      rw [Option.some.inj h] at heffect
      exact heffect.congr hleave

theorem dqStep_effect {a : DqAction} (hk : KeepsItems s a) (h : dqStep s a = some (s', e)) :
    DqEffect s s' e := by
  cases a with
  | push c q item timeout =>
    refine dqLoop_effect (fun item' heq => ?_) (Option.ite_none_right_eq_some.mp h).2
    cases heq
    exact hk (q, item) rfl
  | pop c q timeout => exact dqLoop_effect (by simp) (Option.ite_none_right_eq_some.mp h).2
  | peak q =>
    obtain ⟨rfl, rfl⟩ := Prod.mk.inj (Option.some.inj h)
    exact .keeps rfl fun _ _ => ⟨rfl, rfl⟩
  | wake t =>
    have h := (Option.ite_none_right_eq_some.mp h).2
    unfold dqWake at h
    split at h
    next =>
      split at h <;> obtain ⟨rfl, rfl⟩ := Prod.mk.inj (Option.some.inj h)
      · exact .keeps rfl fun _ _ => ⟨rfl, rfl⟩
      · exact .keeps rfl fun _ _ => ⟨rfl, rfl⟩
    next => cases h
  | again t =>
    have h := (Option.ite_none_right_eq_some.mp h).2
    unfold dqAgain at h
    split at h
    next q call timeout hf =>
      refine dqLoop_effect (fun item heq => ?_) h
      refine hk (q, item) ?_
      simp [DqAction.pushes, hf, heq]
    next => cases h
  | timeout t =>
    obtain ⟨threads, -, heq⟩ := Option.map_eq_some_iff.mp h
    obtain ⟨rfl, rfl⟩ := Prod.mk.inj heq
    exact .keeps rfl fun _ _ => ⟨rfl, rfl⟩
  | tick =>
    obtain ⟨rfl, rfl⟩ := Prod.mk.inj (Option.some.inj h)
    exact .keeps rfl fun _ _ => ⟨rfl, rfl⟩

/-- The queue is sound, and what was pushed is what was popped and then what is stored. -/
def DqFifo (x : DqState × List DqEvent) (q : ObjectId) : Prop :=
  (x.1.dataQueue q).Ok ∧ pushedTo q x.2 = poppedFrom q x.2 ++ (x.1.dataQueue q).contents

theorem DqEffect.fifo (h : DqEffect s s' e) (hx : ∀ q, DqFifo (s, log) q) (q : ObjectId) :
    DqFifo (s', e ++ log) q := by
  obtain ⟨hok, hlog⟩ := hx q
  cases h with
  | keeps hq he =>
    refine ⟨hq ▸ hok, ?_⟩
    rw [(he q log).1, (he q log).2, hq]
    exact hlog
  | put r item hb hroom hq he =>
    unfold DqFifo
    dsimp only at hok hlog ⊢
    rw [(he q log).1, (he q log).2, hq]
    by_cases hr : q = r
    · subst hr
      obtain ⟨hput, hcontents⟩ := hok.put hb hroom
      rw [if_pos rfl, Function.update_self, hcontents, hlog, List.append_assoc]
      exact ⟨hput, rfl⟩
    · rw [if_neg hr, Function.update_of_ne hr]
      exact ⟨hok, hlog⟩
  | take r hb hq he =>
    unfold DqFifo
    dsimp only at hok hlog ⊢
    rw [(he q log).1, (he q log).2, hq]
    by_cases hr : q = r
    · subst hr
      obtain ⟨htake, hcontents⟩ := hok.take hb
      rw [if_pos rfl, Function.update_self, hlog, hcontents, List.append_assoc]
      exact ⟨htake, rfl⟩
    · rw [if_neg hr, Function.update_of_ne hr]
      exact ⟨hok, hlog⟩

theorem DqStart.fifo (h : DqStart s) (q : ObjectId) : DqFifo (s, []) q := by
  obtain ⟨queue, size, lwm, evtNotify, hpos, hle, hq⟩ := h.dataQueue q
  have hsize : size % 65536 = size := Nat.mod_eq_of_lt (by omega)
  have hcount : (rtDataQueueInit queue size lwm evtNotify).count = 0 := by
    simp [rtDataQueueInit, DataQueue.count]
  unfold DqFifo
  dsimp only
  rw [hq]
  refine ⟨⟨?_, Nat.zero_lt_succ _, Nat.zero_lt_succ _, by rw [hcount]; exact Nat.zero_le _⟩, ?_⟩
  · simp only [rtDataQueueInit, hsize]
    exact ⟨hpos, hle⟩
  · simp [DataQueue.contents, hcount, pushedTo, poppedFrom]

theorem dqReach_dqFifo {x : DqState × List DqEvent} (hr : DqReach KeepsItems x) (q : ObjectId) :
    DqFifo x q := by
  refine hr.invariant (I := fun x => ∀ q, DqFifo x q) (fun y hy => ?_) (fun y a y' hy hk hs => ?_) q
  · obtain ⟨hstart, hlog⟩ := hy
    have hpair : y = (y.1, []) := by rw [← hlog]
    rw [hpair]
    exact hstart.fifo
  · obtain ⟨⟨s', e⟩, hstep, rfl⟩ := Option.map_eq_some_iff.mp hs
    exact (dqStep_effect hk hstep).fifo hy

end

/-- Queues with room for one item. -/
def dqStartState : DqState where
  thread _ := ⟨.ready, 10, 10, .eok, false, 0, 0, []⟩
  waiters _ := []
  dataQueue _ := rtDataQueueInit (fun _ => ⟨0, 0⟩) 1 0 false
  tick := 0
  frame _ := .outside

theorem dqStartState_start : DqStart dqStartState :=
  ⟨fun _ => ⟨fun _ => ⟨0, 0⟩, 1, 0, false, by decide, by decide, rfl⟩, fun _ => rfl, fun _ => rfl⟩

/-- An item is pushed, popped and followed by another. -/
def afterThreeCalls : DqState × List DqEvent :=
  (runFrom dqLogStep [.push (.interrupt 0) 0 ⟨1, 1⟩ 0, .pop (.thread 1) 0 5,
    .push (.thread 1) 0 ⟨2, 1⟩ 5] (dqStartState, [])).get (by decide +kernel)

/-- The state after `n` items have been pushed and popped again. -/
structure Passed (n : Nat) (s : DqState) : Prop where
  waiters : ∀ q, s.waiters q = []
  queue : ∃ items, s.dataQueue 0 = ⟨1, 0, n % 65536, n % 65536, items, false⟩

theorem Passed.push {s : DqState} {n : Nat} (h : Passed n s) :
    dqStep s (.push (.interrupt 0) 0 ⟨1, 1⟩ 0) =
      some (s.setQueue 0 fun x => x.put ⟨1, 1⟩, [.pushed 0 ⟨1, 1⟩]) := by
  obtain ⟨hwaiters, items, hq⟩ := h
  have hb : (s.dataQueue 0).blocked (.push ⟨1, 1⟩) = false := by
    rw [hq]
    simp [DataQueue.blocked]
  have hnotify : (s.dataQueue 0).notify 0 .push = [] := by
    rw [hq]
    rfl
  simp only [dqStep, DqState.canCall, if_true, rtDataQueuePush, dqLoop, hb, DqState.leave, dqPush,
    hwaiters, hnotify]
  rfl

theorem Passed.next {s : DqState} {n : Nat} (h : Passed n s) : ∃ s' e,
    dqStep (s.setQueue 0 fun x => x.put ⟨1, 1⟩) (.pop (.interrupt 0) 0 0) = some (s', e) ∧
      Passed (n + 1) s' := by
  obtain ⟨hwaiters, items, hq⟩ := h
  have hq1 : (s.setQueue 0 fun x => x.put ⟨1, 1⟩).dataQueue 0 = (s.dataQueue 0).put ⟨1, 1⟩ :=
    setQueue_self
  have hb : ((s.dataQueue 0).put ⟨1, 1⟩).blocked .pop = false := by
    rw [hq]
    have hne : n % 65536 ≠ (n % 65536 + 1) % 65536 := by omega
    exact decide_eq_false hne
  have hlow : (((s.dataQueue 0).put ⟨1, 1⟩).take.putIndex : Int) -
      ((s.dataQueue 0).put ⟨1, 1⟩).take.getIndex ≤ ((s.dataQueue 0).put ⟨1, 1⟩).take.lwm := by
    rw [hq]
    simp [DataQueue.put, DataQueue.take]
  refine ⟨(s.setQueue 0 fun x => x.put ⟨1, 1⟩).setQueue 0 fun _ => ((s.dataQueue 0).put ⟨1, 1⟩).take,
    [.popped 0 ((s.dataQueue 0).put ⟨1, 1⟩).first], ?_, hwaiters, Function.update items
      (n % 65536 % 1) ⟨1, 1⟩, ?_⟩
  · have hlist : (s.setQueue 0 fun x => x.put ⟨1, 1⟩).waiters (pushList 0) = [] := hwaiters _
    have hnotify : ((s.dataQueue 0).put ⟨1, 1⟩).take.notify 0 .lwm = [] := by
      rw [hq]
      rfl
    simp only [dqStep, DqState.canCall, if_true, rtDataQueuePop, dqLoop, hq1, hb, DqState.leave, dqPop,
      hlow, hlist, hnotify]
    rfl
  · rw [setQueue_self, hq]
    simp only [DataQueue.put, DataQueue.take, Nat.mod_add_mod]

theorem passed_reach (n : Nat) : ∃ x, DqReach (fun _ _ => True) x ∧ Passed n x.1 := by
  induction n with
  | zero =>
    exact ⟨(dqStartState, []), .start ⟨dqStartState_start, rfl⟩, fun _ => rfl, fun _ => ⟨0, 0⟩, rfl⟩
  | succ n ih =>
    obtain ⟨x, hr, hpassed⟩ := ih
    obtain ⟨s', e, hpop, hnext⟩ := hpassed.next
    have hpushed := hr.step (a := .push (.interrupt 0) 0 ⟨1, 1⟩ 0) trivial
      (by rw [dqLogStep, hpassed.push]; rfl)
    have hpopped := hpushed.step (a := .pop (.interrupt 0) 0 0) trivial (by rw [dqLogStep, hpop]; rfl)
    exact ⟨_, hpopped, hnext⟩

end RTThread
