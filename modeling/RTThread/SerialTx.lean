import RTThread.DataQueueFifo

namespace RTThread

/-- Where a writer stands in `_serial_dma_tx`: past the push, or about to call `dma_transmit`. -/
inductive TxPlace where
  | outside
  | pushed (item : DataItem)
  | starting (item : DataItem)
deriving DecidableEq

/-- `struct rt_serial_tx_dma`, the writers and the transfers that the hardware has begun and not
ended. -/
structure TxState where
  queue : DataQueue
  activated : Bool
  place : ThreadId → TxPlace
  transfers : List DataItem

inductive TxEvent where
  | pushed (item : DataItem)
  | sent (item : DataItem)
  | ended (item : DataItem)
  | reported (ptr : Option Nat)
deriving DecidableEq

def TxEvent.push? : TxEvent → Option DataItem
  | .pushed item => some item
  | _ => none

def TxEvent.send? : TxEvent → Option DataItem
  | .sent item => some item
  | _ => none

def TxEvent.end? : TxEvent → Option DataItem
  | .ended item => some item
  | _ => none

def TxEvent.report? : TxEvent → Option (Option Nat)
  | .reported ptr => some ptr
  | _ => none

inductive TxAction where
  | push (t : ThreadId) (item : DataItem)
  | test (t : ThreadId)
  | transmit (t : ThreadId)
  | done
deriving DecidableEq

def TxState.move (s : TxState) (t : ThreadId) (p : TxPlace) : TxState :=
  { s with place := Function.update s.place t p }

/-- `RT_SERIAL_EVENT_TX_DMADONE`, once the transfer of `item` has ended. A pop of an empty queue
leaves the pointer that is reported unset. -/
def txDmaDone (s : TxState) (item : DataItem) : TxState × List TxEvent :=
  let last := if s.queue.blocked .pop then none else some s.queue.first.dataPtr
  let queue := if s.queue.blocked .pop then s.queue else s.queue.take
  if queue.getIndex = queue.putIndex then
    ({ s with queue, activated := false }, [.ended item, .reported last])
  else
    ({ s with queue, activated := true, transfers := s.transfers ++ [queue.first] },
      [.ended item, .sent queue.first, .reported last])

/-- The steps of the writers, a push of a full queue waiting for room, and the interrupt. -/
def txStep (s : TxState) : TxAction → Option (TxState × List TxEvent)
  | .push t item =>
    if s.place t = .outside ∧ s.queue.blocked (.push item) = false then
      some ({ s with queue := s.queue.put item }.move t (.pushed item), [.pushed item])
    else none
  | .test t =>
    match s.place t with
    | .pushed item =>
      if s.activated then some (s.move t .outside, [])
      else some ({ s with activated := true }.move t (.starting item), [])
    | _ => none
  | .transmit t =>
    match s.place t with
    | .starting item =>
      some ({ s with transfers := s.transfers ++ [item] }.move t .outside, [.sent item])
    | _ => none
  | .done =>
    match s.transfers with
    | [] => none
    | item :: transfers => some (txDmaDone { s with transfers } item)

/-- The device just opened, and the events so far. -/
def txOpened (slots : Nat → DataItem) : TxState × List TxEvent :=
  (⟨rtDataQueueInit slots 8 4 false, false, fun _ => .outside, []⟩, [])

def txRunStep (x : TxState × List TxEvent) (a : TxAction) : Option (TxState × List TxEvent) :=
  (txStep x.1 a).map fun r => (r.1, x.2 ++ r.2)

/-- One transfer at a time; what was sent is what was pushed, in that order, all of it once nothing
is under way; and each completion is reported for the buffer whose transfer ended. -/
structure TxRight (x : TxState × List TxEvent) : Prop where
  single : x.1.transfers.length ≤ 1
  order : x.2.filterMap TxEvent.send? <+: x.2.filterMap TxEvent.push?
  all : (∀ t, x.1.place t = .outside) → x.1.transfers = [] →
    x.2.filterMap TxEvent.send? = x.2.filterMap TxEvent.push?
  reports : x.2.filterMap TxEvent.report? =
    (x.2.filterMap TxEvent.end?).map fun item => some item.dataPtr

/-- A writer that finds no transfer active has its own buffer at the head of the queue, and a push
finds room in the queue. -/
def StartsHead (x : TxState × List TxEvent) : TxAction → Prop
  | .push _ _ => x.1.queue.count < x.1.queue.size
  | .test t => ∀ item, x.1.place t = .pushed item → x.1.activated = false →
      x.1.queue.contents.head? = some item
  | _ => True

/-- What the invariant says of a transmitter that is idle, about to be started by a writer, or
sending the head of the queue. -/
inductive TxPhase (s : TxState) (done sent : List DataItem) : Prop where
  | idle (ha : s.activated = false) (ht : s.transfers = []) (hs : sent = done)
    (hno : ∀ t item, s.place t ≠ .starting item)
    (hwill : s.queue.contents ≠ [] → ∃ t item, s.place t = .pushed item)
  | starting (t : ThreadId) (item : DataItem) (ha : s.activated = true) (ht : s.transfers = [])
    (hs : sent = done) (hp : s.place t = .starting item)
    (hhead : s.queue.contents.head? = some item)
    (hno : ∀ t', t' ≠ t → ∀ item, s.place t' ≠ .starting item)
  | sending (item : DataItem) (ha : s.activated = true) (ht : s.transfers = [item])
    (hs : sent = done ++ [item]) (hhead : s.queue.contents.head? = some item)
    (hno : ∀ t item, s.place t ≠ .starting item)

structure TxInv (x : TxState × List TxEvent) : Prop where
  queue : x.1.queue.Ok
  size : x.1.queue.size = 8
  pushed : x.2.filterMap TxEvent.push? = x.2.filterMap TxEvent.end? ++ x.1.queue.contents
  reports : x.2.filterMap TxEvent.report? =
    (x.2.filterMap TxEvent.end?).map fun item => some item.dataPtr
  phase : TxPhase x.1 (x.2.filterMap TxEvent.end?) (x.2.filterMap TxEvent.send?)

section
variable {x : TxState × List TxEvent} {s : TxState} {q : DataQueue} {item : DataItem}
  {t : ThreadId} {p : TxPlace}

@[simp] theorem move_same : (s.move t p).place t = p := Function.update_self ..

theorem move_other {t' : ThreadId} (h : t' ≠ t) : (s.move t p).place t' = s.place t' :=
  Function.update_of_ne h ..

/-- Moving one writer to a place where it does not start a transfer. -/
theorem move_no_start (hno : ∀ t item, s.place t ≠ .starting item)
    (hp : ∀ item, p ≠ .starting item) : ∀ t' item, (s.move t p).place t' ≠ .starting item := by
  intro t' item
  by_cases ht : t' = t
  · rw [ht, move_same]
    exact hp item
  · rw [move_other ht]
    exact hno t' item

/-- As 8 divides the range of the indices, room is all that a push of 8 slots needs. -/
theorem roomAhead_of_room (h : q.Ok) (hsize : q.size = 8) (hroom : q.count < 8) : q.RoomAhead := by
  have hget := h.getIndex
  have hput := h.putIndex
  right
  rw [hsize]
  refine ⟨hroom, fun i hi => ?_⟩
  unfold DataQueue.slot
  unfold DataQueue.count at hi hroom
  rw [hsize]
  omega

theorem TxInv.right (h : TxInv x) : TxRight x := by
  have hpushed := h.pushed
  refine ⟨?_, ?_, ?_, h.reports⟩
  · cases h.phase with
    | idle _ ht _ _ _ => simp [ht]
    | starting _ _ _ ht _ _ _ _ => simp [ht]
    | sending _ _ ht _ _ _ => simp [ht]
  · rw [hpushed]
    cases h.phase with
    | idle _ _ hs _ _ => rw [hs]; exact List.prefix_append ..
    | starting _ _ _ _ hs _ _ _ => rw [hs]; exact List.prefix_append ..
    | sending item _ _ hs hhead _ =>
      obtain ⟨rest, hrest⟩ := List.head?_eq_some_iff.mp hhead
      rw [hs, hrest]
      exact ⟨rest, by simp⟩
  · intro houtside hnone
    cases h.phase with
    | idle _ _ hs _ hwill =>
      have hempty : x.1.queue.contents = [] := by
        by_contra hne
        obtain ⟨t, item, hp⟩ := hwill hne
        rw [houtside t] at hp
        exact TxPlace.noConfusion hp
      rw [hs, hpushed, hempty, List.append_nil]
    | starting t _ _ _ _ hp _ _ =>
      rw [houtside t] at hp
      exact TxPlace.noConfusion hp
    | sending _ _ ht _ _ _ =>
      rw [hnone] at ht
      simp at ht

theorem txOpened_empty (slots : Nat → DataItem) : (txOpened slots).1.queue.contents = [] := by
  simp [txOpened, rtDataQueueInit, DataQueue.contents, DataQueue.count]

theorem txInv_opened (slots : Nat → DataItem) : TxInv (txOpened slots) := by
  have hempty := txOpened_empty slots
  have hqueue : (txOpened slots).1.queue.Ok :=
    ⟨show 0 < 8 ∧ 8 ≤ 65535 by decide, show 0 < 65536 by decide, show 0 < 65536 by decide,
      show (0 + 65536 - 0) % 65536 ≤ 8 by decide⟩
  refine ⟨hqueue, rfl, ?_, rfl, ?_⟩
  · rw [hempty]
    rfl
  · exact .idle rfl rfl rfl (fun _ _ h => TxPlace.noConfusion h) fun h => absurd hempty h

theorem TxInv.push (h : TxInv x) (hok : StartsHead x (.push t item))
    (hp : x.1.place t = .outside) (hb : x.1.queue.blocked (.push item) = false) :
    TxInv ({ x.1 with queue := x.1.queue.put item }.move t (.pushed item),
      x.2 ++ [.pushed item]) := by
  have hroom : x.1.queue.count < 8 := h.size ▸ hok
  obtain ⟨hq, hcontents⟩ := h.queue.put hb (roomAhead_of_room h.queue h.size hroom)
  have hlater : ∀ {i}, x.1.queue.contents.head? = some i →
      (x.1.queue.put item).contents.head? = some i := by
    intro i hhead
    rw [hcontents, List.head?_append, hhead]
    rfl
  refine ⟨hq, h.size, ?_, ?_, ?_⟩
  · show (x.2 ++ [TxEvent.pushed item]).filterMap TxEvent.push? =
      (x.2 ++ [TxEvent.pushed item]).filterMap TxEvent.end? ++ (x.1.queue.put item).contents
    rw [hcontents]
    simp [List.filterMap_cons, TxEvent.push?, TxEvent.end?, h.pushed]
  · simp [List.filterMap_cons, TxEvent.report?, TxEvent.end?, h.reports]
  · simp only [List.filterMap_append, List.filterMap_cons, List.filterMap_nil, TxEvent.end?,
      TxEvent.send?, List.append_nil]
    cases h.phase with
    | idle ha ht hs hno _ =>
      exact .idle ha ht hs (move_no_start hno fun _ hne => TxPlace.noConfusion hne)
        fun _ => ⟨t, item, move_same⟩
    | starting t0 i ha ht hs hp0 hhead hno =>
      have hne : t0 ≠ t := by
        rintro rfl
        rw [hp] at hp0
        exact TxPlace.noConfusion hp0
      refine .starting t0 i ha ht hs ((move_other hne).trans hp0) (hlater hhead) ?_
      intro t' ht' i'
      by_cases hsame : t' = t
      · rw [hsame, move_same]
        exact fun hno => TxPlace.noConfusion hno
      · rw [move_other hsame]
        exact hno t' ht' i'
    | sending i ha ht hs hhead hno =>
      exact .sending i ha ht hs (hlater hhead)
        (move_no_start hno fun _ hne => TxPlace.noConfusion hne)

/-- A writer whose test finds a transfer active leaves. -/
theorem TxInv.leave (h : TxInv x) (hp : x.1.place t = .pushed item) (ha : x.1.activated = true) :
    TxInv (x.1.move t .outside, x.2) := by
  refine ⟨h.queue, h.size, h.pushed, h.reports, ?_⟩
  cases h.phase with
  | idle hno _ _ _ _ =>
    rw [ha] at hno
    exact Bool.noConfusion hno
  | starting t0 i ha ht hs hp0 hhead hno =>
    have hne : t0 ≠ t := by
      rintro rfl
      rw [hp] at hp0
      exact TxPlace.noConfusion hp0
    refine .starting t0 i ha ht hs ((move_other hne).trans hp0) hhead ?_
    intro t' ht' i'
    by_cases hsame : t' = t
    · rw [hsame, move_same]
      exact fun hno => TxPlace.noConfusion hno
    · rw [move_other hsame]
      exact hno t' ht' i'
  | sending i ha ht hs hhead hno =>
    exact .sending i ha ht hs hhead (move_no_start hno fun _ hne => TxPlace.noConfusion hne)

theorem TxInv.set (h : TxInv x) (hok : StartsHead x (.test t)) (hp : x.1.place t = .pushed item)
    (ha : x.1.activated = false) :
    TxInv ({ x.1 with activated := true }.move t (.starting item), x.2) := by
  refine ⟨h.queue, h.size, h.pushed, h.reports, ?_⟩
  cases h.phase with
  | idle _ ht hs hno _ =>
    refine .starting t item rfl ht hs move_same (hok item hp ha) ?_
    intro t' ht' i'
    rw [move_other ht']
    exact hno t' i'
  | starting _ _ hyes _ _ _ _ _ =>
    rw [ha] at hyes
    exact Bool.noConfusion hyes
  | sending _ hyes _ _ _ _ =>
    rw [ha] at hyes
    exact Bool.noConfusion hyes

theorem TxInv.transmit (h : TxInv x) (hp : x.1.place t = .starting item) :
    TxInv ({ x.1 with transfers := x.1.transfers ++ [item] }.move t .outside,
      x.2 ++ [.sent item]) := by
  refine ⟨h.queue, h.size, ?_, ?_, ?_⟩
  · simp only [List.filterMap_append, List.filterMap_cons, List.filterMap_nil, TxEvent.push?,
      TxEvent.end?, List.append_nil]
    exact h.pushed
  · simp [List.filterMap_cons, TxEvent.report?, TxEvent.end?, h.reports]
  · simp only [List.filterMap_append, List.filterMap_cons, List.filterMap_nil, TxEvent.end?,
      TxEvent.send?, List.append_nil]
    cases h.phase with
    | idle _ _ _ hno _ => exact absurd hp (hno t item)
    | starting t0 i ha ht hs hp0 hhead hno =>
      obtain rfl : t = t0 := by
        by_contra hne
        exact hno t hne item hp
      obtain rfl : i = item := TxPlace.starting.inj (hp0.symm.trans hp)
      refine .sending i ha (by rw [ht]; rfl) (by rw [hs]) hhead ?_
      intro t' i'
      by_cases hsame : t' = t
      · rw [hsame, move_same]
        exact fun hno => TxPlace.noConfusion hno
      · rw [move_other hsame]
        exact hno t' hsame i'
    | sending _ _ _ _ _ hno => exact absurd hp (hno t item)

/-- The interrupt pops the buffer whose transfer ended and sends the next one. -/
theorem TxInv.done {transfers : List DataItem} (h : TxInv x)
    (ht : x.1.transfers = item :: transfers) :
    TxInv ((txDmaDone { x.1 with transfers } item).1,
      x.2 ++ (txDmaDone { x.1 with transfers } item).2) := by
  cases h.phase with
  | idle _ hnone _ _ _ =>
    rw [ht] at hnone
    simp at hnone
  | starting _ _ _ hnone _ _ _ _ =>
    rw [ht] at hnone
    simp at hnone
  | sending i ha hi hs hhead hno =>
    rw [ht] at hi
    obtain ⟨rfl, rfl⟩ := List.cons.inj hi
    have hb : x.1.queue.blocked .pop = false := by
      rw [← Bool.not_eq_true, blocked_pop h.queue]
      intro hempty
      rw [hempty] at hhead
      simp at hhead
    obtain ⟨hq, hcontents⟩ := h.queue.take hb
    obtain rfl : x.1.queue.first = item := by
      rw [hcontents] at hhead
      exact Option.some.inj hhead
    have hempty : x.1.queue.take.getIndex = x.1.queue.take.putIndex ↔
        x.1.queue.take.contents = [] := by
      rw [← blocked_pop hq]
      simp [DataQueue.blocked]
    have hpushed := h.pushed
    rw [hcontents] at hpushed
    unfold txDmaDone
    simp only [hb, Bool.false_eq_true, if_false]
    split
    next hlast =>
      refine ⟨hq, h.size, ?_, ?_, ?_⟩
      · simp [List.filterMap_cons, TxEvent.push?, TxEvent.end?, hpushed]
      · simp [List.filterMap_cons, TxEvent.report?, TxEvent.end?, h.reports]
      · refine .idle rfl rfl ?_ hno fun hne => absurd (hempty.mp hlast) hne
        simp [List.filterMap_cons, TxEvent.send?, TxEvent.end?, hs]
    next hmore =>
      obtain ⟨-, hnext⟩ := hq.take (by
        rw [← Bool.not_eq_true, blocked_pop hq]
        exact mt hempty.mpr hmore)
      refine ⟨hq, h.size, ?_, ?_, ?_⟩
      · simp [List.filterMap_cons, TxEvent.push?, TxEvent.end?, hpushed]
      · simp [List.filterMap_cons, TxEvent.report?, TxEvent.end?, h.reports]
      · refine .sending x.1.queue.take.first rfl rfl ?_ (by rw [hnext]; rfl) hno
        simp [List.filterMap_cons, TxEvent.send?, TxEvent.end?, hs]

theorem TxInv.step {x' : TxState × List TxEvent} {a : TxAction} (h : TxInv x) (hok : StartsHead x a)
    (hs : txRunStep x a = some x') : TxInv x' := by
  obtain ⟨r, hr, rfl⟩ := Option.map_eq_some_iff.mp hs
  cases a with
  | push t item =>
    simp only [txStep] at hr
    split at hr
    next hfree =>
      obtain rfl := Option.some.inj hr
      exact h.push hok hfree.1 hfree.2
    next => simp at hr
  | test t =>
    simp only [txStep] at hr
    split at hr
    next item hp =>
      split at hr
      next ha =>
        obtain rfl := Option.some.inj hr
        simpa using h.leave hp ha
      next ha =>
        obtain rfl := Option.some.inj hr
        simpa using h.set hok hp (Bool.not_eq_true _ ▸ ha)
    next => simp at hr
  | transmit t =>
    simp only [txStep] at hr
    split at hr
    next item hp =>
      obtain rfl := Option.some.inj hr
      exact h.transmit hp
    next => simp at hr
  | done =>
    simp only [txStep] at hr
    split at hr
    next => simp at hr
    next item transfers ht =>
      obtain rfl := Option.some.inj hr
      exact h.done ht

/-- DMA transmission over all runs in which the writer that starts it has the oldest buffer. -/
theorem txReach_right {slots : Nat → DataItem} {x : TxState × List TxEvent}
    (hr : Reach txRunStep StartsHead (fun x => x = txOpened slots) x) : TxRight x := by
  apply TxInv.right
  apply hr.invariant
  · rintro x rfl
    exact txInv_opened slots
  · intro x a x' h hok hs
    exact h.step hok hs

end

instance decidableStartsHead : DecidableRel StartsHead := fun x a =>
  match a with
  | .push _ _ => inferInstanceAs (Decidable (_ < _))
  | .test t =>
    match h : x.1.place t with
    | .pushed item => decidable_of_iff
        (x.1.activated = false → x.1.queue.contents.head? = some item) (by simp [StartsHead, h])
    | .outside => isTrue (by simp [StartsHead, h])
    | .starting _ => isTrue (by simp [StartsHead, h])
  | .transmit _ => isTrue trivial
  | .done => isTrue trivial

def txAfter (as : List TxAction) : TxState × List TxEvent :=
  (runFrom txRunStep as (txOpened fun _ => ⟨0, 0⟩)).getD (txOpened fun _ => ⟨0, 0⟩)

/-- The second writer's buffer waits in the queue and is sent by the interrupt. -/
def twoWriters : List TxAction :=
  [.push 1 ⟨100, 4⟩, .test 1, .push 2 ⟨200, 8⟩, .transmit 1, .done, .test 2, .done]

theorem txReach_right_twoWriters : TxRight (txAfter twoWriters) := by
  have hmeets : RunMeets txRunStep StartsHead twoWriters (txOpened fun _ => ⟨0, 0⟩) := by decide
  exact txReach_right (Reach.runFrom hmeets (.start rfl) rfl)

def testedLate : List TxAction :=
  [.push 1 ⟨100, 4⟩, .push 2 ⟨200, 8⟩, .test 2, .transmit 2, .test 1, .done, .done]

/-- The second writer tests before the first: its buffer is sent twice, and the first one's
completion is reported for a buffer that was never sent. -/
theorem serialDmaTx_sends_twice : ∃ x,
    Reach txRunStep (fun _ _ => True) (fun x => x = txOpened fun _ => ⟨0, 0⟩) x ∧
      x.2.filterMap TxEvent.push? = [⟨100, 4⟩, ⟨200, 8⟩] ∧
      x.2.filterMap TxEvent.send? = [⟨200, 8⟩, ⟨200, 8⟩] ∧
      x.2.filterMap TxEvent.report? = [some 100, some 200] ∧ ¬TxRight x := by
  have hrun : runFrom txRunStep testedLate (txOpened fun _ => ⟨0, 0⟩) =
      some (txAfter testedLate) := rfl
  refine ⟨txAfter testedLate, Reach.runFrom (runMeets_of_forall fun _ _ _ => trivial)
    (.start rfl) hrun, by decide, by decide, by decide, fun h => ?_⟩
  exact absurd h.order (by decide)

end RTThread
