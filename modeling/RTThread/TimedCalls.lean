import RTThread.DataQueueFifo
import RTThread.Deadlines
import RTThread.MailboxFifo
import RTThread.MessageQueueModel

namespace RTThread

/-- Frames in which a mailbox call made from the frames `base` waits. -/
def mbPhase (base : List MbFrame) : List MbFrame → WaitPhase
  | .waiting _ _ timeout tickDelta :: fs => if fs = base then .asleep timeout tickDelta else .gone
  | .again _ _ timeout tickDelta :: fs => if fs = base then .awake timeout tickDelta else .gone
  | _ => .gone

def mqPhase : MqFrame → WaitPhase
  | .waiting _ _ timeout tickDelta => .asleep timeout tickDelta
  | .again _ _ timeout tickDelta => .awake timeout tickDelta
  | _ => .gone

def mpPhase : AllocFrame → WaitPhase
  | .waiting _ time beforeSleep => .asleep time beforeSleep
  | .again _ time => .awake time 0
  | .outside => .gone

def dqPhase : DqFrame → WaitPhase
  | .waiting _ _ timeout => .asleep timeout 0
  | .again _ _ timeout => .awake timeout 0
  | .outside => .gone

section
variable {s s' : MbState} {t : ThreadId} {m : ObjectId} {call : MbCall} {time left : Int}
  {since : Nat} {base fs : List MbFrame} {e : Option MbEvent}

theorem mbPhase_self : mbPhase base base = .gone := by
  unfold mbPhase
  split
  · next fs =>
    rw [if_neg]
    intro h
    simpa using congrArg List.length h
  · next fs =>
    rw [if_neg]
    intro h
    simpa using congrArg List.length h
  · rfl

theorem mbLoop_phase (call : MbCall) (hle : 0 ≤ time) :
    mbPhase base ((mbLoop s m t call time since base).1.frames t) = .gone ∨
      mbPhase base ((mbLoop s m t call time since base).1.frames t) = .asleep time s.tick ∧
        0 < time := by
  unfold mbLoop
  split
  next =>
    split
    next =>
      left
      simp [MbState.setFrames, mbPhase_self]
    next hne =>
      right
      have hpos : 0 < time := by omega
      simp [mbWait, MbState.setFrames, mbPhase, hpos]
  next =>
    left
    simp [MbState.setFrames, mbPhase_self]

theorem mbLoop_tick : (mbLoop s m t call time since base).1.tick = s.tick := by
  unfold mbLoop
  split
  · split <;> rfl
  · cases call <;> rfl

theorem mbWake_phase (hphase : mbPhase base (s.frames t) = .asleep left since)
    (h : mbWake s t = some (s', e)) : s'.tick = s.tick ∧
      (mbPhase base (s'.frames t) = .gone ∨ mbPhase base (s'.frames t) = .awake left since) := by
  unfold mbWake at h
  split at h
  next m call timeout tickDelta fs hf =>
    rw [hf, mbPhase] at hphase
    split at hphase
    next hbase =>
      obtain ⟨rfl, rfl⟩ := WaitPhase.asleep.inj hphase
      split at h <;> obtain ⟨rfl, -⟩ := Prod.mk.inj (Option.some.inj h)
      · exact ⟨rfl, .inl (by simp [MbState.setFrames, hbase, mbPhase_self])⟩
      · exact ⟨rfl, .inr (by simp [MbState.setFrames, hbase, mbPhase])⟩
    next => cases hphase
  next => cases h

theorem mbAgain_phase (hnonneg : 0 ≤ left) (hphase : mbPhase base (s.frames t) = .awake left since)
    (h : mbAgain s t = some (s', e)) : s'.tick = s.tick ∧
      (mbPhase base (s'.frames t) = .gone ∨
        mbPhase base (s'.frames t) = .asleep (remainingTime left s.tick since) s.tick ∧
          0 < remainingTime left s.tick since) := by
  unfold mbAgain at h
  split at h
  next m call timeout tickDelta fs hf =>
    rw [hf, mbPhase] at hphase
    split at hphase
    next hbase =>
      obtain ⟨rfl, rfl⟩ := WaitPhase.awake.inj hphase
      subst hbase
      have heq := congrArg Prod.fst (Option.some.inj h)
      dsimp only at heq
      rw [← heq]
      exact ⟨mbLoop_tick, mbLoop_phase _ (remainingTime_nonneg hnonneg)⟩
    next => cases hphase
  next => cases h

theorem mbCallOf_phase (hpos : 0 < time) (hframes : s.frames t = base)
    (hasleep : (mbPhase base ((mbCallOf s m t time call).1.frames t)).isAsleep = true) :
    mbPhase base ((mbCallOf s m t time call).1.frames t) = .asleep time s.tick := by
  have hcall : mbCallOf s m t time call = mbLoop s m t call time 0 base := by
    rw [← hframes]
    cases call <;> simp [mbCallOf, rtMbSendWait, rtMbRecv, mbCall, hpos.ne']
  rw [hcall] at hasleep ⊢
  rcases mbLoop_phase call hpos.le with hg | ⟨hg, -⟩
  · rw [hg] at hasleep
    cases hasleep
  · exact hg

end

/-- `rt_mb_send_wait` or `rt_mb_recv`, called by a thread whose own frames are `base`. -/
def mbWaitLoop (t : ThreadId) (m : ObjectId) (c : MbCall) (base : List MbFrame) :
    WaitLoop MbState (List MbFrame) where
  recount := .locked
  tick := MbState.tick
  frame s := s.frames t
  phase := mbPhase base
  call time s := if s.frames t = base then (mbStep s (.call t m c time)).map Prod.fst else none
  wake s := (mbStep s (.wake t)).map Prod.fst
  again s := (mbStep s (.again t)).map Prod.fst
  call_asleep time s s' hpos h hasleep := by
    obtain ⟨hframes, h⟩ := Option.ite_none_right_eq_some.mp h
    obtain ⟨x, hx, rfl⟩ := Option.map_eq_some_iff.mp h
    obtain ⟨-, hx⟩ := Option.ite_none_right_eq_some.mp hx
    obtain rfl := Option.some.inj hx
    exact ⟨s.tick, mbCallOf_phase hpos hframes hasleep, fun _ => rfl⟩
  wake_asleep s s' left since hpos hphase h := by
    obtain ⟨⟨s1, e⟩, hx, rfl⟩ := Option.map_eq_some_iff.mp h
    obtain ⟨-, hx⟩ := Option.ite_none_right_eq_some.mp hx
    exact (mbWake_phase hphase hx).imp_right (Or.imp_right fun hw => ⟨since, hw, fun _ => rfl⟩)
  again_awake s s' left since hnonneg hphase h := by
    obtain ⟨⟨s1, e⟩, hx, rfl⟩ := Option.map_eq_some_iff.mp h
    obtain ⟨-, hx⟩ := Option.ite_none_right_eq_some.mp hx
    exact (mbAgain_phase hnonneg hphase hx).imp_right
      (Or.imp_right fun hw => ⟨s.tick, hw.1, hw.2, fun _ => rfl⟩)

section
variable {s s' : MqState} {t : ThreadId} {q : ObjectId} {size : Nat} {time left : Int} {since : Nat}
  {e : Option MqEvent}

theorem mqLoop_phase (hle : 0 ≤ time) (h : mqLoop s q (.thread t) size time since = some (s', e)) :
    s'.tick = s.tick ∧ (mqPhase (s'.frame (.thread t)) = .gone ∨
      mqPhase (s'.frame (.thread t)) = .asleep time s.tick ∧ 0 < time) := by
  unfold mqLoop at h
  split at h
  next =>
    dsimp only at h
    split at h <;> obtain ⟨rfl, -⟩ := Prod.mk.inj (Option.some.inj h)
    next =>
      refine ⟨rfl, .inl ?_⟩
      rw [setFrame_self]
      rfl
    next hne =>
      have hpos : 0 < time := by omega
      refine ⟨rfl, .inr ⟨?_, hpos⟩⟩
      rw [setFrame_self, if_pos hpos]
      rfl
  next =>
    obtain ⟨rfl, -⟩ := Prod.mk.inj (Option.some.inj h)
    refine ⟨rfl, .inl ?_⟩
    rw [setFrame_self]
    rfl

theorem mqWake_phase (hphase : mqPhase (s.frame (.thread t)) = .asleep left since)
    (h : mqWake s t = some s') : s'.tick = s.tick ∧ (mqPhase (s'.frame (.thread t)) = .gone ∨
      mqPhase (s'.frame (.thread t)) = .awake left since) := by
  unfold mqWake at h
  split at h
  next q size timeout tickDelta hf =>
    rw [hf] at hphase
    obtain ⟨rfl, rfl⟩ := WaitPhase.asleep.inj hphase
    split at h <;> obtain rfl := Option.some.inj h
    · refine ⟨rfl, .inl ?_⟩
      rw [setFrame_self]
      rfl
    · refine ⟨rfl, .inr ?_⟩
      rw [setFrame_self]
      rfl
  next => cases h

theorem mqAgain_phase (hnonneg : 0 ≤ left) (hphase : mqPhase (s.frame (.thread t)) = .awake left since)
    (h : mqAgain s t = some (s', e)) : s'.tick = s.tick ∧ (mqPhase (s'.frame (.thread t)) = .gone ∨
      mqPhase (s'.frame (.thread t)) = .asleep (remainingTime left s.tick since) s.tick ∧
        0 < remainingTime left s.tick since) := by
  unfold mqAgain at h
  split at h
  next q size timeout tickDelta hf =>
    rw [hf] at hphase
    obtain ⟨rfl, rfl⟩ := WaitPhase.awake.inj hphase
    exact mqLoop_phase (remainingTime_nonneg hnonneg) h
  next => cases h

end

/-- `rt_mq_recv`. -/
def mqWaitLoop (t : ThreadId) (q : ObjectId) (size : Nat) : WaitLoop MqState MqFrame where
  recount := .locked
  tick := MqState.tick
  frame s := s.frame (.thread t)
  phase := mqPhase
  call time s := (mqStep s (.recv (.thread t) q size time)).map Prod.fst
  wake s := (mqStep s (.wake t)).map Prod.fst
  again s := (mqStep s (.again t)).map Prod.fst
  call_asleep time s s' hpos h hasleep := by
    obtain ⟨⟨s1, e⟩, hx, rfl⟩ := Option.map_eq_some_iff.mp h
    obtain ⟨-, hx⟩ := Option.ite_none_right_eq_some.mp hx
    obtain ⟨-, -, hx⟩ := Option.bind_eq_some_iff.mp hx
    rw [if_neg fun h0 => hpos.ne' h0.2] at hx
    rcases (mqLoop_phase hpos.le hx).2 with hg | ⟨hg, -⟩
    · rw [hg] at hasleep
      cases hasleep
    · exact ⟨s.tick, hg, fun _ => rfl⟩
  wake_asleep s s' left since hpos hphase h := by
    obtain ⟨⟨s1, e⟩, hx, rfl⟩ := Option.map_eq_some_iff.mp h
    obtain ⟨-, hx⟩ := Option.ite_none_right_eq_some.mp hx
    obtain ⟨s2, hwake, heq⟩ := Option.map_eq_some_iff.mp hx
    obtain ⟨rfl, rfl⟩ := Prod.mk.inj heq
    exact (mqWake_phase hphase hwake).imp_right (Or.imp_right fun hw => ⟨since, hw, fun _ => rfl⟩)
  again_awake s s' left since hnonneg hphase h := by
    obtain ⟨⟨s1, e⟩, hx, rfl⟩ := Option.map_eq_some_iff.mp h
    obtain ⟨-, hx⟩ := Option.ite_none_right_eq_some.mp hx
    exact (mqAgain_phase hnonneg hphase hx).imp_right
      (Or.imp_right fun hw => ⟨s.tick, hw.1, hw.2, fun _ => rfl⟩)

section
variable {s s' : PoolState} {t : ThreadId} {p : ObjectId} {time left : Int} {since : Nat}

theorem mpAllocSection_phase (hle : 0 ≤ time) (h : mpAllocSection s p t time = some s') :
    s'.tick = s.tick ∧ (mpPhase (s'.frame t) = .gone ∨
      mpPhase (s'.frame t) = .asleep time s.tick ∧ 0 < time) := by
  unfold mpAllocSection at h
  split at h
  next =>
    split at h <;> obtain rfl := Option.some.inj h
    next => exact ⟨rfl, .inl (by simp [PoolState.setFrame, mpPhase])⟩
    next hne =>
      have hpos : 0 < time := by omega
      refine ⟨rfl, .inr ⟨?_, hpos⟩⟩
      simp [mpWait, PoolState.setFrame, mpPhase, hpos]
  next =>
    obtain ⟨s1, hs1, rfl⟩ := Option.map_eq_some_iff.mp h
    obtain ⟨-, -, hs1⟩ := Option.bind_eq_some_iff.mp hs1
    obtain rfl := Option.some.inj hs1
    exact ⟨rfl, .inl (by simp [PoolState.setFrame, mpPhase])⟩

theorem mpWake_phase (hphase : mpPhase (s.frame t) = .asleep left since) (h : mpWake s t = some s') :
    s'.tick = s.tick ∧ (mpPhase (s'.frame t) = .gone ∨
      mpPhase (s'.frame t) = .awake (remainingTime left s.tick since) 0) := by
  unfold mpWake at h
  split at h
  next p time beforeSleep hf =>
    rw [hf] at hphase
    obtain ⟨rfl, rfl⟩ := WaitPhase.asleep.inj hphase
    split at h <;> obtain rfl := Option.some.inj h
    · exact ⟨rfl, .inl (by simp [PoolState.setFrame, mpPhase])⟩
    · exact ⟨rfl, .inr (by simp [PoolState.setFrame, mpPhase])⟩
  next => cases h

end

/-- `rt_mp_alloc`. -/
def mpWaitLoop (t : ThreadId) (p : ObjectId) : WaitLoop PoolState AllocFrame where
  recount := .unlocked
  tick := PoolState.tick
  frame s := s.frame t
  phase := mpPhase
  call time s := poolStep s (.alloc t p time)
  wake s := poolStep s (.wake t)
  again s := poolStep s (.again t)
  call_asleep time s s' hpos h hasleep := by
    obtain ⟨-, hx⟩ := Option.ite_none_right_eq_some.mp h
    rcases (mpAllocSection_phase hpos.le hx).2 with hg | ⟨hg, -⟩
    · rw [hg] at hasleep
      cases hasleep
    · exact ⟨s.tick, hg, fun _ => rfl⟩
  wake_asleep s s' left since hpos hphase h := by
    obtain ⟨-, hx⟩ := Option.ite_none_right_eq_some.mp h
    exact (mpWake_phase hphase hx).imp_right (Or.imp_right fun hw => ⟨0, hw, fun hl => by cases hl⟩)
  again_awake s s' left since hnonneg hphase h := by
    simp only [poolStep] at h
    split at h
    next p time hf =>
      rw [hf] at hphase
      obtain ⟨rfl, rfl⟩ := WaitPhase.awake.inj hphase
      obtain ⟨-, hx⟩ := Option.ite_none_right_eq_some.mp h
      exact (mpAllocSection_phase hnonneg hx).imp_right
        (Or.imp_right fun hw => ⟨s.tick, hw.1, hw.2, fun _ => rfl⟩)
    next => cases h

section
variable {s s' : DqState} {t : ThreadId} {q : ObjectId} {call : DqCall} {time left : Int} {since : Nat}
  {e : List DqEvent}

theorem dqPush_frame {item : DataItem} : (dqPush s q item).1.frame = s.frame ∧
    (dqPush s q item).1.tick = s.tick := by
  unfold dqPush
  dsimp only
  split <;> exact ⟨rfl, rfl⟩

theorem dqPop_frame : (dqPop s q).1.frame = s.frame ∧ (dqPop s q).1.tick = s.tick := by
  unfold dqPop
  dsimp only
  split
  · dsimp only
    split <;> exact ⟨rfl, rfl⟩
  · exact ⟨rfl, rfl⟩

theorem dqLoop_phase (hle : 0 ≤ time) (h : dqLoop s q (.thread t) call time = some (s', e)) :
    s'.tick = s.tick ∧ (dqPhase (s'.frame t) = .gone ∨
      dqPhase (s'.frame t) = .asleep time 0 ∧ 0 < time) := by
  have hleave : dqPhase ((s.leave (.thread t)).frame t) = .gone := by
    simp [DqState.leave, DqState.setFrame, dqPhase]
  unfold dqLoop at h
  split at h
  next =>
    split at h
    next =>
      obtain ⟨rfl, -⟩ := Prod.mk.inj (Option.some.inj h)
      exact ⟨rfl, .inl hleave⟩
    next hne =>
      obtain ⟨rfl, -⟩ := Prod.mk.inj (Option.some.inj h)
      refine ⟨rfl, .inr ⟨?_, by omega⟩⟩
      simp [dqWait, DqState.setFrame, dqPhase]
  next =>
    split at h <;> have heq := congrArg Prod.fst (Option.some.inj h) <;> dsimp only at heq
    · rw [← heq, dqPush_frame.1, dqPush_frame.2]
      exact ⟨rfl, .inl hleave⟩
    · rw [← heq, dqPop_frame.1, dqPop_frame.2]
      exact ⟨rfl, .inl hleave⟩

theorem dqWake_phase (hphase : dqPhase (s.frame t) = .asleep left since)
    (h : dqWake s t = some (s', e)) : s'.tick = s.tick ∧ (dqPhase (s'.frame t) = .gone ∨
      dqPhase (s'.frame t) = .awake left since) := by
  unfold dqWake at h
  split at h
  next q call timeout hf =>
    rw [hf] at hphase
    obtain ⟨rfl, rfl⟩ := WaitPhase.asleep.inj hphase
    split at h <;> obtain ⟨rfl, -⟩ := Prod.mk.inj (Option.some.inj h)
    · exact ⟨rfl, .inl (by simp [DqState.setFrame, dqPhase])⟩
    · exact ⟨rfl, .inr (by simp [DqState.setFrame, dqPhase])⟩
  next => cases h

theorem dqAgain_phase (hnonneg : 0 ≤ left) (hphase : dqPhase (s.frame t) = .awake left since)
    (h : dqAgain s t = some (s', e)) : s'.tick = s.tick ∧ (dqPhase (s'.frame t) = .gone ∨
      dqPhase (s'.frame t) = .asleep left 0 ∧ 0 < left) := by
  unfold dqAgain at h
  split at h
  next q call timeout hf =>
    rw [hf] at hphase
    obtain ⟨rfl, rfl⟩ := WaitPhase.awake.inj hphase
    exact dqLoop_phase hnonneg h
  next => cases h

end

/-- The call of a thread under the source's names. -/
def dqCallOf (s : DqState) (t : ThreadId) (q : ObjectId) (timeout : Int) :
    DqCall → Option (DqState × List DqEvent)
  | .push item => dqStep s (.push (.thread t) q item timeout)
  | .pop => dqStep s (.pop (.thread t) q timeout)

/-- `rt_data_queue_push` or `rt_data_queue_pop`. -/
def dqWaitLoop (t : ThreadId) (q : ObjectId) (c : DqCall) : WaitLoop DqState DqFrame where
  recount := .never
  tick := DqState.tick
  frame s := s.frame t
  phase := dqPhase
  call time s := (dqCallOf s t q time c).map Prod.fst
  wake s := (dqStep s (.wake t)).map Prod.fst
  again s := (dqStep s (.again t)).map Prod.fst
  call_asleep time s s' hpos h hasleep := by
    obtain ⟨⟨s1, e⟩, hx, rfl⟩ := Option.map_eq_some_iff.mp h
    have hloop : dqLoop s q (.thread t) c time = some (s1, e) := by
      cases c <;> exact (Option.ite_none_right_eq_some.mp hx).2
    rcases (dqLoop_phase hpos.le hloop).2 with hg | ⟨hg, -⟩
    · rw [hg] at hasleep
      cases hasleep
    · exact ⟨0, hg, fun hne => absurd rfl hne⟩
  wake_asleep s s' left since hpos hphase h := by
    obtain ⟨⟨s1, e⟩, hx, rfl⟩ := Option.map_eq_some_iff.mp h
    obtain ⟨-, hx⟩ := Option.ite_none_right_eq_some.mp hx
    exact (dqWake_phase hphase hx).imp_right (Or.imp_right fun hw => ⟨since, hw, fun _ => rfl⟩)
  again_awake s s' left since hnonneg hphase h := by
    obtain ⟨⟨s1, e⟩, hx, rfl⟩ := Option.map_eq_some_iff.mp h
    obtain ⟨-, hx⟩ := Option.ite_none_right_eq_some.mp hx
    exact (dqAgain_phase hnonneg hphase hx).imp_right
      (Or.imp_right fun hw => ⟨0, hw.1, hw.2, fun hne => absurd rfl hne⟩)

/-- The calls that block with a timeout and try again. -/
inductive TimedCall where
  | mbSendWait (t : ThreadId) (m : ObjectId) (value : BitVec 32) (base : List MbFrame)
  | mbRecv (t : ThreadId) (m : ObjectId) (base : List MbFrame)
  | mqRecv (t : ThreadId) (q : ObjectId) (size : Nat)
  | mpAlloc (t : ThreadId) (p : ObjectId)
  | dqPush (t : ThreadId) (q : ObjectId) (item : DataItem)
  | dqPop (t : ThreadId) (q : ObjectId)

def TimedCall.State : TimedCall → Type
  | .mbSendWait .. | .mbRecv .. => MbState
  | .mqRecv .. => MqState
  | .mpAlloc .. => PoolState
  | .dqPush .. | .dqPop .. => DqState

def TimedCall.Frame : TimedCall → Type
  | .mbSendWait .. | .mbRecv .. => List MbFrame
  | .mqRecv .. => MqFrame
  | .mpAlloc .. => AllocFrame
  | .dqPush .. | .dqPop .. => DqFrame

instance timedCallFrameDecEq : (c : TimedCall) → DecidableEq c.Frame
  | .mbSendWait .. | .mbRecv .. => inferInstanceAs (DecidableEq (List MbFrame))
  | .mqRecv .. => inferInstanceAs (DecidableEq MqFrame)
  | .mpAlloc .. => inferInstanceAs (DecidableEq AllocFrame)
  | .dqPush .. | .dqPop .. => inferInstanceAs (DecidableEq DqFrame)

def TimedCall.loop : (c : TimedCall) → WaitLoop c.State c.Frame
  | .mbSendWait t m value base => mbWaitLoop t m (.send value) base
  | .mbRecv t m base => mbWaitLoop t m .recv base
  | .mqRecv t q size => mqWaitLoop t q size
  | .mpAlloc t p => mpWaitLoop t p
  | .dqPush t q item => dqWaitLoop t q (.push item)
  | .dqPop t q => dqWaitLoop t q .pop

/-- A call that goes to sleep again keeps its deadline exactly if it is in time. -/
theorem timedCall_keepsDeadline (c : TimedCall) {time : Int} {first : Nat} {w : Watch c.State}
    {s' : c.State} {left : Int} {since : Nat} (hpos : 0 < time) (hmax : time ≤ 2147483647)
    (hr : WatchReach c.loop (SleepsInTime c.loop) time first w) (hs : c.loop.next w.state = some s')
    (hsleep : c.loop.phase (c.loop.frame s') = .asleep left since) :
    w.expiry left ≤ first + time ↔ InTime w c.loop.recount :=
  watchReach_deadline hpos hmax hr hs hsleep

def pushFull : DqState :=
  (runFrom (fun s a => (dqStep s a).map Prod.fst) [.push (.interrupt 0) 0 ⟨1, 1⟩ 0] dqStartState).get
    (by decide +kernel)

theorem pushAsleep_some : ((dqWaitLoop 1 0 (.push ⟨2, 1⟩)).call 5 pushFull).isSome = true := by
  decide +kernel

def pushAsleep : DqState := ((dqWaitLoop 1 0 (.push ⟨2, 1⟩)).call 5 pushFull).get pushAsleep_some

/-- The waiting thread is resumed, and finds the queue full again after three ticks. -/
def pushResumed : DqState :=
  (runFrom (fun s a => (dqStep s a).map Prod.fst) [.pop (.interrupt 0) 0 0,
    .push (.interrupt 0) 0 ⟨3, 1⟩ 0, .tick, .tick, .tick] pushAsleep).get (by decide +kernel)

def pushAwake : Watch DqState :=
  (runFrom (watchStep (dqWaitLoop 1 0 (.push ⟨2, 1⟩))) [.others pushResumed 3, .next]
    ⟨pushAsleep, 0, 0, 5, 0⟩).get (by decide +kernel)

theorem push_misses_deadline : ¬ ∀ (c : TimedCall) (time : Int) (first : Nat) (w : Watch c.State)
    (s' : c.State) (left : Int) (since : Nat), 0 < time → time ≤ 2147483647 →
    WatchReach c.loop (fun _ _ => True) time first w → c.loop.next w.state = some s' →
    c.loop.phase (c.loop.frame s') = .asleep left since → w.expiry left ≤ first + time := by
  intro h
  have hstart : WatchStart (dqWaitLoop 1 0 (.push ⟨2, 1⟩)) 5 0 ⟨pushAsleep, 0, 0, 5, 0⟩ :=
    ⟨pushFull, by decide +kernel, (Option.some_get pushAsleep_some).symm, by decide +kernel, by decide +kernel, rfl,
      rfl, rfl⟩
  have hr : WatchReach (dqWaitLoop 1 0 (.push ⟨2, 1⟩)) (fun _ _ => True) 5 0 pushAwake :=
    Reach.runFrom (runMeets_of_forall fun _ _ _ => trivial) (.start hstart) (Option.some_get _).symm
  obtain ⟨s', hs⟩ := Option.isSome_iff_exists.mp
    (show ((dqWaitLoop 1 0 (.push ⟨2, 1⟩)).next pushAwake.state).isSome = true by decide +kernel)
  have hphase : ((dqWaitLoop 1 0 (.push ⟨2, 1⟩)).next pushAwake.state).map
      (fun s => dqPhase (s.frame 1)) = some (.asleep 5 0) := by decide +kernel
  rw [hs] at hphase
  have hle := h (.dqPush 1 0 ⟨2, 1⟩) 5 0 pushAwake s' 5 0 (by decide) (by decide) hr hs
    (Option.some.inj hphase)
  have hnow : pushAwake.now = 3 := by decide +kernel
  simp only [Watch.expiry, hnow] at hle
  omega

theorem recvAsleep_some : ((mbWaitLoop 1 0 .recv []).call 10 mbStartState).isSome = true := by
  decide +kernel

/-- A thread waits for a mail, and is resumed for one that is gone when it looks, three ticks later. -/
def recvAsleep : MbState := ((mbWaitLoop 1 0 .recv []).call 10 mbStartState).get recvAsleep_some

def recvResumed : MbState :=
  (runFrom (fun s a => (mbStep s a).map Prod.fst) [.call 2 0 (.send 7) 0, .call 2 0 .recv 0, .tick,
    .tick, .tick] recvAsleep).get (by decide +kernel)

def recvAwake : Watch MbState :=
  (runFrom (watchStep (mbWaitLoop 1 0 .recv [])) [.others recvResumed 3, .next]
    ⟨recvAsleep, 0, 0, 10, 0⟩).get (by decide +kernel)

theorem timedCall_keepsDeadline_recvAwake : recvAwake.expiry 7 ≤ (0 : Nat) + 10 ↔
    InTime recvAwake .locked := by
  have hstart : WatchStart (mbWaitLoop 1 0 .recv []) 10 0 ⟨recvAsleep, 0, 0, 10, 0⟩ :=
    ⟨mbStartState, by decide +kernel, (Option.some_get recvAsleep_some).symm, by decide +kernel,
      by decide +kernel, rfl, rfl, rfl⟩
  have hr : WatchReach (mbWaitLoop 1 0 .recv []) (SleepsInTime (mbWaitLoop 1 0 .recv [])) 10 0
      recvAwake := Reach.runFrom (by decide +kernel) (.start hstart) (Option.some_get _).symm
  obtain ⟨s', hs⟩ := Option.isSome_iff_exists.mp
    (show ((mbWaitLoop 1 0 .recv []).next recvAwake.state).isSome = true by decide +kernel)
  have hphase : ((mbWaitLoop 1 0 .recv []).next recvAwake.state).map
      (fun s => mbPhase [] (s.frames 1)) = some (.asleep 7 3) := by decide +kernel
  rw [hs] at hphase
  exact timedCall_keepsDeadline (.mbRecv 1 0 []) (by decide) (by decide) hr hs (Option.some.inj hphase)

end RTThread
