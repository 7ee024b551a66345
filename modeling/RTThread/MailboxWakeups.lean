import RTThread.MailboxWaiters

namespace RTThread

section
variable {s s' : MbState} {a : MbAction} {e : Option MbEvent} {m : ObjectId} {side : Side}
  {t : ThreadId} {fs : List MbFrame} {call : MbCall} {timeout : Int} {tickDelta signo : Nat}
  {threads : Threads}

theorem outer_of_outside (h : s.outside t = true) : Outer (s.frames t) := by
  intro f hf
  cases hfs : s.frames t with
  | nil => simp [hfs] at hf
  | cons g fs =>
    obtain rfl : g = f := by simpa [hfs] using hf
    cases g with
    | handler signo => exact ⟨signo, rfl⟩
    | waiting | again => simp [MbState.outside, hfs] at h

theorem mbCall_accounted (call : MbCall) (hok : MbOk s) (hbox : ∀ m, (s.mailbox m).Ok)
    (ha : Accounted s)
    (hc : (s.thread t).stat = .ready ∧ s.outside t = true ∨ timeout = 0) :
    MbOk (mbCall s m t call timeout).1 ∧ Accounted (mbCall s m t call timeout).1 := by
  unfold mbCall
  split
  next => exact ⟨hok, ha⟩
  next hb =>
    refine mbLoop_accounted _ _ hok (hbox m) ha.owing fun hblocked => ?_
    obtain ⟨hready, hout⟩ := hc.resolve_right fun hzero => hb ⟨hblocked, hzero⟩
    exact ⟨hready, outer_of_outside hout⟩

/-- Changing the frames of a ready thread without losing a call that is on its way. -/
theorem setFrames_accounted (hok : MbOk s) (ha : Accounted s) (hready : (s.thread t).stat = .ready)
    (hn : NestedCalls fs) (hle : ∀ m side, wayCount (s.thread t) m side (s.frames t) ≤
      wayCount (s.thread t) m side fs) :
    MbOk (s.setFrames t fs) ∧ Accounted (s.setFrames t fs) := by
  have hself : (s.setFrames t fs).frames t = fs := Function.update_self ..
  have honly : OnlyThread t s (s.setFrames t fs) :=
    ⟨rfl, rfl, fun u _ => rfl, fun u hu => Function.update_of_ne hu ..⟩
  refine ⟨(honly.shrinks (hok.not_mem hready) hok (by rwa [hself])).mbOk hok,
    honly.accounted ha fun m side => ?_⟩
  rw [hself]
  exact hle m side

theorem mbWake_accounted (hok : MbOk s) (ha : Accounted s) (hready : (s.thread t).stat = .ready)
    (h : mbWake s t = some (s', e)) : MbOk s' ∧ Accounted s' := by
  unfold mbWake at h
  split at h
  next m call timeout tickDelta fs hf =>
    have hn : NestedCalls (.waiting m call timeout tickDelta :: fs) := hf ▸ hok.nested t
    split at h
    next herror =>
      obtain ⟨rfl, -⟩ := Prod.mk.inj (Option.some.inj h)
      refine setFrames_accounted hok ha hready hn.2 fun r side => ?_
      rw [hf, wayCount_cons_waiting (.inr herror), wayCount_outer hn.1]
    next =>
      obtain ⟨rfl, -⟩ := Prod.mk.inj (Option.some.inj h)
      refine setFrames_accounted hok ha hready hn fun r side => ?_
      rw [hf]
      refine wayCount_le_countP.trans (Nat.le_of_eq ?_)
      rw [List.countP_cons]
      simp [wayCount, MbFrame.looksAgain, MbFrame.isFor, Nat.add_comm, Bool.toNat]
  next => simp at h

theorem mbAgain_accounted (hok : MbOk s) (hbox : ∀ m, (s.mailbox m).Ok) (ha : Accounted s)
    (hready : (s.thread t).stat = .ready) (h : mbAgain s t = some (s', e)) : MbOk s' ∧ Accounted s' := by
  unfold mbAgain at h
  split at h
  next m call timeout tickDelta fs hf =>
    have hn : NestedCalls (.again m call timeout tickDelta :: fs) := hf ▸ hok.nested t
    obtain ⟨hok1, ho⟩ := again_owing hok ha hready hf
    have hself : (s.setFrames t fs).frames t = fs := Function.update_self ..
    have hloop := mbLoop_accounted (t := t) (remainingTime timeout s.tick tickDelta) tickDelta
      hok1 (hbox m) ho fun _ => ⟨hready, by rw [hself]; exact hn.1⟩
    rw [hself, mbLoop_setFrames, Option.some.inj h] at hloop
    exact hloop
  next => simp at h

/-- A signal that has been sent, or has been taken off the list, changes nothing for the waiting. -/
theorem SameWaiting.accounted (h : SameWaiting s.toThreads threads) (hok : MbOk s) (ha : Accounted s) :
    MbOk { s with toThreads := threads } ∧ Accounted { s with toThreads := threads } := by
  have hshrinks : MbShrinks s { s with toThreads := threads } :=
    ⟨fun q => h.waiters ▸ List.Sublist.refl _, fun u q _ => h.stat u, fun u q _ => h.error u,
      fun u q _ => rfl, hok.nested⟩
  refine ⟨hshrinks.mbOk hok, fun m side hne => ?_⟩
  have hold : s.waiters (mbList m side) ≠ [] := h.waiters ▸ hne
  refine (ha m side hold).trans (onWay_mono fun u => wayCount_mono fun hstat herror => ?_)
  exact ⟨(h.stat u).trans hstat, (h.error u).trans herror⟩

theorem resumed_accounted {t : ThreadId} (h : Resumed s.toThreads threads t)
    (hsusp : (s.thread t).stat = .suspend) (hok : MbOk s) (ha : Accounted s) :
    MbOk { s with toThreads := threads } ∧ Accounted { s with toThreads := threads } :=
  have hshrinks : MbShrinks s { s with toThreads := threads } := h.mbShrinks rfl hok
  ⟨hshrinks.mbOk hok, Resumed.accounted h hsusp rfl rfl ha⟩

theorem resumeAll_accounted (q : ObjectId) (hok : MbOk s) (ha : Accounted s) :
    MbOk { s with toThreads := rtIpcListResumeAll s.toThreads q } ∧
      Accounted { s with toThreads := rtIpcListResumeAll s.toThreads q } := by
  obtain ⟨hwait, hq, hother, hrest, -⟩ := rtIpcListResumeAll_spec hok.wait q
  have hsub : ∀ r, ((rtIpcListResumeAll s.toThreads q).waiters r).Sublist (s.waiters r) := by
    intro r
    by_cases hr : r = q
    · rw [hr, hq]
      exact List.nil_sublist _
    · rw [hother r hr]
  have hsame : ∀ u r, u ∈ (rtIpcListResumeAll s.toThreads q).waiters r →
      (rtIpcListResumeAll s.toThreads q).thread u = s.thread u := by
    intro u r hu
    refine hrest u fun huq => ?_
    have hr : r ≠ q := by
      rintro rfl
      rw [hq] at hu
      simp at hu
    exact hr (hok.wait.one u r q ((hsub r).subset hu) huq)
  have hshrinks : MbShrinks s { s with toThreads := rtIpcListResumeAll s.toThreads q } :=
    ⟨hsub, fun u r hu => congrArg Thread.stat (hsame u r hu),
      fun u r hu => congrArg Thread.error (hsame u r hu), fun u r _ => rfl, hok.nested⟩
  refine ⟨hshrinks.mbOk hok, fun m side hne => ?_⟩
  have hold : s.waiters (mbList m side) ≠ [] := fun hnil =>
    hne (List.sublist_nil.mp (hnil ▸ hsub (mbList m side)))
  refine (ha m side hold).trans (onWay_mono fun u => ?_)
  by_cases hu : u ∈ s.waiters q
  · exact wayCount_suspended (hok.wait.suspended u q hu)
  · exact Nat.le_of_eq (by rw [hrest u hu])

theorem rtMbReset_accounted (hok : MbOk s) (ha : Accounted s) :
    MbOk (rtMbReset s m) ∧ Accounted (rtMbReset s m) := by
  obtain ⟨hok1, ha1⟩ := resumeAll_accounted (mbList m .recv) hok ha
  obtain ⟨hok2, ha2⟩ := resumeAll_accounted (mbList m .send) hok1 ha1
  refine ⟨⟨hok2.wait, hok2.nested, hok2.error, hok2.call⟩, fun r side hne => ?_⟩
  have hr : r ≠ m := by
    rintro rfl
    obtain ⟨-, hrecv, -⟩ := rtIpcListResumeAll_spec hok.wait (mbList r .recv)
    obtain ⟨-, hsend, hother, -⟩ := rtIpcListResumeAll_spec hok1.wait (mbList r .send)
    cases side with
    | send => exact hne hsend
    | recv => exact hne ((hother _ (mbList_inj.not.mpr (by simp))).trans hrecv)
  have hbox : (rtMbReset s m).mailbox r = s.mailbox r := Function.update_of_ne hr ..
  rw [hbox]
  exact ha2 r side hne

/-- A handler is started on top of whatever the thread is in. -/
theorem takeSignal_accounted (hok : MbOk s) (ha : Accounted s)
    (h : takeSignal s.toThreads t = some (threads, signo)) :
    MbOk ({ s with toThreads := threads }.setFrames t (.handler signo :: s.frames t)) ∧
      Accounted ({ s with toThreads := threads }.setFrames t (.handler signo :: s.frames t)) := by
  obtain ⟨hready, hsame⟩ := takeSignal_spec h
  obtain ⟨hok1, ha1⟩ := hsame.accounted hok ha
  refine setFrames_accounted hok1 ha1 ((hsame.stat t).trans hready) (hok.nested t) fun m side => ?_
  refine wayCount_le_countP.trans ?_
  simp [wayCount, MbFrame.isFor]

theorem wayCount_not_waiting (h : ∀ m call timeout tickDelta rest,
    fs ≠ .waiting m call timeout tickDelta :: rest) {x : Thread} :
    wayCount x m side fs = fs.countP (·.isFor m side) := by
  cases fs with
  | nil => rfl
  | cons f fs =>
    rw [List.countP_cons]
    cases f with
    | waiting => exact absurd rfl (h _ _ _ _ _)
    | again => simp [wayCount, MbFrame.looksAgain, Nat.add_comm, Bool.toNat]
    | handler => simp [wayCount, MbFrame.isFor]

/-- A handler returns: exactly the wake-up of the call below is at stake. -/
theorem finishSignal_accounted (hok : MbOk s) (ha : Accounted s) (hready : (s.thread t).stat = .ready)
    (hf : s.frames t = .handler signo :: fs) :
    MbOk ({ s with toThreads := finishSignal s.toThreads t signo }.setFrames t fs) ∧
      (Accounted ({ s with toThreads := finishSignal s.toThreads t signo }.setFrames t fs) ↔
        KeepsWakeups s (.sigEnd t)) := by
  generalize hs' : { s with toThreads := finishSignal s.toThreads t signo }.setFrames t fs = s'
  have honly : OnlyThread t s s' := by
    subst hs'
    exact ⟨rfl, rfl, fun u hu => Function.update_of_ne hu .., fun u hu => Function.update_of_ne hu ..⟩
  have hself : s'.frames t = fs := by
    subst hs'
    exact Function.update_self ..
  have herror : (s'.thread t).error ≠ .eok := by
    subst hs'
    simp [MbState.setFrames, finishSignal]
  have hn : NestedCalls fs := nestedCalls_tail (hf ▸ hok.nested t)
  have hbefore : ∀ r side, wayCount (s.thread t) r side (s.frames t) = fs.countP (·.isFor r side) :=
    fun r side => by rw [hf]; simp [wayCount, MbFrame.isFor]
  refine ⟨(honly.shrinks (hok.not_mem hready) hok (by rwa [hself])).mbOk hok, ?_⟩
  by_cases hw : ∃ m call timeout tickDelta rest, fs = .waiting m call timeout tickDelta :: rest
  · obtain ⟨m, call, timeout, tickDelta, rest, rfl⟩ := hw
    have hafter : ∀ r side, wayCount (s'.thread t) r side (s'.frames t) = rest.countP (·.isFor r side) :=
      fun r side => by rw [hself, wayCount_cons_waiting (.inr herror)]
    simp only [List.countP_cons] at hbefore
    constructor
    · intro ha' signo' m' call' timeout' tickDelta' rest' h
      rw [hf] at h
      obtain ⟨-, hcons⟩ := List.cons.inj h
      obtain ⟨hframe, -⟩ := List.cons.inj hcons
      obtain ⟨rfl, rfl, -, -⟩ := MbFrame.waiting.inj hframe
      refine or_iff_not_imp_left.mpr fun hne => ?_
      have hle := ha' m call.side (by rwa [honly.waiters])
      rw [honly.mailbox] at hle
      refine Nat.lt_of_le_of_lt hle (honly.onWay_succ_le ?_)
      rw [hbefore, hafter]
      simp [MbFrame.isFor]
    · intro hk r side hne
      rw [honly.waiters] at hne
      rw [honly.mailbox]
      by_cases hr : r = m ∧ side = call.side
      · obtain ⟨rfl, rfl⟩ := hr
        have hlt := (hk signo r call timeout tickDelta rest hf).resolve_left hne
        have hle : onWay s r call.side ≤ onWay s' r call.side + 1 := by
          refine honly.onWay_le ?_
          rw [hbefore, hafter]
          simp [MbFrame.isFor]
        omega
      · refine (ha r side hne).trans (honly.onWay_mono ?_)
        rw [hbefore, hafter]
        have hfor : (MbFrame.waiting m call timeout tickDelta).isFor r side = false := by
          simp only [MbFrame.isFor, Bool.and_eq_false_imp, decide_eq_true_eq, decide_eq_false_iff_not]
          rintro rfl rfl
          exact hr ⟨rfl, rfl⟩
        simp [hfor]
  · have hsame : ∀ r side, wayCount (s'.thread t) r side (s'.frames t) = fs.countP (·.isFor r side) :=
      fun r side => by
        rw [hself]
        exact wayCount_not_waiting fun m call timeout tickDelta rest h => hw ⟨m, call, timeout, tickDelta, rest, h⟩
    refine iff_of_true (honly.accounted ha fun r side => ?_) ?_
    · rw [hbefore, hsame]
    · intro signo' m call timeout tickDelta rest h
      rw [hf] at h
      exact absurd ⟨m, call, timeout, tickDelta, rest, (List.cons.inj h).2⟩ hw

/-- Each step keeps the account exactly when it keeps its wake-up. -/
theorem mbStep_accounted (hok : MbOk s) (hbox : ∀ m, (s.mailbox m).Ok) (ha : Accounted s)
    (h : mbStep s a = some (s', e)) : MbOk s' ∧ (Accounted s' ↔ KeepsWakeups s a) := by
  have hkeeps : KeepsWakeups s a → MbOk s' ∧ Accounted s' → MbOk s' ∧ (Accounted s' ↔ KeepsWakeups s a) :=
    fun hk hs => ⟨hs.1, iff_of_true hs.2 hk⟩
  cases a with
  | call t m call timeout =>
    obtain ⟨hc, h⟩ := Option.ite_none_right_eq_some.mp h
    rw [mbCallOf_eq] at h
    have hcall := mbCall_accounted (m := m) call hok hbox ha hc
    rw [Option.some.inj h] at hcall
    exact hkeeps trivial hcall
  | wake t =>
    obtain ⟨hready, h⟩ := Option.ite_none_right_eq_some.mp h
    exact hkeeps trivial (mbWake_accounted hok ha hready h)
  | again t =>
    obtain ⟨hready, h⟩ := Option.ite_none_right_eq_some.mp h
    exact hkeeps trivial (mbAgain_accounted hok hbox ha hready h)
  | timeout t =>
    obtain ⟨threads, htimeout, h⟩ := Option.map_eq_some_iff.mp h
    obtain ⟨rfl, -⟩ := Prod.mk.inj h
    exact hkeeps trivial (resumed_accounted (rtThreadTimeout_resumed htimeout)
      (rtThreadTimeout_spec htimeout).1 hok ha)
  | reset m =>
    obtain ⟨rfl, -⟩ := Prod.mk.inj (Option.some.inj h)
    exact hkeeps trivial (rtMbReset_accounted hok ha)
  | tick =>
    obtain ⟨rfl, -⟩ := Prod.mk.inj (Option.some.inj h)
    exact hkeeps trivial ⟨⟨hok.wait, hok.nested, hok.error, hok.call⟩, ha⟩
  | killPend t signo =>
    obtain ⟨rfl, -⟩ := Prod.mk.inj (Option.some.inj h)
    exact hkeeps trivial (pendSignal_sameWaiting.accounted hok ha)
  | killAppend t signo =>
    obtain ⟨rfl, -⟩ := Prod.mk.inj (Option.some.inj h)
    exact hkeeps trivial (appendSignal_sameWaiting.accounted hok ha)
  | killDeliver t =>
    obtain ⟨rfl, -⟩ := Prod.mk.inj (Option.some.inj h)
    refine hkeeps trivial ?_
    rcases deliverSignal_cases (s := s.toThreads) (t := t) with hd | ⟨hsusp, hd⟩
    · rw [hd]
      exact ⟨hok, ha⟩
    · rw [hd]
      exact resumed_accounted (rtThreadResume_resumed hsusp) hsusp hok ha
  | sigBegin t =>
    obtain ⟨⟨threads, signo⟩, htake, h⟩ := Option.map_eq_some_iff.mp h
    obtain ⟨rfl, -⟩ := Prod.mk.inj h
    exact hkeeps trivial (takeSignal_accounted hok ha htake)
  | sigEnd t =>
    simp only [mbStep] at h
    split at h
    next signo fs hf =>
      obtain ⟨hready, h⟩ := Option.ite_none_right_eq_some.mp h
      obtain ⟨rfl, -⟩ := Prod.mk.inj (Option.some.inj h)
      exact finishSignal_accounted hok ha hready hf
    next => simp at h

/-- Where everything available is accounted for, nobody sleeps for nothing. -/
theorem Accounted.wakesAll (ha : Accounted s) (hbox : (s.mailbox m).Ok) : WakesAll s m := by
  intro hnone
  have hway : ∀ side, onWay s m side = 0 := fun side =>
    total_eq_zero fun t => Nat.eq_zero_of_not_pos (hnone side t)
  constructor
  · refine fun hentry => by_contra fun hne => hentry ?_
    have hle := ha m .recv hne
    rw [hway] at hle
    exact Nat.le_zero.mp hle
  · refine fun hentry => by_contra fun hne => hentry ?_
    have hle : (s.mailbox m).size - (s.mailbox m).entry ≤ 0 := hway .send ▸ ha m .send hne
    have hfull := hbox.entry
    omega

theorem MbStart.accounted (h : MbStart s) : MbOk s ∧ Accounted s := by
  have hno : ∀ u q, u ∉ s.waiters q := fun u q => by simp [h.waiters q]
  refine ⟨⟨⟨fun q => by simp [h.waiters q], fun u q r hu => absurd hu (hno u q),
    fun u q hu => absurd hu (hno u q)⟩, fun t => ?_, fun u q hu => absurd hu (hno u q),
    fun u q hu => absurd hu (hno u q)⟩, fun m side hne => absurd (h.waiters _) hne⟩
  rw [h.frames t]
  exact trivial

theorem mbReach_accounted (hr : Reach mbNext KeepsWakeups MbStart s) :
    MbOk s ∧ (∀ m, (s.mailbox m).Ok) ∧ Accounted s := by
  induction hr with
  | start h => exact ⟨h.accounted.1, fun m => (h.ok m).1, h.accounted.2⟩
  | step _ hk hs ih =>
    obtain ⟨⟨s', e⟩, hstep, rfl⟩ := Option.map_eq_some_iff.mp hs
    obtain ⟨hok, hbox, ha⟩ := ih
    obtain ⟨hok', hiff⟩ := mbStep_accounted hok hbox ha hstep
    exact ⟨hok', (mbStep_effect hstep).ok hbox, hiff.mpr hk⟩

/-- No wake-up is lost in a run that keeps them, and a step that does not keep its wake-up leaves
more to receive, or to send to, than there are threads coming for it. -/
theorem mbReach_wakesAll (hr : Reach mbNext KeepsWakeups MbStart s) :
    (∀ m, WakesAll s m) ∧ ∀ a s', mbNext s a = some s' → (Accounted s' ↔ KeepsWakeups s a) := by
  obtain ⟨hok, hbox, ha⟩ := mbReach_accounted hr
  refine ⟨fun m => ha.wakesAll (hbox m), fun a s' hs => ?_⟩
  obtain ⟨⟨s1, e⟩, hstep, rfl⟩ := Option.map_eq_some_iff.mp hs
  exact (mbStep_accounted hok hbox ha hstep).2

end

/-- Of two receivers the first is woken by a message and runs a signal handler before it has looked
at its error. -/
def lostWakeup : MbState :=
  (runFrom mbNext [.call 1 0 .recv (-1), .call 2 0 .recv (-1), .call 3 0 (.send 7) 0, .killPend 1 10,
    .killAppend 1 10, .killDeliver 1, .sigBegin 1, .sigEnd 1, .wake 1] mbStartState).get (by decide +kernel)

theorem lostWakeup_frames {t : ThreadId} (h1 : t ≠ 1) (h2 : t ≠ 2) (h3 : t ≠ 3) :
    lostWakeup.frames t = [] := by
  have h : lostWakeup.frames = Function.update (Function.update (Function.update (Function.update
      (Function.update (Function.update (fun _ => []) 1 [.waiting 0 .recv (-1) 0]) 2
      [.waiting 0 .recv (-1) 0]) 3 []) 1 [.handler 10, .waiting 0 .recv (-1) 0]) 1
      [.waiting 0 .recv (-1) 0]) 1 [] := rfl
  simp [h, h1, h2, h3]

/-- The message stays in the mailbox while the second receiver sleeps on. -/
theorem signal_loses_wakeup :
    ¬ ∀ s, Reach mbNext (fun _ _ => True) MbStart s → ∀ m, WakesAll s m := by
  intro h
  have hr : Reach mbNext (fun _ _ => True) MbStart lostWakeup :=
    Reach.runFrom (runMeets_of_forall fun _ _ _ => trivial) (.start mbStartState_start)
      (Option.some_get _).symm
  have hnone : ∀ side t, ¬ OnItsWay lostWakeup 0 side t := by
    intro side t
    by_cases h1 : t = 1
    · subst h1
      cases side <;> simp [OnItsWay, show lostWakeup.frames 1 = [] from rfl, wayCount]
    by_cases h2 : t = 2
    · subst h2
      have hsusp : (lostWakeup.thread 2).stat = .suspend := by decide +kernel
      rw [OnItsWay, show lostWakeup.frames 2 = [.waiting 0 .recv (-1) 0] from rfl,
        wayCount_cons_waiting (.inl (by simp [hsusp]))]
      exact Nat.lt_irrefl 0
    by_cases h3 : t = 3
    · subst h3
      cases side <;> simp [OnItsWay, show lostWakeup.frames 3 = [] from rfl, wayCount]
    simp [OnItsWay, lostWakeup_frames h1 h2 h3, wayCount]
  have hnil := (h lostWakeup hr 0 hnone).1 (by decide +kernel)
  have hwaits : (2 : ThreadId) ∈ lostWakeup.waiters (mbList 0 .recv) := by decide +kernel
  rw [hnil] at hwaits
  simp at hwaits

/-- A woken receiver with nobody behind it, in a signal handler. -/
def oneReceiver : MbState :=
  (runFrom mbNext [.call 1 0 .recv (-1), .call 3 0 (.send 7) 0, .killPend 1 10, .killAppend 1 10,
    .sigBegin 1] mbStartState).get (by decide +kernel)

theorem mbReach_wakesAll_oneReceiver :
    WakesAll ((mbNext oneReceiver (.sigEnd 1)).get (by decide +kernel)) 0 := by
  have hr : Reach mbNext KeepsWakeups MbStart oneReceiver := by
    refine Reach.runFrom (runMeets_of_forall fun s a ha => ?_) (.start mbStartState_start)
      (Option.some_get _).symm
    simp only [List.mem_cons, List.not_mem_nil, or_false] at ha
    rcases ha with rfl | rfl | rfl | rfl | rfl <;> trivial
  have hkeeps : KeepsWakeups oneReceiver (.sigEnd 1) := by
    intro signo m call timeout tickDelta fs h
    have hf : oneReceiver.frames 1 = [.handler 10, .waiting 0 .recv (-1) 0] := rfl
    rw [hf] at h
    obtain ⟨-, hcons⟩ := List.cons.inj h
    obtain ⟨rfl, rfl, -, -⟩ := MbFrame.waiting.inj (List.cons.inj hcons).1
    exact .inl (by decide +kernel)
  exact (mbReach_wakesAll (hr.step hkeeps (Option.some_get _).symm)).1 0

end RTThread
