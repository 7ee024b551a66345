import RTThread.MailboxModel

namespace RTThread

/-- A mailbox whose fields describe a ring buffer. -/
structure Mailbox.Ok (x : Mailbox) : Prop where
  size : x.size ≤ 65535
  entry : x.entry ≤ x.size
  outOffset : x.outOffset < x.size
  inOffset : x.inOffset = (x.outOffset + x.entry) % x.size

/-- The values in a mailbox, oldest first. -/
def Mailbox.contents (x : Mailbox) : List (BitVec 32) :=
  ringContents x.msgPool x.size x.outOffset x.entry

/-- Re-initialised by `RT_IPC_CMD_RESET`. -/
def Mailbox.emptied (x : Mailbox) : Mailbox := { x with entry := 0, inOffset := 0, outOffset := 0 }

/-- Everything a step can do to the mailboxes, and what is returned from a call then. -/
inductive MailboxEffect (s s' : MbState) : Option MbEvent → Prop where
  | keeps {e} (hm : s'.mailbox = s.mailbox) (he : ∀ ev ∈ e, MbEvent.transfers ev = false) :
    MailboxEffect s s' e
  | put {m value} (hb : (s.mailbox m).blocked .send = false)
      (hm : s'.mailbox = Function.update s.mailbox m ((s.mailbox m).put value)) :
    MailboxEffect s s' (some (.sent m value))
  | take {m} (hb : (s.mailbox m).blocked .recv = false)
      (hm : s'.mailbox = Function.update s.mailbox m (s.mailbox m).take) :
    MailboxEffect s s' (some (.received m ((s.mailbox m).msgPool (s.mailbox m).outOffset)))
  | reset {m} (hm : s'.mailbox = Function.update s.mailbox m (s.mailbox m).emptied) :
    MailboxEffect s s' (some (.reset m))

section
variable {s s' : MbState} {a : MbAction} {e : Option MbEvent} {m : ObjectId} {t : ThreadId}
  {call : MbCall} {timeout : Int} {tickDelta : Nat} {fs : List MbFrame} {x : Mailbox}
  {value : BitVec 32} {log : List MbEvent}

/-- Putting a value, without the wrap-arounds of the fields. -/
theorem Mailbox.Ok.put_eq (value : BitVec 32) (h : x.Ok) (hb : x.blocked .send = false) :
    x.entry < x.size ∧ x.put value = { x with
      msgPool := Function.update x.msgPool ((x.outOffset + x.entry) % x.size) value
      inOffset := (x.outOffset + (x.entry + 1)) % x.size
      entry := x.entry + 1 } := by
  obtain ⟨hsize, hentry, hout, hin⟩ := h
  have hne : x.entry ≠ x.size := by simpa [Mailbox.blocked] using hb
  have hlt : x.entry < x.size := by omega
  have hinlt : x.inOffset < x.size := by
    rw [hin]
    exact Nat.mod_lt _ (by omega)
  have hentry' : (x.entry + 1) % 65536 = x.entry + 1 := Nat.mod_eq_of_lt (by omega)
  have hin' : (x.inOffset + 1) % 65536 = x.inOffset + 1 := Nat.mod_eq_of_lt (by omega)
  have hnext : (if (x.inOffset + 1) % 65536 ≥ x.size then 0 else (x.inOffset + 1) % 65536) =
      (x.outOffset + (x.entry + 1)) % x.size := by
    rw [hin']
    have hmod : (x.inOffset + 1) % x.size = (x.outOffset + (x.entry + 1)) % x.size := by
      rw [hin, Nat.mod_add_mod, Nat.add_assoc]
    exact (nextSlot_eq_mod hinlt).trans hmod
  refine ⟨hlt, ?_⟩
  rw [← hin]
  simp only [Mailbox.put, hentry', hnext]

/-- Taking a value, without the wrap-arounds of the fields. -/
theorem Mailbox.Ok.take_eq (h : x.Ok) (hb : x.blocked .recv = false) :
    0 < x.entry ∧ x.take = { x with
      outOffset := (x.outOffset + 1) % x.size
      entry := x.entry - 1 } := by
  obtain ⟨hsize, hentry, hout, hin⟩ := h
  have hne : x.entry ≠ 0 := by simpa [Mailbox.blocked] using hb
  have hentry' : (x.entry + 65535) % 65536 = x.entry - 1 := by omega
  have hout' : (x.outOffset + 1) % 65536 = x.outOffset + 1 := Nat.mod_eq_of_lt (by omega)
  have hnext : (if (x.outOffset + 1) % 65536 ≥ x.size then 0 else (x.outOffset + 1) % 65536) =
      (x.outOffset + 1) % x.size := by
    rw [hout']
    exact nextSlot_eq_mod hout
  refine ⟨Nat.pos_of_ne_zero hne, ?_⟩
  simp only [Mailbox.take, hentry', hnext]

theorem Mailbox.Ok.put (value : BitVec 32) (h : x.Ok) (hb : x.blocked .send = false) :
    (x.put value).Ok ∧ (x.put value).contents = x.contents ++ [value] := by
  obtain ⟨hlt, hput⟩ := h.put_eq value hb
  rw [hput]
  refine ⟨⟨h.size, hlt, h.outOffset, rfl⟩, ?_⟩
  exact ringContents_put hlt

theorem Mailbox.Ok.take (h : x.Ok) (hb : x.blocked .recv = false) :
    x.take.Ok ∧ x.contents = x.msgPool x.outOffset :: x.take.contents := by
  obtain ⟨hpos, htake⟩ := h.take_eq hb
  obtain ⟨count, hcount⟩ := Nat.exists_eq_add_of_lt hpos
  have hpred : x.entry - 1 = count := by omega
  have hsum : x.outOffset + x.entry = x.outOffset + 1 + count := by omega
  have hentry := h.entry
  rw [htake, hpred]
  refine ⟨⟨h.size, ?_, Nat.mod_lt _ (Nat.zero_lt_of_lt h.outOffset), ?_⟩, ?_⟩
  · change count ≤ x.size
    omega
  · rw [h.inOffset, hsum, Nat.mod_add_mod]
  · rw [Mailbox.contents, hcount, Nat.zero_add]
    exact ringContents_take h.outOffset

theorem Mailbox.Ok.emptied (h : x.Ok) : x.emptied.Ok ∧ x.emptied.contents = [] :=
  ⟨⟨h.size, Nat.zero_le _, Nat.zero_lt_of_lt h.outOffset, (Nat.zero_mod _).symm⟩, rfl⟩

theorem mbLoop_effect (h : mbLoop s m t call timeout tickDelta fs = (s', e)) :
    MailboxEffect s s' e := by
  unfold mbLoop at h
  split at h
  next =>
    split at h
    next =>
      obtain ⟨rfl, rfl⟩ := Prod.mk.inj h
      exact .keeps rfl fun ev hev => by cases hev; rfl
    next =>
      obtain ⟨rfl, rfl⟩ := Prod.mk.inj h
      exact .keeps rfl fun ev hev => by cases hev
  next hb =>
    rw [Bool.not_eq_true] at hb
    cases call with
    | send value =>
      obtain ⟨rfl, rfl⟩ := Prod.mk.inj h
      exact .put hb rfl
    | recv =>
      obtain ⟨rfl, rfl⟩ := Prod.mk.inj h
      exact .take hb rfl

theorem mbCall_effect (h : mbCall s m t call timeout = (s', e)) : MailboxEffect s s' e := by
  unfold mbCall at h
  split at h
  next =>
    obtain ⟨rfl, rfl⟩ := Prod.mk.inj h
    exact .keeps rfl fun ev hev => by cases hev; rfl
  next => exact mbLoop_effect h

theorem mbCallOf_eq : mbCallOf s m t timeout call = mbCall s m t call timeout := by
  cases call with
  | send value => rfl
  | recv => rfl

theorem mbStep_effect (h : mbStep s a = some (s', e)) : MailboxEffect s s' e := by
  have hkeeps : s'.mailbox = s.mailbox → e = none → MailboxEffect s s' e := by
    rintro hm rfl
    exact .keeps hm fun ev hev => by cases hev
  cases a with
  | call t m call timeout =>
    obtain ⟨-, h⟩ := Option.ite_none_right_eq_some.mp h
    rw [mbCallOf_eq] at h
    exact mbCall_effect (Option.some.inj h)
  | wake t =>
    obtain ⟨-, h⟩ := Option.ite_none_right_eq_some.mp h
    unfold mbWake at h
    split at h
    next =>
      split at h
      next =>
        obtain ⟨rfl, rfl⟩ := Prod.mk.inj (Option.some.inj h)
        exact .keeps rfl fun ev hev => by cases hev; rfl
      next =>
        obtain ⟨rfl, rfl⟩ := Prod.mk.inj (Option.some.inj h)
        exact hkeeps rfl rfl
    next => simp at h
  | again t =>
    obtain ⟨-, h⟩ := Option.ite_none_right_eq_some.mp h
    unfold mbAgain at h
    split at h
    next => exact mbLoop_effect (Option.some.inj h)
    next => simp at h
  | timeout t =>
    obtain ⟨threads, -, h⟩ := Option.map_eq_some_iff.mp h
    obtain ⟨rfl, rfl⟩ := Prod.mk.inj h
    exact hkeeps rfl rfl
  | reset m =>
    obtain ⟨rfl, rfl⟩ := Prod.mk.inj (Option.some.inj h)
    exact .reset rfl
  | tick =>
    obtain ⟨rfl, rfl⟩ := Prod.mk.inj (Option.some.inj h)
    exact hkeeps rfl rfl
  | killPend t signo =>
    obtain ⟨rfl, rfl⟩ := Prod.mk.inj (Option.some.inj h)
    exact hkeeps rfl rfl
  | killAppend t signo =>
    obtain ⟨rfl, rfl⟩ := Prod.mk.inj (Option.some.inj h)
    exact hkeeps rfl rfl
  | killDeliver t =>
    obtain ⟨rfl, rfl⟩ := Prod.mk.inj (Option.some.inj h)
    exact hkeeps rfl rfl
  | sigBegin t =>
    obtain ⟨p, -, h⟩ := Option.map_eq_some_iff.mp h
    obtain ⟨rfl, rfl⟩ := Prod.mk.inj h
    exact hkeeps rfl rfl
  | sigEnd t =>
    simp only [mbStep] at h
    split at h
    next =>
      obtain ⟨-, h⟩ := Option.ite_none_right_eq_some.mp h
      obtain ⟨rfl, rfl⟩ := Prod.mk.inj (Option.some.inj h)
      exact hkeeps rfl rfl
    next => simp at h

theorem MailboxEffect.ok (h : MailboxEffect s s' e) (hok : ∀ m, (s.mailbox m).Ok) (m : ObjectId) :
    (s'.mailbox m).Ok := by
  have hupdate : ∀ r (x : Mailbox), x.Ok → (Function.update s.mailbox r x m).Ok := by
    intro r x hx
    by_cases hr : m = r
    · rw [hr, Function.update_self]
      exact hx
    · rw [Function.update_of_ne hr]
      exact hok m
  cases h with
  | keeps hm _ => rw [hm]; exact hok m
  | put hb hm => rw [hm]; exact hupdate _ _ ((hok _).put _ hb).1
  | take hb hm => rw [hm]; exact hupdate _ _ ((hok _).take hb).1
  | reset hm => rw [hm]; exact hupdate _ _ (hok _).emptied.1

/-- What was sent is what was received and what is in the mailbox. -/
def InFlight (s : MbState) (log : List MbEvent) (m : ObjectId) : Prop :=
  (s.mailbox m).Ok ∧ sentSince m log = receivedSince m log ++ (s.mailbox m).contents

theorem MailboxEffect.inFlight (h : MailboxEffect s s' e) (hi : ∀ m, InFlight s log m) (m : ObjectId) :
    InFlight s' (e.toList ++ log) m := by
  cases h with
  | keeps hm he =>
    have hlog : sentSince m (e.toList ++ log) = sentSince m log ∧
        receivedSince m (e.toList ++ log) = receivedSince m log := by
      cases e with
      | none => exact ⟨rfl, rfl⟩
      | some ev =>
        have hev := he ev rfl
        cases ev with
        | failed _ _ _ => exact ⟨rfl, rfl⟩
        | sent _ _ | received _ _ | reset _ => cases hev
    rw [InFlight, hm, hlog.1, hlog.2]
    exact hi m
  | @put r value hb hm =>
    obtain ⟨hok, hsent⟩ := hi m
    by_cases hr : r = m
    · subst hr
      obtain ⟨hok', hcontents⟩ := hok.put value hb
      have hbox : s'.mailbox r = (s.mailbox r).put value := by rw [hm, Function.update_self]
      refine ⟨hbox ▸ hok', ?_⟩
      simp only [Option.toList_some, List.singleton_append, sentSince, receivedSince, if_true]
      rw [hbox, hcontents, hsent, List.append_assoc]
    · have hbox : s'.mailbox m = s.mailbox m := by rw [hm, Function.update_of_ne (Ne.symm hr)]
      refine ⟨hbox ▸ hok, ?_⟩
      simp only [Option.toList_some, List.singleton_append, sentSince, receivedSince, hr, if_false]
      rw [hbox, hsent]
  | @take r hb hm =>
    obtain ⟨hok, hsent⟩ := hi m
    by_cases hr : r = m
    · subst hr
      obtain ⟨hok', hcontents⟩ := hok.take hb
      have hbox : s'.mailbox r = (s.mailbox r).take := by rw [hm, Function.update_self]
      refine ⟨hbox ▸ hok', ?_⟩
      simp only [Option.toList_some, List.singleton_append, sentSince, receivedSince, if_true]
      rw [hbox, hsent, hcontents, List.append_assoc, List.singleton_append]
    · have hbox : s'.mailbox m = s.mailbox m := by rw [hm, Function.update_of_ne (Ne.symm hr)]
      refine ⟨hbox ▸ hok, ?_⟩
      simp only [Option.toList_some, List.singleton_append, sentSince, receivedSince, hr, if_false]
      rw [hbox, hsent]
  | @reset r hm =>
    obtain ⟨hok, hsent⟩ := hi m
    by_cases hr : r = m
    · subst hr
      obtain ⟨hok', hcontents⟩ := hok.emptied
      have hbox : s'.mailbox r = (s.mailbox r).emptied := by rw [hm, Function.update_self]
      refine ⟨hbox ▸ hok', ?_⟩
      simp only [Option.toList_some, List.singleton_append, sentSince, receivedSince, if_true]
      rw [hbox, hcontents, List.append_nil]
    · have hbox : s'.mailbox m = s.mailbox m := by rw [hm, Function.update_of_ne (Ne.symm hr)]
      refine ⟨hbox ▸ hok, ?_⟩
      simp only [Option.toList_some, List.singleton_append, sentSince, receivedSince, hr, if_false]
      rw [hbox, hsent]

theorem MbStart.ok (h : MbStart s) (m : ObjectId) : (s.mailbox m).Ok ∧ (s.mailbox m).contents = [] := by
  obtain ⟨flag, msgPool, size, hpos, hsize, hm⟩ := h.mailbox m
  have hmod : size % 65536 = size := Nat.mod_eq_of_lt (by omega)
  rw [hm, rtMbInit, hmod]
  exact ⟨⟨hsize, Nat.zero_le _, hpos, (Nat.zero_mod _).symm⟩, rfl⟩

end

/-- Runs of the mailboxes with everything that has been returned. -/
abbrev MbReach (x : MbState × List MbEvent) : Prop :=
  Reach mbLogStep (fun _ _ => True) (fun x => MbStart x.1 ∧ x.2 = []) x

theorem mbReach_inFlight {x : MbState × List MbEvent} (hr : MbReach x) (m : ObjectId) :
    InFlight x.1 x.2 m := by
  induction hr generalizing m with
  | start h =>
    obtain ⟨hstart, hlog⟩ := h
    obtain ⟨hok, hcontents⟩ := hstart.ok m
    refine ⟨hok, ?_⟩
    rw [hlog, hcontents]
    rfl
  | step _ _ hs ih =>
    obtain ⟨⟨s', e⟩, hstep, rfl⟩ := Option.map_eq_some_iff.mp hs
    exact (mbStep_effect hstep).inFlight ih m

/-- A mailbox is a bounded FIFO. -/
theorem mbReach_fifo {x : MbState × List MbEvent} (hr : MbReach x) (m : ObjectId) :
    receivedSince m x.2 <+: sentSince m x.2 ∧
      (sentSince m x.2).length = (receivedSince m x.2).length + (x.1.mailbox m).entry ∧
      (x.1.mailbox m).entry ≤ (x.1.mailbox m).size ∧
      (x.1.mailbox m).inOffset =
        ((x.1.mailbox m).outOffset + (x.1.mailbox m).entry) % (x.1.mailbox m).size ∧
      ∀ a s' e, mbStep x.1 a = some (s', e) → (∀ ev ∈ e, ev.transfers = false) →
        s'.mailbox = x.1.mailbox := by
  obtain ⟨hok, hsent⟩ := mbReach_inFlight hr m
  refine ⟨⟨_, hsent.symm⟩, ?_, hok.entry, hok.inOffset, fun a s' e hs he => ?_⟩
  · rw [hsent, List.length_append, Mailbox.contents, ringContents_length]
  · cases mbStep_effect hs with
    | keeps hm _ => exact hm
    | put _ _ => cases he _ rfl
    | take _ _ => cases he _ rfl
    | reset _ => cases he _ rfl

/-- Mailboxes with one slot, and threads that handle signal 10. -/
def mbStartState : MbState where
  thread _ := ⟨.ready, 10, 10, .eok, false, 0, 1024, []⟩
  waiters _ := []
  mailbox _ := rtMbInit .fifo (fun _ => 0) 1
  tick := 0
  frames _ := []

theorem mbStartState_start : MbStart mbStartState :=
  ⟨fun _ => ⟨.fifo, fun _ => 0, 1, by decide, by decide, rfl⟩, fun _ => rfl, fun _ => rfl⟩

/-- A receiver and a sender wait in turn, and each is woken by the other. -/
def afterTwoMails : MbState × List MbEvent :=
  (runFrom mbLogStep [.call 1 0 .recv (-1), .call 2 0 (.send 7) 0, .wake 1, .call 2 0 (.send 8) (-1),
    .again 1, .wake 2, .again 2] (mbStartState, [])).get (by decide +kernel)

theorem mbReach_fifo_afterTwoMails : [7#32] <+: [7#32, 8#32] ∧ (afterTwoMails.1.mailbox 0).entry = 1 := by
  have hr : MbReach afterTwoMails :=
    Reach.runFrom (runMeets_of_forall fun _ _ _ => trivial) (.start ⟨mbStartState_start, rfl⟩)
      (Option.some_get _).symm
  obtain ⟨hfifo, hlength, -⟩ := mbReach_fifo hr 0
  have hsent : sentSince 0 afterTwoMails.2 = [7#32, 8#32] := by decide +kernel
  have hreceived : receivedSince 0 afterTwoMails.2 = [7#32] := by decide +kernel
  rw [hsent, hreceived] at hfifo hlength
  simp only [List.length_cons, List.length_nil] at hlength
  exact ⟨hfifo, by omega⟩

end RTThread
