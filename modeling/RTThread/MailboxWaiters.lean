import RTThread.MailboxFifo
import RTThread.Totals

namespace RTThread

/-- A call on this side of the mailbox `m`. -/
def MbFrame.isFor (m : ObjectId) (side : Side) : MbFrame → Bool
  | .waiting r call _ _ | .again r call _ _ => r = m && call.side = side
  | .handler _ => false

/-- The innermost frame of the thread does not return an error from its call. -/
def MbFrame.looksAgain (x : Thread) : MbFrame → Bool
  | .waiting .. => x.stat = .ready && x.error = .eok
  | _ => true

/-- How many calls of a thread are on their way to test this side of `m` again; the calls below a
handler are. -/
def wayCount (x : Thread) (m : ObjectId) (side : Side) : List MbFrame → Nat
  | [] => 0
  | f :: fs => (f.isFor m side && f.looksAgain x).toNat + fs.countP (·.isFor m side)

/-- A woken thread is still on its way to re-check the mailbox. -/
def OnItsWay (s : MbState) (m : ObjectId) (side : Side) (t : ThreadId) : Prop :=
  0 < wayCount (s.thread t) m side (s.frames t)

def onWay (s : MbState) (m : ObjectId) (side : Side) : Nat :=
  total fun t => wayCount (s.thread t) m side (s.frames t)

/-- When no woken thread is on its way, nobody sleeps who could go on. -/
def WakesAll (s : MbState) (m : ObjectId) : Prop :=
  (∀ side t, ¬ OnItsWay s m side t) →
    ((s.mailbox m).entry ≠ 0 → s.waiters (mbList m .recv) = []) ∧
      ((s.mailbox m).entry ≠ (s.mailbox m).size → s.waiters (mbList m .send) = [])

/-- Where threads wait, there are threads on their way for all that is available. -/
def Accounted (s : MbState) : Prop :=
  ∀ m side, s.waiters (mbList m side) ≠ [] → (s.mailbox m).available side ≤ onWay s m side

/-- A handler does not return to a woken call that has not yet looked at the error, unless nobody
waits behind it or others are on their way for all that is available. -/
def KeepsWakeups (s : MbState) : MbAction → Prop
  | .sigEnd t => ∀ signo m call timeout tickDelta fs,
    s.frames t = .handler signo :: .waiting m call timeout tickDelta :: fs →
      s.waiters (mbList m call.side) = [] ∨
        (s.mailbox m).available call.side < onWay s m call.side
  | _ => True

def Side.other : Side → Side
  | .send => .recv
  | .recv => .send

def mbNext (s : MbState) (a : MbAction) : Option MbState := (mbStep s a).map Prod.fst

/-- The thread is in its own code or in a handler's. -/
def Outer (fs : List MbFrame) : Prop := ∀ f ∈ fs.head?, ∃ signo, f = .handler signo

/-- Calls nest only inside handlers. -/
def NestedCalls : List MbFrame → Prop
  | [] => True
  | .handler _ :: fs => NestedCalls fs
  | _ :: fs => Outer fs ∧ NestedCalls fs

/-- The lists hold the threads that wait in a call, each on the list of its side. -/
structure MbOk (s : MbState) : Prop where
  wait : WaitOk s.toThreads
  nested : ∀ t, NestedCalls (s.frames t)
  error : ∀ t q, t ∈ s.waiters q → (s.thread t).error = .eok
  call : ∀ t q, t ∈ s.waiters q → ∃ m call timeout tickDelta fs,
    s.frames t = .waiting m call timeout tickDelta :: fs ∧ q = mbList m call.side

section
variable {s s' : MbState} {m r : ObjectId} {side side' : Side} {t u : ThreadId} {x y : Thread}
  {f : MbFrame} {fs : List MbFrame} {call : MbCall} {timeout : Int} {tickDelta : Nat} {signo : Nat}

theorem mbList_inj : mbList m side = mbList r side' ↔ m = r ∧ side = side' := by
  have harith : ∀ a b : Nat, (2 * a = 2 * b ↔ a = b) ∧ 2 * a ≠ 2 * b + 1 := by omega
  cases side <;> cases side'
  · simp [mbList]
  · simpa [mbList] using (harith r m).2.symm
  · simpa [mbList] using (harith m r).2
  · simp [mbList]

/-- Under an outer frame that is a handler, or none, nothing is on its way but what is below. -/
theorem wayCount_outer (h : Outer fs) : wayCount x m side fs = fs.countP (·.isFor m side) := by
  cases fs with
  | nil => rfl
  | cons f fs =>
    obtain ⟨signo, rfl⟩ := h f rfl
    simp [wayCount, MbFrame.isFor]

theorem wayCount_cons_waiting (hx : x.stat ≠ .ready ∨ x.error ≠ .eok) :
    wayCount x m side (.waiting r call timeout tickDelta :: fs) = fs.countP (·.isFor m side) := by
  have hfalse : (decide (x.stat = .ready) && decide (x.error = .eok)) = false := by
    simpa [imp_iff_not_or] using hx
  simp [wayCount, MbFrame.looksAgain, hfalse]

/-- Whatever happens to the thread, a frame counts at most once. -/
theorem wayCount_le_countP : wayCount x m side fs ≤ fs.countP (·.isFor m side) := by
  cases fs with
  | nil => exact Nat.le_refl _
  | cons f fs =>
    rw [List.countP_cons, wayCount, Nat.add_comm]
    refine Nat.add_le_add_left ?_ _
    cases f.isFor m side with
    | true => simpa using Bool.toNat_le _
    | false => simp

theorem wayCount_mono (h : x.stat = .ready → x.error = .eok → y.stat = .ready ∧ y.error = .eok) :
    wayCount x m side fs ≤ wayCount y m side fs := by
  cases fs with
  | nil => exact Nat.le_refl _
  | cons f fs =>
    simp only [wayCount]
    refine Nat.add_le_add_right ?_ _
    cases f with
    | waiting =>
      simp only [MbFrame.looksAgain]
      refine Bool.toNat_le_toNat (Bool.le_iff_imp.mpr ?_)
      simp only [Bool.and_eq_true, decide_eq_true_eq]
      tauto
    | again => exact Nat.le_refl _
    | handler => exact Nat.le_refl _

theorem wayCount_suspended (h : x.stat = .suspend) : wayCount x m side fs ≤ wayCount y m side fs :=
  wayCount_mono fun hready => by simp [h] at hready

theorem onWay_mono (h : ∀ u, wayCount (s.thread u) m side (s.frames u) ≤
    wayCount (s'.thread u) m side (s'.frames u)) : onWay s m side ≤ onWay s' m side :=
  total_mono h

/-- Nobody begins to wait, and the threads still waiting are as they were. -/
structure MbShrinks (s s' : MbState) : Prop where
  waiters : ∀ q, (s'.waiters q).Sublist (s.waiters q)
  stat : ∀ u q, u ∈ s'.waiters q → (s'.thread u).stat = (s.thread u).stat
  error : ∀ u q, u ∈ s'.waiters q → (s'.thread u).error = (s.thread u).error
  frames : ∀ u q, u ∈ s'.waiters q → s'.frames u = s.frames u
  nested : ∀ u, NestedCalls (s'.frames u)

/-- Only a thread that is on no list changes. -/
structure OnlyThread (t : ThreadId) (s s' : MbState) : Prop where
  mailbox : s'.mailbox = s.mailbox
  waiters : s'.waiters = s.waiters
  thread : ∀ u, u ≠ t → s'.thread u = s.thread u
  frames : ∀ u, u ≠ t → s'.frames u = s.frames u

theorem MbShrinks.mbOk (h : MbShrinks s s') (hok : MbOk s) : MbOk s' := by
  have hsub : ∀ u q, u ∈ s'.waiters q → u ∈ s.waiters q := fun u q hu => (h.waiters q).subset hu
  refine ⟨hok.wait.of_sub h.waiters h.stat, h.nested, fun u q hu => ?_, fun u q hu => ?_⟩
  · rw [h.error u q hu]
    exact hok.error u q (hsub u q hu)
  · rw [h.frames u q hu]
    exact hok.call u q (hsub u q hu)

theorem OnlyThread.shrinks (h : OnlyThread t s s') (ht : ∀ q, t ∉ s.waiters q)
    (hok : MbOk s) (hn : NestedCalls (s'.frames t)) : MbShrinks s s' := by
  have hut : ∀ u q, u ∈ s'.waiters q → u ≠ t := fun u q hu =>
    ne_of_mem_of_not_mem hu (h.waiters ▸ ht q)
  refine ⟨fun q => h.waiters ▸ List.Sublist.refl _, fun u q hu => ?_, fun u q hu => ?_, fun u q hu => ?_,
    fun u => ?_⟩
  · rw [h.thread u (hut u q hu)]
  · rw [h.thread u (hut u q hu)]
  · rw [h.frames u (hut u q hu)]
  · by_cases hu : u = t
    · exact hu ▸ hn
    · rw [h.frames u hu]
      exact hok.nested u

theorem OnlyThread.onWay_le {b : Nat} (h : OnlyThread t s s')
    (ht : wayCount (s.thread t) m side (s.frames t) ≤
      wayCount (s'.thread t) m side (s'.frames t) + b) : onWay s m side ≤ onWay s' m side + b := by
  have hne : ∀ u, u ≠ t → wayCount (s.thread u) m side (s.frames u) ≤
      wayCount (s'.thread u) m side (s'.frames u) := fun u hu => by
    rw [h.thread u hu, h.frames u hu]
  exact total_le_total_add t hne ht

theorem OnlyThread.onWay_succ_le (h : OnlyThread t s s')
    (ht : wayCount (s'.thread t) m side (s'.frames t) + 1 ≤
      wayCount (s.thread t) m side (s.frames t)) : onWay s' m side + 1 ≤ onWay s m side := by
  have hne : ∀ u, u ≠ t → wayCount (s'.thread u) m side (s'.frames u) ≤
      wayCount (s.thread u) m side (s.frames u) := fun u hu => by
    rw [h.thread u hu, h.frames u hu]
  exact total_succ_le_total t hne ht

theorem OnlyThread.onWay_mono (h : OnlyThread t s s')
    (ht : wayCount (s.thread t) m side (s.frames t) ≤
      wayCount (s'.thread t) m side (s'.frames t)) : onWay s m side ≤ onWay s' m side := by
  refine total_mono fun u => ?_
  by_cases hu : u = t
  · rwa [hu]
  · rw [h.thread u hu, h.frames u hu]

theorem OnlyThread.accounted (h : OnlyThread t s s') (ha : Accounted s)
    (ht : ∀ m side, wayCount (s.thread t) m side (s.frames t) ≤
      wayCount (s'.thread t) m side (s'.frames t)) : Accounted s' := by
  intro m side hne
  rw [h.waiters] at hne
  rw [h.mailbox]
  exact (ha m side hne).trans (h.onWay_mono (ht m side))

/-- Resuming a thread, for whatever reason. -/
theorem Resumed.mbShrinks (h : Resumed s.toThreads s'.toThreads t) (hf : s'.frames = s.frames)
    (hok : MbOk s) : MbShrinks s s' := by
  refine ⟨fun q => ?_, fun u q hu => ?_, fun u q hu => ?_, fun u q _ => by rw [hf],
    fun u => hf ▸ hok.nested u⟩
  · rw [h.waiters]
    exact List.filter_sublist
  · rw [h.other u (h.mem.mp hu).2]
  · rw [h.other u (h.mem.mp hu).2]

theorem Resumed.accounted (h : Resumed s.toThreads s'.toThreads t) (hsusp : (s.thread t).stat = .suspend)
    (hf : s'.frames = s.frames) (hm : s'.mailbox = s.mailbox) (ha : Accounted s) : Accounted s' := by
  intro m side hne
  rw [h.waiters] at hne
  have hold : s.waiters (mbList m side) ≠ [] := fun hnil => hne (by simp [rtListRemove, hnil])
  rw [hm]
  refine (ha m side hold).trans (onWay_mono fun u => ?_)
  rw [hf]
  by_cases hu : u = t
  · rw [hu]
    exact wayCount_suspended hsusp
  · rw [h.other u hu]

/-- One message or slot may not be accounted for where a call goes through the loop. -/
structure Owing (s : MbState) (m : ObjectId) (side : Side) : Prop where
  here : s.waiters (mbList m side) ≠ [] → (s.mailbox m).available side ≤ onWay s m side + 1
  elsewhere : ∀ r side', s.waiters (mbList r side') ≠ [] → ¬ (r = m ∧ side' = side) →
    (s.mailbox r).available side' ≤ onWay s r side'

theorem Accounted.owing (h : Accounted s) : Owing s m side :=
  ⟨fun hne => (h m side hne).trans (Nat.le_succ _), fun r side' hne _ => h r side' hne⟩

theorem Owing.accounted (h : Owing s m side) (hzero : (s.mailbox m).available side = 0) : Accounted s := by
  intro r side' hne
  by_cases hr : r = m ∧ side' = side
  · rw [hr.1, hr.2, hzero]
    exact Nat.zero_le _
  · exact h.elsewhere r side' hne hr

theorem MbOk.not_mem (hok : MbOk s) (ht : (s.thread t).stat = .ready) (q : ObjectId) :
    t ∉ s.waiters q := hok.wait.not_mem ht

theorem nestedCalls_tail {f : MbFrame} (h : NestedCalls (f :: fs)) : NestedCalls fs := by
  cases f with
  | waiting => exact h.2
  | again => exact h.2
  | handler => exact h

/-- Back in the loop, the call no longer counts as on its way. -/
theorem again_owing (hok : MbOk s) (ha : Accounted s) (hready : (s.thread t).stat = .ready)
    (hf : s.frames t = .again m call timeout tickDelta :: fs) :
    MbOk (s.setFrames t fs) ∧ Owing (s.setFrames t fs) m call.side := by
  have hn : NestedCalls (.again m call timeout tickDelta :: fs) := hf ▸ hok.nested t
  have hself : (s.setFrames t fs).frames t = fs := Function.update_self ..
  have honly : OnlyThread t s (s.setFrames t fs) :=
    ⟨rfl, rfl, fun u _ => rfl, fun u hu => Function.update_of_ne hu ..⟩
  have hshrinks := honly.shrinks (hok.not_mem hready) hok (by rw [hself]; exact hn.2)
  have hcount : ∀ r side, wayCount (s.thread t) r side (s.frames t) =
      ((MbFrame.again m call timeout tickDelta).isFor r side).toNat +
        wayCount (s.thread t) r side fs := fun r side => by
    rw [hf, wayCount_outer hn.1]
    simp [wayCount, MbFrame.looksAgain]
  refine ⟨hshrinks.mbOk hok, fun hne => (ha m _ hne).trans (honly.onWay_le ?_), fun r side hne hr =>
    (ha r side hne).trans (honly.onWay_mono ?_)⟩
  · rw [hself, hcount, Nat.add_comm]
    exact Nat.add_le_add_left (Bool.toNat_le _) _
  · have hfor : (MbFrame.again m call timeout tickDelta).isFor r side = false := by
      simp only [MbFrame.isFor, Bool.and_eq_false_imp, decide_eq_true_eq, decide_eq_false_iff_not]
      rintro rfl rfl
      exact hr ⟨rfl, rfl⟩
    rw [hself, hcount, hfor]
    exact Nat.le_of_eq (Nat.zero_add _)

theorem available_eq_zero (hb : (s.mailbox m).blocked side = true) :
    (s.mailbox m).available side = 0 := by
  cases side with
  | send =>
    have hfull : (s.mailbox m).entry = (s.mailbox m).size := by simpa [Mailbox.blocked] using hb
    simp [Mailbox.available, hfull]
  | recv => simpa [Mailbox.available, Mailbox.blocked] using hb

/-- What a call that goes to sleep does. -/
structure FallsAsleep (s : MbState) (t : ThreadId) (m : ObjectId) (call : MbCall) (s' : MbState) :
    Prop where
  awake : ∀ q, t ∉ s.waiters q
  mailbox : s'.mailbox = s.mailbox
  wait : WaitOk s'.toThreads
  mem : ∀ u q, u ∈ s'.waiters q ↔ u ∈ s.waiters q ∨ u = t ∧ q = mbList m call.side
  thread : ∀ u, u ≠ t → s'.thread u = s.thread u
  stat : (s'.thread t).stat = .suspend
  error : (s'.thread t).error = .eok
  frames : ∀ u, u ≠ t → s'.frames u = s.frames u
  call : ∃ timeout tickDelta, s'.frames t = .waiting m call timeout tickDelta :: s.frames t

theorem mbWait_fallsAsleep (call : MbCall) (timeout : Int) (tickDelta : Nat) (hok : MbOk s)
    (hready : (s.thread t).stat = .ready) :
    FallsAsleep s t m call (mbWait s m t call timeout tickDelta (s.frames t)) := by
  have hr : ((setError s.toThreads t .eok).thread t).stat = .ready := by simpa [setError] using hready
  have hnot : ∀ q, t ∉ (setError s.toThreads t .eok).waiters q := hok.not_mem hready
  obtain ⟨-, hthread⟩ := suspendFor_spec (mbList m call.side) (s.mailbox m).flag timeout hnot hr
  refine ⟨hnot, rfl, suspendFor_waitOk (hok.wait.set rfl) hr, fun u q => mem_suspendFor hnot hr,
    fun u hu => (hthread u).trans ?_, ?_, ?_, fun u hu => Function.update_of_ne hu .., ?_⟩
  · simp [setError, hu]
  · exact (congrArg Thread.stat (hthread t)).trans (by rw [if_pos rfl])
  · exact (congrArg Thread.error (hthread t)).trans (by simp [setError])
  · exact ⟨timeout, _, Function.update_self ..⟩

theorem FallsAsleep.mbOk (h : FallsAsleep s t m call s') (hok : MbOk s) (houter : Outer (s.frames t)) :
    MbOk s' := by
  obtain ⟨timeout, tickDelta, hcall⟩ := h.call
  refine ⟨h.wait, fun u => ?_, fun u q hu => ?_, fun u q hu => ?_⟩
  · by_cases hu : u = t
    · rw [hu, hcall]
      exact ⟨houter, hok.nested t⟩
    · rw [h.frames u hu]
      exact hok.nested u
  all_goals
    by_cases hut : u = t
  · rw [hut, h.error]
  · rw [h.thread u hut]
    exact hok.error u q (((h.mem u q).mp hu).resolve_right fun hq => hut hq.1)
  · rw [hut] at hu ⊢
    exact ⟨m, call, timeout, tickDelta, _, hcall, (((h.mem t q).mp hu).resolve_left (h.awake q)).2⟩
  · rw [h.frames u hut]
    exact hok.call u q (((h.mem u q).mp hu).resolve_right fun hq => hut hq.1)

/-- Where a call goes to sleep there is nothing to account for, and elsewhere nothing changes. -/
theorem FallsAsleep.accounted (h : FallsAsleep s t m call s') (ho : Owing s m call.side)
    (houter : Outer (s.frames t)) (hb : (s.mailbox m).blocked call.side = true) : Accounted s' := by
  intro r side hne
  rw [h.mailbox]
  by_cases hr : r = m ∧ side = call.side
  · rw [hr.1, hr.2, available_eq_zero hb]
    exact Nat.zero_le _
  · obtain ⟨u, hu⟩ := List.exists_mem_of_ne_nil _ hne
    have hu' : u ∈ s.waiters (mbList r side) := ((h.mem u _).mp hu).resolve_right fun hq =>
      hr (mbList_inj.mp hq.2)
    refine (ho.elsewhere r side (List.ne_nil_of_mem hu') hr).trans (onWay_mono fun v => ?_)
    by_cases hv : v = t
    · obtain ⟨timeout, tickDelta, hcall⟩ := h.call
      rw [hv, hcall, wayCount_outer houter, wayCount_cons_waiting (.inl (by simp [h.stat]))]
    · rw [h.thread v hv, h.frames v hv]

@[simp] theorem Side.other_ne : side.other ≠ side := by cases side <;> decide

theorem Side.eq_other (h : side' ≠ side) : side' = side.other := by
  cases side <;> cases side' <;> first | rfl | contradiction

theorem put_available {value : BitVec 32} (hbox : (s.mailbox m).Ok)
    (hb : (s.mailbox m).blocked .send = false) :
    ((s.mailbox m).put value).available .send + 1 = (s.mailbox m).available .send ∧
      ((s.mailbox m).put value).available .recv = (s.mailbox m).available .recv + 1 := by
  obtain ⟨hlt, hput⟩ := hbox.put_eq value hb
  rw [hput]
  refine ⟨?_, rfl⟩
  simp only [Mailbox.available]
  omega

theorem take_available (hbox : (s.mailbox m).Ok) (hb : (s.mailbox m).blocked .recv = false) :
    (s.mailbox m).take.available .recv + 1 = (s.mailbox m).available .recv ∧
      (s.mailbox m).take.available .send = (s.mailbox m).available .send + 1 := by
  obtain ⟨hpos, htake⟩ := hbox.take_eq hb
  have hentry := hbox.entry
  rw [htake]
  simp only [Mailbox.available]
  omega

/-- What a call that goes through does before it returns: its side has one less to go for, the other
side one more, and one thread of the other side is woken. -/
theorem mbTransfer_spec (hbox : (s.mailbox m).Ok) (hb : (s.mailbox m).blocked call.side = false) :
    ∃ x : Mailbox, x.available call.side + 1 = (s.mailbox m).available call.side ∧
      x.available call.side.other = (s.mailbox m).available call.side.other + 1 ∧
      (mbTransfer s m call).1 = wakeFirst (s.setMailbox m fun _ => x) (mbList m call.side.other) := by
  cases call with
  | send value => exact ⟨_, (put_available hbox hb).1, (put_available hbox hb).2, rfl⟩
  | recv => exact ⟨_, (take_available hbox hb).1, (take_available hbox hb).2, rfl⟩

/-- The first thread of a list, made ready, is on its way. -/
theorem wakeFirst_onWay (hok : MbOk s) (hne : s.waiters (mbList m side) ≠ []) :
    onWay s m side + 1 ≤ onWay (wakeFirst s (mbList m side)) m side := by
  obtain ⟨n, l, hl⟩ := List.exists_cons_of_ne_nil hne
  have hn : n ∈ s.waiters (mbList m side) := hl ▸ List.mem_cons_self
  have hsusp := hok.wait.suspended n _ hn
  obtain ⟨r, call, timeout, tickDelta, fs, hf, hq⟩ := hok.call n _ hn
  obtain ⟨rfl, rfl⟩ := mbList_inj.mp hq
  have hwake : wakeFirst s (mbList m call.side) = { s with toThreads := rtThreadResume s.toThreads n } := by
    simp [wakeFirst, rtIpcListResume, hl]
  rw [hwake]
  have hother : ∀ u, u ≠ n → wayCount (s.thread u) m call.side (s.frames u) ≤
      wayCount ((rtThreadResume s.toThreads n).thread u) m call.side (s.frames u) := fun u hu => by
    rw [rtThreadResume_thread_ne hu]
  have hself : wayCount (s.thread n) m call.side (s.frames n) + 1 ≤
      wayCount ((rtThreadResume s.toThreads n).thread n) m call.side (s.frames n) := by
    rw [hf, wayCount_cons_waiting (.inl (by simp [hsusp])), rtThreadResume_thread hsusp]
    simp [wayCount, MbFrame.isFor, MbFrame.looksAgain, hok.error n _ hn, Nat.add_comm]
  exact total_succ_le_total n hother hself

theorem wakeFirst_cases (q : ObjectId) :
    wakeFirst s q = s ∨ ∃ n ∈ s.waiters q, wakeFirst s q =
      { s with toThreads := rtThreadResume s.toThreads n } := by
  rcases hl : s.waiters q with - | ⟨n, l⟩
  · exact .inl (by simp [wakeFirst, rtIpcListResume, hl])
  · refine .inr ⟨n, List.mem_cons_self, ?_⟩
    simp [wakeFirst, rtIpcListResume, hl]

theorem wakeFirst_mono (hok : MbOk s) (q : ObjectId) :
    (∀ r, ((wakeFirst s q).waiters r).Sublist (s.waiters r)) ∧
      ∀ r side, onWay s r side ≤ onWay (wakeFirst s q) r side := by
  rcases wakeFirst_cases q with h | ⟨n, hn, h⟩
  · rw [h]
    exact ⟨fun r => List.Sublist.refl _, fun r side => Nat.le_refl _⟩
  · rw [h]
    have hsusp := hok.wait.suspended n q hn
    have hr := rtThreadResume_resumed hsusp
    refine ⟨fun r => hr.waiters ▸ List.filter_sublist, fun r side => onWay_mono fun u => ?_⟩
    by_cases hu : u = n
    · rw [hu]
      exact wayCount_suspended hsusp
    · exact Nat.le_of_eq (by rw [hr.other u hu])

theorem wakeFirst_mbOk (hok : MbOk s) (q : ObjectId) : MbOk (wakeFirst s q) := by
  rcases wakeFirst_cases q with h | ⟨n, hn, h⟩
  · rwa [h]
  · rw [h]
    have hshrinks : MbShrinks s { s with toThreads := rtThreadResume s.toThreads n } :=
      (rtThreadResume_resumed (hok.wait.suspended n q hn)).mbShrinks rfl hok
    exact hshrinks.mbOk hok

/-- A call that goes through accounts for what it leaves to its side, and wakes a thread for what it
gives to the other. -/
theorem mbTransfer_accounted (hok : MbOk s) (hbox : (s.mailbox m).Ok) (ho : Owing s m call.side)
    (hb : (s.mailbox m).blocked call.side = false) :
    MbOk (mbTransfer s m call).1 ∧ Accounted (mbTransfer s m call).1 := by
  obtain ⟨x, hside, hother, htransfer⟩ := mbTransfer_spec hbox hb
  have hok1 : MbOk (s.setMailbox m fun _ => x) := ⟨hok.wait, hok.nested, hok.error, hok.call⟩
  rw [htransfer]
  obtain ⟨hsub, hmono⟩ := wakeFirst_mono hok1 (mbList m call.side.other)
  refine ⟨wakeFirst_mbOk hok1 _, fun r side hne => ?_⟩
  have hlist : s.waiters (mbList r side) ≠ [] := fun hnil =>
    hne (List.sublist_nil.mp (hnil ▸ hsub (mbList r side)))
  by_cases hr : r = m
  · subst hr
    have hbox : ((s.setMailbox r fun _ => x).mailbox r) = x := Function.update_self ..
    change ((s.setMailbox r fun _ => x).mailbox r).available side ≤ _
    rw [hbox]
    by_cases hs : side = call.side
    · subst hs
      have hold := ho.here hlist
      have hway : onWay s r call.side ≤ _ := hmono r call.side
      omega
    · obtain rfl := Side.eq_other hs
      have hold := ho.elsewhere r _ hlist (by simp)
      have hway := wakeFirst_onWay hok1 hlist
      change onWay s r call.side.other + 1 ≤ _ at hway
      omega
  · have hbox : ((s.setMailbox m fun _ => x).mailbox r) = s.mailbox r := Function.update_of_ne hr ..
    change ((s.setMailbox m fun _ => x).mailbox r).available side ≤ _
    rw [hbox]
    exact (ho.elsewhere r side hlist fun h => hr h.1).trans (hmono r side)

theorem setFrames_eq_self (h : s.frames t = fs) : s.setFrames t fs = s := by
  subst h
  simp [MbState.setFrames]

/-- The loop does not read the frames. -/
theorem mbLoop_setFrames : mbLoop (s.setFrames t fs) m t call timeout tickDelta fs =
    mbLoop s m t call timeout tickDelta fs := by
  unfold mbLoop
  have htransfer : mbTransfer (s.setFrames t fs) m call =
      ((mbTransfer s m call).1.setFrames t fs, (mbTransfer s m call).2) := by
    cases call with
    | send value => rfl
    | recv => rfl
  rw [htransfer]
  simp [mbWait, MbState.setFrames]

theorem mbTransfer_frames : (mbTransfer s m call).1.frames = s.frames := by
  cases call with
  | send value => rfl
  | recv => rfl

/-- A turn of the loop accounts again for what the call going through it left open. -/
theorem mbLoop_accounted (timeout : Int) (tickDelta : Nat) (hok : MbOk s)
    (hbox : (s.mailbox m).Ok) (ho : Owing s m call.side)
    (hcaller : (s.mailbox m).blocked call.side = true →
      (s.thread t).stat = .ready ∧ Outer (s.frames t)) :
    MbOk (mbLoop s m t call timeout tickDelta (s.frames t)).1 ∧
      Accounted (mbLoop s m t call timeout tickDelta (s.frames t)).1 := by
  unfold mbLoop
  split
  next hb =>
    obtain ⟨hready, houter⟩ := hcaller hb
    split
    next =>
      rw [setFrames_eq_self rfl]
      have honly : OnlyThread t s
          { s with toThreads := setError s.toThreads t (noWaitError call.side) } :=
        ⟨rfl, rfl, fun u hu => Function.update_of_ne hu .., fun u _ => rfl⟩
      have hshrinks := honly.shrinks (hok.not_mem hready) hok (hok.nested t)
      refine ⟨hshrinks.mbOk hok, honly.accounted (ho.accounted (available_eq_zero hb)) fun r side => ?_⟩
      rw [wayCount_outer houter, wayCount_outer houter]
    next =>
      have hasleep := mbWait_fallsAsleep (m := m) call timeout tickDelta hok hready
      exact ⟨hasleep.mbOk hok houter, hasleep.accounted ho houter hb⟩
  next hb =>
    dsimp only
    rw [setFrames_eq_self (congrFun mbTransfer_frames t)]
    exact mbTransfer_accounted hok hbox ho (Bool.not_eq_true _ ▸ hb)

end

end RTThread
