import RTThread.MemPoolModel

namespace RTThread

/-- Where a call with a timeout stands: asleep with its timer started for the time left, awake again
with the time it now takes for left, or elsewhere. `since` is the tick it has stored. -/
inductive WaitPhase where
  | asleep (left : Int) (since : Nat)
  | awake (left : Int) (since : Nat)
  | gone
deriving DecidableEq

def WaitPhase.isAsleep : WaitPhase → Bool
  | .asleep .. => true
  | _ => false

/-- Where a blocking loop takes the time that has passed off its timeout: with interrupts disabled
again, before it disables them, or not at all. -/
inductive Recount where
  | locked
  | unlocked
  | never
deriving DecidableEq

/-- The time left when the call is back from its sleep. -/
def Recount.onWake : Recount → Int → Nat → Nat → Int
  | .unlocked, left, since, tick => remainingTime left tick since
  | _, left, _, _ => left

/-- The time left when the call goes to sleep again. -/
def Recount.onSleep : Recount → Int → Nat → Nat → Int
  | .locked, left, since, tick => remainingTime left tick since
  | _, left, _, _ => left

/-- A blocking call of one thread in a system of states `σ`: how it begins, what its thread does next
when `rt_schedule()` has returned and when it is back at its loop, and what is its own, which nobody
else touches. -/
structure WaitLoop (σ φ : Type) where
  recount : Recount
  tick : σ → Nat
  frame : σ → φ
  phase : φ → WaitPhase
  call : Int → σ → Option σ
  wake : σ → Option σ
  again : σ → Option σ
  call_asleep : ∀ time s s', 0 < time → call time s = some s' → (phase (frame s')).isAsleep = true →
    ∃ since, phase (frame s') = .asleep time since ∧ (recount ≠ .never → since = tick s)
  wake_asleep : ∀ s s' left since, 0 < left → phase (frame s) = .asleep left since →
    wake s = some s' → tick s' = tick s ∧ (phase (frame s') = .gone ∨
      ∃ since', phase (frame s') = .awake (recount.onWake left since (tick s)) since' ∧
        (recount = .locked → since' = since))
  again_awake : ∀ s s' left since, 0 ≤ left → phase (frame s) = .awake left since →
    again s = some s' → tick s' = tick s ∧ (phase (frame s') = .gone ∨
      ∃ since', phase (frame s') = .asleep (recount.onSleep left since (tick s)) since' ∧
        0 < recount.onSleep left since (tick s) ∧ (recount ≠ .never → since' = tick s))

def WaitLoop.next {σ φ : Type} (L : WaitLoop σ φ) (s : σ) : Option σ :=
  match L.phase (L.frame s) with
  | .asleep .. => L.wake s
  | .awake .. => L.again s
  | .gone => none

/-- A system with a call in it, on a clock that does not wrap. -/
structure Watch (σ : Type) where
  state : σ
  now : Nat
  /-- When the call last went to sleep, and for how long. -/
  asleepAt : Nat
  asleepFor : Int
  /-- When it was last back. -/
  wokenAt : Nat

/-- The call goes on, or time passes and others change what is not its own. -/
inductive WatchAction (σ : Type) where
  | next
  | others (s' : σ) (now' : Nat)

section
variable {σ φ : Type} [DecidableEq φ]

/-- When the timer of a call that goes to sleep now expires: `rt_timer_start` adds the time to the
current tick. -/
def Watch.expiry (w : Watch σ) (left : Int) : Int := w.now + left

def Watch.move (L : WaitLoop σ φ) (w : Watch σ) (s' : σ) : Watch σ :=
  match L.phase (L.frame s') with
  | .asleep left _ => { w with state := s', asleepAt := w.now, asleepFor := left }
  | .awake .. => { w with state := s', wokenAt := w.now }
  | .gone => { w with state := s' }

def watchStep (L : WaitLoop σ φ) (w : Watch σ) : WatchAction σ → Option (Watch σ)
  | .next => (L.next w.state).map (w.move L)
  | .others s' now' =>
    if L.frame s' = L.frame w.state ∧ w.now ≤ now' ∧ L.tick s' = word now' then
      some { w with state := s', now := now' }
    else none

/-- A call with the timeout `time` has just gone to sleep for the first time. -/
def WatchStart (L : WaitLoop σ φ) (time : Int) (first : Nat) (w : Watch σ) : Prop :=
  ∃ s, L.tick s = word first ∧ L.call time s = some w.state ∧
    (L.phase (L.frame w.state)).isAsleep = true ∧ L.tick w.state = word first ∧
    w.now = first ∧ w.asleepAt = first ∧ w.asleepFor = time

/-- So much later than the time left that the difference of the ticks looks like less. -/
def Overslept (left : Int) (elapsed : Nat) : Prop :=
  left < elapsed ∧ 2147483648 < (elapsed - left) % 4294967296

instance {left : Int} {elapsed : Nat} : Decidable (Overslept left elapsed) :=
  inferInstanceAs (Decidable (_ ∧ _))

/-- If a call goes to sleep once more, it does so in time for its deadline. -/
def InTime (w : Watch σ) : Recount → Prop
  | .locked => ¬ Overslept w.asleepFor (w.now - w.asleepAt)
  | .unlocked => ¬ Overslept w.asleepFor (w.wokenAt - w.asleepAt) ∧ w.now = w.wokenAt
  | .never => w.now = w.asleepAt

instance {w : Watch σ} : DecidablePred (InTime w)
  | .locked => inferInstanceAs (Decidable (¬ _))
  | .unlocked => inferInstanceAs (Decidable (_ ∧ _))
  | .never => inferInstanceAs (Decidable (_ = _))

/-- Each time the call goes to sleep once more, it is in time. -/
def SleepsInTime (L : WaitLoop σ φ) (w : Watch σ) : WatchAction σ → Prop
  | .next => ∀ s' ∈ L.next w.state, (L.phase (L.frame s')).isAsleep = true → InTime w L.recount
  | .others .. => True

instance {L : WaitLoop σ φ} : DecidableRel (SleepsInTime L)
  | w, .next => Option.decidableForallMem (L.next w.state)
  | _, .others .. => isTrue trivial

def WatchReach (L : WaitLoop σ φ) (ok : Watch σ → WatchAction σ → Prop) (time : Int) (first : Nat) :
    Watch σ → Prop := Reach (watchStep L) ok (WatchStart L time first)

end

section
variable {σ φ : Type} {left : Int} {now since : Nat}

theorem remainingTime_nonneg {tick : Nat} (h : 0 ≤ left) : 0 ≤ remainingTime left tick since := by
  unfold remainingTime
  split <;> omega

/-- The time left is right unless the call has overslept. -/
theorem remainingTime_deadline (hleft : 0 < left) (hmax : left ≤ 2147483647) (hle : since ≤ now)
    (hpos : 0 < remainingTime left (word now) (word since)) :
    (¬ Overslept left (now - since) → now + remainingTime left (word now) (word since) = since + left) ∧
      (Overslept left (now - since) → since + left < now) := by
  unfold Overslept
  refine ⟨fun hno => ?_, fun hover => by omega⟩
  unfold remainingTime at hpos ⊢
  rw [if_pos hleft] at hpos ⊢
  simp only [wordSub, word, Int.bmod_def] at hpos ⊢
  split at hpos
  next hc =>
    rw [if_pos hc]
    omega
  next hc =>
    rw [if_neg hc]
    omega

/-- What the clock knows of where the call stands. -/
def WaitPhase.Agrees (recount : Recount) (w : Watch σ) : WaitPhase → Prop
  | .asleep left since => left = w.asleepFor ∧ (recount ≠ .never → since = word w.asleepAt)
  | .awake left since => left = recount.onWake w.asleepFor (word w.asleepAt) (word w.wokenAt) ∧
      (recount = .locked → since = word w.asleepAt) ∧ w.asleepAt ≤ w.wokenAt ∧ w.wokenAt ≤ w.now
  | .gone => True

/-- The deadline has not moved. -/
structure WatchOk (L : WaitLoop σ φ) (time : Int) (first : Nat) (w : Watch σ) : Prop where
  tick : L.tick w.state = word w.now
  order : first ≤ w.asleepAt ∧ w.asleepAt ≤ w.now
  pos : 0 < w.asleepFor
  deadline : w.asleepAt + w.asleepFor = first + time
  phase : (L.phase (L.frame w.state)).Agrees L.recount w

variable {L : WaitLoop σ φ} {time : Int} {first : Nat} {w : Watch σ} {s' : σ}

theorem Recount.onWake_nonneg {recount : Recount} {tick : Nat} (h : 0 ≤ left) :
    0 ≤ recount.onWake left since tick := by
  cases recount with
  | locked => exact h
  | unlocked => exact remainingTime_nonneg h
  | never => exact h

/-- The call goes to sleep again: its timer is in time exactly if `InTime` says so. -/
theorem WatchOk.deadline_iff (h : WatchOk L time first w) (hmax : time ≤ 2147483647)
    (hphase : L.phase (L.frame w.state) = .awake left since)
    (hpos : 0 < L.recount.onSleep left since (word w.now)) :
    (w.now + L.recount.onSleep left since (word w.now) ≤ first + time ↔ InTime w L.recount) ∧
      (InTime w L.recount → w.now + L.recount.onSleep left since (word w.now) = first + time) := by
  have hagree := h.phase
  rw [hphase] at hagree
  obtain ⟨hleft, hsince, hle, hwoken⟩ := hagree
  have hdeadline := h.deadline
  have horder := h.order
  have hfor := h.pos
  cases hrec : L.recount with
  | locked =>
    rw [hrec] at hpos hleft
    rw [hsince hrec] at hpos ⊢
    simp only [Recount.onWake] at hleft
    simp only [Recount.onSleep, hleft, InTime] at hpos ⊢
    obtain ⟨hin, hover⟩ := remainingTime_deadline hfor (by omega) horder.2 hpos
    refine ⟨⟨fun hd => ?_, fun hno => ?_⟩, fun hno => ?_⟩
    · intro ho
      have hlate := hover ho
      omega
    · have heq := hin hno
      omega
    · have heq := hin hno
      omega
  | unlocked =>
    rw [hrec] at hpos hleft
    simp only [Recount.onWake] at hleft
    simp only [Recount.onSleep, hleft, InTime] at hpos ⊢
    obtain ⟨hin, hover⟩ := remainingTime_deadline hfor (by omega) hle hpos
    refine ⟨⟨fun hd => ?_, fun hno => ?_⟩, fun hno => ?_⟩
    · have hno : ¬ Overslept w.asleepFor (w.wokenAt - w.asleepAt) := fun ho => by
        have hlate := hover ho
        omega
      have heq := hin hno
      exact ⟨hno, by omega⟩
    · have heq := hin hno.1
      omega
    · have heq := hin hno.1
      omega
  | never =>
    rw [hrec] at hpos hleft
    simp only [Recount.onWake] at hleft
    simp only [Recount.onSleep, hleft, InTime] at hpos ⊢
    omega

theorem move_asleep (h : L.phase (L.frame s') = .asleep left since) :
    w.move L s' = { w with state := s', asleepAt := w.now, asleepFor := left } := by
  simp only [Watch.move, h]

theorem move_awake (h : L.phase (L.frame s') = .awake left since) :
    w.move L s' = { w with state := s', wokenAt := w.now } := by
  simp only [Watch.move, h]

theorem move_gone (h : L.phase (L.frame s') = .gone) : w.move L s' = { w with state := s' } := by
  simp only [Watch.move, h]

theorem WaitLoop.next_gone {s : σ} (h : L.phase (L.frame s) = .gone) : L.next s = none := by
  simp only [WaitLoop.next, h]

theorem WaitLoop.next_asleep {s : σ} (h : L.phase (L.frame s) = .asleep left since) :
    L.next s = L.wake s := by
  simp only [WaitLoop.next, h]

theorem WaitLoop.next_awake {s : σ} (h : L.phase (L.frame s) = .awake left since) :
    L.next s = L.again s := by
  simp only [WaitLoop.next, h]

/-- What the call does next keeps its deadline, if it does not go to sleep too late. -/
theorem WatchOk.next (h : WatchOk L time first w) (hmax : time ≤ 2147483647)
    (hs : L.next w.state = some s')
    (hin : (L.phase (L.frame s')).isAsleep = true → InTime w L.recount) :
    WatchOk L time first (w.move L s') := by
  have hgone : L.tick s' = word w.now → L.phase (L.frame s') = .gone →
      WatchOk L time first (w.move L s') := fun htick hg => by
    rw [move_gone hg]
    exact ⟨htick, h.order, h.pos, h.deadline, by rw [hg]; trivial⟩
  cases hphase : L.phase (L.frame w.state) with
  | gone =>
    rw [L.next_gone hphase] at hs
    cases hs
  | asleep left since =>
    have hagree := h.phase
    rw [hphase] at hagree
    obtain ⟨rfl, hsince⟩ := hagree
    rw [L.next_asleep hphase] at hs
    obtain ⟨htick, hstep⟩ := L.wake_asleep _ _ _ _ h.pos hphase hs
    replace htick := htick.trans h.tick
    rcases hstep with hg | ⟨since', hawake, hkeep⟩
    · exact hgone htick hg
    · rw [move_awake hawake]
      refine ⟨htick, h.order, h.pos, h.deadline, ?_⟩
      rw [hawake, h.tick]
      refine ⟨?_, fun hl => ?_, h.order.2, Nat.le_refl _⟩
      · cases hrec : L.recount with
        | locked => rfl
        | unlocked => rw [hsince (by simp [hrec])]
        | never => rfl
      · rw [hkeep hl, hsince (by simp [hl])]
  | awake left since =>
    have hagree := h.phase
    rw [hphase] at hagree
    have hnonneg : 0 ≤ left := by
      rw [hagree.1]
      exact Recount.onWake_nonneg h.pos.le
    rw [L.next_awake hphase] at hs
    obtain ⟨htick, hstep⟩ := L.again_awake _ _ _ _ hnonneg hphase hs
    replace htick := htick.trans h.tick
    rcases hstep with hg | ⟨since', hasleep, hpos, hsince⟩
    · exact hgone htick hg
    · rw [h.tick] at hasleep hpos hsince
      have heq := (h.deadline_iff hmax hphase hpos).2 (hin (by rw [hasleep]; rfl))
      rw [move_asleep hasleep]
      refine ⟨htick, ⟨?_, Nat.le_refl _⟩, hpos, heq, ?_⟩
      · have horder := h.order
        exact horder.1.trans horder.2
      · rw [hasleep]
        exact ⟨rfl, hsince⟩

theorem WatchStart.ok (hpos : 0 < time) (h : WatchStart L time first w) : WatchOk L time first w := by
  obtain ⟨s, htick, hcall, hasleep, htick', hnow, hat, hfor⟩ := h
  obtain ⟨since, hphase, hsince⟩ := L.call_asleep time s w.state hpos hcall hasleep
  refine ⟨by rw [htick', hnow], by omega, by omega, by omega, ?_⟩
  rw [hphase]
  exact ⟨hfor.symm, fun hr => by rw [hsince hr, htick, hat]⟩

variable [DecidableEq φ]

theorem watchReach_ok (hpos : 0 < time) (hmax : time ≤ 2147483647)
    (hr : WatchReach L (SleepsInTime L) time first w) : WatchOk L time first w := by
  refine hr.invariant (fun _ h => h.ok hpos) fun w a w' h ha hs => ?_
  cases a with
  | next =>
    obtain ⟨s', hnext, rfl⟩ := Option.map_eq_some_iff.mp hs
    exact h.next hmax hnext (ha s' hnext)
  | others s' now' =>
    obtain ⟨⟨hframe, hnow, htick⟩, heq⟩ := Option.ite_none_right_eq_some.mp hs
    obtain rfl := Option.some.inj heq
    refine ⟨htick, ⟨h.order.1, h.order.2.trans hnow⟩, h.pos, h.deadline, ?_⟩
    have hagree := h.phase
    dsimp only
    rw [hframe]
    cases hphase : L.phase (L.frame w.state) with
    | gone => trivial
    | asleep left since =>
      rw [hphase] at hagree
      exact hagree
    | awake left since =>
      rw [hphase] at hagree
      exact ⟨hagree.1, hagree.2.1, hagree.2.2.1, hagree.2.2.2.trans hnow⟩

/-- Each time the call goes to sleep again, its timer is set no later than its deadline exactly if
the call is in time. -/
theorem watchReach_deadline (hpos : 0 < time) (hmax : time ≤ 2147483647)
    (hr : WatchReach L (SleepsInTime L) time first w) (hs : L.next w.state = some s')
    (hsleep : L.phase (L.frame s') = .asleep left since) :
    w.expiry left ≤ first + time ↔ InTime w L.recount := by
  have h := watchReach_ok hpos hmax hr
  cases hphase : L.phase (L.frame w.state) with
  | gone =>
    rw [L.next_gone hphase] at hs
    cases hs
  | asleep left' since' =>
    have hagree := h.phase
    rw [hphase] at hagree
    rw [L.next_asleep hphase] at hs
    rcases (L.wake_asleep _ _ _ _ (hagree.1 ▸ h.pos) hphase hs).2 with hg | ⟨_, hawake, -⟩
    · simp [hg] at hsleep
    · simp [hawake] at hsleep
  | awake left' since' =>
    have hagree := h.phase
    rw [hphase] at hagree
    have hnonneg : 0 ≤ left' := by
      rw [hagree.1]
      exact Recount.onWake_nonneg h.pos.le
    rw [L.next_awake hphase] at hs
    rcases (L.again_awake _ _ _ _ hnonneg hphase hs).2 with hg | ⟨_, hasleep, hleft, -⟩
    · simp [hg] at hsleep
    · rw [hasleep] at hsleep
      obtain ⟨rfl, -⟩ := WaitPhase.asleep.inj hsleep
      rw [h.tick] at hleft ⊢
      exact (h.deadline_iff hmax hphase hleft).1

end

end RTThread
