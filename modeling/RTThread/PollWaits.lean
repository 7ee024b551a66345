import RTThread.AtReaderModel
import RTThread.Runs

namespace RTThread

/-- Conditions of a descriptor, and keys of wait queues. -/
abbrev PollMask := BitVec 32

/-- `struct pollfd`. -/
structure PollFd where
  fd : Int
  events : BitVec 16
  revents : BitVec 16
deriving DecidableEq, Repr

/-- `f->fops->poll` of an open file: null, or the function of a device. -/
inductive PollFile where
  | plain
  | device (d : ObjectId)

/-- An entry of a wait queue, of the poll table or of another waiter; its key is `none` if its
`wakeup` takes every key. -/
structure PollEntry where
  own : Bool
  key : Option PollMask
deriving DecidableEq, Repr

/-- The open files, the queues to which the `poll` function of each device adds a request, and the
timeout of the call. -/
structure PollCall where
  files : Int → Option PollFile
  queues : ObjectId → List ObjectId
  tickPerSecond : Nat
  msec : Int

/-- Where a call of `poll` stands: in the loop over the descriptors, the ones behind and in front of
it; in `do_pollfd` for a device, with the queues still to be added to; behind the loop; in
`rt_schedule()`; or it has returned `num`. -/
inductive PollPhase where
  | pass (done rest : List PollFd)
  | adding (done : List PollFd) (f : PollFd) (rest : List PollFd) (d : ObjectId) (queues : List ObjectId)
  | passed (fds : List PollFd)
  | waiting (fds : List PollFd)
  | returned (fds : List PollFd)
deriving DecidableEq, Repr

/-- A pass begins; the thread suspends with the expiry of its timer; a queue is woken up, and one of
the table's nodes hears of it; the timer expires. -/
inductive PollEvent where
  | begins
  | suspends (tick : Nat) (expiry : Option Nat)
  | wakeup (heard : Bool)
  | expired
deriving DecidableEq, Repr

/-- `proc` and `triggered` are the fields of the poll table, `num` and `istimeout` the variables of
`poll_do`, `stat` and `timer` are of its thread; `conds` are the conditions of the devices. -/
structure PollState where
  proc : Bool
  triggered : Bool
  num : Nat
  istimeout : Bool
  phase : PollPhase
  stat : ThreadStat
  timer : Option Nat
  queue : ObjectId → List PollEntry
  conds : ObjectId → PollMask
  tick : Nat
  log : List PollEvent

def pollErr : BitVec 16 := 4

def pollHup : BitVec 16 := 8

def pollNval : PollMask := 16

/-- `POLLIN | POLLOUT | POLLRDNORM | POLLWRNORM`. -/
def pollMaskDefault : PollMask := 3

/-- `pollfd->events | POLLERR | POLLHUP`, as `_key` and as the mask of the needed events. -/
def pollKey (f : PollFd) : PollMask := (f.events ||| pollErr ||| pollHup).signExtend 32

/-- What `wakeup` of an entry makes of a key: `__wqueue_pollwake` or `__wqueue_default_wake`. -/
def PollEntry.accepts (key : PollMask) (e : PollEntry) : Bool :=
  key == 0 || e.key.all fun k => key &&& k != 0

namespace PollState

/-- `rt_poll_add` with `_poll_add`; `mem` tells if `rt_malloc` has memory. -/
def rtPollAdd (s : PollState) (q : ObjectId) (key : PollMask) (mem : Bool) : PollState :=
  if s.proc && mem then
    { s with queue := Function.update s.queue q (s.queue q ++ [⟨true, some key⟩]) }
  else s

/-- The end of `do_pollfd` with the mask it returns, and of the turn of the loop. -/
def looked (s : PollState) (done : List PollFd) (f : PollFd) (rest : List PollFd) (mask : PollMask) :
    PollState :=
  { s with
    num := if mask ≠ 0 then s.num + 1 else s.num
    proc := s.proc && mask == 0
    phase := .pass (done ++ [{ f with revents := mask.setWidth 16 }]) rest }

def beginPass (s : PollState) (fds : List PollFd) : PollState :=
  { s with num := 0, phase := .pass [] fds, log := .begins :: s.log }

/-- `ret = !pt->triggered`, and on to the next pass. -/
def readLatch (s : PollState) (fds : List PollFd) : PollState :=
  { s with istimeout := s.istimeout || !s.triggered }.beginPass fds

/-- `poll_teardown`. -/
def pollTeardown (s : PollState) : PollState :=
  { s with queue := fun q => (s.queue q).filter fun e => !e.own }

/-- `poll_wait_timeout` up to `rt_schedule()` or its return. -/
def pollWaitTimeout (c : PollCall) (s : PollState) (fds : List PollFd) : PollState :=
  let timeout := rtTickFromMillisecond c.tickPerSecond c.msec
  if timeout ≠ 0 ∧ s.triggered = false then
    let expiry := if 0 < timeout then some (s.tick + timeout.toNat) else none
    { s with
      stat := .suspend
      timer := expiry
      phase := .waiting fds
      log := .suspends s.tick expiry :: s.log }
  else s.readLatch fds

/-- The thread of the poll goes on. -/
def next (c : PollCall) (s : PollState) (mem : Bool) : Option PollState :=
  match s.phase with
  | .pass done (f :: rest) =>
    if f.fd < 0 then some (s.looked done f rest 0)
    else
      match c.files f.fd with
      | none => some (s.looked done f rest pollNval)
      | some .plain => some (s.looked done f rest (pollMaskDefault &&& pollKey f))
      | some (.device d) => some { s with phase := .adding done f rest d (c.queues d) }
  | .adding done f rest d (q :: qs) =>
    some { s.rtPollAdd q (pollKey f) mem with phase := .adding done f rest d qs }
  | .adding done f rest d [] => some (s.looked done f rest (s.conds d &&& pollKey f))
  | .pass fds [] =>
    if s.num ≠ 0 ∨ s.istimeout = true then
      some { s.pollTeardown with proc := false, phase := .returned fds }
    else some { s with proc := false, phase := .passed fds }
  | .passed fds => some (s.pollWaitTimeout c fds)
  | .waiting fds => if s.stat = .ready then some (s.readLatch fds) else none
  | .returned _ => none

/-- `rt_thread_resume` of the poll's thread. -/
def resume (s : PollState) : PollState :=
  if s.stat = .suspend then { s with stat := .ready, timer := none } else s

/-- `rt_wqueue_wakeup`. -/
def rtWqueueWakeup (s : PollState) (q : ObjectId) (key : PollMask) : PollState :=
  match (s.queue q).find? (PollEntry.accepts key) with
  | none => { s with log := .wakeup false :: s.log }
  | some e =>
    let s' := { s with queue := Function.update s.queue q ((s.queue q).eraseP (PollEntry.accepts key)) }
    if e.own then { s'.resume with triggered := true, log := .wakeup true :: s.log }
    else { s' with log := .wakeup false :: s.log }

end PollState

/-- Conditions of a device come to hold with a wake-up of a queue, and cease at any time; other
waiters come and go. -/
inductive PollAction where
  | next (mem : Bool)
  | wakeup (q : ObjectId) (key : PollMask) (d : ObjectId) (gained : PollMask)
  | clear (d : ObjectId) (lost : PollMask)
  | join (q : ObjectId) (key : Option PollMask)
  | leave (q : ObjectId) (i : Nat)
  | tick
  | expire

def pollStep (c : PollCall) (s : PollState) : PollAction → Option PollState
  | .next mem => s.next c mem
  | .wakeup q key d gained =>
    some ({ s with conds := Function.update s.conds d (s.conds d ||| gained) }.rtWqueueWakeup q key)
  | .clear d lost => some { s with conds := Function.update s.conds d (s.conds d &&& ~~~lost) }
  | .join q key =>
    some { s with queue := Function.update s.queue q (s.queue q ++ [⟨false, key⟩]) }
  | .leave q i =>
    if ∃ e ∈ (s.queue q)[i]?, e.own = false then
      some { s with queue := Function.update s.queue q ((s.queue q).eraseIdx i) }
    else none
  | .tick => some { s with tick := s.tick + 1 }
  | .expire =>
    if s.stat = .suspend ∧ ∃ e ∈ s.timer, e ≤ s.tick then
      some { s with stat := .ready, timer := none, log := .expired :: s.log }
    else none

/-- `poll` is called: the state after `poll_table_init` and the head of `poll_do`. -/
structure PollStart (c : PollCall) (s : PollState) : Prop where
  proc : s.proc = decide (c.msec ≠ 0)
  triggered : s.triggered = false
  num : s.num = 0
  istimeout : s.istimeout = decide (c.msec = 0)
  phase : ∃ fds, s.phase = .pass [] fds
  stat : s.stat = .ready
  timer : s.timer = none
  queue : ∀ q, ∀ e ∈ s.queue q, e.own = false
  log : s.log = [.begins]

def PollEvent.isSuspend : PollEvent → Bool
  | .suspends _ _ => true
  | _ => false

def PollEvent.isWakeup : PollEvent → Bool
  | .wakeup _ => true
  | _ => false

/-- The events since the last pass began. -/
def sinceBegins (log : List PollEvent) : List PollEvent := log.takeWhile (· ≠ .begins)

def Suspended (log : List PollEvent) : Prop := ∃ e ∈ log, e.isSuspend = true

instance decidableSuspended (log : List PollEvent) : Decidable (Suspended log) :=
  inferInstanceAs (Decidable (∃ e ∈ log, e.isSuspend = true))

def Woken (log : List PollEvent) : Prop := ∃ e ∈ log, e.isWakeup = true

instance decidableWoken (log : List PollEvent) : Decidable (Woken log) :=
  inferInstanceAs (Decidable (∃ e ∈ log, e.isWakeup = true))

/-- Each pass but the first follows a suspension or a wake-up since the one before it began. -/
def PassesWoken : List PollEvent → Prop
  | [] => True
  | .begins :: older =>
    (older = [] ∨ Suspended (sinceBegins older) ∨ Woken (sinceBegins older)) ∧ PassesWoken older
  | _ :: older => PassesWoken older

/-- Every expiry armed is within `timeout` ticks of the first suspension. -/
def DeadlinesKept (timeout : Nat) (log : List PollEvent) : Prop :=
  ∀ newer older tick expiry, log = newer ++ .suspends tick expiry :: older → ¬Suspended older →
    ∀ now at', .suspends now (some at') ∈ log → at' ≤ tick + timeout

/-- The timer has expired, with no wake-up since the last pass began. -/
def TimedOut (log : List PollEvent) : Prop :=
  log.head? = some .expired ∧ ¬Woken (sinceBegins log)

instance decidableTimedOut (log : List PollEvent) : Decidable (TimedOut log) :=
  inferInstanceAs (Decidable (_ ∧ _))

def PollAction.isWakeup : PollAction → Bool
  | .wakeup _ _ _ _ => true
  | _ => false

def PollAction.isNext : PollAction → Bool
  | .next _ => true
  | _ => false

/-- The call has returned 0. -/
def PollState.ReturnedNone (s : PollState) : Prop := s.num = 0 ∧ ∃ fds, s.phase = .returned fds

/-- With no further wake-up `poll` returns 0, after a number of steps of its thread that is known and
none of which can block. -/
def ReturnsNone (c : PollCall) (s : PollState) : Prop :=
  ∃ n, ∀ as s', runFrom (pollStep c) as s = some s' → (∀ a ∈ as, a.isWakeup = false) →
    s'.ReturnedNone ∨ as.countP PollAction.isNext < n ∧ ∀ mem, (pollStep c s' (.next mem)).isSome

def pollTimeout (c : PollCall) : Int := rtTickFromMillisecond c.tickPerSecond c.msec

structure PollRight (c : PollCall) (s : PollState) : Prop where
  passes : PassesWoken s.log
  deadlines : DeadlinesKept (pollTimeout c).toNat s.log
  returns : TimedOut s.log → ReturnsNone c s

/-- The latch is read with a wake-up since the pass began, or with none heard at all and a timeout of
some ticks. -/
def KeepsPoll (c : PollCall) (s : PollState) : PollAction → Prop
  | .next _ =>
    match s.phase with
    | .passed _ => Woken (sinceBegins s.log) ∨ pollTimeout c ≠ 0 ∧ .wakeup true ∉ s.log
    | _ => True
  | _ => True

instance decidableKeepsPoll (c : PollCall) (s : PollState) (a : PollAction) :
    Decidable (KeepsPoll c s a) := by
  unfold KeepsPoll
  split
  · split <;> infer_instance
  · infer_instance

/-- What a look at a descriptor finds. -/
def pollMask (c : PollCall) (conds : ObjectId → PollMask) (f : PollFd) : PollMask :=
  if f.fd < 0 then 0
  else
    match c.files f.fd with
    | none => pollNval
    | some .plain => pollMaskDefault &&& pollKey f
    | some (.device d) => conds d &&& pollKey f

/-- The descriptors that the last pass has looked at. -/
def PollPhase.seen : PollPhase → List PollFd
  | .pass done _ => done
  | .adding done _ _ _ _ => done
  | .passed fds => fds
  | .waiting fds => fds
  | .returned fds => fds

def PollPhase.inPass : PollPhase → Bool
  | .pass _ _ => true
  | .adding _ _ _ _ _ => true
  | .passed _ => true
  | _ => false

def PollPhase.isWaiting : PollPhase → Bool
  | .waiting _ => true
  | _ => false

structure PollInv (c : PollCall) (s : PollState) : Prop where
  triggered : s.triggered = true ↔ .wakeup true ∈ s.log
  begun : .begins ∈ s.log
  seen : ¬Woken (sinceBegins s.log) → s.num = 0 → ∀ f ∈ s.phase.seen, pollMask c s.conds f = 0
  adding : ∀ done f rest d queues, s.phase = .adding done f rest d queues →
    0 ≤ f.fd ∧ c.files f.fd = some (.device d)
  inPass : s.phase.inPass = true → ¬Suspended (sinceBegins s.log)
  passed : ∀ fds, s.phase = .passed fds → s.num = 0 ∧ s.istimeout = false
  waiting : s.phase.isWaiting = true → s.num = 0 ∧ Suspended (sinceBegins s.log) ∧
    (s.triggered = true → Woken (sinceBegins s.log))
  suspended : s.stat = .suspend → s.phase.isWaiting = true
  expired : s.log.head? = some .expired → s.phase.isWaiting = true ∧ s.stat = .ready
  once : s.istimeout = true ∨ s.triggered = true ∨ s.phase.isWaiting = true ∨ ¬Suspended s.log
  deadlines : DeadlinesKept (pollTimeout c).toNat s.log

section
variable {c : PollCall} {s s' : PollState} {log older : List PollEvent} {e : PollEvent}
  {done rest fds : List PollFd} {f : PollFd} {mask : PollMask} {q d : ObjectId}

@[simp] theorem sinceBegins_begins : sinceBegins (.begins :: log) = [] := rfl

theorem sinceBegins_cons (he : e ≠ .begins) : sinceBegins (e :: log) = e :: sinceBegins log :=
  List.takeWhile_cons_of_pos (by simpa using he)

@[simp] theorem suspended_cons : Suspended (e :: log) ↔ e.isSuspend = true ∨ Suspended log := by
  unfold Suspended
  rw [List.exists_mem_cons_iff]

@[simp] theorem woken_cons : Woken (e :: log) ↔ e.isWakeup = true ∨ Woken log := by
  unfold Woken
  rw [List.exists_mem_cons_iff]

theorem suspended_nil : ¬Suspended [] := by
  rintro ⟨e, he, -⟩
  exact absurd he List.not_mem_nil

theorem woken_nil : ¬Woken [] := by
  rintro ⟨e, he, -⟩
  exact absurd he List.not_mem_nil

theorem passesWoken_cons (he : e ≠ .begins) : PassesWoken (e :: log) ↔ PassesWoken log := by
  cases e with
  | begins => exact absurd rfl he
  | _ => exact Iff.rfl

theorem DeadlinesKept.cons {timeout : Nat} (h : DeadlinesKept timeout log) (he : e.isSuspend = false) :
    DeadlinesKept timeout (e :: log) := by
  intro newer older tick expiry heq hfirst now at' hmem
  cases newer with
  | nil =>
    obtain ⟨rfl, -⟩ := List.cons.inj heq
    exact absurd he (by simp [PollEvent.isSuspend])
  | cons e' newer =>
    obtain ⟨-, heq⟩ := List.cons.inj heq
    rcases List.mem_cons.mp hmem with rfl | hmem
    · exact absurd he (by simp [PollEvent.isSuspend])
    · exact h newer older tick expiry heq hfirst now at' hmem

/-- The first suspension. -/
theorem DeadlinesKept.first {timeout tick : Nat} {expiry : Option Nat} (hnone : ¬Suspended log)
    (hexpiry : ∀ at' ∈ expiry, at' = tick + timeout) :
    DeadlinesKept timeout (.suspends tick expiry :: log) := by
  intro newer older tick' expiry' heq hfirst now at' hmem
  cases newer with
  | nil =>
    obtain ⟨he, rfl⟩ := List.cons.inj heq
    obtain ⟨rfl, rfl⟩ := PollEvent.suspends.inj he
    rcases List.mem_cons.mp hmem with he | hmem
    · obtain ⟨rfl, hsome⟩ := PollEvent.suspends.inj he
      exact (hexpiry at' hsome.symm).le
    · exact absurd ⟨_, hmem, rfl⟩ hnone
  | cons e' newer =>
    obtain ⟨-, rfl⟩ := List.cons.inj heq
    exact absurd ⟨.suspends tick' expiry', by simp, rfl⟩ hnone

theorem pollMask_revents {conds : ObjectId → PollMask} (revents : BitVec 16) :
    pollMask c conds { f with revents := revents } = pollMask c conds f := rfl

theorem looked_num (h : (s.looked done f rest mask).num = 0) : s.num = 0 ∧ mask = 0 := by
  by_cases hm : mask = 0
  · exact ⟨(if_neg (not_not.mpr hm)).symm.trans h, hm⟩
  · exact absurd ((if_pos hm).symm.trans h) (Nat.succ_ne_zero _)

theorem looked_seen (h : ∀ g ∈ done, pollMask c s.conds g = 0) (hf : pollMask c s.conds f = mask)
    (hnum : (s.looked done f rest mask).num = 0) :
    ∀ g ∈ (s.looked done f rest mask).phase.seen, pollMask c s.conds g = 0 := by
  intro g hg
  rcases List.mem_append.mp hg with hg | hg
  · exact h g hg
  · obtain rfl := List.mem_singleton.mp hg
    rw [pollMask_revents, hf, (looked_num hnum).2]

/-- The thread goes on within a pass, or returns. -/
theorem PollInv.goesOn (h : PollInv c s) (hwaiting : s.phase.isWaiting = false)
    (hwaiting' : s'.phase.isWaiting = false)
    (hsame : s'.log = s.log ∧ s'.triggered = s.triggered ∧ s'.istimeout = s.istimeout ∧ s'.stat = s.stat)
    (hpass : s'.phase.inPass = true → s.phase.inPass = true)
    (hseen : ¬Woken (sinceBegins s.log) → s'.num = 0 → ∀ f ∈ s'.phase.seen, pollMask c s'.conds f = 0)
    (hadding : ∀ done f rest d queues, s'.phase = .adding done f rest d queues →
      0 ≤ f.fd ∧ c.files f.fd = some (.device d))
    (hpassed : ∀ fds, s'.phase = .passed fds → s'.num = 0 ∧ s'.istimeout = false) : PollInv c s' := by
  obtain ⟨hlog, htriggered, hist, hstat⟩ := hsame
  have hnot : s.phase.isWaiting ≠ true := by simp [hwaiting]
  have hnot' : s'.phase.isWaiting ≠ true := by simp [hwaiting']
  refine ⟨?_, ?_, ?_, hadding, ?_, hpassed, fun hw => absurd hw hnot', ?_, ?_, ?_, ?_⟩
  · rw [htriggered, hlog]
    exact h.triggered
  · rw [hlog]
    exact h.begun
  · rw [hlog]
    exact hseen
  · rw [hlog]
    exact fun hp => h.inPass (hpass hp)
  · rw [hstat]
    exact fun hsuspend => absurd (h.suspended hsuspend) hnot
  · rw [hlog]
    exact fun hhead => absurd (h.expired hhead).1 hnot
  · rw [hlog, htriggered, hist]
    rcases h.once with honce | honce | honce | honce
    · exact .inl honce
    · exact .inr (.inl honce)
    · exact absurd honce hnot
    · exact .inr (.inr (.inr honce))
  · rw [hlog]
    exact h.deadlines

theorem isWaiting_of_inPass {p : PollPhase} (hp : p.inPass = true) : p.isWaiting = false := by
  cases p with
  | waiting fds => exact absurd hp Bool.false_ne_true
  | _ => rfl

/-- The conditions of a descriptor have been looked at. -/
theorem PollInv.looked (h : PollInv c s) (hseen : s.phase.seen = done) (hpass : s.phase.inPass = true)
    (hf : pollMask c s.conds f = mask) : PollInv c (s.looked done f rest mask) := by
  refine h.goesOn (isWaiting_of_inPass hpass) rfl ⟨rfl, rfl, rfl, rfl⟩ (fun _ => hpass)
    (fun hwoken hnum => ?_) (fun _ _ _ _ _ hp => PollPhase.noConfusion hp)
    (fun _ hp => PollPhase.noConfusion hp)
  exact looked_seen (fun g hg => h.seen hwoken (looked_num hnum).1 g (hseen ▸ hg)) hf hnum

/-- The next pass begins, after a suspension or without one. -/
theorem PollInv.readLatch (h : PollInv c s) (hstat : s.stat ≠ .suspend) : PollInv c (s.readLatch fds) := by
  refine ⟨?_, List.mem_cons_self, fun _ _ f hf => ?_, fun _ _ _ _ _ hp => ?_, fun _ => suspended_nil,
    fun _ hp => ?_, fun hp => ?_, fun hsuspend => ?_, fun hlog => ?_, ?_, ?_⟩
  · show s.triggered = true ↔ .wakeup true ∈ .begins :: s.log
    simpa using h.triggered
  · exact absurd hf List.not_mem_nil
  · exact PollPhase.noConfusion hp
  · exact PollPhase.noConfusion hp
  · exact absurd hp Bool.false_ne_true
  · exact absurd hsuspend hstat
  · exact absurd hlog (by simp [PollState.readLatch, PollState.beginPass])
  · by_cases ht : s.triggered = true
    · exact .inr (.inl ht)
    · exact .inl (by simp [PollState.readLatch, PollState.beginPass, ht])
  · exact h.deadlines.cons rfl

theorem pollWaitTimeout_suspends (ht : pollTimeout c ≠ 0 ∧ s.triggered = false) :
    s.pollWaitTimeout c fds = { s with
      stat := .suspend
      timer := if 0 < pollTimeout c then some (s.tick + (pollTimeout c).toNat) else none
      phase := .waiting fds
      log := .suspends s.tick (if 0 < pollTimeout c then some (s.tick + (pollTimeout c).toNat) else none) ::
        s.log } := if_pos ht

theorem pollWaitTimeout_reads (ht : ¬(pollTimeout c ≠ 0 ∧ s.triggered = false)) :
    s.pollWaitTimeout c fds = s.readLatch fds := if_neg ht

/-- The end of a pass that has found nothing. -/
theorem pollWaitTimeout_inv (h : PollInv c s) (hp : s.phase = .passed fds) (hstat : s.stat ≠ .suspend) :
    PollInv c (s.pollWaitTimeout c fds) := by
  obtain ⟨hnum, hist⟩ := h.passed fds hp
  by_cases htimeout : pollTimeout c ≠ 0 ∧ s.triggered = false
  · rw [pollWaitTimeout_suspends htimeout]
    have hnone : ¬Suspended s.log := by
      rcases h.once with honce | honce | honce | honce
      · exact absurd (hist.symm.trans honce) (by decide)
      · exact absurd (htimeout.2.symm.trans honce) (by decide)
      · rw [hp] at honce
        exact absurd honce Bool.false_ne_true
      · exact honce
    refine ⟨?_, List.mem_cons_of_mem _ h.begun, fun hwoken _ => ?_, fun _ _ _ _ _ hp' => ?_, fun hp' => ?_,
      fun _ hp' => ?_, fun _ => ⟨hnum, ?_, fun ht => ?_⟩, fun _ => rfl, fun hlog => ?_, .inr (.inr (.inl rfl)), ?_⟩
    · simpa using h.triggered
    · have hseen := h.seen (fun hw => hwoken (by rw [sinceBegins_cons (by simp)]; exact woken_cons.mpr (.inr hw))) hnum
      rwa [hp] at hseen
    · exact PollPhase.noConfusion hp'
    · exact absurd hp' Bool.false_ne_true
    · exact PollPhase.noConfusion hp'
    · rw [sinceBegins_cons (by simp)]
      exact suspended_cons.mpr (.inl rfl)
    · exact absurd (htimeout.2.symm.trans ht) (by decide)
    · exact absurd hlog (by simp)
    · refine DeadlinesKept.first hnone fun at' hat => ?_
      split at hat
      next => exact (Option.some.inj hat).symm
      next => exact absurd hat (by simp)
  · rw [pollWaitTimeout_reads htimeout]
    exact h.readLatch hstat

theorem rtPollAdd_same (s : PollState) (q : ObjectId) (key : PollMask) (mem : Bool) :
    (s.rtPollAdd q key mem).log = s.log ∧ (s.rtPollAdd q key mem).triggered = s.triggered ∧
      (s.rtPollAdd q key mem).istimeout = s.istimeout ∧ (s.rtPollAdd q key mem).stat = s.stat ∧
      (s.rtPollAdd q key mem).num = s.num ∧ (s.rtPollAdd q key mem).conds = s.conds := by
  unfold PollState.rtPollAdd
  split
  · exact ⟨rfl, rfl, rfl, rfl, rfl, rfl⟩
  · exact ⟨rfl, rfl, rfl, rfl, rfl, rfl⟩

theorem next_inv {mem : Bool} (h : PollInv c s) (hs : s.next c mem = some s') : PollInv c s' := by
  have hready : s.phase.isWaiting = false → s.stat ≠ .suspend := fun hp hstat =>
    Bool.false_ne_true (hp.symm.trans (h.suspended hstat))
  unfold PollState.next at hs
  split at hs
  next done f rest hp =>
    have hpass : s.phase.inPass = true := by rw [hp]; rfl
    have hseen : s.phase.seen = done := by rw [hp]; rfl
    split at hs
    next hneg =>
      obtain rfl := Option.some.inj hs
      exact h.looked hseen hpass (if_pos hneg)
    next hneg =>
      split at hs
      next hfile =>
        obtain rfl := Option.some.inj hs
        refine h.looked hseen hpass ?_
        rw [pollMask, if_neg hneg, hfile]
      next hfile =>
        obtain rfl := Option.some.inj hs
        refine h.looked hseen hpass ?_
        rw [pollMask, if_neg hneg, hfile]
      next d hfile =>
        obtain rfl := Option.some.inj hs
        refine h.goesOn (isWaiting_of_inPass hpass) rfl ⟨rfl, rfl, rfl, rfl⟩ (fun _ => hpass)
          (fun hwoken hnum => ?_) (fun done' f' rest' d' queues hp' => ?_)
          (fun _ hp' => PollPhase.noConfusion hp')
        · exact hseen ▸ h.seen hwoken hnum
        · obtain ⟨-, rfl, -, rfl, -⟩ := PollPhase.adding.inj hp'
          exact ⟨by omega, hfile⟩
  next done f rest d q qs hp =>
    obtain rfl := Option.some.inj hs
    have hpass : s.phase.inPass = true := by rw [hp]; rfl
    have hadding := h.adding _ _ _ _ _ hp
    have hseen : s.phase.seen = done := by rw [hp]; rfl
    obtain ⟨hlog, htriggered, hist, hstat, hnum, hconds⟩ := rtPollAdd_same s q (pollKey f) mem
    refine h.goesOn (isWaiting_of_inPass hpass) rfl ⟨hlog, htriggered, hist, hstat⟩ (fun _ => hpass)
      (fun hwoken hzero => ?_) (fun done' f' rest' d' queues hp' => ?_)
      (fun _ hp' => PollPhase.noConfusion hp')
    · show ∀ g ∈ done, pollMask c (s.rtPollAdd q (pollKey f) mem).conds g = 0
      rw [hconds]
      exact hseen ▸ h.seen hwoken (hnum ▸ hzero)
    · obtain ⟨-, rfl, -, rfl, -⟩ := PollPhase.adding.inj hp'
      exact hadding
  next done f rest d hp =>
    obtain rfl := Option.some.inj hs
    obtain ⟨hfd, hfile⟩ := h.adding _ _ _ _ _ hp
    refine h.looked (by rw [hp]; rfl) (by rw [hp]; rfl) ?_
    rw [pollMask, if_neg (by omega), hfile]
  next fds hp =>
    have hpass : s.phase.inPass = true := by rw [hp]; rfl
    have hseen : s.phase.seen = fds := by rw [hp]; rfl
    split at hs
    next =>
      obtain rfl := Option.some.inj hs
      refine h.goesOn (isWaiting_of_inPass hpass) rfl ⟨rfl, rfl, rfl, rfl⟩ (fun _ => hpass)
        (fun hwoken hnum => ?_) (fun _ _ _ _ _ hp' => PollPhase.noConfusion hp')
        (fun _ hp' => PollPhase.noConfusion hp')
      exact hseen ▸ h.seen hwoken hnum
    next hgo =>
      obtain rfl := Option.some.inj hs
      push Not at hgo
      refine h.goesOn (isWaiting_of_inPass hpass) rfl ⟨rfl, rfl, rfl, rfl⟩ (fun _ => hpass)
        (fun hwoken hnum => ?_) (fun _ _ _ _ _ hp' => PollPhase.noConfusion hp')
        (fun _ _ => ⟨hgo.1, Bool.eq_false_iff.mpr hgo.2⟩)
      exact hseen ▸ h.seen hwoken hnum
  next fds hp =>
    obtain rfl := Option.some.inj hs
    exact pollWaitTimeout_inv h hp (hready (by rw [hp]; rfl))
  next fds hp =>
    obtain ⟨hstat, hs⟩ := Option.ite_none_right_eq_some.mp hs
    obtain rfl := Option.some.inj hs
    refine h.readLatch ?_
    rw [hstat]
    decide
  next => exact absurd hs (by simp)

theorem pollMask_mono {conds conds' : ObjectId → PollMask}
    (hconds : ∀ d key, conds d &&& key = 0 → conds' d &&& key = 0) (h : pollMask c conds f = 0) :
    pollMask c conds' f = 0 := by
  unfold pollMask at h ⊢
  split
  · rfl
  next hfd =>
    rw [if_neg hfd] at h
    split
    next hfile =>
      rw [hfile] at h
      exact h
    next hfile =>
      rw [hfile] at h
      exact h
    next d hfile =>
      rw [hfile] at h
      exact hconds d _ h

theorem clear_mono {conds : ObjectId → PollMask} {lost : PollMask} (d' : ObjectId) (key : PollMask)
    (h : conds d' &&& key = 0) : Function.update conds d (conds d &&& ~~~lost) d' &&& key = 0 := by
  by_cases hd : d' = d
  · subst hd
    rw [Function.update_self, BitVec.and_assoc, BitVec.and_comm (~~~lost), ← BitVec.and_assoc, h]
    exact BitVec.zero_and
  · rw [Function.update_of_ne hd]
    exact h

/-- Nothing of the poll changes but its tick and its queues, and no condition comes to hold. -/
theorem PollInv.others (h : PollInv c s) {queue : ObjectId → List PollEntry} {conds : ObjectId → PollMask}
    {tick : Nat} (hconds : ∀ d key, s.conds d &&& key = 0 → conds d &&& key = 0) :
    PollInv c { s with queue := queue, conds := conds, tick := tick } :=
  ⟨h.triggered, h.begun, fun hwoken hnum f hf => pollMask_mono hconds (h.seen hwoken hnum f hf), h.adding,
    h.inPass, h.passed, h.waiting, h.suspended, h.expired, h.once, h.deadlines⟩

/-- A queue is woken up. -/
theorem PollInv.wakeup (h : PollInv c s) (heard : Bool) (hlog : s'.log = .wakeup heard :: s.log)
    (htriggered : s'.triggered = (heard || s.triggered)) (hphase : s'.phase = s.phase)
    (hnum : s'.num = s.num) (hist : s'.istimeout = s.istimeout)
    (hstat : s'.stat = .suspend → s.stat = .suspend) : PollInv c s' := by
  have hsince : sinceBegins s'.log = .wakeup heard :: sinceBegins s.log := by
    rw [hlog, sinceBegins_cons (by simp)]
  have hwoken : Woken (sinceBegins s'.log) := by
    rw [hsince]
    exact woken_cons.mpr (.inl rfl)
  have hsuspended : Suspended (sinceBegins s'.log) ↔ Suspended (sinceBegins s.log) := by
    rw [hsince]
    exact suspended_cons.trans (or_iff_right (by simp [PollEvent.isSuspend]))
  refine ⟨?_, ?_, fun hnot => absurd hwoken hnot, ?_, ?_, ?_, ?_, ?_, ?_, ?_, ?_⟩
  · rw [htriggered, hlog]
    cases heard with
    | true => simp
    | false => simpa using h.triggered
  · rw [hlog]
    exact List.mem_cons_of_mem _ h.begun
  · rw [hphase]
    exact h.adding
  · rw [hphase, hsuspended]
    exact h.inPass
  · rw [hphase, hnum, hist]
    exact h.passed
  · rw [hphase, hnum, hsuspended]
    exact fun hp => ⟨(h.waiting hp).1, (h.waiting hp).2.1, fun _ => hwoken⟩
  · rw [hphase]
    exact fun hs => h.suspended (hstat hs)
  · rw [hlog]
    exact fun hhead => absurd hhead (by simp)
  · rw [hist, htriggered, hphase, hlog]
    rcases h.once with honce | honce | honce | honce
    · exact .inl honce
    · exact .inr (.inl (by rw [honce, Bool.or_true]))
    · exact .inr (.inr (.inl honce))
    · refine .inr (.inr (.inr fun hs => honce ?_))
      exact (suspended_cons.mp hs).resolve_left (by simp [PollEvent.isSuspend])
  · rw [hlog]
    exact h.deadlines.cons rfl

theorem resume_same (s : PollState) : s.resume.phase = s.phase ∧ s.resume.num = s.num ∧
    s.resume.istimeout = s.istimeout ∧ s.resume.stat ≠ .suspend := by
  unfold PollState.resume
  split
  · exact ⟨rfl, rfl, rfl, by simp⟩
  next h => exact ⟨rfl, rfl, rfl, h⟩

theorem rtWqueueWakeup_inv {key : PollMask} {conds : ObjectId → PollMask} (h : PollInv c s) :
    PollInv c ({ s with conds := conds }.rtWqueueWakeup q key) := by
  unfold PollState.rtWqueueWakeup
  split
  next => exact h.wakeup false rfl rfl rfl rfl rfl id
  next e hfind =>
    split
    next =>
      obtain ⟨hphase, hnum, hist, hstat⟩ := resume_same { s with
        conds := conds
        queue := Function.update s.queue q ((s.queue q).eraseP (PollEntry.accepts key)) }
      exact h.wakeup true rfl rfl hphase hnum hist fun hs => absurd hs hstat
    next => exact h.wakeup false rfl rfl rfl rfl rfl id

/-- The timer of the thread expires. -/
theorem pollExpire_inv (h : PollInv c s) (hstat : s.stat = .suspend) :
    PollInv c { s with stat := .ready, timer := none, log := .expired :: s.log } := by
  have hwaiting := h.suspended hstat
  refine ⟨?_, List.mem_cons_of_mem _ h.begun, fun hwoken hnum f hf => h.seen ?_ hnum f hf, h.adding, ?_,
    h.passed, fun hp => ⟨(h.waiting hp).1, ?_, fun ht => ?_⟩, fun hs => ?_, fun _ => ⟨hwaiting, rfl⟩,
    .inr (.inr (.inl hwaiting)), h.deadlines.cons rfl⟩
  · simpa using h.triggered
  · intro hw
    rw [sinceBegins_cons (by simp)] at hwoken
    exact hwoken (woken_cons.mpr (.inr hw))
  · intro hp hs
    rw [sinceBegins_cons (by simp)] at hs
    exact h.inPass hp ((suspended_cons.mp hs).resolve_left (by simp [PollEvent.isSuspend]))
  · rw [sinceBegins_cons (by simp)]
    exact suspended_cons.mpr (.inr (h.waiting hp).2.1)
  · rw [sinceBegins_cons (by simp)]
    exact woken_cons.mpr (.inr ((h.waiting hp).2.2 ht))
  · exact absurd hs (by simp)

theorem pollStep_inv {a : PollAction} (h : PollInv c s) (hs : pollStep c s a = some s') :
    PollInv c s' := by
  cases a with
  | next mem => exact next_inv h hs
  | wakeup q key d gained =>
    obtain rfl := Option.some.inj hs
    exact rtWqueueWakeup_inv h
  | clear d lost =>
    obtain rfl := Option.some.inj hs
    exact h.others clear_mono
  | join q key =>
    obtain rfl := Option.some.inj hs
    exact h.others fun _ _ => id
  | leave q i =>
    obtain ⟨-, hs⟩ := Option.ite_none_right_eq_some.mp hs
    obtain rfl := Option.some.inj hs
    exact h.others fun _ _ => id
  | tick =>
    obtain rfl := Option.some.inj hs
    exact h.others fun _ _ => id
  | expire =>
    obtain ⟨hstat, hs⟩ := Option.ite_none_right_eq_some.mp hs
    obtain rfl := Option.some.inj hs
    exact pollExpire_inv h hstat.1

theorem PollStart.inv (h : PollStart c s) : PollInv c s := by
  obtain ⟨fds, hphase⟩ := h.phase
  have hnone : ¬Suspended s.log := by
    rw [h.log]
    exact fun hs => suspended_nil ((suspended_cons.mp hs).resolve_left (by simp [PollEvent.isSuspend]))
  refine ⟨?_, ?_, fun _ _ f hf => ?_, fun _ _ _ _ _ hp => ?_, fun _ => ?_, fun _ hp => ?_, fun hp => ?_,
    fun hstat => ?_, fun hhead => ?_, .inr (.inr (.inr hnone)), ?_⟩
  · rw [h.triggered, h.log]
    simp
  · rw [h.log]
    exact List.mem_singleton_self _
  · rw [hphase] at hf
    exact absurd hf List.not_mem_nil
  · rw [hphase] at hp
    exact PollPhase.noConfusion hp
  · rw [h.log]
    exact suspended_nil
  · rw [hphase] at hp
    exact PollPhase.noConfusion hp
  · rw [hphase] at hp
    exact absurd hp Bool.false_ne_true
  · exact absurd (h.stat.symm.trans hstat) (by simp)
  · rw [h.log] at hhead
    exact absurd hhead (by simp)
  · intro newer older tick expiry heq
    refine absurd ⟨.suspends tick expiry, ?_, rfl⟩ hnone
    rw [heq]
    simp

theorem rtWqueueWakeup_log (s : PollState) (q : ObjectId) (key : PollMask) :
    ∃ e ≠ .begins, (s.rtWqueueWakeup q key).log = e :: s.log := by
  unfold PollState.rtWqueueWakeup
  split
  next => exact ⟨.wakeup false, by simp, rfl⟩
  next =>
    split
    next => exact ⟨.wakeup true, by simp, rfl⟩
    next => exact ⟨.wakeup false, by simp, rfl⟩

/-- The latch is read and the next pass begins. -/
theorem readLatch_passes (h : PollInv c s) : PassesWoken (s.readLatch fds).log ↔
    (Suspended (sinceBegins s.log) ∨ Woken (sinceBegins s.log)) ∧ PassesWoken s.log := by
  show (s.log = [] ∨ Suspended (sinceBegins s.log) ∨ Woken (sinceBegins s.log)) ∧ PassesWoken s.log ↔ _
  rw [or_iff_right (List.ne_nil_of_mem h.begun)]

theorem next_passes {mem : Bool} (h : PollInv c s) (hs : s.next c mem = some s') :
    PassesWoken s'.log ↔ KeepsPoll c s (.next mem) ∧ PassesWoken s.log := by
  have hother : (∀ fds, s.phase ≠ .passed fds) → s'.log = s.log →
      (PassesWoken s'.log ↔ KeepsPoll c s (.next mem) ∧ PassesWoken s.log) := by
    intro hphase hlog
    rw [hlog]
    refine (and_iff_right ?_).symm
    unfold KeepsPoll
    dsimp only
    split
    next fds hp => exact absurd hp (hphase fds)
    next => trivial
  unfold PollState.next at hs
  split at hs
  next done f rest hp =>
    refine hother (fun fds hp' => PollPhase.noConfusion (hp.symm.trans hp')) ?_
    split at hs
    next =>
      obtain rfl := Option.some.inj hs
      rfl
    next =>
      split at hs
      next =>
        obtain rfl := Option.some.inj hs
        rfl
      next =>
        obtain rfl := Option.some.inj hs
        rfl
      next =>
        obtain rfl := Option.some.inj hs
        rfl
  next done f rest d q qs hp =>
    obtain rfl := Option.some.inj hs
    exact hother (fun fds hp' => PollPhase.noConfusion (hp.symm.trans hp')) (rtPollAdd_same ..).1
  next done f rest d hp =>
    obtain rfl := Option.some.inj hs
    exact hother (fun fds hp' => PollPhase.noConfusion (hp.symm.trans hp')) rfl
  next fds hp =>
    refine hother (fun fds hp' => PollPhase.noConfusion (hp.symm.trans hp')) ?_
    split at hs
    next =>
      obtain rfl := Option.some.inj hs
      rfl
    next =>
      obtain rfl := Option.some.inj hs
      rfl
  next fds hp =>
    obtain rfl := Option.some.inj hs
    have hkeeps : KeepsPoll c s (.next mem) ↔
        Woken (sinceBegins s.log) ∨ pollTimeout c ≠ 0 ∧ .wakeup true ∉ s.log := by
      unfold KeepsPoll
      rw [hp]
    have hheard : s.triggered = false ↔ .wakeup true ∉ s.log :=
      Bool.eq_false_iff.trans (not_congr h.triggered)
    by_cases htimeout : pollTimeout c ≠ 0 ∧ s.triggered = false
    · rw [pollWaitTimeout_suspends htimeout, passesWoken_cons (by simp)]
      exact (and_iff_right (hkeeps.mpr (.inr ⟨htimeout.1, hheard.mp htimeout.2⟩))).symm
    · have hpass : ¬Suspended (sinceBegins s.log) := h.inPass (by rw [hp]; rfl)
      rw [pollWaitTimeout_reads htimeout, readLatch_passes h, hkeeps, ← hheard, or_iff_left htimeout,
        or_iff_right hpass]
  next fds hp =>
    obtain ⟨-, hs⟩ := Option.ite_none_right_eq_some.mp hs
    obtain rfl := Option.some.inj hs
    have hkeeps : KeepsPoll c s (.next mem) := by
      unfold KeepsPoll
      rw [hp]
      trivial
    have hsuspended := (h.waiting (by rw [hp]; rfl)).2.1
    rw [readLatch_passes h]
    exact and_congr_left fun _ => ⟨fun _ => hkeeps, fun _ => .inl hsuspended⟩
  next => exact absurd hs (by simp)

/-- What a step adds to the passes. -/
theorem pollStep_passes {a : PollAction} (h : PollInv c s) (hs : pollStep c s a = some s') :
    PassesWoken s'.log ↔ KeepsPoll c s a ∧ PassesWoken s.log := by
  have hother : KeepsPoll c s a → (s'.log = s.log ∨ ∃ e ≠ .begins, s'.log = e :: s.log) →
      (PassesWoken s'.log ↔ KeepsPoll c s a ∧ PassesWoken s.log) := by
    rintro hkeeps (hlog | ⟨e, he, hlog⟩)
    · rw [hlog]
      exact (and_iff_right hkeeps).symm
    · rw [hlog, passesWoken_cons he]
      exact (and_iff_right hkeeps).symm
  cases a with
  | next mem => exact next_passes h hs
  | wakeup q key d gained =>
    obtain rfl := Option.some.inj hs
    exact hother trivial (.inr (rtWqueueWakeup_log _ _ _))
  | clear d lost =>
    obtain rfl := Option.some.inj hs
    exact hother trivial (.inl rfl)
  | join q key =>
    obtain rfl := Option.some.inj hs
    exact hother trivial (.inl rfl)
  | leave q i =>
    obtain ⟨-, hs⟩ := Option.ite_none_right_eq_some.mp hs
    obtain rfl := Option.some.inj hs
    exact hother trivial (.inl rfl)
  | tick =>
    obtain rfl := Option.some.inj hs
    exact hother trivial (.inl rfl)
  | expire =>
    obtain ⟨-, hs⟩ := Option.ite_none_right_eq_some.mp hs
    obtain rfl := Option.some.inj hs
    exact hother trivial (.inr ⟨.expired, by simp, rfl⟩)

/-- The steps of the thread at a descriptor. -/
def lookSteps (c : PollCall) (f : PollFd) : Nat :=
  if f.fd < 0 then 1
  else
    match c.files f.fd with
    | some (.device d) => (c.queues d).length + 2
    | _ => 1

/-- The thread returns 0 in `n` steps. -/
def Closing (c : PollCall) (s : PollState) (n : Nat) : Prop :=
  match s.phase with
  | .waiting fds => s.stat = .ready ∧ s.triggered = false ∧ (∀ f ∈ fds, pollMask c s.conds f = 0) ∧
      n = (fds.map (lookSteps c)).sum + 2
  | .pass _ rest => s.istimeout = true ∧ s.num = 0 ∧ (∀ f ∈ rest, pollMask c s.conds f = 0) ∧
      n = (rest.map (lookSteps c)).sum + 1
  | .adding _ f rest d queues => s.istimeout = true ∧ s.num = 0 ∧ s.conds d &&& pollKey f = 0 ∧
      (∀ f ∈ rest, pollMask c s.conds f = 0) ∧ n = queues.length + (rest.map (lookSteps c)).sum + 2
  | .passed _ => False
  | .returned _ => s.num = 0 ∧ n = 0

theorem Closing.looked (hist : s.istimeout = true) (hnum : s.num = 0) (hmask : mask = 0)
    (hzero : ∀ g ∈ rest, pollMask c s.conds g = 0) :
    Closing c (s.looked done f rest mask) ((rest.map (lookSteps c)).sum + 1) := by
  refine ⟨hist, ?_, hzero, rfl⟩
  exact (if_neg (not_not.mpr hmask)).trans hnum

theorem Closing.next {n : Nat} (h : Closing c s (n + 1)) (mem : Bool) :
    ∃ s', s.next c mem = some s' ∧ Closing c s' n := by
  unfold Closing at h
  unfold PollState.next
  split at h
  next fds hp =>
    obtain ⟨hready, htriggered, hzero, hn⟩ := h
    rw [hp]
    refine ⟨_, if_pos hready, ?_⟩
    show (s.istimeout || !s.triggered) = true ∧ 0 = 0 ∧ (∀ f ∈ fds, pollMask c s.conds f = 0) ∧ _
    refine ⟨?_, rfl, hzero, by omega⟩
    rw [htriggered, Bool.not_false, Bool.or_true]
  next done rest hp =>
    obtain ⟨hist, hnum, hzero, hn⟩ := h
    rw [hp]
    cases rest with
    | nil =>
      refine ⟨_, if_pos (.inr hist), hnum, ?_⟩
      simpa using hn
    | cons f rest =>
      have hf := hzero f List.mem_cons_self
      have hrest : ∀ g ∈ rest, pollMask c s.conds g = 0 := fun g hg => hzero g (List.mem_cons_of_mem f hg)
      obtain ⟨k, hk⟩ : ∃ k, k = (rest.map (lookSteps c)).sum := ⟨_, rfl⟩
      rw [List.map_cons, List.sum_cons, ← hk] at hn
      unfold pollMask at hf
      unfold lookSteps at hn
      dsimp only
      split
      next hneg =>
        rw [if_pos hneg] at hn
        refine ⟨_, rfl, ?_⟩
        obtain rfl : n = (rest.map (lookSteps c)).sum + 1 := by omega
        exact .looked hist hnum rfl hrest
      next hneg =>
        rw [if_neg hneg] at hf hn
        split
        next hfile =>
          rw [hfile] at hf
          have hnval : pollNval ≠ 0 := by decide
          exact absurd hf hnval
        next hfile =>
          rw [hfile] at hf hn
          refine ⟨_, rfl, ?_⟩
          obtain rfl : n = (rest.map (lookSteps c)).sum + 1 := by
            dsimp only at hn
            omega
          exact .looked hist hnum hf hrest
        next d hfile =>
          rw [hfile] at hf hn
          refine ⟨_, rfl, hist, hnum, hf, hrest, ?_⟩
          dsimp only at hn
          omega
  next done f rest d queues hp =>
    obtain ⟨hist, hnum, hlook, hzero, hn⟩ := h
    rw [hp]
    cases queues with
    | nil =>
      refine ⟨_, rfl, ?_⟩
      obtain rfl : n = (rest.map (lookSteps c)).sum + 1 := by
        rw [List.length_nil] at hn
        omega
      exact .looked hist hnum hlook hzero
    | cons q qs =>
      obtain ⟨-, -, hist', -, hnum', hconds⟩ := rtPollAdd_same s q (pollKey f) mem
      refine ⟨_, rfl, hist'.trans hist, hnum'.trans hnum, ?_, ?_, ?_⟩
      · show (s.rtPollAdd q (pollKey f) mem).conds d &&& pollKey f = 0
        rw [hconds]
        exact hlook
      · show ∀ g ∈ rest, pollMask c (s.rtPollAdd q (pollKey f) mem).conds g = 0
        rw [hconds]
        exact hzero
      · rw [List.length_cons] at hn
        omega
  next => exact h.elim
  next => exact absurd h.2 (by omega)

theorem Closing.other {n : Nat} {a : PollAction} (h : Closing c s n) (hnext : a.isNext = false)
    (hwakeup : a.isWakeup = false) (hs : pollStep c s a = some s') : Closing c s' n := by
  have hchanges : ∀ s1 : PollState, s1.phase = s.phase → s1.istimeout = s.istimeout → s1.num = s.num →
      s1.triggered = s.triggered → (s.stat = .ready → s1.stat = .ready) →
      (∀ d key, s.conds d &&& key = 0 → s1.conds d &&& key = 0) → Closing c s1 n := by
    intro s1 hphase hist hnum htriggered hstat hconds
    unfold Closing at h ⊢
    rw [hphase, hist, hnum, htriggered]
    split at h
    next =>
      obtain ⟨hready, hnot, hzero, hn⟩ := h
      exact ⟨hstat hready, hnot, fun f hf => pollMask_mono hconds (hzero f hf), hn⟩
    next =>
      obtain ⟨hist', hnum', hzero, hn⟩ := h
      exact ⟨hist', hnum', fun f hf => pollMask_mono hconds (hzero f hf), hn⟩
    next =>
      obtain ⟨hist', hnum', hlook, hzero, hn⟩ := h
      exact ⟨hist', hnum', hconds _ _ hlook, fun f hf => pollMask_mono hconds (hzero f hf), hn⟩
    next => exact h
    next => exact h
  cases a with
  | next mem => exact absurd hnext (by simp [PollAction.isNext])
  | wakeup q key d gained => exact absurd hwakeup (by simp [PollAction.isWakeup])
  | clear d lost =>
    obtain rfl := Option.some.inj hs
    exact hchanges _ rfl rfl rfl rfl id clear_mono
  | join q key =>
    obtain rfl := Option.some.inj hs
    exact hchanges _ rfl rfl rfl rfl id fun _ _ => id
  | leave q i =>
    obtain ⟨-, hs⟩ := Option.ite_none_right_eq_some.mp hs
    obtain rfl := Option.some.inj hs
    exact hchanges _ rfl rfl rfl rfl id fun _ _ => id
  | tick =>
    obtain rfl := Option.some.inj hs
    exact hchanges _ rfl rfl rfl rfl id fun _ _ => id
  | expire =>
    obtain ⟨-, hs⟩ := Option.ite_none_right_eq_some.mp hs
    obtain rfl := Option.some.inj hs
    exact hchanges _ rfl rfl rfl rfl (fun _ => rfl) fun _ _ => id

theorem Closing.returned (h : Closing c s 0) : s.ReturnedNone := by
  unfold Closing at h
  split at h
  next => exact absurd h.2.2.2 (by omega)
  next => exact absurd h.2.2.2 (by omega)
  next => exact absurd h.2.2.2.2 (by omega)
  next => exact h.elim
  next fds hphase => exact ⟨h.1, fds, hphase⟩

theorem Closing.run {n : Nat} {as : List PollAction} (h : Closing c s n)
    (hrun : runFrom (pollStep c) as s = some s') (hwakeup : ∀ a ∈ as, a.isWakeup = false) :
    ∃ m, Closing c s' m ∧ as.countP PollAction.isNext + m = n := by
  induction as generalizing s n with
  | nil =>
    obtain rfl := Option.some.inj hrun
    exact ⟨n, h, by simp⟩
  | cons a as ih =>
    obtain ⟨s1, hs1, hrun⟩ := Option.bind_eq_some_iff.mp hrun
    have hrest := fun b hb => hwakeup b (List.mem_cons_of_mem a hb)
    have ha := hwakeup a List.mem_cons_self
    by_cases hnext : a.isNext = true
    · cases a with
      | next mem =>
        cases n with
        | zero =>
          obtain ⟨-, fds, hphase⟩ := h.returned
          change s.next c mem = some s1 at hs1
          unfold PollState.next at hs1
          rw [hphase] at hs1
          exact absurd hs1 (by simp)
        | succ n =>
          obtain ⟨s2, hs2, hclosing⟩ := h.next mem
          obtain rfl := Option.some.inj (hs2.symm.trans hs1)
          obtain ⟨m, hm, hcount⟩ := ih hclosing hrun hrest
          refine ⟨m, hm, ?_⟩
          rw [List.countP_cons_of_pos hnext]
          omega
      | _ => exact absurd hnext (by simp [PollAction.isNext])
    · obtain ⟨m, hm, hcount⟩ := ih (h.other (Bool.eq_false_iff.mpr hnext) ha hs1) hrun hrest
      exact ⟨m, hm, by rwa [List.countP_cons_of_neg hnext]⟩

theorem Closing.returnsNone {n : Nat} (h : Closing c s n) : ReturnsNone c s := by
  refine ⟨n, fun as s' hrun hwakeup => ?_⟩
  obtain ⟨m, hm, hcount⟩ := h.run hrun hwakeup
  cases m with
  | zero => exact .inl hm.returned
  | succ m =>
    refine .inr ⟨by omega, fun mem => ?_⟩
    obtain ⟨s1, hs1, -⟩ := hm.next mem
    exact Option.isSome_iff_exists.mpr ⟨s1, hs1⟩

/-- The timer has expired: what the next pass will find is known. -/
theorem PollInv.closing (h : PollInv c s) (hout : TimedOut s.log) : ∃ n, Closing c s n := by
  obtain ⟨hhead, hwoken⟩ := hout
  obtain ⟨hwaiting, hready⟩ := h.expired hhead
  obtain ⟨hnum, -, htriggered⟩ := h.waiting hwaiting
  have hseen := h.seen hwoken hnum
  unfold Closing
  cases hp : s.phase with
  | waiting fds =>
    rw [hp] at hseen
    exact ⟨_, hready, Bool.eq_false_iff.mpr fun ht => hwoken (htriggered ht), hseen, rfl⟩
  | _ =>
    rw [hp] at hwaiting
    exact absurd hwaiting Bool.false_ne_true

theorem pollRun_passes {as : List PollAction} (h : PollInv c s)
    (hrun : runFrom (pollStep c) as s = some s') :
    PollInv c s' ∧ (PassesWoken s'.log ↔ RunMeets (pollStep c) (KeepsPoll c) as s ∧ PassesWoken s.log) := by
  induction as generalizing s with
  | nil =>
    obtain rfl := Option.some.inj hrun
    exact ⟨h, (and_iff_right trivial).symm⟩
  | cons a as ih =>
    obtain ⟨s1, hs1, hrun⟩ := Option.bind_eq_some_iff.mp hrun
    obtain ⟨hinv, hpasses⟩ := ih (pollStep_inv h hs1) hrun
    refine ⟨hinv, hpasses.trans ?_⟩
    rw [pollStep_passes h hs1]
    constructor
    · rintro ⟨hmeets, hkeeps, hwoken⟩
      refine ⟨⟨hkeeps, fun s2 hs2 => ?_⟩, hwoken⟩
      obtain rfl := Option.some.inj (hs1.symm.trans hs2)
      exact hmeets
    · rintro ⟨⟨hkeeps, hmeets⟩, hwoken⟩
      exact ⟨hmeets s1 hs1, hkeeps, hwoken⟩

/-- A run of `poll` waits once and keeps its timeout exactly if it meets the condition. -/
theorem pollRun_right_iff {as : List PollAction} (hstart : PollStart c s)
    (hrun : runFrom (pollStep c) as s = some s') :
    RunMeets (pollStep c) (KeepsPoll c) as s ↔ PollRight c s' := by
  obtain ⟨hinv, hpasses⟩ := pollRun_passes hstart.inv hrun
  have hfirst : PassesWoken s.log := by
    rw [hstart.log]
    exact ⟨.inl rfl, trivial⟩
  constructor
  · intro hmeets
    refine ⟨hpasses.mpr ⟨hmeets, hfirst⟩, hinv.deadlines, fun hout => ?_⟩
    obtain ⟨n, hn⟩ := hinv.closing hout
    exact hn.returnsNone
  · exact fun hright => (hpasses.mp hright.passes).1

end

/-- `poll` of descriptor 3, a device with one queue, for `POLLIN` and 20 milliseconds. -/
def onePoll : PollCall where
  files fd := if fd = 3 then some (.device 0) else none
  queues _ := [0]
  tickPerSecond := 100
  msec := 20

def onePollStart : PollState where
  proc := true
  triggered := false
  num := 0
  istimeout := false
  phase := .pass [] [⟨3, 1, 0⟩]
  stat := .ready
  timer := none
  queue _ := []
  conds _ := 0
  tick := 0
  log := [.begins]

theorem onePollStart_start : PollStart onePoll onePollStart where
  proc := rfl
  triggered := rfl
  num := rfl
  istimeout := rfl
  phase := ⟨_, rfl⟩
  stat := rfl
  timer := rfl
  queue _ := fun _ he => absurd he List.not_mem_nil
  log := rfl

/-- A pass over the one descriptor, and what follows it. -/
def onePass : List PollAction := List.replicate 5 (.next true)

/-- Nothing happens until the timer expires. -/
def expiredRun : List PollAction := onePass ++ [.tick, .tick, .expire, .next true] ++ onePass.dropLast

theorem expired_some : (runFrom (pollStep onePoll) expiredRun onePollStart).isSome = true := by
  decide +kernel

theorem pollRun_right_iff_expired :
    PollRight onePoll ((runFrom (pollStep onePoll) expiredRun onePollStart).get expired_some) :=
  (pollRun_right_iff onePollStart_start (Option.some_get _).symm).mp (by decide +kernel)

/-- A byte arrives during the suspension and another thread reads it. -/
def drainedRun : List PollAction :=
  onePass ++ [.wakeup 0 1 0 1, .clear 0 1, .next true] ++ onePass

theorem drained_some : (runFrom (pollStep onePoll) drainedRun onePollStart).isSome = true := by
  decide +kernel

/-- A third pass begins with no suspension and no wake-up since the second one. -/
theorem drained_wrong : ¬∀ c s as s', PollStart c s → 0 < c.msec →
    runFrom (pollStep c) as s = some s' → PollRight c s' := by
  intro hclaim
  have hright := hclaim onePoll onePollStart drainedRun _ onePollStart_start (by decide)
    (Option.some_get drained_some).symm
  have hlog : ((runFrom (pollStep onePoll) drainedRun onePollStart).get drained_some).log =
      [.begins, .begins, .wakeup true, .suspends 0 (some 2), .begins] := by
    decide +kernel
  have hpasses := hright.passes
  rw [hlog] at hpasses
  rcases hpasses.1 with hnil | hsuspended | hwoken
  · exact absurd hnil (List.cons_ne_nil _ _)
  · exact suspended_nil hsuspended
  · exact woken_nil hwoken

end RTThread
