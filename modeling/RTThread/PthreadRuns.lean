import RTThread.Runs
import RTThread.Threads

namespace RTThread

/-- The memory of a thread: `_pthread_data_t`, its stack, `struct rt_thread`, the semaphore joiners
wait on and the array of `pthread_setspecific`. -/
inductive PthreadBlock where
  | data
  | stack
  | control
  | sem
  | tls
deriving DecidableEq, Repr

/-- Where the thread is: not created, in its entry, back from it, or in `pthread_exit`: in the
handlers, past `rt_free(ptd->tls)`, past `ptd->tls = RT_NULL`, about to release the semaphore, or
about to be detached. -/
inductive PthreadPlace where
  | unborn
  | notCreated
  | running
  | returned
  | handlers
  | tlsFreed
  | tlsGone
  | releasing
  | leaving
  | ended
deriving DecidableEq, Repr

/-- Where another thread is in `pthread_join` or `pthread_detach` of this one: past the check of
`detachstate`, suspended on the semaphore, with a token of it, in `pthread_detach`, or past its
checks with the thread closed or not. -/
inductive PthreadCaller where
  | outside
  | joining
  | blocked
  | taken
  | detaching (joins : Bool)
  | closing
  | opening
deriving DecidableEq, Repr

inductive PthreadEnding where
  | value (v : Nat)
  | cancelled
deriving DecidableEq, Repr

/-- The thread's value: what it returned or gave to `pthread_exit`, else `PTHREAD_CANCELED`. -/
def PthreadEnding.result : PthreadEnding → Nat
  | .value v => v
  | .cancelled => 4

/-- A thread with what `ptd` and `ptd->tid` say of it: `joinable` is
`attr.detachstate == PTHREAD_CREATE_JOINABLE`, `ownStack` is `attr.stack_base == 0`, `closed` is
`stat == RT_THREAD_CLOSE` and `defunct` whether it is on `rt_thread_defunct`. The rest is for what is
said about it: how it ended, whether it was joined or detached, the values joins returned, and
whether freed memory or a null semaphore was used. -/
structure Pthread where
  ownStack : Bool
  joinable : Bool
  allocs : PthreadBlock → Nat
  frees : PthreadBlock → Nat
  place : PthreadPlace
  closed : Bool
  cleanup : Bool
  defunct : Bool
  hasSem : Bool
  tokens : Nat
  queue : List ThreadId
  hasTls : Bool
  returnValue : Nat
  cancelEnabled : Bool
  cancelAsync : Bool
  caller : ThreadId → PthreadCaller
  ending : Option PthreadEnding
  claimed : Bool
  joined : List Nat
  faulted : Bool

def Pthread.malloc (s : Pthread) (b : PthreadBlock) : Pthread :=
  { s with allocs := Function.update s.allocs b (s.allocs b + 1) }

def Pthread.free (s : Pthread) (b : PthreadBlock) : Pthread :=
  { s with frees := Function.update s.frees b (s.frees b + 1) }

def Pthread.freeIf (s : Pthread) (c : Bool) (b : PthreadBlock) : Pthread :=
  if c then s.free b else s

def Pthread.live (s : Pthread) (b : PthreadBlock) : Prop := s.frees b < s.allocs b

instance decidablePthreadLive (s : Pthread) (b : PthreadBlock) : Decidable (s.live b) :=
  inferInstanceAs (Decidable (_ < _))

def Pthread.fault (s : Pthread) : Pthread := { s with faulted := true }

def Pthread.moveCaller (s : Pthread) (t : ThreadId) (p : PthreadCaller) : Pthread :=
  { s with caller := Function.update s.caller t p }

/-- `pthread_create`, with which of its allocations succeed. When the semaphore cannot be created
it frees a stack it was given and not the one it allocated, and not the control block.
`rt_thread_init` and `rt_thread_startup` return `RT_EOK`. -/
def pthreadCreate (s : Pthread) (dataOk stackOk controlOk semOk : Bool) : Pthread :=
  if dataOk = false then { s with place := .notCreated }
  else
    let s := s.malloc .data
    if s.ownStack && !stackOk then { s.free .data with place := .notCreated }
    else
      let s := if s.ownStack then s.malloc .stack else s
      if controlOk = false then
        { (s.freeIf s.ownStack .stack).free .data with place := .notCreated }
      else
        let s := s.malloc .control
        if s.joinable && !semOk then
          { (s.freeIf (!s.ownStack) .stack).free .data with place := .notCreated }
        else
          { (if s.joinable then s.malloc .sem else s) with
            hasSem := s.joinable, cleanup := true, place := .running }

/-- `rt_thread_detach` of the thread, and `rt_thread_exit`: with a cleanup function it goes on the
defunct list. -/
def Pthread.close (s : Pthread) : Pthread :=
  { s with closed := true, defunct := s.cleanup, place := .ended }

/-- `rt_sem_release` of `joinable_sem`. -/
def Pthread.release (s : Pthread) : Pthread :=
  match s.queue with
  | t :: rest => { s with queue := rest }.moveCaller t .taken
  | [] => { s with tokens := s.tokens + 1 }

/-- `rt_sem_delete` of `joinable_sem`: the joins suspended on it return `ESRCH`. -/
def Pthread.deleteSem (s : Pthread) : Pthread :=
  { s with
    queue := []
    caller := fun t => if t ∈ s.queue then .outside else s.caller t }.free .sem

/-- `_pthread_cleanup` calls `pthread_detach` for a detached thread, which returns `EINVAL`. -/
def pthreadCleanup (s : Pthread) : Pthread :=
  let s := { s with cleanup := false }
  if s.joinable then (if s.hasSem then s.release else s.fault) else s

/-- `rt_thread_idle_excute` takes the thread off the defunct list. -/
def pthreadIdle (s : Pthread) : Option Pthread :=
  if s.defunct then
    let s := { s with defunct := false }
    if ¬s.live .control then some s.fault
    else if s.cleanup then some (pthreadCleanup s)
    else some s
  else none

/-- The thread goes on from where it is: it returns from its entry, or runs `pthread_exit`. -/
def pthreadGoesOn (s : Pthread) : Option Pthread :=
  match s.place with
  | .returned => some s.close
  | .handlers =>
    if s.hasTls then some { s.free .tls with place := .tlsFreed }
    else some { s with place := .tlsGone }
  | .tlsFreed => some { s with hasTls := false, place := .tlsGone }
  | .tlsGone => some { s with place := if s.joinable then .releasing else .leaving }
  | .releasing => if s.hasSem then some { s.release with place := .leaving } else some s.fault
  | .leaving => some s.close
  | _ => none

/-- `pthread_cancel` by another thread. -/
def pthreadCancel (s : Pthread) : Pthread :=
  if s.cancelEnabled && s.cancelAsync then
    { s.close with ending := s.ending.or (some .cancelled) }
  else s

/-- `rt_sem_take` in `pthread_join`. -/
def pthreadTake (s : Pthread) (t : ThreadId) : Pthread :=
  if s.hasSem = false ∨ ¬s.live .data then s.fault
  else if 0 < s.tokens then { s with tokens := s.tokens - 1 }.moveCaller t .taken
  else { s with queue := s.queue ++ [t] }.moveCaller t .blocked

/-- `pthread_join` with a token reads the value and calls `pthread_detach`. -/
def pthreadFinish (s : Pthread) (t : ThreadId) : Pthread :=
  if ¬s.live .data then s.fault
  else { s with joined := s.returnValue :: s.joined }.moveCaller t (.detaching true)

/-- The checks of `pthread_detach`; a join that finds the thread detached returns 0. -/
def pthreadCheck (s : Pthread) (t : ThreadId) (joins : Bool) : Pthread :=
  if ¬s.live .data then s.fault
  else if s.joinable = false then
    { s with claimed := s.claimed || joins }.moveCaller t .outside
  else s.moveCaller t (if s.closed then .closing else .opening)

/-- `pthread_detach` of a closed thread. -/
def pthreadClosing (s : Pthread) (t : ThreadId) : Pthread :=
  if ¬s.live .data then s.fault
  else
    let s := (if s.hasSem then s.deleteSem else s).close
    let s := (s.freeIf s.ownStack .stack).freeIf s.hasTls .tls
    { (s.free .control).free .data with claimed := true }.moveCaller t .outside

/-- `pthread_detach` of a thread that is not closed. -/
def pthreadOpening (s : Pthread) (t : ThreadId) : Pthread :=
  if ¬s.live .data ∨ s.hasSem = false then s.fault
  else { s.deleteSem with joinable := false, hasSem := false, claimed := true }.moveCaller t .outside

inductive PthreadAction where
  | create (dataOk stackOk controlOk semOk : Bool)
  | setspecific
  | setCancel (enabled async : Bool)
  | returns (v : Nat)
  | exits (v : Nat)
  | goesOn
  | idle
  | cancel
  | join (t : ThreadId)
  | take (t : ThreadId)
  | finish (t : ThreadId)
  | detach (t : ThreadId)
  | check (t : ThreadId)
  | act (t : ThreadId)
deriving DecidableEq

/-- The other threads name the thread in a call only while its data is there. -/
def pthreadStep (s : Pthread) : PthreadAction → Option Pthread
  | .create dataOk stackOk controlOk semOk =>
    if s.place = .unborn then some (pthreadCreate s dataOk stackOk controlOk semOk) else none
  | .setspecific =>
    if s.place = .running ∨ s.place = .handlers then
      some (if s.hasTls then s else { s.malloc .tls with hasTls := true })
    else none
  | .setCancel enabled async =>
    if s.place = .running ∨ s.place = .handlers then
      some { s with cancelEnabled := enabled, cancelAsync := async }
    else none
  | .returns v =>
    if s.place = .running then
      some { s with returnValue := v, ending := some (.value v), place := .returned }
    else none
  | .exits v =>
    if s.place = .running then
      some { s with
        cancelEnabled := false, returnValue := v, ending := some (.value v), place := .handlers }
    else none
  | .goesOn => pthreadGoesOn s
  | .idle => pthreadIdle s
  | .cancel => if s.live .data then some (pthreadCancel s) else none
  | .join t =>
    if s.caller t = .outside ∧ s.live .data then
      some (if s.joinable then s.moveCaller t .joining else s)
    else none
  | .take t => if s.caller t = .joining then some (pthreadTake s t) else none
  | .finish t => if s.caller t = .taken then some (pthreadFinish s t) else none
  | .detach t =>
    if s.caller t = .outside ∧ s.live .data then some (s.moveCaller t (.detaching false)) else none
  | .check t =>
    match s.caller t with
    | .detaching joins => some (pthreadCheck s t joins)
    | _ => none
  | .act t =>
    match s.caller t with
    | .closing => some (pthreadClosing s t)
    | .opening => some (pthreadOpening s t)
    | _ => none

def pthreadStart (joinable ownStack : Bool) : Pthread where
  ownStack := ownStack
  joinable := joinable
  allocs := fun _ => 0
  frees := fun _ => 0
  place := .unborn
  closed := false
  cleanup := false
  defunct := false
  hasSem := false
  tokens := 0
  queue := []
  hasTls := false
  returnValue := 0
  cancelEnabled := false
  cancelAsync := false
  caller := fun _ => .outside
  ending := none
  claimed := !joinable
  joined := []
  faulted := false

/-- Nothing is freed twice or without having been allocated; a create that failed has freed what it
allocated, and so has a thread that ended, was cleaned up by the idle thread and was joined or
detached; joins return the thread's value. -/
structure PthreadRight (s : Pthread) : Prop where
  once : ∀ b, s.frees b ≤ s.allocs b
  failed : s.place = .notCreated → ∀ b, s.frees b = s.allocs b
  ended : s.place = .ended → s.cleanup = false → s.claimed = true → ∀ b, s.frees b = s.allocs b
  values : ∀ v ∈ s.joined, ∃ e, s.ending = some e ∧ v = e.result
  sound : s.faulted = false

/-- The semaphore of a joinable thread is allocated; the idle thread finds the thread joinable, and a
`pthread_detach` of it, also at the end of a join, comes to free it only afterwards, or changes it
before; the calls of other threads do not overlap with one that freed or detached it; and a cancel
neither comes between the two steps of freeing the array nor ends a thread that is joined. -/
def PthreadSafe (s : Pthread) : PthreadAction → Prop
  | .create dataOk stackOk controlOk semOk =>
    s.joinable = true → dataOk = true → (s.ownStack = true → stackOk = true) →
      controlOk = true → semOk = true
  | .goesOn => s.place = .releasing → s.hasSem = true
  | .idle => s.joinable = true
  | .cancel => s.cancelEnabled = true → s.cancelAsync = true → s.place ≠ .tlsFreed
  | .take _ => s.live .data ∧ s.hasSem = true
  | .finish _ => s.live .data ∧ s.ending ≠ some .cancelled
  | .check _ => s.live .data
  | .act t =>
    s.live .data ∧
      if s.caller t = .closing then s.cleanup = false else s.cleanup = true ∧ s.hasSem = true
  | _ => True

/-- The blocks a thread that has not been released still has. -/
def Pthread.owned (s : Pthread) : PthreadBlock → Nat
  | .data => 1
  | .control => 1
  | .stack => if s.ownStack then 1 else 0
  | .sem => if s.hasSem then 1 else 0
  | .tls => if s.hasTls = true ∧ s.place ≠ .tlsFreed then 1 else 0

/-- The thread has returned or called `pthread_exit` and has not ended. -/
def PthreadPlace.ending : PthreadPlace → Bool
  | .returned => true
  | .handlers => true
  | .tlsFreed => true
  | .tlsGone => true
  | .releasing => true
  | .leaving => true
  | _ => false

/-- The thread was created and its memory is there. It has a semaphore as long as it is joinable, and
the idle thread has not cleaned up a thread that is not. -/
structure PthreadAlive (s : Pthread) : Prop where
  created : s.place ≠ .unborn ∧ s.place ≠ .notCreated
  balance : ∀ b, s.frees b + s.owned b = s.allocs b
  sem : s.hasSem = s.joinable
  detached : s.joinable = false → s.cleanup = true
  unclaimed : s.claimed = true → s.joinable = false

/-- There is no thread, or there was one and everything is freed. -/
structure PthreadSettled (s : Pthread) : Prop where
  balance : ∀ b, s.frees b = s.allocs b
  place : s.place = .unborn ∨ s.place = .notCreated ∨ s.place = .ended
  idle : s.defunct = false

structure PthreadBase (s : Pthread) : Prop where
  memory : PthreadAlive s ∨ PthreadSettled s
  closed : s.closed = true ↔ s.place = .ended
  cleaned : s.cleanup = false → s.place = .unborn ∨ s.place = .notCreated ∨ s.place = .ended
  defunct : s.defunct = true → s.cleanup = true ∧ s.place = .ended
  leaves : s.place.ending = true → ∃ v, s.ending = some (.value v)
  running : s.place = .running → s.ending = none
  ended : s.place = .ended → s.ending ≠ none
  value : ∀ v, s.ending = some (.value v) → s.returnValue = v
  signalled : 0 < s.tokens ∨ (∃ t, s.caller t = .taken) → s.ending ≠ none
  values : ∀ v ∈ s.joined, ∃ e, s.ending = some e ∧ v = e.result
  sound : s.faulted = false
  unborn : s.place = .unborn → (∀ b, s.allocs b = 0) ∧ (∀ b, s.frees b = 0) ∧ s.joined = [] ∧
    s.hasTls = false ∧ s.ending = none ∧ s.claimed = !s.joinable

section
variable {s s' : Pthread} {t u : ThreadId} {b : PthreadBlock} {p : PthreadCaller}

theorem PthreadBase.right (h : PthreadBase s) : PthreadRight s where
  once b := by
    rcases h.memory with ha | hs
    · have hbalance := ha.balance b
      omega
    · exact (hs.balance b).le
  failed hplace := by
    rcases h.memory with ha | hs
    · exact absurd hplace ha.created.2
    · exact hs.balance
  ended _ hcleanup hclaimed := by
    rcases h.memory with ha | hs
    · have hcleanup' := ha.detached (ha.unclaimed hclaimed)
      rw [hcleanup] at hcleanup'
      exact Bool.noConfusion hcleanup'
    · exact hs.balance
  values := h.values
  sound := h.sound

theorem PthreadSettled.notLive (h : PthreadSettled s) : ¬s.live b :=
  fun hlive => absurd (h.balance b) (Nat.ne_of_lt hlive)

theorem PthreadBase.alive (h : PthreadBase s) (hlive : s.live b) : PthreadAlive s :=
  h.memory.resolve_right fun hs => hs.notLive hlive

theorem PthreadAlive.live (h : PthreadAlive s) (hb : 0 < s.owned b) : s.live b := by
  have hbalance := h.balance b
  unfold Pthread.live
  omega

theorem owned_congr (h1 : s'.ownStack = s.ownStack) (h2 : s'.hasSem = s.hasSem)
    (h3 : s'.hasTls = true ∧ s'.place ≠ .tlsFreed ↔ s.hasTls = true ∧ s.place ≠ .tlsFreed) :
    s'.owned b = s.owned b := by
  cases b <;> simp only [Pthread.owned, h1, h2]
  exact if_congr h3 rfl rfl

/-- A step of another thread that leaves the thread and its memory as they are. -/
theorem PthreadBase.moveCaller (h : PthreadBase s) (hp : p = .taken → s.ending ≠ none) :
    PthreadBase (s.moveCaller t p) where
  memory := h.memory.imp (fun ⟨h1, h2, h3, h4, h5⟩ => ⟨h1, h2, h3, h4, h5⟩)
    fun ⟨h1, h2, h3⟩ => ⟨h1, h2, h3⟩
  closed := h.closed
  cleaned := h.cleaned
  defunct := h.defunct
  leaves := h.leaves
  running := h.running
  ended := h.ended
  value := h.value
  signalled := by
    rintro (htokens | ⟨u, hu⟩)
    · exact h.signalled (.inl htokens)
    · by_cases hut : u = t
      · subst u
        exact hp ((Function.update_self ..).symm.trans hu)
      · exact h.signalled (.inr ⟨u, (Function.update_of_ne hut ..).symm.trans hu⟩)
  values := h.values
  sound := h.sound
  unborn := h.unborn

/-- The semaphore is released by a thread that has its value, or by the idle thread for it. -/
theorem PthreadBase.release (h : PthreadBase s) (he : s.ending ≠ none) :
    PthreadBase s.release := by
  have hsame : ∀ {tokens queue}, PthreadBase { s with tokens := tokens, queue := queue } := by
    intro tokens queue
    exact ⟨h.memory.imp (fun ⟨h1, h2, h3, h4, h5⟩ => ⟨h1, h2, h3, h4, h5⟩)
      fun ⟨h1, h2, h3⟩ => ⟨h1, h2, h3⟩, h.closed, h.cleaned, h.defunct, h.leaves, h.running,
      h.ended, h.value,
      fun _ => he, h.values, h.sound, h.unborn⟩
  unfold Pthread.release
  split
  · exact hsame.moveCaller fun _ => he
  · exact hsame

/-- The thread ends, with the value it has or one it gets now. -/
theorem PthreadBase.ends (h : PthreadBase s) (ha : PthreadAlive s) (hp : s.place ≠ .tlsFreed)
    {e : Option PthreadEnding} (he : e ≠ none) (hkeeps : ∀ x, s.ending = some x → e = some x)
    (hvalue : ∀ v, e = some (.value v) → s.returnValue = v) :
    PthreadBase { s.close with ending := e } where
  memory := by
    refine .inl ⟨by simp [Pthread.close], fun b => ?_, ha.sem, ha.detached, ha.unclaimed⟩
    have howned : Pthread.owned { s.close with ending := e } b = s.owned b :=
      owned_congr rfl rfl (by simp [Pthread.close, hp])
    rw [howned]
    exact ha.balance b
  closed := ⟨fun _ => rfl, fun _ => rfl⟩
  cleaned _ := .inr (.inr rfl)
  defunct hdefunct := ⟨hdefunct, rfl⟩
  leaves hplace := Bool.noConfusion hplace
  running hplace := PthreadPlace.noConfusion hplace
  ended _ := he
  value := hvalue
  signalled _ := he
  values v hv := by
    obtain ⟨x, hx, hresult⟩ := h.values v hv
    exact ⟨x, hkeeps x hx, hresult⟩
  sound := h.sound
  unborn hplace := PthreadPlace.noConfusion hplace

theorem PthreadBase.close (h : PthreadBase s) (ha : PthreadAlive s) (hp : s.place ≠ .tlsFreed)
    (he : s.ending ≠ none) : PthreadBase s.close :=
  h.ends ha hp he (fun _ hx => hx) h.value

/-- A cancel gives the thread its value if it has none. -/
theorem PthreadBase.cancel (h : PthreadBase s) (hok : PthreadSafe s .cancel)
    (hlive : s.live .data) : PthreadBase (pthreadCancel s) := by
  have ha := h.alive hlive
  unfold pthreadCancel
  split
  next hcancel =>
    obtain ⟨henabled, hasync⟩ := Bool.and_eq_true_iff.mp hcancel
    apply h.ends ha (hok henabled hasync)
    · simp
    · intro x hx
      simp [hx]
    · intro v hv
      cases he : s.ending with
      | none => simp [he] at hv
      | some e =>
        apply h.value v
        simpa [he] using hv
  next => exact h

/-- The thread goes on to another place in `pthread_exit`; only the array can be freed there. -/
theorem PthreadBase.moves (h : PthreadBase s) {p : PthreadPlace} {hasTls : Bool}
    {frees : PthreadBlock → Nat} (hs : s.place.ending = true) (hp : p.ending = true)
    (ha : PthreadAlive { s with place := p, hasTls := hasTls, frees := frees }) :
    PthreadBase { s with place := p, hasTls := hasTls, frees := frees } where
  memory := .inl ha
  closed := by
    have hnot : s.closed ≠ true := by
      intro hclosed
      rw [h.closed.mp hclosed] at hs
      exact Bool.noConfusion hs
    constructor
    · exact fun hclosed => absurd hclosed hnot
    · intro hplace
      have hplace : p = .ended := hplace
      rw [hplace] at hp
      exact Bool.noConfusion hp
  cleaned hcleanup := by
    rcases h.cleaned hcleanup with hplace | hplace | hplace <;> rw [hplace] at hs <;>
      exact Bool.noConfusion hs
  defunct hdefunct := by
    rw [(h.defunct hdefunct).2] at hs
    exact Bool.noConfusion hs
  leaves _ := h.leaves hs
  running hplace := by
    have hplace : p = .running := hplace
    rw [hplace] at hp
    exact Bool.noConfusion hp
  ended hplace := by
    have hplace : p = .ended := hplace
    rw [hplace] at hp
    exact Bool.noConfusion hp
  value := h.value
  signalled := h.signalled
  values := h.values
  sound := h.sound
  unborn hplace := by
    have hplace : p = .unborn := hplace
    rw [hplace] at hp
    exact Bool.noConfusion hp

theorem PthreadBase.born (h : PthreadBase s) (hplace : s.place.ending = true) :
    PthreadAlive s ∧ s.ending ≠ none := by
  refine ⟨h.memory.resolve_right fun hs => ?_, ?_⟩
  · rcases hs.place with hp | hp | hp <;> rw [hp] at hplace <;> exact Bool.noConfusion hplace
  · obtain ⟨v, hv⟩ := h.leaves hplace
    rw [hv]
    simp

/-- The same, where the memory is left as it is. -/
theorem PthreadAlive.moves (h : PthreadAlive s) {p : PthreadPlace} (hp : p.ending = true)
    (h1 : s.place ≠ .tlsFreed) (h2 : p ≠ .tlsFreed) : PthreadAlive { s with place := p } where
  created := by cases p <;> simp_all [PthreadPlace.ending]
  balance b := by
    have howned : Pthread.owned { s with place := p } b = s.owned b :=
      owned_congr rfl rfl (by simp [h1, h2])
    rw [howned]
    exact h.balance b
  sem := h.sem
  detached := h.detached
  unclaimed := h.unclaimed

theorem PthreadBase.goesOn (h : PthreadBase s) (hok : PthreadSafe s .goesOn)
    (hs : pthreadGoesOn s = some s') : PthreadBase s' := by
  unfold pthreadGoesOn at hs
  split at hs
  next hp =>
    obtain ⟨ha, he⟩ := h.born (by rw [hp]; rfl)
    exact Option.some.inj hs ▸ h.close ha (by simp [hp]) he
  next hp =>
    obtain ⟨ha, he⟩ := h.born (by rw [hp]; rfl)
    have hending : s.place.ending = true := by rw [hp]; rfl
    split at hs
    next htls =>
      obtain rfl := Option.some.inj hs
      apply h.moves hending rfl
      refine ⟨by simp, fun b => ?_, ha.sem, ha.detached, ha.unclaimed⟩
      have hbalance := ha.balance b
      cases b <;> simp_all [Pthread.owned, Pthread.free]
    next =>
      exact Option.some.inj hs ▸ h.moves hending rfl (ha.moves rfl (by simp [hp]) (by simp))
  next hp =>
    obtain ⟨ha, he⟩ := h.born (by rw [hp]; rfl)
    have hending : s.place.ending = true := by rw [hp]; rfl
    obtain rfl := Option.some.inj hs
    apply h.moves hending rfl
    refine ⟨by simp, fun b => ?_, ha.sem, ha.detached, ha.unclaimed⟩
    have hbalance := ha.balance b
    cases b <;> simp_all [Pthread.owned]
  next hp =>
    obtain ⟨ha, he⟩ := h.born (by rw [hp]; rfl)
    have hending : s.place.ending = true := by rw [hp]; rfl
    obtain rfl := Option.some.inj hs
    apply h.moves hending
    · split <;> rfl
    · apply ha.moves _ (by simp [hp]) <;> split <;> simp [PthreadPlace.ending]
  next hp =>
    have hending : s.place.ending = true := by rw [hp]; rfl
    obtain ⟨ha, he⟩ := h.born hending
    rw [if_pos (hok hp)] at hs
    obtain rfl := Option.some.inj hs
    have hplace : s.release.place = s.place := by
      unfold Pthread.release
      split <;> rfl
    have hreleased := h.release he
    have halive := (hreleased.born (by rw [hplace]; exact hending)).1
    exact hreleased.moves (by rw [hplace]; exact hending) rfl
      (halive.moves rfl (by simp [hplace, hp]) (by simp))
  next hp =>
    obtain ⟨ha, he⟩ := h.born (by rw [hp]; rfl)
    exact Option.some.inj hs ▸ h.close ha (by simp [hp]) he
  next => simp at hs

/-- The idle thread cleans up a joinable thread. -/
theorem PthreadBase.idle (h : PthreadBase s) (hok : s.joinable = true)
    (hs : pthreadIdle s = some s') : PthreadBase s' := by
  unfold pthreadIdle at hs
  split at hs
  next hdefunct =>
    obtain ⟨hcleanup, hplace⟩ := h.defunct hdefunct
    have ha : PthreadAlive s := by
      apply h.memory.resolve_right
      intro hsettled
      exact absurd hdefunct (by simp [hsettled.idle])
    have hlive : Pthread.live { s with defunct := false } .control := ha.live Nat.one_pos
    have hsem : s.hasSem = true := ha.sem.trans hok
    have hrelease : pthreadCleanup { s with defunct := false } =
        Pthread.release { s with defunct := false, cleanup := false } := by
      unfold pthreadCleanup
      dsimp only
      rw [if_pos hok, if_pos hsem]
    dsimp only at hs
    rw [if_neg (not_not.mpr hlive), if_pos hcleanup, hrelease] at hs
    obtain rfl := Option.some.inj hs
    have hclean : PthreadBase { s with defunct := false, cleanup := false } := by
      refine ⟨.inl ⟨ha.created, ha.balance, ha.sem, ?_, ha.unclaimed⟩, h.closed,
        fun _ => .inr (.inr hplace), fun hno => Bool.noConfusion hno, h.leaves, h.running,
        h.ended, h.value,
        h.signalled, h.values, h.sound, h.unborn⟩
      intro hno
      exact absurd (hok.symm.trans hno) (by simp)
    exact hclean.release (h.ended hplace)
  next => simp at hs

theorem PthreadBase.take (h : PthreadBase s) (hlive : s.live .data) (hsem : s.hasSem = true) :
    PthreadBase (pthreadTake s t) := by
  have ha := h.alive hlive
  have hmemory : ∀ {tokens queue}, PthreadAlive { s with tokens := tokens, queue := queue } :=
    ⟨ha.created, ha.balance, ha.sem, ha.detached, ha.unclaimed⟩
  unfold pthreadTake
  rw [if_neg (by simp [hsem, hlive])]
  split
  next htokens =>
    have he := h.signalled (.inl htokens)
    have hless : PthreadBase { s with tokens := s.tokens - 1 } :=
      ⟨.inl hmemory, h.closed, h.cleaned, h.defunct, h.leaves, h.running, h.ended, h.value,
        fun _ => he, h.values, h.sound, h.unborn⟩
    exact hless.moveCaller fun _ => he
  next =>
    have hmore : PthreadBase { s with queue := s.queue ++ [t] } :=
      ⟨.inl hmemory, h.closed, h.cleaned, h.defunct, h.leaves, h.running, h.ended, h.value,
        h.signalled, h.values, h.sound, h.unborn⟩
    exact hmore.moveCaller fun hno => PthreadCaller.noConfusion hno

/-- A join reads the value that the thread returned or gave to `pthread_exit`. -/
theorem PthreadBase.finish (h : PthreadBase s) (hlive : s.live .data)
    (hnot : s.ending ≠ some .cancelled) (ht : s.caller t = .taken) :
    PthreadBase (pthreadFinish s t) := by
  have ha := h.alive hlive
  obtain ⟨e, he⟩ := Option.ne_none_iff_exists'.mp (h.signalled (.inr ⟨t, ht⟩))
  have hresult : s.returnValue = e.result := by
    cases e with
    | value v => exact h.value v he
    | cancelled => exact absurd he hnot
  unfold pthreadFinish
  rw [if_neg (not_not.mpr hlive)]
  have hread : PthreadBase { s with joined := s.returnValue :: s.joined } := by
    refine ⟨.inl ⟨ha.created, ha.balance, ha.sem, ha.detached, ha.unclaimed⟩, h.closed, h.cleaned,
      h.defunct, h.leaves, h.running, h.ended, h.value, h.signalled, ?_, h.sound,
      fun hp => absurd hp ha.created.1⟩
    intro v hv
    rcases List.mem_cons.mp hv with rfl | hv
    · exact ⟨e, he, hresult⟩
    · exact h.values v hv
  exact hread.moveCaller fun hno => PthreadCaller.noConfusion hno

theorem PthreadBase.check {joins : Bool} (h : PthreadBase s) (hlive : s.live .data) :
    PthreadBase (pthreadCheck s t joins) := by
  have ha := h.alive hlive
  unfold pthreadCheck
  rw [if_neg (not_not.mpr hlive)]
  split
  next hjoinable =>
    have hclaimed : PthreadBase { s with claimed := s.claimed || joins } :=
      ⟨.inl ⟨ha.created, ha.balance, ha.sem, ha.detached, fun _ => hjoinable⟩, h.closed,
        h.cleaned, h.defunct, h.leaves, h.running, h.ended, h.value, h.signalled, h.values, h.sound,
        fun hp => absurd hp ha.created.1⟩
    exact hclaimed.moveCaller fun hno => PthreadCaller.noConfusion hno
  next =>
    apply h.moveCaller
    split <;> exact fun hno => PthreadCaller.noConfusion hno

/-- Deleting the semaphore sends the threads that wait on it away. -/
theorem PthreadBase.deleteSem_signalled (h : PthreadBase s)
    (htaken : 0 < s.deleteSem.tokens ∨ ∃ t, s.deleteSem.caller t = .taken) : s.ending ≠ none := by
  rcases htaken with htokens | ⟨u, hu⟩
  · exact h.signalled (.inl htokens)
  · apply h.signalled
    refine .inr ⟨u, ?_⟩
    have hcaller : (if u ∈ s.queue then .outside else s.caller u) = PthreadCaller.taken := hu
    split at hcaller
    · exact PthreadCaller.noConfusion hcaller
    · exact hcaller

/-- After the idle thread has cleaned up, `pthread_detach` frees everything. -/
theorem PthreadBase.closing (h : PthreadBase s) (hlive : s.live .data)
    (hcleanup : s.cleanup = false) : PthreadBase (pthreadClosing s t) := by
  have ha := h.alive hlive
  have hplace : s.place = .ended := by
    rcases h.cleaned hcleanup with hp | hp | hp
    · exact absurd hp ha.created.1
    · exact absurd hp ha.created.2
    · exact hp
  have hsem : s.hasSem = true := by
    rw [ha.sem]
    by_contra hno
    have hset := ha.detached (by simpa using hno)
    rw [hcleanup] at hset
    exact Bool.noConfusion hset
  have he := h.ended hplace
  have hfreed : pthreadClosing s t =
      { s.deleteSem.close with frees := s.allocs, claimed := true }.moveCaller t .outside := by
    have hfrees : (((s.deleteSem.close.freeIf s.ownStack .stack).freeIf s.hasTls .tls).free
        .control).free .data = { s.deleteSem.close with frees := s.allocs } := by
      cases hown : s.ownStack <;> cases htls : s.hasTls <;>
        simp only [Pthread.freeIf, Pthread.free, Pthread.deleteSem, Pthread.close, if_true,
          Bool.false_eq_true, if_false] <;> congr 1 <;> funext b <;>
        have hbalance := ha.balance b <;> cases b <;>
        simp_all [Pthread.owned]
    unfold pthreadClosing
    rw [if_neg (not_not.mpr hlive), if_pos hsem]
    exact congrArg (fun s : Pthread => { s with claimed := true }.moveCaller t .outside) hfrees
  have hreleased : PthreadBase { s.deleteSem.close with frees := s.allocs, claimed := true } := by
    refine ⟨.inr ⟨fun _ => rfl, .inr (.inr rfl), hcleanup⟩, ⟨fun _ => rfl, fun _ => rfl⟩,
      fun _ => .inr (.inr rfl), fun hdefunct => ?_, fun hno => Bool.noConfusion hno,
      fun hno => PthreadPlace.noConfusion hno, fun _ => he,
      h.value, fun _ => he, h.values, h.sound, fun hno => PthreadPlace.noConfusion hno⟩
    exact absurd (hcleanup.symm.trans hdefunct) (by simp)
  rw [hfreed]
  exact hreleased.moveCaller fun hno => PthreadCaller.noConfusion hno

theorem PthreadBase.opening (h : PthreadBase s) (hlive : s.live .data)
    (hcleanup : s.cleanup = true) (hsem : s.hasSem = true) :
    PthreadBase (pthreadOpening s t) := by
  have ha := h.alive hlive
  unfold pthreadOpening
  rw [if_neg (by simp [hsem, hlive])]
  have hopened : PthreadBase
      { s.deleteSem with joinable := false, hasSem := false, claimed := true } := by
    refine ⟨.inl ⟨ha.created, fun b => ?_, rfl, fun _ => hcleanup, fun _ => rfl⟩, h.closed,
      h.cleaned, h.defunct, h.leaves, h.running, h.ended, h.value, h.deleteSem_signalled, h.values,
      h.sound,
      fun hp => absurd hp ha.created.1⟩
    have hbalance := ha.balance b
    cases b <;> simp_all [Pthread.owned, Pthread.deleteSem, Pthread.free]
  exact hopened.moveCaller fun hno => PthreadCaller.noConfusion hno

theorem PthreadBase.settled (h : PthreadBase s) (hp : s.place = .unborn) : PthreadSettled s :=
  h.memory.resolve_left fun ha => ha.created.1 hp

@[simp] theorem malloc_ownStack : (s.malloc b).ownStack = s.ownStack := rfl

@[simp] theorem malloc_joinable : (s.malloc b).joinable = s.joinable := rfl

@[simp] theorem malloc_allocs :
    (s.malloc b).allocs = Function.update s.allocs b (s.allocs b + 1) := rfl

@[simp] theorem malloc_frees : (s.malloc b).frees = s.frees := rfl

@[simp] theorem free_allocs : (s.free b).allocs = s.allocs := rfl

@[simp] theorem free_frees :
    (s.free b).frees = Function.update s.frees b (s.frees b + 1) := rfl

theorem freeIf_eq {c : Bool} : s.freeIf c b =
    { s with frees := if c then Function.update s.frees b (s.frees b + 1) else s.frees } := by
  cases c <;> rfl

/-- A create that fails and frees what it allocated. -/
theorem PthreadBase.fails (h : PthreadBase s) (hp : s.place = .unborn)
    {allocs frees : PthreadBlock → Nat} (hbalance : ∀ b, frees b = allocs b) :
    PthreadBase { s with allocs := allocs, frees := frees, place := .notCreated } where
  memory := .inr ⟨hbalance, .inr (.inl rfl), (h.settled hp).idle⟩
  closed := by
    have hclosed : s.closed ≠ true := fun hclosed =>
      PthreadPlace.noConfusion (hp.symm.trans (h.closed.mp hclosed))
    exact ⟨fun hno => absurd hno hclosed, fun hno => PthreadPlace.noConfusion hno⟩
  cleaned _ := .inr (.inl rfl)
  defunct hdefunct := absurd hdefunct (by simp [(h.settled hp).idle])
  leaves hno := Bool.noConfusion hno
  running hno := PthreadPlace.noConfusion hno
  ended hno := PthreadPlace.noConfusion hno
  value := h.value
  signalled := h.signalled
  values := h.values
  sound := h.sound
  unborn hno := PthreadPlace.noConfusion hno

/-- A create that succeeds. -/
theorem PthreadBase.starts (h : PthreadBase s) (hp : s.place = .unborn)
    {allocs : PthreadBlock → Nat}
    (hbalance : ∀ b, Pthread.owned { s with hasSem := s.joinable } b = allocs b) :
    PthreadBase { s with
      allocs := allocs, hasSem := s.joinable, cleanup := true, place := .running } := by
  obtain ⟨-, hfrees, hjoined, htls, hending, hclaimed⟩ := h.unborn hp
  refine ⟨.inl ⟨by simp, fun b => ?_, rfl, fun _ => rfl, fun hno => ?_⟩, ?_,
    fun hno => Bool.noConfusion hno, ?_, fun hno => Bool.noConfusion hno, fun _ => hending,
    fun hno => PthreadPlace.noConfusion hno, h.value, h.signalled, h.values, h.sound,
    fun hno => PthreadPlace.noConfusion hno⟩
  · show s.frees b + _ = allocs b
    rw [hfrees b, Nat.zero_add, ← hbalance b]
    exact owned_congr rfl rfl (by simp [htls])
  · have hno : s.claimed = true := hno
    rw [hclaimed] at hno
    simpa using hno
  · have hclosed : s.closed ≠ true := fun hclosed =>
      PthreadPlace.noConfusion (hp.symm.trans (h.closed.mp hclosed))
    exact ⟨fun hno => absurd hno hclosed, fun hno => PthreadPlace.noConfusion hno⟩
  · exact fun hdefunct => absurd hdefunct (by simp [(h.settled hp).idle])

/-- What is allocated once the stack is there. -/
def stackAllocs (ownStack : Bool) : PthreadBlock → Nat
  | .data => 1
  | .stack => if ownStack then 1 else 0
  | _ => 0

theorem malloc_stack (hallocs : ∀ b, s.allocs b = 0) :
    (if s.ownStack then (s.malloc .data).malloc .stack else s.malloc .data) =
      { s with allocs := stackAllocs s.ownStack } := by
  by_cases hown : s.ownStack = true
  · rw [if_pos hown]
    show { s with allocs := _ } = { s with allocs := _ }
    congr 1
    funext b
    cases b <;> simp [stackAllocs, hown, hallocs]
  · rw [if_neg hown]
    show { s with allocs := _ } = { s with allocs := _ }
    congr 1
    funext b
    cases b <;> simp [stackAllocs, hown, hallocs]

theorem PthreadBase.create {dataOk stackOk controlOk semOk : Bool} (h : PthreadBase s)
    (hp : s.place = .unborn) (hok : PthreadSafe s (.create dataOk stackOk controlOk semOk)) :
    PthreadBase (pthreadCreate s dataOk stackOk controlOk semOk) := by
  obtain ⟨hallocs, hfrees, -, htls, -⟩ := h.unborn hp
  unfold pthreadCreate
  split
  next => exact h.fails hp fun b => (hfrees b).trans (hallocs b).symm
  next hdata =>
    dsimp only
    split
    next hstack =>
      apply h.fails hp
      intro b
      cases b <;> simp [hallocs, hfrees]
    next hstack =>
      have hstackOk : s.ownStack = true → stackOk = true := by simpa using hstack
      rw [malloc_ownStack, malloc_stack hallocs]
      split
      next =>
        rw [freeIf_eq]
        apply h.fails hp
        intro b
        by_cases hown : s.ownStack = true <;> cases b <;> simp [stackAllocs, hfrees, hown]
      next hcontrol =>
        split
        next hsem =>
          obtain ⟨hjoinable, hsem⟩ := Bool.and_eq_true_iff.mp hsem
          have hsemOk := hok hjoinable (by simpa using hdata) hstackOk (by simpa using hcontrol)
          simp [hsemOk] at hsem
        next =>
          split
          next hjoinable =>
            have hjoinable : s.joinable = true := hjoinable
            apply h.starts hp
            intro b
            cases b <;> simp [Pthread.owned, stackAllocs, hjoinable, htls]
          next hjoinable =>
            have hjoinable : s.joinable = false := by simpa using hjoinable
            apply h.starts hp
            intro b
            cases b <;> simp [Pthread.owned, stackAllocs, hjoinable, htls]

/-- The thread returns or calls `pthread_exit`. -/
theorem PthreadBase.valued (h : PthreadBase s) (hp : s.place = .running) {p : PthreadPlace}
    (hnext : p.ending = true) (htls : p ≠ .tlsFreed) {v : Nat} {cancelEnabled : Bool} :
    PthreadBase { s with
      cancelEnabled := cancelEnabled, returnValue := v, ending := some (.value v), place := p } := by
  have ha : PthreadAlive s := by
    apply h.memory.resolve_right
    intro hsettled
    rcases hsettled.place with hno | hno | hno <;>
      exact PthreadPlace.noConfusion (hp.symm.trans hno)
  have hnone := h.running hp
  have hmoved := ha.moves hnext (by simp [hp]) htls
  refine ⟨.inl ⟨hmoved.created, hmoved.balance, hmoved.sem, hmoved.detached, hmoved.unclaimed⟩,
    ?_, ?_, ?_, fun _ => ⟨v, rfl⟩, ?_, fun _ => by simp, ?_, fun _ => by simp, ?_, h.sound,
    fun hno => absurd hno hmoved.created.1⟩
  · have hclosed : s.closed ≠ true := fun hclosed =>
      PthreadPlace.noConfusion (hp.symm.trans (h.closed.mp hclosed))
    refine ⟨fun hno => absurd hno hclosed, fun hno => ?_⟩
    have hno : p = .ended := hno
    rw [hno] at hnext
    exact Bool.noConfusion hnext
  · intro hcleanup
    rcases h.cleaned hcleanup with hno | hno | hno <;>
      exact PthreadPlace.noConfusion (hp.symm.trans hno)
  · intro hdefunct
    exact PthreadPlace.noConfusion (hp.symm.trans (h.defunct hdefunct).2)
  · intro hno
    have hno : p = .running := hno
    rw [hno] at hnext
    exact Bool.noConfusion hnext
  · intro v' hv'
    simpa using hv'
  · intro v' hv'
    obtain ⟨e, he, -⟩ := h.values v' hv'
    rw [hnone] at he
    simp at he

/-- The thread gets its array. -/
theorem PthreadBase.setspecific (h : PthreadBase s) (hp : s.place = .running ∨ s.place = .handlers)
    (htls : s.hasTls = false) : PthreadBase { s.malloc .tls with hasTls := true } := by
  have ha : PthreadAlive s := by
    apply h.memory.resolve_right
    intro hsettled
    rcases hp with hp | hp <;> rcases hsettled.place with hno | hno | hno <;>
      exact PthreadPlace.noConfusion (hp.symm.trans hno)
  have hnot : s.place ≠ .tlsFreed := by
    rcases hp with hp | hp <;> simp [hp]
  refine ⟨.inl ⟨ha.created, fun b => ?_, ha.sem, ha.detached, ha.unclaimed⟩, h.closed, h.cleaned,
    h.defunct, h.leaves, h.running, h.ended, h.value, h.signalled, h.values, h.sound,
    fun hno => absurd hno ha.created.1⟩
  have hbalance := ha.balance b
  cases b <;> simp_all [Pthread.owned, Pthread.malloc]

theorem PthreadBase.step {a : PthreadAction} (h : PthreadBase s) (hok : PthreadSafe s a)
    (hs : pthreadStep s a = some s') : PthreadBase s' := by
  cases a with
  | create dataOk stackOk controlOk semOk =>
    simp only [pthreadStep] at hs
    split at hs
    next hp => exact Option.some.inj hs ▸ h.create hp hok
    next => simp at hs
  | setspecific =>
    simp only [pthreadStep] at hs
    split at hs
    next hp =>
      obtain rfl := Option.some.inj hs
      split
      · exact h
      next htls => exact h.setspecific hp (by simpa using htls)
    next => simp at hs
  | setCancel enabled async =>
    simp only [pthreadStep] at hs
    split at hs
    next hp =>
      obtain rfl := Option.some.inj hs
      exact ⟨h.memory.imp (fun ⟨h1, h2, h3, h4, h5⟩ => ⟨h1, h2, h3, h4, h5⟩)
        fun ⟨h1, h2, h3⟩ => ⟨h1, h2, h3⟩, h.closed, h.cleaned, h.defunct, h.leaves, h.running,
        h.ended, h.value, h.signalled, h.values, h.sound, h.unborn⟩
    next => simp at hs
  | returns v =>
    simp only [pthreadStep] at hs
    split at hs
    next hp => exact Option.some.inj hs ▸ h.valued hp rfl (by simp)
    next => simp at hs
  | exits v =>
    simp only [pthreadStep] at hs
    split at hs
    next hp => exact Option.some.inj hs ▸ h.valued hp rfl (by simp)
    next => simp at hs
  | goesOn => exact h.goesOn hok hs
  | idle => exact h.idle hok hs
  | cancel =>
    simp only [pthreadStep] at hs
    split at hs
    next hlive => exact Option.some.inj hs ▸ h.cancel hok hlive
    next => simp at hs
  | join t =>
    simp only [pthreadStep] at hs
    split at hs
    next hp =>
      obtain rfl := Option.some.inj hs
      split
      · exact h.moveCaller fun hno => PthreadCaller.noConfusion hno
      · exact h
    next => simp at hs
  | take t =>
    simp only [pthreadStep] at hs
    split at hs
    next hp => exact Option.some.inj hs ▸ h.take hok.1 hok.2
    next => simp at hs
  | finish t =>
    simp only [pthreadStep] at hs
    split at hs
    next hp => exact Option.some.inj hs ▸ h.finish hok.1 hok.2 hp
    next => simp at hs
  | detach t =>
    simp only [pthreadStep] at hs
    split at hs
    next hp => exact Option.some.inj hs ▸ h.moveCaller fun hno => PthreadCaller.noConfusion hno
    next => simp at hs
  | check t =>
    simp only [pthreadStep] at hs
    split at hs
    next joins hp => exact Option.some.inj hs ▸ h.check hok
    next => simp at hs
  | act t =>
    obtain ⟨hlive, hok⟩ := hok
    simp only [pthreadStep] at hs
    split at hs
    next hp =>
      rw [if_pos hp] at hok
      exact Option.some.inj hs ▸ h.closing hlive hok
    next hp =>
      rw [if_neg (by simp [hp])] at hok
      exact Option.some.inj hs ▸ h.opening hlive hok.1 hok.2
    next => simp at hs

theorem pthreadReach_right {joinable ownStack : Bool} {s : Pthread}
    (hr : Reach pthreadStep PthreadSafe (fun s => s = pthreadStart joinable ownStack) s) :
    PthreadRight s := by
  apply PthreadBase.right
  apply hr.invariant
  · rintro s rfl
    exact ⟨.inr ⟨fun _ => rfl, .inl rfl, rfl⟩, by simp [pthreadStart], fun _ => .inl rfl,
      fun hno => Bool.noConfusion hno, fun hno => Bool.noConfusion hno,
      fun hno => PthreadPlace.noConfusion hno, fun hno => PthreadPlace.noConfusion hno,
      by simp [pthreadStart], by simp [pthreadStart], by simp [pthreadStart], rfl,
      fun _ => ⟨fun _ => rfl, fun _ => rfl, rfl, rfl, rfl, rfl⟩⟩
  · exact fun s a s' h hok hs => h.step hok hs

end

instance decidablePthreadSafe (s : Pthread) : ∀ a, Decidable (PthreadSafe s a)
  | .create _ _ _ _ => inferInstanceAs (Decidable (_ → _))
  | .goesOn => inferInstanceAs (Decidable (_ → _))
  | .idle => inferInstanceAs (Decidable (_ = _))
  | .cancel => inferInstanceAs (Decidable (_ → _))
  | .take _ => inferInstanceAs (Decidable (_ ∧ _))
  | .finish _ => inferInstanceAs (Decidable (_ ∧ _))
  | .check _ => inferInstanceAs (Decidable (s.live .data))
  | .act t =>
    inferInstanceAs (Decidable (_ ∧
      if s.caller t = .closing then s.cleanup = false else s.cleanup = true ∧ s.hasSem = true))
  | .setspecific => isTrue trivial
  | .setCancel _ _ => isTrue trivial
  | .returns _ => isTrue trivial
  | .exits _ => isTrue trivial
  | .join _ => isTrue trivial
  | .detach _ => isTrue trivial

def pthreadAfter (joinable ownStack : Bool) (as : List PthreadAction) : Pthread :=
  (runFrom pthreadStep as (pthreadStart joinable ownStack)).getD (pthreadStart joinable ownStack)

/-- A thread waits in `pthread_join` while the other uses its array and returns. -/
def joinedAfterReturn : List PthreadAction :=
  [.create true true true true, .setspecific, .join 1, .take 1, .returns 7, .goesOn, .idle,
    .finish 1, .check 1, .act 1]

theorem pthreadReach_right_joinedAfterReturn :
    PthreadRight (pthreadAfter true true joinedAfterReturn) := by
  have hmeets : RunMeets pthreadStep PthreadSafe joinedAfterReturn (pthreadStart true true) := by
    decide
  have hrun : runFrom pthreadStep joinedAfterReturn (pthreadStart true true) =
      some (pthreadAfter true true joinedAfterReturn) := rfl
  exact pthreadReach_right (Reach.runFrom hmeets (.start rfl) hrun)

/-- The semaphore is released in `pthread_exit`, and the join goes on before the thread is closed. -/
def joinedBeforeClose : List PthreadAction :=
  [.create true true true true, .join 1, .take 1, .exits 7, .goesOn, .goesOn, .goesOn, .finish 1,
    .check 1, .act 1, .goesOn, .idle]

def detachedBeforeIdle : List PthreadAction :=
  [.create true true true true, .returns 7, .goesOn, .detach 1, .check 1, .act 1, .idle]

def joinedAfterCancel : List PthreadAction :=
  [.create true true true true, .setCancel true true, .cancel, .idle, .join 1, .take 1, .finish 1]

/-- A supplied stack is freed when the semaphore cannot be created; a detached thread keeps its
memory, and so does one that is joined in the middle of `pthread_exit`; the idle thread uses the
freed memory of a thread detached before it ran; and a cancelled thread has another value. -/
theorem pthreadReach_not_right :
    ¬PthreadRight (pthreadAfter true false [.create true true true false]) ∧
      ¬PthreadRight (pthreadAfter false true [.create true true true true, .returns 7, .goesOn,
        .idle]) ∧
      ¬PthreadRight (pthreadAfter true true joinedBeforeClose) ∧
      ¬PthreadRight (pthreadAfter true true detachedBeforeIdle) ∧
      ¬PthreadRight (pthreadAfter true true joinedAfterCancel) := by
  refine ⟨?_, ?_, ?_, ?_, ?_⟩
  · intro h
    exact absurd (h.once .stack) (by decide)
  · intro h
    exact absurd (h.ended rfl rfl rfl .data) (by decide)
  · intro h
    exact absurd (h.ended rfl rfl rfl .data) (by decide)
  · intro h
    exact absurd h.sound (by decide)
  · intro h
    obtain ⟨e, he, hvalue⟩ := h.values 0 (by decide)
    obtain rfl : PthreadEnding.cancelled = e := Option.some.inj he
    exact absurd hvalue (by decide)

end RTThread
