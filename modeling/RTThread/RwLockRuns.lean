import RTThread.Runs
import RTThread.Threads
import RTThread.Totals

namespace RTThread

inductive RwSide where
  | reader
  | writer
deriving DecidableEq, Repr

/-- A call: `pthread_rwlock_rdlock` and `_wrlock` or their timed forms, `_tryrdlock` and
`_trywrlock`, `_unlock`, and `_destroy` with what its two calls of `rt_sem_trytake` answer. -/
inductive RwOp where
  | lock (side : RwSide) (timed : Bool)
  | tryLock (side : RwSide)
  | unlock
  | destroy (readersTaken writersTaken : Bool)
deriving DecidableEq

inductive RwResult where
  | ok
  | ebusy
  | etimedout
deriving DecidableEq, Repr

/-- Where a thread stands in a call: it has seen `attr == -1`, takes `rw_mutex`, is between taking
it and the section, waits on a condition, has been notified or has timed out, holds `rw_mutex`
again, or is about to release it. -/
inductive RwPlace where
  | outside
  | checked (op : RwOp)
  | locking (op : RwOp)
  | inside (op : RwOp)
  | blocked (side : RwSide) (timed : Bool)
  | woken (side : RwSide) (timed timedOut : Bool)
  | back (side : RwSide) (timed timedOut : Bool)
  | leaving (result : RwResult)
deriving DecidableEq

/-- `struct pthread_rwlock` with `attr` as whether it is not -1, the threads blocked on its two
conditions and the threads that hold the lock. -/
structure RwState where
  initialised : Bool
  mutex : Option ThreadId
  blocked : RwSide → List ThreadId
  nWait : RwSide → Nat
  refcount : Int
  place : ThreadId → RwPlace
  readers : List ThreadId
  writers : List ThreadId

def RwState.move (s : RwState) (t : ThreadId) (p : RwPlace) : RwState :=
  { s with place := Function.update s.place t p }

/-- `pthread_rwlock_init`. -/
def RwState.fresh (s : RwState) : RwState :=
  { s with
    initialised := true, mutex := none, blocked := fun _ => [], nWait := fun _ => 0, refcount := 0 }

/-- An `int` of 32 bits. -/
def wrapInt (n : Int) : Int := (n + 2147483648) % 4294967296 - 2147483648

/-- The condition of the loops and of the try functions. -/
def RwState.mustWait (s : RwState) : RwSide → Bool
  | .reader => s.refcount < 0 || 0 < s.nWait .writer
  | .writer => s.refcount ≠ 0

def RwState.acquire (s : RwState) (t : ThreadId) : RwSide → RwState
  | .reader => { s with refcount := wrapInt (s.refcount + 1), readers := t :: s.readers }
  | .writer => { s with refcount := -1, writers := t :: s.writers }

/-- `pthread_cond_wait` up to where the thread is blocked and `rw_mutex` released. -/
def RwState.wait (s : RwState) (t : ThreadId) (side : RwSide) (timed : Bool) : RwState :=
  { s with
    nWait := Function.update s.nWait side (s.nWait side + 1)
    blocked := Function.update s.blocked side (t :: s.blocked side)
    mutex := none }.move t (.blocked side timed)

/-- After the wait: `rw_nwaitreaders--` or `rw_nwaitwriters--`. -/
def RwState.uncount (s : RwState) (side : RwSide) : RwState :=
  { s with nWait := Function.update s.nWait side (s.nWait side - 1) }

/-- A thread stops being blocked. -/
def RwState.notify (s : RwState) (t : ThreadId) (timedOut : Bool) : RwState :=
  match s.place t with
  | .blocked side timed =>
    { s with blocked := Function.update s.blocked side ((s.blocked side).erase t) }.move t
      (.woken side timed timedOut)
  | _ => s

/-- `pthread_cond_signal` of the writers' condition: one of the threads blocked on it, if any, is
notified. -/
def RwState.signal (s : RwState) : Option ThreadId → Option RwState
  | some w => if w ∈ s.blocked .writer then some (s.notify w false) else none
  | none => if s.blocked .writer = [] then some s else none

def RwPlace.notified : RwPlace → RwPlace
  | .blocked .reader timed => .woken .reader timed false
  | p => p

/-- `pthread_cond_broadcast` of the readers' condition. -/
def RwState.broadcast (s : RwState) : RwState :=
  { s with
    blocked := Function.update s.blocked .reader []
    place := fun t => (s.place t).notified }

/-- The loop of the locking functions, once round. -/
def rwLockLoop (s : RwState) (t : ThreadId) (side : RwSide) (timed : Bool) : RwState :=
  if s.mustWait side then s.wait t side timed else (s.acquire t side).move t (.leaving .ok)

def rwRelease (s : RwState) (t : ThreadId) : RwState :=
  { s with
    refcount := if 0 < s.refcount then s.refcount - 1
      else if s.refcount = -1 then 0 else s.refcount
    readers := if t ∈ s.readers then s.readers.erase t else s.readers
    writers := if t ∈ s.readers then s.writers else s.writers.erase t }

/-- The section of `pthread_rwlock_unlock`; `w` is the writer that a signal notifies. -/
def rwUnlockSection (s : RwState) (t : ThreadId) (w : Option ThreadId) : Option RwState :=
  let s := rwRelease (s.move t (.leaving .ok)) t
  if 0 < s.nWait .writer then
    if s.refcount = 0 then s.signal w else some s
  else if 0 < s.nWait .reader then some s.broadcast
  else some s

def RwState.busy (s : RwState) : Prop :=
  s.refcount ≠ 0 ∨ s.nWait .reader ≠ 0 ∨ s.nWait .writer ≠ 0

instance decidableBusy (s : RwState) : Decidable s.busy := inferInstanceAs (Decidable (_ ∨ _ ∨ _))

/-- The section of `pthread_rwlock_destroy`: the early return keeps `rw_mutex`. A lock that nobody
uses stays as it is. -/
def rwDestroySection (s : RwState) (t : ThreadId) (readersTaken writersTaken : Bool) : RwState :=
  if s.busy then s.move t .outside
  else s.move t (.leaving (if readersTaken && writersTaken then .ok else .ebusy))

/-- A thread that holds `rw_mutex` runs to its next wait or to the release. -/
def rwRun (s : RwState) (t : ThreadId) (w : Option ThreadId) : Option RwState :=
  match s.place t with
  | .inside (.lock side timed) => some (rwLockLoop s t side timed)
  | .inside (.tryLock side) =>
    some (if s.mustWait side then s.move t (.leaving .ebusy)
      else (s.acquire t side).move t (.leaving .ok))
  | .inside .unlock => rwUnlockSection s t w
  | .inside (.destroy readersTaken writersTaken) =>
    some (rwDestroySection s t readersTaken writersTaken)
  | .back side timed timedOut =>
    some (if timedOut then (s.uncount side).move t (.leaving .etimedout)
      else rwLockLoop (s.uncount side) t side timed)
  | _ => none

inductive RwAction where
  | call (t : ThreadId) (op : RwOp)
  | init (t : ThreadId)
  | lock (t : ThreadId)
  | run (t : ThreadId) (w : Option ThreadId)
  | timeout (t : ThreadId)
  | spurious (t : ThreadId)
  | leave (t : ThreadId)
deriving DecidableEq

/-- A call is made outside the others, and `pthread_rwlock_unlock` by a thread that holds the
lock. -/
def rwCall (s : RwState) (t : ThreadId) (op : RwOp) : Option RwState :=
  if s.place t = .outside ∧ (op = .unlock → t ∈ s.readers ∨ t ∈ s.writers) then
    if s.initialised then some (s.move t (.locking op))
    else match op with
      | .destroy _ _ => some s
      | _ => some (s.move t (.checked op))
  else none

/-- `pthread_mutex_lock`: a thread that has the mutex already gets an error, and the call
returns it. -/
def rwMutexLock (s : RwState) (t : ThreadId) : Option RwState :=
  match s.place t, s.mutex with
  | .locking op, none => some ({ s with mutex := some t }.move t (.inside op))
  | .locking _, some u => if u = t then some (s.move t .outside) else none
  | .woken side timed timedOut, none =>
    some ({ s with mutex := some t }.move t (.back side timed timedOut))
  | _, _ => none

def rwStep (s : RwState) : RwAction → Option RwState
  | .call t op => rwCall s t op
  | .init t =>
    match s.place t with
    | .checked op => some (s.fresh.move t (.locking op))
    | _ => none
  | .lock t => rwMutexLock s t
  | .run t w => rwRun s t w
  | .timeout t =>
    match s.place t with
    | .blocked _ true => some (s.notify t true)
    | _ => none
  | .spurious t =>
    match s.place t with
    | .blocked _ _ => some (s.notify t false)
    | _ => none
  | .leave t =>
    match s.place t with
    | .leaving _ => some ({ s with mutex := none }.move t .outside)
    | _ => none

/-- A lock that is initialised, by the initializer or by `pthread_rwlock_init`. -/
def rwStart (initialised : Bool) : RwState :=
  ⟨initialised, none, fun _ => [], fun _ => 0, 0, fun _ => .outside, [], []⟩

/-- The thread is in a section that `rw_mutex` protects. -/
def RwPlace.holds : RwPlace → Bool
  | .inside _ => true
  | .back _ _ _ => true
  | .leaving _ => true
  | _ => false

/-- No call runs and no notified thread is about to. -/
def RwState.Quiet (s : RwState) : Prop :=
  ∀ t, s.place t = .outside ∨ ∃ side timed, s.place t = .blocked side timed

structure RwRight (s : RwState) : Prop where
  writer : s.refcount = -1 ↔ s.readers = [] ∧ ∃ t, s.writers = [t]
  readers : s.refcount ≠ -1 → s.writers = [] ∧ s.refcount = s.readers.length
  released : ∀ t, s.mutex = some t → (s.place t).holds = true
  awake : s.Quiet → s.refcount = 0 → ∀ t, s.place t = .outside

/-- The lock is initialised once; no reader comes when there are as many as an `int` counts;
destroying finds it unused; and the last waiting writer to time out while nobody holds the lock
finds no blocked reader. -/
def RwSafe (s : RwState) : RwAction → Prop
  | .init _ => s.initialised = false
  | .run t _ =>
    match s.place t with
    | .inside (.lock .reader _) => s.refcount < 2147483647
    | .inside (.tryLock .reader) => s.refcount < 2147483647
    | .inside (.destroy _ _) => ¬s.busy
    | .back .reader _ false => s.refcount < 2147483647
    | .back .writer _ true => s.refcount = 0 → s.nWait .writer = 1 → s.blocked .reader = []
    | _ => True
  | _ => True

/-- The thread is counted among those waiting on a side. -/
def RwPlace.waits : RwPlace → RwSide → Bool
  | .blocked side _, side' => side = side'
  | .woken side _ _, side' => side = side'
  | .back side _ _, side' => side = side'
  | _, _ => false

def RwPlace.waiting (p : RwPlace) (side : RwSide) : Nat := if p.waits side then 1 else 0

/-- The thread is in `pthread_rwlock_unlock` and has not released the lock. -/
def RwPlace.unlocks : RwPlace → Bool
  | .checked op => op = .unlock
  | .locking op => op = .unlock
  | .inside op => op = .unlock
  | _ => false

/-- A thread that has not passed the check of `attr`. -/
def RwPlace.early : RwPlace → Bool
  | .outside => true
  | .checked _ => true
  | _ => false

def RwPlace.isBlocked : RwPlace → RwSide → Bool
  | .blocked side _, side' => side = side'
  | _, _ => false

/-- A writer that has been notified and has not looked at the lock since. -/
def RwPlace.comes : RwPlace → Bool
  | .woken .writer _ false => true
  | .back .writer _ false => true
  | _ => false

/-- The holders are counted, the mutex and the conditions agree with where the threads are. -/
structure RwBase (s : RwState) : Prop where
  owners : s.refcount = s.readers.length ∧ s.writers = [] ∨
    s.refcount = -1 ∧ s.readers = [] ∧ ∃ t, s.writers = [t]
  holder : ∀ t, (s.place t).holds = true ↔ s.mutex = some t
  blocked : ∀ t side, t ∈ s.blocked side ↔ (s.place t).isBlocked side = true
  nodup : ∀ side, (s.blocked side).Nodup
  counts : ∀ side, s.nWait side = total fun t => (s.place t).waiting side
  unlocker : ∀ t, (s.place t).unlocks = true → t ∈ s.readers ∨ t ∈ s.writers
  fresh : s.initialised = false → s.refcount = 0 ∧ ∀ t, (s.place t).early = true

/-- While nobody holds the lock, a blocked writer has a notified one before it and a blocked reader
a waiting writer. -/
structure RwAwake (s : RwState) : Prop where
  writerComing : s.refcount = 0 → s.blocked .writer ≠ [] → ∃ t, (s.place t).comes = true
  readerHeld : s.refcount = 0 → s.blocked .reader ≠ [] → 0 < s.nWait .writer

section
variable {s : RwState} {t u : ThreadId} {p : RwPlace} {side : RwSide} {timed timedOut : Bool}
  {op : RwOp} {result : RwResult}

theorem rwMove_same : (s.move t p).place t = p := Function.update_self ..

theorem rwMove_other (h : u ≠ t) : (s.move t p).place u = s.place u := Function.update_of_ne h ..

theorem waiting_total (place : ThreadId → RwPlace) (t : ThreadId) (p : RwPlace) (side : RwSide) :
    (total fun u => (Function.update place t p u).waiting side) + (place t).waiting side =
      (total fun u => (place u).waiting side) + p.waiting side := by
  apply total_add_eq t
  · intro u hu
    rw [Function.update_of_ne hu]
  · rw [Function.update_self]
    exact Nat.add_comm _ _

theorem waiting_exists (h : 0 < total fun t => (s.place t).waiting side) :
    ∃ t, (s.place t).waits side = true := by
  by_contra hno
  have hzero : (total fun t => (s.place t).waiting side) = 0 := by
    apply total_eq_zero
    intro t
    unfold RwPlace.waiting
    exact if_neg fun hw => hno ⟨t, hw⟩
  omega

theorem waits_of_blocked (h : p.isBlocked side = true) : p.waits side = true := by
  cases p <;> simp_all [RwPlace.isBlocked, RwPlace.waits]

theorem RwBase.counted (h : RwBase s) (hw : (s.place t).waits side = true) :
    0 < s.nWait side := by
  have hone : (s.place t).waiting side = 1 := if_pos hw
  have htotal := waiting_total s.place t .outside side
  have hnone : RwPlace.outside.waiting side = 0 := rfl
  rw [← h.counts side, hone] at htotal
  omega

theorem RwBase.blockedCounted (h : RwBase s) (hb : s.blocked side ≠ []) : 0 < s.nWait side := by
  obtain ⟨t, rest, hcons⟩ := List.exists_cons_of_ne_nil hb
  exact h.counted (waits_of_blocked ((h.blocked t side).mp (hcons ▸ List.mem_cons_self)))

theorem RwBase.right (h : RwBase s) (ha : RwAwake s) : RwRight s := by
  refine ⟨?_, ?_, fun t ht => (h.holder t).mpr ht, ?_⟩
  · rcases h.owners with ⟨hcount, hw⟩ | ⟨hcount, hr, hw⟩
    · constructor
      · omega
      · rintro ⟨-, t, ht⟩
        rw [hw] at ht
        simp at ht
    · exact ⟨fun _ => ⟨hr, hw⟩, fun _ => hcount⟩
  · intro hne
    rcases h.owners with ⟨hcount, hw⟩ | ⟨hcount, -, -⟩
    · exact ⟨hw, hcount⟩
    · exact absurd hcount hne
  · intro hquiet hzero t
    have hnone : ∀ t, (s.place t).comes ≠ true := by
      intro t hc
      rcases hquiet t with hp | ⟨side, timed, hp⟩ <;> rw [hp] at hc <;>
        exact Bool.noConfusion hc
    have hwriters : s.blocked .writer = [] := by
      by_contra hne
      obtain ⟨t, hc⟩ := ha.writerComing hzero hne
      exact hnone t hc
    have hreaders : s.blocked .reader = [] := by
      by_contra hne
      have hpos := ha.readerHeld hzero hne
      rw [h.counts] at hpos
      obtain ⟨t, hw⟩ := waiting_exists hpos
      -- the waiting writer would be blocked as well
      rcases hquiet t with hp | ⟨side, timed, hp⟩
      · rw [hp] at hw
        exact Bool.noConfusion hw
      · rw [hp] at hw
        have hside : side = .writer := by simpa [RwPlace.waits] using hw
        have hmem := (h.blocked t .writer).mpr (by rw [hp, hside]; rfl)
        rw [hwriters] at hmem
        simp at hmem
    rcases hquiet t with hp | ⟨side, timed, hp⟩
    · exact hp
    · have hmem := (h.blocked t side).mpr (by rw [hp]; simp [RwPlace.isBlocked])
      cases side with
      | reader =>
        rw [hreaders] at hmem
        simp at hmem
      | writer =>
        rw [hwriters] at hmem
        simp at hmem

/-- A thread that is not blocked goes to another place, with what that does to the mutex and to the
counts. -/
theorem RwBase.relocate (h : RwBase s) (m : Option ThreadId) (n : RwSide → Nat)
    (hfrom : ∀ side, (s.place t).isBlocked side = false) (hto : ∀ side, p.isBlocked side = false)
    (hheld : p.holds = true ↔ m = some t) (hothers : ∀ u, u ≠ t → (m = some u ↔ s.mutex = some u))
    (hcounts : ∀ side, n side + (s.place t).waiting side = s.nWait side + p.waiting side)
    (hunlocks : p.unlocks = true → t ∈ s.readers ∨ t ∈ s.writers)
    (hready : s.initialised = true ∨ p.early = true) :
    RwBase ({ s with mutex := m, nWait := n }.move t p) := by
  refine ⟨h.owners, ?_, ?_, h.nodup, ?_, ?_, ?_⟩
  · intro u
    by_cases hu : u = t
    · rw [hu, rwMove_same]
      exact hheld
    · rw [rwMove_other hu]
      exact (h.holder u).trans (hothers u hu).symm
  · intro u side
    by_cases hu : u = t
    · rw [hu, rwMove_same, hto side, ← hfrom side]
      exact h.blocked t side
    · rw [rwMove_other hu]
      exact h.blocked u side
  · intro side
    have htotal := waiting_total s.place t p side
    have hcount := h.counts side
    have hn := hcounts side
    show n side = total fun u => (Function.update s.place t p u).waiting side
    omega
  · intro u hu
    by_cases hut : u = t
    · rw [hut, rwMove_same] at hu
      rw [hut]
      exact hunlocks hu
    · rw [rwMove_other hut] at hu
      exact h.unlocker u hu
  · intro hinit
    obtain ⟨hzero, hearly⟩ := h.fresh hinit
    refine ⟨hzero, fun u => ?_⟩
    by_cases hut : u = t
    · rw [hut, rwMove_same]
      rcases hready with hyes | hp
      · rw [show s.initialised = false from hinit] at hyes
        exact Bool.noConfusion hyes
      · exact hp
    · rw [rwMove_other hut]
      exact hearly u

/-- A thread past the check finds the lock initialised. -/
theorem RwBase.ready (h : RwBase s) (hp : (s.place t).early = false) : s.initialised = true := by
  cases hinit : s.initialised with
  | true => rfl
  | false =>
    rw [(h.fresh hinit).2 t] at hp
    exact Bool.noConfusion hp

theorem wrapInt_of_lt {n : Int} (h0 : -2147483648 ≤ n) (h : n < 2147483648) : wrapInt n = n := by
  unfold wrapInt
  omega

theorem RwBase.acquire (h : RwBase s) (hinit : s.initialised = true) (hfree : s.mustWait side = false)
    (hroom : side = .reader → s.refcount < 2147483647) : RwBase (s.acquire t side) := by
  cases side with
  | reader =>
    simp only [RwState.mustWait, Bool.or_eq_false_iff, decide_eq_false_iff_not, not_lt] at hfree
    obtain ⟨hcount, hw⟩ : s.refcount = s.readers.length ∧ s.writers = [] := by
      rcases h.owners with ho | ⟨hneg, -, -⟩
      · exact ho
      · omega
    have hwrap : wrapInt (s.refcount + 1) = s.refcount + 1 :=
      wrapInt_of_lt (by omega) (by have := hroom rfl; omega)
    refine ⟨.inl ⟨?_, hw⟩, h.holder, h.blocked, h.nodup, h.counts, ?_, ?_⟩
    · show wrapInt (s.refcount + 1) = ((t :: s.readers).length : Int)
      rw [hwrap, hcount, List.length_cons]
      omega
    · intro u hu
      exact (h.unlocker u hu).imp (List.mem_cons_of_mem t) id
    · intro hno
      rw [show s.initialised = false from hno] at hinit
      exact Bool.noConfusion hinit
  | writer =>
    have hzero : s.refcount = 0 := by simpa [RwState.mustWait] using hfree
    obtain ⟨hr, hw⟩ : s.readers = [] ∧ s.writers = [] := by
      rcases h.owners with ⟨hcount, hw⟩ | ⟨hneg, -, -⟩
      · exact ⟨List.length_eq_zero_iff.mp (by omega), hw⟩
      · omega
    refine ⟨.inr ⟨rfl, hr, t, ?_⟩, h.holder, h.blocked, h.nodup, h.counts, ?_, ?_⟩
    · show t :: s.writers = [t]
      rw [hw]
    · intro u hu
      exact (h.unlocker u hu).imp id (List.mem_cons_of_mem t)
    · intro hno
      rw [show s.initialised = false from hno] at hinit
      exact Bool.noConfusion hinit

theorem RwBase.release (h : RwBase s) (hheld : t ∈ s.readers ∨ t ∈ s.writers)
    (hout : (s.place t).unlocks = false) (hinit : s.initialised = true) :
    RwBase (rwRelease s t) := by
  refine ⟨?_, h.holder, h.blocked, h.nodup, h.counts, ?_, ?_⟩
  · left
    rcases h.owners with ⟨hcount, hw⟩ | ⟨hneg, hr, v, hw⟩
    · have hmem : t ∈ s.readers := by simpa [hw] using hheld
      have hpos := List.length_pos_of_mem hmem
      simp only [rwRelease, if_pos hmem]
      rw [if_pos (by omega), List.length_erase_of_mem hmem]
      exact ⟨by omega, hw⟩
    · have hmem : t ∉ s.readers := by simp [hr]
      have hv : t = v := by simpa [hr, hw] using hheld
      simp only [rwRelease, if_neg hmem]
      rw [hneg, hr, hw, hv]
      simp
  · intro u hu
    have hne : u ≠ t := by
      rintro rfl
      rw [show ((rwRelease s u).place u).unlocks = false from hout] at hu
      exact Bool.noConfusion hu
    have hold := h.unlocker u hu
    simp only [rwRelease]
    split
    · exact hold.imp (List.mem_erase_of_ne hne).mpr id
    · exact hold.imp id (List.mem_erase_of_ne hne).mpr
  · intro hno
    rw [show s.initialised = false from hno] at hinit
    exact Bool.noConfusion hinit

theorem RwBase.wait (h : RwBase s) (hm : s.mutex = some t)
    (hnot : ∀ side, (s.place t).waits side = false) (hinit : s.initialised = true) :
    RwBase (s.wait t side timed) := by
  have hfrom : ∀ side, (s.place t).isBlocked side = false := by
    intro side
    by_contra hb
    have hw := waits_of_blocked (Bool.not_eq_false _ ▸ hb)
    rw [hnot side] at hw
    exact Bool.noConfusion hw
  have hfree : t ∉ s.blocked side := by
    rw [h.blocked, hfrom side]
    exact Bool.noConfusion
  refine ⟨h.owners, ?_, ?_, ?_, ?_, ?_, ?_⟩
  · intro u
    show _ ↔ none = some u
    by_cases hu : u = t
    · rw [hu, RwState.wait, rwMove_same]
      simp [RwPlace.holds]
    · rw [RwState.wait, rwMove_other hu]
      have hholder := h.holder u
      rw [hm] at hholder
      constructor
      · intro hholds
        exact absurd (Option.some.inj (hholder.mp hholds)).symm hu
      · intro hno
        simp at hno
  · intro u sd
    by_cases hu : u = t
    · rw [hu, RwState.wait, rwMove_same]
      by_cases hsd : sd = side
      · subst hsd
        simp [RwPlace.isBlocked, RwState.move]
      · have hold := h.blocked t sd
        rw [hfrom sd] at hold
        simp [RwPlace.isBlocked, RwState.move, hsd, Ne.symm hsd, hold]
    · rw [RwState.wait, rwMove_other hu, ← h.blocked u sd]
      by_cases hsd : sd = side
      · subst hsd
        simp [RwState.move, hu]
      · simp [RwState.move, hsd]
  · intro sd
    by_cases hsd : sd = side
    · subst hsd
      simp only [RwState.wait, RwState.move, Function.update_self]
      exact List.nodup_cons.mpr ⟨hfree, h.nodup sd⟩
    · simp only [RwState.wait, RwState.move, Function.update_of_ne hsd]
      exact h.nodup sd
  · intro sd
    have htotal := waiting_total s.place t (.blocked side timed) sd
    have hcount := h.counts sd
    have hzero : (s.place t).waiting sd = 0 := by simp [RwPlace.waiting, hnot sd]
    show Function.update s.nWait side (s.nWait side + 1) sd =
      total fun u => (Function.update s.place t (.blocked side timed) u).waiting sd
    by_cases hsd : sd = side
    · subst hsd
      have hone : (RwPlace.blocked sd timed).waiting sd = 1 := by
        simp [RwPlace.waiting, RwPlace.waits]
      rw [Function.update_self]
      omega
    · have hnone : (RwPlace.blocked side timed).waiting sd = 0 := by
        simp [RwPlace.waiting, RwPlace.waits, Ne.symm hsd]
      rw [Function.update_of_ne hsd]
      omega
  · intro u hu
    by_cases hut : u = t
    · rw [hut, RwState.wait, rwMove_same] at hu
      exact Bool.noConfusion hu
    · rw [RwState.wait, rwMove_other hut] at hu
      exact h.unlocker u hu
  · intro hno
    rw [show s.initialised = false from hno] at hinit
    exact Bool.noConfusion hinit

theorem notify_eq (hp : s.place t = .blocked side timed) : s.notify t timedOut =
    { s with blocked := Function.update s.blocked side ((s.blocked side).erase t) }.move t
      (.woken side timed timedOut) := by
  simp only [RwState.notify, hp]

theorem RwBase.notify (h : RwBase s) (hp : s.place t = .blocked side timed) :
    RwBase (s.notify t timedOut) := by
  have hinit := h.ready (by rw [hp]; rfl : (s.place t).early = false)
  rw [notify_eq hp]
  refine ⟨h.owners, ?_, ?_, ?_, ?_, ?_, ?_⟩
  · intro u
    by_cases hu : u = t
    · have hold := h.holder t
      rw [hp] at hold
      rw [hu, rwMove_same]
      exact hold
    · rw [rwMove_other hu]
      exact h.holder u
  · intro u sd
    have hold := h.blocked u sd
    by_cases hu : u = t
    · rw [hu, rwMove_same]
      by_cases hsd : sd = side
      · subst hsd
        simp [RwPlace.isBlocked, RwState.move, (h.nodup sd).mem_erase_iff]
      · rw [hu, hp] at hold
        simp only [RwState.move, Function.update_of_ne hsd]
        rw [hold]
        simp [RwPlace.isBlocked, Ne.symm hsd]
    · rw [rwMove_other hu, ← hold]
      by_cases hsd : sd = side
      · subst hsd
        simp [RwState.move, List.mem_erase_of_ne hu]
      · simp [RwState.move, hsd]
  · intro sd
    by_cases hsd : sd = side
    · subst hsd
      simp only [RwState.move, Function.update_self]
      exact (h.nodup sd).erase t
    · simp only [RwState.move, Function.update_of_ne hsd]
      exact h.nodup sd
  · intro sd
    have htotal := waiting_total s.place t (.woken side timed timedOut) sd
    have hcount := h.counts sd
    have hsame : (s.place t).waiting sd = (RwPlace.woken side timed timedOut).waiting sd := by
      rw [hp]
      rfl
    show s.nWait sd = total fun u =>
      (Function.update s.place t (.woken side timed timedOut) u).waiting sd
    omega
  · intro u hu
    by_cases hut : u = t
    · rw [hut, rwMove_same] at hu
      exact Bool.noConfusion hu
    · rw [rwMove_other hut] at hu
      exact h.unlocker u hu
  · intro hno
    rw [show s.initialised = false from hno] at hinit
    exact Bool.noConfusion hinit

theorem notified_waits : p.notified.waits side = p.waits side := by
  cases p with
  | blocked sd timed => cases sd <;> rfl
  | _ => rfl

theorem RwBase.broadcast (h : RwBase s) : RwBase s.broadcast := by
  have hholds : ∀ p : RwPlace, p.notified.holds = p.holds := by
    intro p
    cases p with
    | blocked sd timed => cases sd <;> rfl
    | _ => rfl
  have hunlocks : ∀ p : RwPlace, p.notified.unlocks = p.unlocks := by
    intro p
    cases p with
    | blocked sd timed => cases sd <;> rfl
    | _ => rfl
  have hearly : ∀ p : RwPlace, p.notified.early = p.early := by
    intro p
    cases p with
    | blocked sd timed => cases sd <;> rfl
    | _ => rfl
  refine ⟨h.owners, ?_, ?_, ?_, ?_, ?_, ?_⟩
  · intro u
    show (s.place u).notified.holds = true ↔ _
    rw [hholds]
    exact h.holder u
  · intro u sd
    show u ∈ Function.update s.blocked .reader [] sd ↔ (s.place u).notified.isBlocked sd = true
    cases sd with
    | reader =>
      rw [Function.update_self]
      cases hp : s.place u with
      | blocked sd timed => cases sd <;> simp [RwPlace.notified, RwPlace.isBlocked]
      | _ => simp [RwPlace.notified, RwPlace.isBlocked]
    | writer =>
      rw [Function.update_of_ne (by decide), h.blocked]
      cases hp : s.place u with
      | blocked sd timed => cases sd <;> simp [RwPlace.notified, RwPlace.isBlocked]
      | _ => simp [RwPlace.notified, RwPlace.isBlocked]
  · intro sd
    cases sd with
    | reader =>
      show (Function.update s.blocked .reader [] .reader).Nodup
      rw [Function.update_self]
      exact List.nodup_nil
    | writer => exact h.nodup .writer
  · intro sd
    show s.nWait sd = total fun u => (s.place u).notified.waiting sd
    rw [h.counts]
    simp only [RwPlace.waiting, notified_waits]
  · intro u hu
    have hold : (s.place u).notified.unlocks = true := hu
    rw [hunlocks] at hold
    exact h.unlocker u hold
  · intro hno
    obtain ⟨hzero, hall⟩ := h.fresh hno
    refine ⟨hzero, fun u => ?_⟩
    show (s.place u).notified.early = true
    rw [hearly]
    exact hall u

/-- The thread that holds the mutex goes on to the release of the mutex. -/
theorem RwBase.toLeaving (h : RwBase s) (hm : s.mutex = some t)
    (hnot : ∀ side, (s.place t).waits side = false) (hinit : s.initialised = true) :
    RwBase (s.move t (.leaving result)) := by
  have hfrom : ∀ side, (s.place t).isBlocked side = false := by
    intro side
    by_contra hb
    have hw := waits_of_blocked (Bool.not_eq_false _ ▸ hb)
    rw [hnot side] at hw
    exact Bool.noConfusion hw
  have hcounts : ∀ side, s.nWait side + (s.place t).waiting side =
      s.nWait side + (RwPlace.leaving result).waiting side := by
    intro side
    have hzero : (s.place t).waiting side = 0 := by
      unfold RwPlace.waiting
      rw [hnot side]
      exact if_neg Bool.false_ne_true
    rw [hzero]
    rfl
  exact h.relocate s.mutex s.nWait hfrom (fun _ => rfl) (by simp [RwPlace.holds, hm])
    (fun _ _ => Iff.rfl) hcounts (fun hno => Bool.noConfusion hno) (.inl hinit)

theorem RwBase.lockLoop (h : RwBase s) (hm : s.mutex = some t)
    (hnot : ∀ side, (s.place t).waits side = false) (hinit : s.initialised = true)
    (hroom : side = .reader → s.refcount < 2147483647) : RwBase (rwLockLoop s t side timed) := by
  unfold rwLockLoop
  split
  next => exact h.wait hm hnot hinit
  next hfree =>
    exact (h.acquire hinit (Bool.not_eq_true _ ▸ hfree) hroom).toLeaving
      (by cases side <;> exact hm) (by cases side <;> exact hnot) (by cases side <;> exact hinit)

theorem lockLoop_move : rwLockLoop (s.move t p) t side timed = rwLockLoop s t side timed := by
  have hmust : (s.move t p).mustWait side = s.mustWait side := by cases side <;> rfl
  unfold rwLockLoop
  rw [hmust]
  cases side <;> simp [RwState.wait, RwState.acquire, RwState.move]

/-- A thread back from its wait is not counted any more and begins the section again. -/
theorem RwBase.unwait (h : RwBase s) (hp : s.place t = .back side timed timedOut) :
    RwBase ((s.uncount side).move t (.inside (.lock side timed))) := by
  have hm : s.mutex = some t := (h.holder t).mp (by rw [hp]; rfl)
  have hinit := h.ready (by rw [hp]; rfl : (s.place t).early = false)
  have hpos := h.counted (by rw [hp]; simp [RwPlace.waits] : (s.place t).waits side = true)
  have hcounts : ∀ sd, Function.update s.nWait side (s.nWait side - 1) sd +
      (s.place t).waiting sd = s.nWait sd + (RwPlace.inside (.lock side timed)).waiting sd := by
    intro sd
    have hnone : (RwPlace.inside (.lock side timed)).waiting sd = 0 := rfl
    by_cases hsd : sd = side
    · subst hsd
      have hone : (s.place t).waiting sd = 1 := by
        rw [hp]
        simp [RwPlace.waiting, RwPlace.waits]
      rw [Function.update_self]
      omega
    · have hzero : (s.place t).waiting sd = 0 := by
        rw [hp]
        simp [RwPlace.waiting, RwPlace.waits, Ne.symm hsd]
      rw [Function.update_of_ne hsd]
      omega
  exact h.relocate s.mutex _ (by rw [hp]; exact fun _ => rfl) (fun _ => rfl)
    (by simp [RwPlace.holds, hm]) (fun _ _ => Iff.rfl) hcounts
    (fun hno => by simp [RwPlace.unlocks] at hno) (.inl hinit)

theorem RwBase.unlockSection (h : RwBase s) (hp : s.place t = .inside .unlock)
    {w : Option ThreadId} {s' : RwState} (hs : rwUnlockSection s t w = some s') : RwBase s' := by
  have hm : s.mutex = some t := (h.holder t).mp (by rw [hp]; rfl)
  have hinit := h.ready (by rw [hp]; rfl : (s.place t).early = false)
  have hheld := h.unlocker t (by rw [hp]; rfl)
  have hleft : RwBase (s.move t (.leaving .ok)) := h.toLeaving hm (by rw [hp]; exact fun _ => rfl) hinit
  have hreleased : RwBase (rwRelease (s.move t (.leaving .ok)) t) :=
    hleft.release hheld (by rw [rwMove_same]; rfl) hinit
  simp only [rwUnlockSection] at hs
  split at hs
  next =>
    split at hs
    next =>
      cases w with
      | none =>
        simp only [RwState.signal] at hs
        split at hs
        next => exact Option.some.inj hs ▸ hreleased
        next => simp at hs
      | some w =>
        simp only [RwState.signal] at hs
        split at hs
        next hw =>
          obtain rfl := Option.some.inj hs
          have hb := (hreleased.blocked w .writer).mp hw
          cases hplace : (rwRelease (s.move t (.leaving .ok)) t).place w with
          | blocked sd timed => exact hreleased.notify hplace
          | _ =>
            rw [hplace] at hb
            exact Bool.noConfusion hb
        next => simp at hs
    next => exact Option.some.inj hs ▸ hreleased
  next =>
    split at hs
    next => exact Option.some.inj hs ▸ hreleased.broadcast
    next => exact Option.some.inj hs ▸ hreleased

/-- Before anyone has used it, initialising the lock only marks it. -/
theorem RwBase.init (h : RwBase s) (hno : s.initialised = false) :
    s.fresh = { s with initialised := true } ∧ RwBase { s with initialised := true } := by
  obtain ⟨hzero, hearly⟩ := h.fresh hno
  have hmutex : s.mutex = none := by
    by_contra hsome
    obtain ⟨t, ht⟩ := Option.ne_none_iff_exists'.mp hsome
    have hholds := (h.holder t).mpr ht
    have ht := hearly t
    cases hp : s.place t <;> rw [hp] at hholds ht <;> simp [RwPlace.holds, RwPlace.early] at hholds ht
  have hwaits : ∀ side, s.nWait side = 0 := by
    intro side
    rw [h.counts]
    apply total_eq_zero
    intro t
    have ht := hearly t
    cases hp : s.place t <;> rw [hp] at ht <;> simp [RwPlace.early] at ht <;> rfl
  have hblocked : ∀ side, s.blocked side = [] := by
    intro side
    by_contra hne
    have hpos := h.blockedCounted hne
    rw [hwaits side] at hpos
    exact Nat.lt_irrefl 0 hpos
  refine ⟨?_, h.owners, h.holder, h.blocked, h.nodup, h.counts, h.unlocker,
    fun hyes => Bool.noConfusion hyes⟩
  unfold RwState.fresh
  rw [hmutex, show s.blocked = fun _ => [] from funext hblocked,
    show s.nWait = fun _ => 0 from funext hwaits, hzero]

theorem RwBase.run (h : RwBase s) {w : Option ThreadId} {s' : RwState}
    (hok : RwSafe s (.run t w)) (hs : rwRun s t w = some s') : RwBase s' := by
  simp only [rwRun] at hs
  simp only [RwSafe] at hok
  cases hp : s.place t with
  | inside op =>
    have hm : s.mutex = some t := (h.holder t).mp (by rw [hp]; rfl)
    have hinit := h.ready (by rw [hp]; rfl : (s.place t).early = false)
    have hnot : ∀ side, (s.place t).waits side = false := by
      rw [hp]
      exact fun _ => rfl
    simp only [hp] at hs hok
    cases op with
    | lock side timed =>
      obtain rfl := Option.some.inj hs
      exact h.lockLoop hm hnot hinit (by rintro rfl; exact hok)
    | tryLock side =>
      obtain rfl := Option.some.inj hs
      split
      next => exact h.toLeaving hm hnot hinit
      next hfree =>
        exact (h.acquire hinit (Bool.not_eq_true _ ▸ hfree) (by rintro rfl; exact hok)).toLeaving
          (by cases side <;> exact hm) (by cases side <;> exact hnot) (by cases side <;> exact hinit)
    | unlock => exact h.unlockSection hp hs
    | destroy readersTaken writersTaken =>
      obtain rfl := Option.some.inj hs
      unfold rwDestroySection
      rw [if_neg hok]
      exact h.toLeaving hm hnot hinit
  | back side timed timedOut =>
    have hm : s.mutex = some t := (h.holder t).mp (by rw [hp]; rfl)
    have hinit := h.ready (by rw [hp]; rfl : (s.place t).early = false)
    have hunwait := h.unwait hp
    have hnot : ∀ sd, (((s.uncount side).move t (.inside (.lock side timed))).place t).waits sd =
        false := by
      intro sd
      rw [rwMove_same]
      rfl
    simp only [hp] at hs hok
    obtain rfl := Option.some.inj hs
    cases timedOut with
    | true =>
      have hleaving : RwBase (((s.uncount side).move t (.inside (.lock side timed))).move t
          (.leaving .etimedout)) := hunwait.toLeaving hm hnot hinit
      simpa [RwState.move] using hleaving
    | false =>
      rw [if_neg Bool.false_ne_true]
      have hroom : side = .reader → s.refcount < 2147483647 := by
        rintro rfl
        exact hok
      have hloop : RwBase (rwLockLoop ((s.uncount side).move t (.inside (.lock side timed))) t side
          timed) := hunwait.lockLoop hm hnot hinit hroom
      rwa [lockLoop_move] at hloop
  | _ => simp [hp] at hs

theorem RwBase.step {a : RwAction} {s' : RwState} (h : RwBase s) (hok : RwSafe s a)
    (hs : rwStep s a = some s') : RwBase s' := by
  cases a with
  | call t op =>
    simp only [rwStep, rwCall] at hs
    split at hs
    next hout =>
      obtain ⟨hp, hheld⟩ := hout
      have hfrom : ∀ side, (s.place t).isBlocked side = false := by rw [hp]; exact fun _ => rfl
      have hunheld : s.mutex ≠ some t := by
        intro hm
        have hholds := (h.holder t).mpr hm
        rw [hp] at hholds
        exact Bool.noConfusion hholds
      split at hs
      next hinit =>
        obtain rfl := Option.some.inj hs
        exact h.relocate s.mutex s.nWait hfrom (fun _ => rfl) (by simp [RwPlace.holds, hunheld])
          (fun _ _ => Iff.rfl) (by rw [hp]; exact fun _ => rfl)
          (fun hu => hheld (of_decide_eq_true hu)) (.inl hinit)
      next =>
        have hchecked : RwBase (s.move t (.checked op)) :=
          h.relocate s.mutex s.nWait hfrom (fun _ => rfl) (by simp [RwPlace.holds, hunheld])
            (fun _ _ => Iff.rfl) (by rw [hp]; exact fun _ => rfl)
            (fun hu => hheld (of_decide_eq_true hu)) (.inr rfl)
        split at hs
        next => exact Option.some.inj hs ▸ h
        next => exact Option.some.inj hs ▸ hchecked
    next => simp at hs
  | init t =>
    simp only [rwStep] at hs
    split at hs
    next op hp =>
      obtain rfl := Option.some.inj hs
      obtain ⟨hfresh, hbase⟩ := h.init hok
      rw [hfresh]
      have hunheld : s.mutex ≠ some t := by
        intro hm
        have hholds := (h.holder t).mpr hm
        rw [hp] at hholds
        exact Bool.noConfusion hholds
      exact hbase.relocate s.mutex s.nWait (by rw [hp]; exact fun _ => rfl) (fun _ => rfl)
        (by simp [RwPlace.holds, hunheld]) (fun _ _ => Iff.rfl) (by rw [hp]; exact fun _ => rfl)
        (fun hu => h.unlocker t (by rw [hp]; exact hu)) (.inl rfl)
    next => simp at hs
  | lock t =>
    simp only [rwStep, rwMutexLock] at hs
    have hothers : s.mutex = none → ∀ u, u ≠ t → (some t = some u ↔ s.mutex = some u) := by
      intro hm u hu
      rw [hm]
      simp [Ne.symm hu]
    split at hs
    next op hp hm =>
      obtain rfl := Option.some.inj hs
      have hinit := h.ready (by rw [hp]; rfl : (s.place t).early = false)
      exact h.relocate (some t) s.nWait (by rw [hp]; exact fun _ => rfl) (fun _ => rfl)
        (by simp [RwPlace.holds]) (hothers hm) (by rw [hp]; exact fun _ => rfl)
        (fun hu => h.unlocker t (by rw [hp]; exact hu)) (.inl hinit)
    next op u hp hm =>
      split at hs
      next hu =>
        -- whoever has the mutex is in a section
        have hholds := (h.holder t).mpr (hu ▸ hm)
        rw [hp] at hholds
        exact Bool.noConfusion hholds
      next => simp at hs
    next side timed timedOut hp hm =>
      obtain rfl := Option.some.inj hs
      have hinit := h.ready (by rw [hp]; rfl : (s.place t).early = false)
      exact h.relocate (some t) s.nWait (by rw [hp]; exact fun _ => rfl) (fun _ => rfl)
        (by simp [RwPlace.holds]) (hothers hm) (by rw [hp]; exact fun _ => rfl)
        (fun hu => Bool.noConfusion hu) (.inl hinit)
    next => simp at hs
  | run t w => exact h.run hok hs
  | timeout t =>
    simp only [rwStep] at hs
    split at hs
    next side hp => exact Option.some.inj hs ▸ h.notify hp
    next => simp at hs
  | spurious t =>
    simp only [rwStep] at hs
    split at hs
    next side timed hp => exact Option.some.inj hs ▸ h.notify hp
    next => simp at hs
  | leave t =>
    simp only [rwStep] at hs
    split at hs
    next result hp =>
      obtain rfl := Option.some.inj hs
      have hm : s.mutex = some t := (h.holder t).mp (by rw [hp]; rfl)
      have hinit := h.ready (by rw [hp]; rfl : (s.place t).early = false)
      have hothers : ∀ u, u ≠ t → (none = some u ↔ s.mutex = some u) := by
        intro u hu
        rw [hm]
        simp [Ne.symm hu]
      exact h.relocate none s.nWait (by rw [hp]; exact fun _ => rfl) (fun _ => rfl)
        (by simp [RwPlace.holds]) hothers (by rw [hp]; exact fun _ => rfl)
        (fun hu => Bool.noConfusion hu) (.inl hinit)
    next => simp at hs

theorem RwAwake.relocate (ha : RwAwake s) (m : Option ThreadId) (n : RwSide → Nat)
    (hn : n .writer = s.nWait .writer) (hcomes : (s.place t).comes = true → p.comes = true) :
    RwAwake ({ s with mutex := m, nWait := n }.move t p) := by
  refine ⟨?_, ?_⟩
  · intro hzero hne
    obtain ⟨u, hu⟩ := ha.writerComing hzero hne
    refine ⟨u, ?_⟩
    by_cases hut : u = t
    · rw [hut, rwMove_same]
      exact hcomes (hut ▸ hu)
    · rwa [rwMove_other hut]
  · intro hzero hne
    show 0 < n .writer
    rw [hn]
    exact ha.readerHeld hzero hne

/-- As long as somebody holds the lock nobody has to be on the way. -/
theorem rwAwake_of_held (h : s.refcount ≠ 0) : RwAwake s :=
  ⟨fun hzero => absurd hzero h, fun hzero => absurd hzero h⟩

theorem acquire_held (hfree : s.mustWait side = false)
    (hroom : side = .reader → s.refcount < 2147483647) : (s.acquire t side).refcount ≠ 0 := by
  cases side with
  | reader =>
    simp only [RwState.mustWait, Bool.or_eq_false_iff, decide_eq_false_iff_not, not_lt] at hfree
    have hlt := hroom rfl
    show wrapInt (s.refcount + 1) ≠ 0
    rw [wrapInt_of_lt (by omega) (by omega)]
    omega
  | writer =>
    show (-1 : Int) ≠ 0
    decide

theorem lockLoop_awake (hroom : side = .reader → s.refcount < 2147483647)
    (ha : side = .reader → RwAwake s) (hcomes : (s.place t).comes = true → side = .writer) :
    RwAwake (rwLockLoop s t side timed) := by
  unfold rwLockLoop
  split
  next hmust =>
    cases side with
    | writer =>
      have hheld : s.refcount ≠ 0 := by simpa [RwState.mustWait] using hmust
      exact rwAwake_of_held hheld
    | reader =>
      simp only [RwState.mustWait, Bool.or_eq_true, decide_eq_true_eq] at hmust
      refine ⟨?_, ?_⟩
      · intro hzero hne
        obtain ⟨u, hu⟩ := (ha rfl).writerComing hzero hne
        have hut : u ≠ t := by
          rintro rfl
          exact RwSide.noConfusion (hcomes hu)
        exact ⟨u, by rwa [RwState.wait, rwMove_other hut]⟩
      · intro hzero _
        have hz : s.refcount = 0 := hzero
        show 0 < s.nWait .writer
        omega
  next hfree => exact rwAwake_of_held (acquire_held (Bool.not_eq_true _ ▸ hfree) hroom)

theorem RwAwake.notify (ha : RwAwake s) (hp : s.place t = .blocked side timed) :
    RwAwake (s.notify t timedOut) := by
  have hkept : ∀ sd, (s.notify t timedOut).blocked sd ≠ [] → s.blocked sd ≠ [] := by
    intro sd hne hempty
    apply hne
    rw [notify_eq hp]
    by_cases hsd : sd = side
    · subst hsd
      simp [RwState.move, hempty]
    · simp [RwState.move, hsd, hempty]
  rw [notify_eq hp] at hkept ⊢
  refine ⟨?_, ?_⟩
  · intro hzero hne
    obtain ⟨u, hu⟩ := ha.writerComing hzero (hkept .writer hne)
    have hut : u ≠ t := by
      rintro rfl
      rw [hp] at hu
      exact Bool.noConfusion hu
    exact ⟨u, by rwa [rwMove_other hut]⟩
  · intro hzero hne
    exact ha.readerHeld hzero (hkept .reader hne)

/-- An unlock that leaves nobody holding notifies a writer, or all readers if no writer waits. -/
theorem unlockSection_awake (h : RwBase s) (hp : s.place t = .inside .unlock) {w : Option ThreadId}
    {s' : RwState} (hs : rwUnlockSection s t w = some s') : RwAwake s' := by
  have hm : s.mutex = some t := (h.holder t).mp (by rw [hp]; rfl)
  have hinit := h.ready (by rw [hp]; rfl : (s.place t).early = false)
  have hheld := h.unlocker t (by rw [hp]; rfl)
  have hleft : RwBase (s.move t (.leaving .ok)) := h.toLeaving hm (by rw [hp]; exact fun _ => rfl) hinit
  have hreleased : RwBase (rwRelease (s.move t (.leaving .ok)) t) :=
    hleft.release hheld (by rw [rwMove_same]; rfl) hinit
  have hnone : ∀ {sd}, ¬0 < (rwRelease (s.move t (.leaving .ok)) t).nWait sd →
      (rwRelease (s.move t (.leaving .ok)) t).blocked sd = [] := by
    intro sd hno
    by_contra hne
    exact hno (hreleased.blockedCounted hne)
  simp only [rwUnlockSection] at hs
  split at hs
  next hwriters =>
    split at hs
    next =>
      cases w with
      | none =>
        simp only [RwState.signal] at hs
        split at hs
        next hempty =>
          obtain rfl := Option.some.inj hs
          exact ⟨fun _ hne => absurd hempty hne, fun _ _ => hwriters⟩
        next => simp at hs
      | some w =>
        simp only [RwState.signal] at hs
        split at hs
        next hw =>
          obtain rfl := Option.some.inj hs
          have hb := (hreleased.blocked w .writer).mp hw
          cases hplace : (rwRelease (s.move t (.leaving .ok)) t).place w with
          | blocked sd timed =>
            rw [hplace] at hb
            obtain rfl : sd = .writer := of_decide_eq_true hb
            rw [notify_eq hplace]
            exact ⟨fun _ _ => ⟨w, by rw [rwMove_same]; rfl⟩, fun _ _ => hwriters⟩
          | _ =>
            rw [hplace] at hb
            exact Bool.noConfusion hb
        next => simp at hs
    next hheld => exact Option.some.inj hs ▸ rwAwake_of_held hheld
  next hwriters =>
    split at hs
    next =>
      obtain rfl := Option.some.inj hs
      have hempty : (rwRelease (s.move t (.leaving .ok)) t).broadcast.blocked .reader = [] := by
        simp [RwState.broadcast]
      exact ⟨fun _ hne => absurd (hnone hwriters) hne, fun _ hne => absurd hempty hne⟩
    next hreaders =>
      obtain rfl := Option.some.inj hs
      exact ⟨fun _ hne => absurd (hnone hwriters) hne, fun _ hne => absurd (hnone hreaders) hne⟩

theorem RwAwake.run (h : RwBase s) (ha : RwAwake s) {w : Option ThreadId} {s' : RwState}
    (hok : RwSafe s (.run t w)) (hs : rwRun s t w = some s') : RwAwake s' := by
  simp only [rwRun] at hs
  simp only [RwSafe] at hok
  cases hp : s.place t with
  | inside op =>
    simp only [hp] at hs hok
    have hcomes : (s.place t).comes = false := by rw [hp]; rfl
    cases op with
    | lock side timed =>
      obtain rfl := Option.some.inj hs
      exact lockLoop_awake (by rintro rfl; exact hok) (fun _ => ha)
        (by rw [hcomes]; exact fun hno => Bool.noConfusion hno)
    | tryLock side =>
      obtain rfl := Option.some.inj hs
      split
      next => exact ha.relocate s.mutex s.nWait rfl (by rw [hcomes]; exact fun hno => Bool.noConfusion hno)
      next hfree =>
        have hheld := acquire_held (t := t) (Bool.not_eq_true _ ▸ hfree) (by rintro rfl; exact hok)
        exact rwAwake_of_held hheld
    | unlock => exact unlockSection_awake h hp hs
    | destroy readersTaken writersTaken =>
      obtain rfl := Option.some.inj hs
      unfold rwDestroySection
      rw [if_neg hok]
      exact ha.relocate s.mutex s.nWait rfl (by rw [hcomes]; exact fun hno => Bool.noConfusion hno)
  | back side timed timedOut =>
    simp only [hp] at hs hok
    obtain rfl := Option.some.inj hs
    cases timedOut with
    | true =>
      rw [if_pos rfl]
      cases side with
      | reader =>
        exact ha.relocate s.mutex _ (Function.update_of_ne (by decide) ..) (by rw [hp]; exact fun hno => Bool.noConfusion hno)
      | writer =>
        refine ⟨?_, ?_⟩
        · intro hzero hne
          obtain ⟨u, hu⟩ := ha.writerComing hzero hne
          have hut : u ≠ t := by
            rintro rfl
            rw [hp] at hu
            exact Bool.noConfusion hu
          exact ⟨u, by rwa [rwMove_other hut]⟩
        · intro hzero hne
          have hpos := ha.readerHeld hzero hne
          have hmore : s.nWait .writer ≠ 1 := fun hone => hne (hok hzero hone)
          show 0 < Function.update s.nWait .writer (s.nWait .writer - 1) .writer
          rw [Function.update_self]
          omega
    | false =>
      rw [if_neg Bool.false_ne_true]
      apply lockLoop_awake
      · rintro rfl
        exact hok
      · rintro rfl
        exact ⟨ha.writerComing, ha.readerHeld⟩
      · intro hc
        cases side with
        | writer => rfl
        | reader =>
          rw [show ((s.uncount .reader).place t) = s.place t from rfl, hp] at hc
          exact Bool.noConfusion hc
  | _ => simp [hp] at hs

theorem RwAwake.step {a : RwAction} {s' : RwState} (h : RwBase s) (ha : RwAwake s)
    (hok : RwSafe s a) (hs : rwStep s a = some s') : RwAwake s' := by
  cases a with
  | call t op =>
    simp only [rwStep, rwCall] at hs
    split at hs
    next hout =>
      have hcomes : ∀ p : RwPlace, (s.place t).comes = true → p.comes = true := by
        rw [hout.1]
        exact fun _ hno => Bool.noConfusion hno
      split at hs
      next => exact Option.some.inj hs ▸ ha.relocate s.mutex s.nWait rfl (hcomes _)
      next =>
        split at hs
        next => exact Option.some.inj hs ▸ ha
        next => exact Option.some.inj hs ▸ ha.relocate s.mutex s.nWait rfl (hcomes _)
    next => simp at hs
  | init t =>
    simp only [rwStep] at hs
    split at hs
    next op hp =>
      obtain rfl := Option.some.inj hs
      rw [(h.init hok).1]
      have hinit : RwAwake { s with initialised := true } := ⟨ha.writerComing, ha.readerHeld⟩
      exact hinit.relocate s.mutex s.nWait rfl (by rw [hp]; exact fun hno => Bool.noConfusion hno)
    next => simp at hs
  | lock t =>
    simp only [rwStep, rwMutexLock] at hs
    split at hs
    next op hp hm =>
      obtain rfl := Option.some.inj hs
      exact ha.relocate (some t) s.nWait rfl (by rw [hp]; exact fun hno => Bool.noConfusion hno)
    next op u hp hm =>
      split at hs
      next hu =>
        obtain rfl := Option.some.inj hs
        exact ha.relocate s.mutex s.nWait rfl (by rw [hp]; exact fun hno => Bool.noConfusion hno)
      next => simp at hs
    next side timed timedOut hp hm =>
      obtain rfl := Option.some.inj hs
      refine ha.relocate (some t) s.nWait rfl ?_
      rw [hp]
      cases side <;> cases timedOut <;> exact fun hc => hc
    next => simp at hs
  | run t w => exact ha.run h hok hs
  | timeout t =>
    simp only [rwStep] at hs
    split at hs
    next side hp => exact Option.some.inj hs ▸ ha.notify hp
    next => simp at hs
  | spurious t =>
    simp only [rwStep] at hs
    split at hs
    next side timed hp => exact Option.some.inj hs ▸ ha.notify hp
    next => simp at hs
  | leave t =>
    simp only [rwStep] at hs
    split at hs
    next result hp =>
      obtain rfl := Option.some.inj hs
      exact ha.relocate none s.nWait rfl (by rw [hp]; exact fun hno => Bool.noConfusion hno)
    next => simp at hs

theorem rwBase_start (initialised : Bool) : RwBase (rwStart initialised) := by
  refine ⟨.inl ⟨rfl, rfl⟩, ?_, ?_, fun _ => List.nodup_nil, ?_, ?_, fun _ => ⟨rfl, fun _ => rfl⟩⟩
  · intro t
    simp [rwStart, RwPlace.holds]
  · intro t side
    simp [rwStart, RwPlace.isBlocked]
  · intro side
    exact (total_eq_zero fun _ => rfl).symm
  · intro t hu
    exact Bool.noConfusion hu

end

instance decidableRwSafe (s : RwState) : ∀ a, Decidable (RwSafe s a)
  | .init _ => inferInstanceAs (Decidable (_ = _))
  | .run t _ =>
    match h : s.place t with
    | .inside (.lock .reader _) =>
      decidable_of_iff (s.refcount < 2147483647) (by simp [RwSafe, h])
    | .inside (.tryLock .reader) =>
      decidable_of_iff (s.refcount < 2147483647) (by simp [RwSafe, h])
    | .inside (.destroy _ _) => decidable_of_iff (¬s.busy) (by simp [RwSafe, h])
    | .back .reader _ false =>
      decidable_of_iff (s.refcount < 2147483647) (by simp [RwSafe, h])
    | .back .writer _ true =>
      decidable_of_iff (s.refcount = 0 → s.nWait .writer = 1 → s.blocked .reader = [])
        (by simp [RwSafe, h])
    | .outside => isTrue (by simp [RwSafe, h])
    | .checked _ => isTrue (by simp [RwSafe, h])
    | .locking _ => isTrue (by simp [RwSafe, h])
    | .inside (.lock .writer _) => isTrue (by simp [RwSafe, h])
    | .inside (.tryLock .writer) => isTrue (by simp [RwSafe, h])
    | .inside .unlock => isTrue (by simp [RwSafe, h])
    | .blocked _ _ => isTrue (by simp [RwSafe, h])
    | .woken _ _ _ => isTrue (by simp [RwSafe, h])
    | .back .reader _ true => isTrue (by simp [RwSafe, h])
    | .back .writer _ false => isTrue (by simp [RwSafe, h])
    | .leaving _ => isTrue (by simp [RwSafe, h])
  | .call _ _ => isTrue trivial
  | .lock _ => isTrue trivial
  | .timeout _ => isTrue trivial
  | .spurious _ => isTrue trivial
  | .leave _ => isTrue trivial

def rwAfter (as : List RwAction) : RwState :=
  (runFrom rwStep as (rwStart true)).getD (rwStart true)

/-- A call that does not wait. -/
def rwWhole (t : ThreadId) (op : RwOp) : List RwAction :=
  [.call t op, .lock t, .run t none, .leave t]

def rwWaits (t : ThreadId) (op : RwOp) : List RwAction := [.call t op, .lock t, .run t none]

/-- A reader holds the lock, a writer and another reader wait; the writer comes first. -/
def writerFirst : List RwAction :=
  rwWhole 1 (.lock .reader false) ++ rwWaits 2 (.lock .writer true) ++
    rwWaits 3 (.lock .reader false) ++
    [.call 1 .unlock, .lock 1, .run 1 (some 2), .leave 1, .lock 2, .run 2 none, .leave 2] ++
    rwWhole 2 .unlock ++ [.lock 3, .run 3 none, .leave 3]

/-- The writer times out before the unlock and comes back after it. -/
def writerTimesOut : List RwAction :=
  rwWhole 1 (.lock .reader false) ++ rwWaits 2 (.lock .writer true) ++
    rwWaits 3 (.lock .reader false) ++ [.timeout 2] ++ rwWhole 1 .unlock ++
    [.lock 2, .run 2 none, .leave 2]

/-- A destroy of the lock while a reader has it. -/
def destroyBusy : List RwAction :=
  rwWhole 1 (.lock .reader false) ++ [.call 2 (.destroy true true), .lock 2, .run 2 none]

def RwAction.thread : RwAction → ThreadId
  | .call t _ => t
  | .init t => t
  | .lock t => t
  | .run t _ => t
  | .timeout t => t
  | .spurious t => t
  | .leave t => t

/-- A step of one thread leaves those that are in no call where they are. -/
theorem rwStep_outside {s s' : RwState} {a : RwAction} {u : ThreadId}
    (hu : s.place u = .outside) (hne : u ≠ a.thread) (hs : rwStep s a = some s') :
    s'.place u = .outside := by
  have hmove : ∀ {s : RwState} {t p}, s.place u = .outside → u ≠ t →
      (s.move t p).place u = .outside := fun hu hut => (rwMove_other hut).trans hu
  have hnotify : ∀ {s : RwState} {t timedOut}, s.place u = .outside →
      (s.notify t timedOut).place u = .outside := by
    intro s t timedOut hu
    unfold RwState.notify
    split
    next side timed hp =>
      apply hmove hu
      rintro rfl
      rw [hu] at hp
      exact RwPlace.noConfusion hp
    next => exact hu
  have hloop : ∀ {s : RwState} {t side timed}, s.place u = .outside → u ≠ t →
      (rwLockLoop s t side timed).place u = .outside := by
    intro s t side timed hu hut
    unfold rwLockLoop
    split
    · exact hmove hu hut
    · exact hmove (by cases side <;> exact hu) hut
  cases a with
  | run t w =>
    simp only [rwStep, rwRun] at hs
    split at hs
    next => exact Option.some.inj hs ▸ hloop hu hne
    next =>
      obtain rfl := Option.some.inj hs
      split
      · exact hmove hu hne
      next side _ _ => exact hmove (by cases side <;> exact hu) hne
    next =>
      have hreleased : (rwRelease (s.move t (.leaving .ok)) t).place u = .outside := hmove hu hne
      unfold rwUnlockSection at hs
      dsimp only at hs
      split at hs
      · split at hs
        · cases w with
          | none =>
            simp only [RwState.signal] at hs
            split at hs
            · exact Option.some.inj hs ▸ hreleased
            · simp at hs
          | some v =>
            simp only [RwState.signal] at hs
            split at hs
            · exact Option.some.inj hs ▸ hnotify hreleased
            · simp at hs
        · exact Option.some.inj hs ▸ hreleased
      · split at hs
        · obtain rfl := Option.some.inj hs
          show ((rwRelease (s.move t (.leaving .ok)) t).place u).notified = .outside
          rw [hreleased]
          rfl
        · exact Option.some.inj hs ▸ hreleased
    next =>
      obtain rfl := Option.some.inj hs
      unfold rwDestroySection
      split <;> exact hmove hu hne
    next =>
      obtain rfl := Option.some.inj hs
      split
      · exact hmove hu hne
      · exact hloop hu hne
    next => simp at hs
  | call t op =>
    simp only [rwStep, rwCall] at hs
    split at hs
    · split at hs
      · exact Option.some.inj hs ▸ hmove hu hne
      · split at hs
        · exact Option.some.inj hs ▸ hu
        · exact Option.some.inj hs ▸ hmove hu hne
    · simp at hs
  | init t =>
    simp only [rwStep] at hs
    split at hs
    · exact Option.some.inj hs ▸ hmove hu hne
    · simp at hs
  | lock t =>
    simp only [rwStep, rwMutexLock] at hs
    split at hs
    · exact Option.some.inj hs ▸ hmove hu hne
    · split at hs
      · exact Option.some.inj hs ▸ hmove hu hne
      · simp at hs
    · exact Option.some.inj hs ▸ hmove hu hne
    · simp at hs
  | timeout t =>
    simp only [rwStep] at hs
    split at hs
    · exact Option.some.inj hs ▸ hnotify hu
    · simp at hs
  | spurious t =>
    simp only [rwStep] at hs
    split at hs
    · exact Option.some.inj hs ▸ hnotify hu
    · simp at hs
  | leave t =>
    simp only [rwStep] at hs
    split at hs
    · exact Option.some.inj hs ▸ hmove hu hne
    · simp at hs

theorem rwRun_outside {as : List RwAction} {s s' : RwState} {u : ThreadId}
    (hu : s.place u = .outside) (hne : ∀ a ∈ as, u ≠ a.thread)
    (hs : runFrom rwStep as s = some s') : s'.place u = .outside := by
  induction as generalizing s with
  | nil => exact Option.some.inj hs ▸ hu
  | cons a as ih =>
    obtain ⟨s1, h1, hs⟩ := Option.bind_eq_some_iff.mp hs
    have hstep := rwStep_outside hu (hne a List.mem_cons_self) h1
    exact ih hstep (fun b hb => hne b (List.mem_cons_of_mem a hb)) hs

end RTThread
