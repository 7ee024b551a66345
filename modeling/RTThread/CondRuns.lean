import RTThread.Histories
import RTThread.Threads

namespace RTThread

/-- `pthread_cond_wait` and `pthread_cond_timedwait` with their mutex and the time they give to
`rt_sem_take`, and the other calls. -/
inductive CondOp where
  | wait (m : ObjectId) (time : Int)
  | signal
  | broadcast
  | destroy
deriving DecidableEq

/-- Where a thread stands in a call: it has seen `attr == -1`, has passed the check, has unlocked
the mutex, is suspended in `rt_sem_take`, or `rt_sem_take` has its result. -/
inductive CondPlace where
  | outside
  | checked (op : CondOp)
  | ready (op : CondOp)
  | unlocked (m : ObjectId) (time : Int)
  | blocked (m : ObjectId) (time : Int)
  | taken (m : ObjectId) (ok : Bool)
deriving DecidableEq

inductive CondEvent where
  | waits (t : ThreadId)
  | signals
  | broadcasts
  | expires (t : ThreadId)
  | returns (t : ThreadId)
  | destroys (done : Bool)
deriving DecidableEq

/-- What a condition variable is for: it knows who waits and who has been released, and no
notification. -/
structure CondVar where
  waiting : Set ThreadId
  released : Set ThreadId

/-- A signal releases one of the waiting threads, whichever it is, and a broadcast all of them. -/
def CondVar.step (x : CondVar) : CondEvent → CondVar → Prop
  | .waits t, y => y = ⟨insert t x.waiting, x.released⟩
  | .signals, y =>
    x.waiting = ∅ ∧ y = x ∨ ∃ t ∈ x.waiting, y = ⟨x.waiting \ {t}, insert t x.released⟩
  | .broadcasts, y => y = ⟨∅, x.released ∪ x.waiting⟩
  | .expires t, y => t ∈ x.waiting ∧ y = ⟨x.waiting \ {t}, x.released⟩
  | .returns t, y => t ∈ x.released ∧ y = ⟨x.waiting, x.released \ {t}⟩
  | .destroys done, y => (done = true ↔ x.waiting = ∅) ∧ y = x

/-- `struct pthread_cond` with `attr` as whether it is not -1. The tokens stored in `cond->sem` are
as many as its value, the newest first, each with the threads that had unlocked their mutex and not
come to the semaphore when it was stored; `unlocked` are those that are there now. A mutex has its
owner and how often it is held. -/
structure CondState where
  initialised : Bool
  tokens : List (List ThreadId)
  blocked : List ThreadId
  unlocked : List ThreadId
  place : ThreadId → CondPlace
  owner : ObjectId → Option (ThreadId × Nat)
  history : List CondEvent

def CondState.move (s : CondState) (t : ThreadId) (p : CondPlace) : CondState :=
  { s with place := Function.update s.place t p }

def CondState.log (s : CondState) (e : CondEvent) : CondState :=
  { s with history := s.history ++ [e] }

/-- `pthread_cond_init`. -/
def CondState.fresh (s : CondState) : CondState :=
  { s with initialised := true, tokens := [], blocked := [] }

/-- `rt_mutex_take`: none while another thread has the mutex. -/
def CondState.lock (s : CondState) (t : ThreadId) (m : ObjectId) : Option CondState :=
  match s.owner m with
  | none => some { s with owner := Function.update s.owner m (some (t, 1)) }
  | some (u, n) =>
    if u = t then some { s with owner := Function.update s.owner m (some (t, n + 1)) } else none

/-- `rt_mutex_release` by the owner. -/
def CondState.unlock (s : CondState) (t : ThreadId) (m : ObjectId) : Option CondState :=
  match s.owner m with
  | none => none
  | some (u, n) =>
    if u = t then
      some { s with owner := Function.update s.owner m (if n ≤ 1 then none else some (t, n - 1)) }
    else none

/-- A suspended thread goes on with a result of `rt_sem_take`. -/
def CondState.awaken (s : CondState) (t : ThreadId) (ok : Bool) : CondState :=
  match s.place t with
  | .blocked m _ => s.move t (.taken m ok)
  | _ => s

/-- `rt_sem_release` of `cond->sem`, whose value is 16 bits wide. -/
def CondState.release (s : CondState) : CondState :=
  match s.blocked with
  | t :: rest => { s with blocked := rest }.awaken t true
  | [] => { s with tokens := if s.tokens.length = 65535 then [] else s.unlocked :: s.tokens }

/-- `rt_sem_trytake` of `cond->sem`. -/
def CondState.trytake (s : CondState) : Option CondState :=
  match s.tokens with
  | [] => none
  | _ :: rest => some { s with tokens := rest }

/-- Which of the equal tokens a thread takes: the oldest of those stored while it waited. -/
def takeOldest (t : ThreadId) : List (List ThreadId) → List (List ThreadId)
  | [] => []
  | token :: rest =>
    if ∃ older ∈ rest, t ∈ older then token :: takeOldest t rest else rest

def leaveTokens (t : ThreadId) (tokens : List (List ThreadId)) : List (List ThreadId) :=
  (takeOldest t tokens).map fun token => token.filter fun u => u ≠ t

/-- `rt_sem_take` in `_pthread_cond_timedwait`, up to its result or to `rt_schedule()`. -/
def condSemTake (s : CondState) (t : ThreadId) (m : ObjectId) (time : Int) : CondState :=
  let s := { s with unlocked := s.unlocked.erase t }
  match s.tokens with
  | [] =>
    if time = 0 then (s.move t (.taken m false)).log (.expires t)
    else { s with blocked := s.blocked ++ [t] }.move t (.blocked m time)
  | _ =>
    { s with tokens := leaveTokens t s.tokens }.move t (.taken m true)

def pthreadCondSignal (s : CondState) : CondState := s.release.log .signals

/-- The loop of `pthread_cond_broadcast`. No other thread runs in it, and a timer that fires between
two rounds takes its thread off the list as it would have done before the call. -/
def condBroadcastLoop : Nat → CondState → CondState
  | 0, s => s
  | fuel + 1, s =>
    match s.trytake with
    | none => condBroadcastLoop fuel s.release
    | some s => s.release

/-- Each round but the last two resumes a thread. -/
def pthreadCondBroadcast (s : CondState) : CondState :=
  (condBroadcastLoop (s.blocked.length + 2) s).log .broadcasts

/-- `pthread_cond_destroy` of an initialised condition. -/
def pthreadCondDestroy (s : CondState) : CondState :=
  match s.trytake with
  | none => s.log (.destroys false)
  | some s => { s with initialised := false, tokens := [], blocked := [] }.log (.destroys true)

/-- `_pthread_cond_timedwait` up to the call of `rt_sem_take`; without the mutex it is an error. -/
def condUnlock (s : CondState) (t : ThreadId) (m : ObjectId) (time : Int) : CondState :=
  match s.unlock t m with
  | none => s.move t .outside
  | some s => ({ s with unlocked := t :: s.unlocked }.move t (.unlocked m time)).log (.waits t)

inductive CondAction where
  | lock (t : ThreadId) (m : ObjectId)
  | unlock (t : ThreadId) (m : ObjectId)
  | call (t : ThreadId) (op : CondOp)
  | init (t : ThreadId)
  | run (t : ThreadId)
  | take (t : ThreadId)
  | timeout (t : ThreadId)
  | relock (t : ThreadId)
deriving DecidableEq

/-- The check of `attr` at the start of every call. -/
def condCall (s : CondState) (t : ThreadId) (op : CondOp) : CondState :=
  if s.initialised then s.move t (.ready op)
  else match op with
    | .destroy => s.log (.destroys true)
    | _ => s.move t (.checked op)

def condRun (s : CondState) (t : ThreadId) : Option CondState :=
  match s.place t with
  | .ready (.wait m time) => some (condUnlock s t m time)
  | .ready .signal => some ((pthreadCondSignal s).move t .outside)
  | .ready .broadcast => some ((pthreadCondBroadcast s).move t .outside)
  | .ready .destroy => some ((pthreadCondDestroy s).move t .outside)
  | _ => none

/-- `pthread_mutex_lock` after `rt_sem_take`, and the return. -/
def condRelock (s : CondState) (t : ThreadId) : Option CondState :=
  match s.place t with
  | .taken m ok =>
    (s.lock t m).map fun s => if ok then (s.move t .outside).log (.returns t) else s.move t .outside
  | _ => none

def condStep (s : CondState) : CondAction → Option CondState
  | .lock t m => if s.place t = .outside then s.lock t m else none
  | .unlock t m => if s.place t = .outside then s.unlock t m else none
  | .call t op => if s.place t = .outside then some (condCall s t op) else none
  | .init t =>
    match s.place t with
    | .checked op => some (s.fresh.move t (.ready op))
    | _ => none
  | .run t => condRun s t
  | .take t =>
    match s.place t with
    | .unlocked m time => some (condSemTake s t m time)
    | _ => none
  | .timeout t =>
    match s.place t with
    | .blocked _ time =>
      if 0 < time then
        some (({ s with blocked := s.blocked.erase t }.awaken t false).log (.expires t))
      else none
    | _ => none
  | .relock t => condRelock s t

def condStart (initialised : Bool) : CondState :=
  ⟨initialised, [], [], [], fun _ => .outside, fun _ => none, []⟩

/-- The history is one of a condition variable that has released the threads the semaphore let
through and not those it holds; between unlocking and coming to the semaphore a thread may be
either. -/
def CondRight (s : CondState) : Prop :=
  ∃ x, Follows CondVar.step ⟨∅, ∅⟩ s.history x ∧
    (∀ t m time, s.place t = .blocked m time → t ∈ x.waiting) ∧
    (∀ t m, s.place t = .taken m true → t ∈ x.released) ∧
    (∀ t ∈ x.waiting, ∃ m time, s.place t = .unlocked m time ∨ s.place t = .blocked m time) ∧
    ∀ t ∈ x.released, ∃ m, s.place t = .taken m true ∨ ∃ time, s.place t = .unlocked m time

/-- The condition is initialised once; a token is stored only for a thread between unlocking and the
semaphore, one for each at most, and a broadcast has one for each of them; a token is taken by a
thread it may have been stored for; and destroying finds a thread waiting and no token. -/
def CondSafe (s : CondState) : CondAction → Prop
  | .init _ => s.initialised = false
  | .run t =>
    match s.place t with
    | .ready .signal =>
      s.blocked ≠ [] ∨ s.tokens.length < s.unlocked.length ∧ s.tokens.length < 65535
    | .ready .broadcast => s.unlocked.length = max 1 s.tokens.length
    | .ready .destroy => s.tokens = [] ∧ (s.unlocked ≠ [] ∨ s.blocked ≠ [])
    | _ => True
  | .take t => s.tokens = [] ∨ ∃ token ∈ s.tokens, t ∈ token
  | _ => True

/-- Each token is for another thread. -/
def Serves (c : List ThreadId) (tokens : List (List ThreadId)) : Prop :=
  List.Forall₂ (fun t token => t ∈ token) c tokens

section
variable {t v : ThreadId} {c c' : List ThreadId} {tokens : List (List ThreadId)}
  {token : List ThreadId}

theorem Serves.mem (h : Serves c tokens) (ht : t ∈ c) : ∃ token ∈ tokens, t ∈ token := by
  induction h with
  | nil => simp at ht
  | @cons u token c rest hu _ ih =>
    rcases List.mem_cons.mp ht with rfl | ht
    · exact ⟨token, List.mem_cons_self, hu⟩
    · obtain ⟨older, hmem, ht⟩ := ih ht
      exact ⟨older, List.mem_cons_of_mem token hmem, ht⟩

/-- A thread that takes a token leaves the others enough for those they are for. -/
theorem Serves.leave (h : Serves c tokens) (hnodup : c.Nodup)
    (hnested : tokens.Pairwise fun token older => older ⊆ token)
    (hmem : ∃ token ∈ tokens, t ∈ token) :
    ∃ u c', Serves c' (takeOldest t tokens) ∧ c.Perm (u :: c') ∧ t ∉ c' ∧
      ∃ token ∈ tokens, u ∈ token := by
  induction h with
  | nil => simp at hmem
  | @cons x token c rest hx hrest ih =>
    have hparts := List.nodup_cons.mp hnodup
    obtain ⟨hhead, htail⟩ := List.pairwise_cons.mp hnested
    unfold takeOldest
    by_cases hold : ∃ older ∈ rest, t ∈ older
    · rw [if_pos hold]
      obtain ⟨u, c', hserves, hperm, hout, older, holder, hu⟩ := ih hparts.2 htail hold
      by_cases hxt : x = t
      · -- the oldest token is taken, and the thread it was for gets the one that was for `t`
        refine ⟨t, u :: c', List.Forall₂.cons (hhead older holder hu) hserves, ?_, ?_,
          token, List.mem_cons_self, hxt ▸ hx⟩
        · exact hxt ▸ hperm.cons x
        · intro hmem
          rcases List.mem_cons.mp hmem with rfl | hmem
          · exact hparts.1 (hxt ▸ hperm.mem_iff.mpr List.mem_cons_self)
          · exact hout hmem
      · refine ⟨u, x :: c', List.Forall₂.cons hx hserves, ?_, ?_,
          older, List.mem_cons_of_mem token holder, hu⟩
        · exact (hperm.cons x).trans (List.Perm.swap u x c')
        · intro hmem
          rcases List.mem_cons.mp hmem with rfl | hmem
          · exact hxt rfl
          · exact hout hmem
    · rw [if_neg hold]
      refine ⟨x, c, hrest, List.Perm.refl _, ?_, token, List.mem_cons_self, hx⟩
      intro hmem
      exact hold (Serves.mem hrest hmem)

theorem Serves.rejoin (hmem : ∃ token ∈ tokens, t ∈ token) (h : Serves c (takeOldest t tokens)) :
    ∃ c', Serves c' tokens ∧ c'.Perm (t :: c) := by
  induction tokens generalizing c with
  | nil => simp at hmem
  | cons token rest ih =>
    unfold takeOldest at h
    by_cases hold : ∃ older ∈ rest, t ∈ older
    · rw [if_pos hold] at h
      cases h with
      | @cons x _ c1 _ hx hrest =>
        obtain ⟨c', hserves, hperm⟩ := ih hold hrest
        exact ⟨x :: c', List.Forall₂.cons hx hserves,
          (hperm.cons x).trans (List.Perm.swap t x c1)⟩
    · rw [if_neg hold] at h
      obtain ⟨older, holder, ht⟩ := hmem
      rcases List.mem_cons.mp holder with rfl | holder
      · exact ⟨t :: c, List.Forall₂.cons ht h, List.Perm.refl _⟩
      · exact absurd ⟨older, holder, ht⟩ hold

theorem takeOldest_sublist : (takeOldest t tokens).Sublist tokens := by
  induction tokens with
  | nil => exact List.Sublist.slnil
  | cons token rest ih =>
    unfold takeOldest
    split
    · exact ih.cons_cons token
    · exact List.sublist_cons_self token rest

theorem serves_filter : Serves c (tokens.map fun token => token.filter fun u => u ≠ t) ↔
    Serves c tokens ∧ t ∉ c := by
  unfold Serves
  rw [List.forall₂_map_right_iff]
  constructor
  · intro h
    constructor
    · exact h.imp fun _ _ hmem => (List.mem_filter.mp hmem).1
    · induction h with
      | nil => simp
      | @cons u token c rest hu _ ih =>
        have hne : u ≠ t := by simpa using (List.mem_filter.mp hu).2
        simp [ih, hne.symm]
  · rintro ⟨h, hout⟩
    induction h with
    | nil => exact List.Forall₂.nil
    | @cons u token c rest hu _ ih =>
      obtain ⟨hne, hout⟩ := List.ne_and_not_mem_of_not_mem_cons hout
      apply List.Forall₂.cons
      · exact List.mem_filter.mpr ⟨hu, by simpa using hne.symm⟩
      · exact ih hout

end

def CondPlace.atUnlocked : CondPlace → Bool
  | .unlocked _ _ => true
  | _ => false

def CondPlace.atBlocked : CondPlace → Bool
  | .blocked _ _ => true
  | _ => false

/-- The semaphore has let the thread through. -/
def CondPlace.passed : CondPlace → Bool
  | .taken _ ok => ok
  | _ => false

/-- A thread that has not passed the check of `attr`. -/
def CondPlace.early : CondPlace → Bool
  | .outside => true
  | .checked _ => true
  | _ => false

/-- Threads between unlocking and the semaphore that can have the stored tokens. -/
structure Chosen (s : CondState) (c : List ThreadId) : Prop where
  nodup : c.Nodup
  present : ∀ t ∈ c, t ∈ s.unlocked
  serves : Serves c s.tokens

/-- The condition variable that has released these threads. -/
def CondState.seen (s : CondState) (c : List ThreadId) : CondVar where
  waiting := {t | t ∈ s.unlocked ∧ t ∉ c ∨ t ∈ s.blocked}
  released := {t | t ∈ c ∨ (s.place t).passed = true}

def CondFits (s : CondState) (x : CondVar) : Prop := ∃ c, Chosen s c ∧ x = s.seen c

/-- The lists agree with where the threads are, tokens are stored only while nobody is blocked, an
older one for fewer threads, and there are threads for all of them. -/
structure CondBase (s : CondState) : Prop where
  unlocked : ∀ t, t ∈ s.unlocked ↔ (s.place t).atUnlocked = true
  blocked : ∀ t, t ∈ s.blocked ↔ (s.place t).atBlocked = true
  unlockedNodup : s.unlocked.Nodup
  blockedNodup : s.blocked.Nodup
  stored : s.tokens ≠ [] → s.blocked = []
  nested : s.tokens.Pairwise fun token older => older ⊆ token
  present : ∀ token ∈ s.tokens, token ⊆ s.unlocked
  chosen : ∃ c, Chosen s c
  fits : s.tokens.length ≤ 65535

def CondFresh (s : CondState) : Prop :=
  s.initialised = false → s.tokens = [] ∧ ∀ t, (s.place t).early = true

/-- One step: what holds is kept, and a condition variable can do the same. -/
def CondKeeps (s s' : CondState) : Prop :=
  CondBase s' ∧ StepsBack CondVar.step CondState.history CondFits s s'

section
variable {s s' : CondState} {t u : ThreadId} {p : CondPlace} {c : List ThreadId} {x : CondVar}
  {m : ObjectId} {time : Int} {ok : Bool}

@[simp] theorem condMove_same : (s.move t p).place t = p := Function.update_self ..

theorem condMove_other (h : u ≠ t) : (s.move t p).place u = s.place u :=
  Function.update_of_ne h ..

theorem CondBase.right (h : CondBase s) (hf : ∀ x, CondFits s x →
    Follows CondVar.step ⟨∅, ∅⟩ s.history x) : CondRight s := by
  obtain ⟨c, hc⟩ := h.chosen
  refine ⟨s.seen c, hf _ ⟨c, hc, rfl⟩, ?_, ?_, ?_, ?_⟩
  · intro t m time hp
    exact .inr ((h.blocked t).mpr (by rw [hp]; rfl))
  · intro t m hp
    exact .inr (by rw [hp]; rfl)
  · rintro t (⟨ht, -⟩ | ht)
    · have hplace := (h.unlocked t).mp ht
      cases hp : s.place t <;> rw [hp] at hplace <;> simp [CondPlace.atUnlocked] at hplace ⊢
    · have hplace := (h.blocked t).mp ht
      cases hp : s.place t <;> rw [hp] at hplace <;> simp [CondPlace.atBlocked] at hplace ⊢
  · rintro t (ht | ht)
    · have hplace := (h.unlocked t).mp (hc.present t ht)
      cases hp : s.place t <;> rw [hp] at hplace <;> simp [CondPlace.atUnlocked] at hplace ⊢
    · cases hp : s.place t <;> rw [hp] at ht <;> simp [CondPlace.passed] at ht ⊢
      exact ht

/-- Two states in which the condition and the threads at it are the same. -/
structure CondSame (s s' : CondState) : Prop where
  tokens : s'.tokens = s.tokens
  blocked : s'.blocked = s.blocked
  unlocked : s'.unlocked = s.unlocked
  atUnlocked : ∀ t, (s'.place t).atUnlocked = (s.place t).atUnlocked
  atBlocked : ∀ t, (s'.place t).atBlocked = (s.place t).atBlocked
  passed : ∀ t, (s'.place t).passed = (s.place t).passed

theorem CondSame.chosen (h : CondSame s s') : Chosen s' c ↔ Chosen s c := by
  constructor
  · rintro ⟨hnodup, hpresent, hserves⟩
    exact ⟨hnodup, h.unlocked ▸ hpresent, h.tokens ▸ hserves⟩
  · rintro ⟨hnodup, hpresent, hserves⟩
    exact ⟨hnodup, h.unlocked ▸ hpresent, h.tokens ▸ hserves⟩

theorem CondSame.seen (h : CondSame s s') : s'.seen c = s.seen c := by
  unfold CondState.seen
  simp only [h.unlocked, h.blocked, h.passed]

theorem CondSame.fits (h : CondSame s s') (hx : CondFits s' x) : CondFits s x := by
  obtain ⟨c, hc, rfl⟩ := hx
  exact ⟨c, h.chosen.mp hc, h.seen⟩

theorem CondSame.base (h : CondSame s s') (hs : CondBase s) : CondBase s' where
  unlocked t := by
    rw [h.unlocked, h.atUnlocked]
    exact hs.unlocked t
  blocked t := by
    rw [h.blocked, h.atBlocked]
    exact hs.blocked t
  unlockedNodup := h.unlocked ▸ hs.unlockedNodup
  blockedNodup := h.blocked ▸ hs.blockedNodup
  stored := by
    rw [h.tokens, h.blocked]
    exact hs.stored
  nested := h.tokens ▸ hs.nested
  present := by
    rw [h.tokens, h.unlocked]
    exact hs.present
  chosen := by
    obtain ⟨c, hc⟩ := hs.chosen
    exact ⟨c, h.chosen.mpr hc⟩
  fits := h.tokens ▸ hs.fits

theorem CondSame.keeps (h : CondSame s s') (hs : CondBase s) (hh : s'.history = s.history) :
    CondKeeps s s' :=
  ⟨h.base hs, .inl ⟨hh, fun _ => h.fits⟩⟩

/-- A thread that is neither at the condition nor comes to it. -/
theorem condSame_move (h1 : p.atUnlocked = (s.place t).atUnlocked)
    (h2 : p.atBlocked = (s.place t).atBlocked) (h3 : p.passed = (s.place t).passed) :
    CondSame s (s.move t p) := by
  refine ⟨rfl, rfl, rfl, fun u => ?_, fun u => ?_, fun u => ?_⟩ <;> by_cases hu : u = t
  · rw [hu, condMove_same, h1]
  · rw [condMove_other hu]
  · rw [hu, condMove_same, h2]
  · rw [condMove_other hu]
  · rw [hu, condMove_same, h3]
  · rw [condMove_other hu]

theorem condLock_same (hs : s.lock t m = some s') :
    CondSame s s' ∧ s'.history = s.history ∧ s'.place = s.place ∧
      s'.initialised = s.initialised := by
  unfold CondState.lock at hs
  split at hs
  · obtain rfl := Option.some.inj hs
    exact ⟨⟨rfl, rfl, rfl, fun _ => rfl, fun _ => rfl, fun _ => rfl⟩, rfl, rfl, rfl⟩
  · split at hs
    · obtain rfl := Option.some.inj hs
      exact ⟨⟨rfl, rfl, rfl, fun _ => rfl, fun _ => rfl, fun _ => rfl⟩, rfl, rfl, rfl⟩
    · simp at hs

theorem condUnlock_same (hs : s.unlock t m = some s') :
    CondSame s s' ∧ s'.history = s.history ∧ s'.place = s.place ∧
      s'.initialised = s.initialised := by
  unfold CondState.unlock at hs
  split at hs
  · simp at hs
  · split at hs
    · obtain rfl := Option.some.inj hs
      exact ⟨⟨rfl, rfl, rfl, fun _ => rfl, fun _ => rfl, fun _ => rfl⟩, rfl, rfl, rfl⟩
    · simp at hs

theorem CondBase.notUnlocked (h : CondBase s) (hp : (s.place t).atUnlocked = false) :
    t ∉ s.unlocked := by
  intro hmem
  rw [(h.unlocked t).mp hmem] at hp
  exact Bool.noConfusion hp

theorem CondBase.notBlocked (h : CondBase s) (hp : (s.place t).atBlocked = false) :
    t ∉ s.blocked := by
  intro hmem
  rw [(h.blocked t).mp hmem] at hp
  exact Bool.noConfusion hp

theorem CondBase.unlocked_move (h : CondBase s) (hout : t ∉ s.unlocked)
    (hp : p.atUnlocked = false) :
    ∀ u, u ∈ s.unlocked ↔ ((s.move t p).place u).atUnlocked = true := by
  intro u
  by_cases hut : u = t
  · rw [hut, condMove_same, hp]
    simp [hout]
  · rw [condMove_other hut, ← h.unlocked u]

theorem CondBase.blocked_move (h : CondBase s) (hout : t ∉ s.blocked)
    (hp : p.atBlocked = false) :
    ∀ u, u ∈ s.blocked ↔ ((s.move t p).place u).atBlocked = true := by
  intro u
  by_cases hut : u = t
  · rw [hut, condMove_same, hp]
    simp [hout]
  · rw [condMove_other hut, ← h.blocked u]

theorem CondBase.unlocked_erase (h : CondBase s) (hp : p.atUnlocked = false) :
    ∀ u, u ∈ s.unlocked.erase t ↔ ((s.move t p).place u).atUnlocked = true := by
  intro u
  rw [h.unlockedNodup.mem_erase_iff]
  by_cases hut : u = t
  · rw [hut, condMove_same, hp]
    simp
  · rw [condMove_other hut, ← h.unlocked u]
    simp [hut]

theorem passed_move (hs : (s.place t).passed = false) (hp : p.passed = false) :
    ((s.move t p).place u).passed = true ↔ (s.place u).passed = true := by
  by_cases hut : u = t
  · rw [hut, condMove_same, hp, hs]
  · rw [condMove_other hut]

/-- A thread begins to wait. -/
theorem CondBase.waits (h : CondBase s) (hu : (s.place t).atUnlocked = false)
    (hb : (s.place t).atBlocked = false) (hp : (s.place t).passed = false) :
    CondKeeps s
      (({ s with unlocked := t :: s.unlocked }.move t (.unlocked m time)).log (.waits t)) := by
  have hout := h.notUnlocked hu
  have hnotBlocked := h.notBlocked hb
  obtain ⟨c, hc⟩ := h.chosen
  refine ⟨⟨?_, ?_, ?_, h.blockedNodup, h.stored, h.nested, ?_, ⟨c, hc.nodup, ?_, hc.serves⟩,
    h.fits⟩, .inr ⟨_, rfl, ?_⟩⟩
  · intro u
    show u ∈ t :: s.unlocked ↔ ((s.move t (.unlocked m time)).place u).atUnlocked = true
    by_cases hut : u = t
    · rw [hut, condMove_same]
      simp [CondPlace.atUnlocked]
    · rw [condMove_other hut, ← h.unlocked u]
      simp [hut]
  · exact h.blocked_move hnotBlocked rfl
  · exact List.nodup_cons.mpr ⟨hout, h.unlockedNodup⟩
  · exact fun token htoken u hu => List.mem_cons_of_mem t (h.present token htoken hu)
  · exact fun u hu => List.mem_cons_of_mem t (hc.present u hu)
  · rintro y ⟨c, hc, rfl⟩
    have hserves : Serves c s.tokens := hc.serves
    have hpresent : ∀ u ∈ c, u ∈ s.unlocked := by
      intro u hu
      obtain ⟨token, htoken, hmem⟩ := hserves.mem hu
      exact h.present token htoken hmem
    have htc : t ∉ c := fun hmem => hout (hpresent t hmem)
    refine ⟨s.seen c, ⟨c, ⟨hc.nodup, hpresent, hserves⟩, rfl⟩, ?_⟩
    show CondVar.mk _ _ = CondVar.mk _ _
    congr 1
    · ext u
      show u ∈ t :: s.unlocked ∧ u ∉ c ∨ u ∈ s.blocked ↔
        u = t ∨ u ∈ s.unlocked ∧ u ∉ c ∨ u ∈ s.blocked
      by_cases hut : u = t
      · simp [hut, htc]
      · simp [hut]
    · ext u
      show u ∈ c ∨ ((s.move t (.unlocked m time)).place u).passed = true ↔
        u ∈ c ∨ (s.place u).passed = true
      exact or_congr_right (passed_move hp rfl)

/-- The first blocked thread is released. -/
theorem CondBase.resume (h : CondBase s) {rest : List ThreadId} (hb : s.blocked = t :: rest)
    (hp : s.place t = .blocked m time) :
    CondKeeps s (({ s with blocked := rest }.move t (.taken m true)).log .signals) := by
  have hnone : s.tokens = [] := by
    by_contra hne
    have hempty := h.stored hne
    rw [hb] at hempty
    exact List.cons_ne_nil t rest hempty
  have hout : t ∉ s.unlocked := h.notUnlocked (by rw [hp]; rfl)
  have hparts : t ∉ rest ∧ rest.Nodup := List.nodup_cons.mp (hb ▸ h.blockedNodup)
  have hservesNil : Serves [] s.tokens := hnone ▸ List.Forall₂.nil
  refine ⟨⟨?_, ?_, h.unlockedNodup, hparts.2, fun hne => absurd hnone hne, h.nested, h.present,
    ⟨[], List.nodup_nil, by simp, hservesNil⟩, h.fits⟩, .inr ⟨_, rfl, ?_⟩⟩
  · exact h.unlocked_move hout rfl
  · intro u
    show u ∈ rest ↔ ((s.move t (.taken m true)).place u).atBlocked = true
    by_cases hut : u = t
    · rw [hut, condMove_same]
      simp [CondPlace.atBlocked, hparts.1]
    · rw [condMove_other hut, ← h.blocked u, hb]
      simp [hut]
  · rintro y ⟨c, hc, rfl⟩
    refine ⟨s.seen c, ⟨c, ⟨hc.nodup, hc.present, hc.serves⟩, rfl⟩, .inr ⟨t, ?_, ?_⟩⟩
    · exact .inr (hb ▸ List.mem_cons_self)
    · show CondVar.mk _ _ = CondVar.mk _ _
      congr 1
      · ext u
        show u ∈ s.unlocked ∧ u ∉ c ∨ u ∈ rest ↔
          (u ∈ s.unlocked ∧ u ∉ c ∨ u ∈ s.blocked) ∧ u ≠ t
        rw [hb]
        by_cases hut : u = t
        · simp [hut, hout, hparts.1]
        · simp [hut]
      · ext u
        show u ∈ c ∨ ((s.move t (.taken m true)).place u).passed = true ↔
          u = t ∨ u ∈ c ∨ (s.place u).passed = true
        by_cases hut : u = t
        · rw [hut, condMove_same]
          simp [CondPlace.passed]
        · rw [condMove_other hut]
          simp [hut]

/-- There is a thread for one more token. -/
theorem exists_unchosen (hnodup : s.unlocked.Nodup) (hlen : c.length < s.unlocked.length) :
    ∃ t ∈ s.unlocked, t ∉ c := by
  by_contra hno
  have hsub : s.unlocked ⊆ c := by
    intro t ht
    by_contra hout
    exact hno ⟨t, ht, hout⟩
  have hle := (hnodup.subperm hsub).length_le
  omega

theorem Chosen.all (h : Chosen s c)
    (hlen : s.unlocked.length ≤ s.tokens.length) (ht : t ∈ s.unlocked) : t ∈ c := by
  have hsub := h.nodup.subperm fun u hu => h.present u hu
  have hcount : c.length = s.tokens.length := h.serves.length_eq
  have hperm := hsub.perm_of_length_le (by omega)
  exact hperm.mem_iff.mpr ht

/-- A token is stored for a thread that has not come to the semaphore. -/
theorem CondBase.store (h : CondBase s) (hb : s.blocked = [])
    (hlen : s.tokens.length < s.unlocked.length) (hmax : s.tokens.length < 65535) :
    CondKeeps s ({ s with tokens := s.unlocked :: s.tokens }.log .signals) := by
  obtain ⟨c, hc⟩ := h.chosen
  have hcount : c.length = s.tokens.length := hc.serves.length_eq
  obtain ⟨v, hv, hvc⟩ := exists_unchosen h.unlockedNodup (hcount ▸ hlen)
  refine ⟨⟨h.unlocked, h.blocked, h.unlockedNodup, h.blockedNodup, fun _ => hb, ?_, ?_,
    ⟨v :: c, List.nodup_cons.mpr ⟨hvc, hc.nodup⟩, ?_, List.Forall₂.cons hv hc.serves⟩, ?_⟩,
    .inr ⟨_, rfl, ?_⟩⟩
  · exact List.pairwise_cons.mpr ⟨h.present, h.nested⟩
  · intro token htoken
    rcases List.mem_cons.mp htoken with rfl | htoken
    · exact fun u hu => hu
    · exact h.present token htoken
  · intro u hu
    rcases List.mem_cons.mp hu with rfl | hu
    · exact hv
    · exact hc.present u hu
  · show s.tokens.length + 1 ≤ 65535
    omega
  · rintro y ⟨c', hc', rfl⟩
    obtain ⟨hnodup, hpresent, hserves⟩ := hc'
    cases hserves with
    | @cons w _ c1 _ hw hrest =>
      have hparts := List.nodup_cons.mp hnodup
      have hc1 : Chosen s c1 :=
        ⟨hparts.2, fun u hu => hpresent u (List.mem_cons_of_mem w hu), hrest⟩
      refine ⟨s.seen c1, ⟨c1, hc1, rfl⟩, .inr ⟨w, .inl ⟨hw, hparts.1⟩, ?_⟩⟩
      show CondVar.mk _ _ = CondVar.mk _ _
      congr 1
      · ext u
        show u ∈ s.unlocked ∧ u ∉ w :: c1 ∨ u ∈ s.blocked ↔
          (u ∈ s.unlocked ∧ u ∉ c1 ∨ u ∈ s.blocked) ∧ u ≠ w
        rw [hb]
        by_cases huw : u = w <;> simp [huw]
      · ext u
        show u ∈ w :: c1 ∨ (s.place u).passed = true ↔ u = w ∨ u ∈ c1 ∨ (s.place u).passed = true
        simp [or_assoc]

def CondPlace.letThrough : CondPlace → CondPlace
  | .blocked m _ => .taken m true
  | p => p

theorem condBroadcastLoop_eq (hb : ∀ t ∈ s.blocked, (s.place t).atBlocked = true)
    (hnodup : s.blocked.Nodup) (hnone : s.tokens = []) :
    condBroadcastLoop (s.blocked.length + 2) s =
      { s with
        tokens := [s.unlocked], blocked := [],
        place := fun t => if t ∈ s.blocked then (s.place t).letThrough else s.place t } := by
  generalize hlist : s.blocked = list at hb hnodup ⊢
  induction list generalizing s with
  | nil => simp [condBroadcastLoop, CondState.trytake, CondState.release, hnone, hlist]
  | cons t rest ih =>
    obtain ⟨m, time, hp⟩ : ∃ m time, s.place t = .blocked m time := by
      have hat := hb t List.mem_cons_self
      cases hp : s.place t <;> rw [hp] at hat <;> simp [CondPlace.atBlocked] at hat ⊢
    have hrelease : s.release = { s with blocked := rest }.move t (.taken m true) := by
      simp [CondState.release, CondState.awaken, hlist, hp]
    have hround : condBroadcastLoop ((t :: rest).length + 2) s =
        condBroadcastLoop (rest.length + 2) s.release := by
      rw [List.length_cons, show rest.length + 1 + 2 = (rest.length + 2) + 1 by omega]
      rw [condBroadcastLoop]
      simp only [CondState.trytake, hnone]
    obtain ⟨hout, hrest⟩ := List.nodup_cons.mp hnodup
    have hother : ∀ u ∈ rest, u ≠ t := fun u hu hut => hout (hut ▸ hu)
    have hblocked : ∀ u ∈ rest, ((s.move t (.taken m true)).place u).atBlocked = true := by
      intro u hu
      rw [condMove_other (hother u hu)]
      exact hb u (List.mem_cons_of_mem t hu)
    have hafter := @ih ({ s with blocked := rest }.move t (.taken m true)) hnone rfl hblocked hrest
    rw [hround, hrelease]
    apply hafter.trans
    show CondState.mk _ _ _ _ _ _ _ = CondState.mk _ _ _ _ _ _ _
    congr 1
    funext u
    by_cases hut : u = t
    · simp [hut, hout, hp, CondPlace.letThrough]
    · simp [hut, CondState.move]

/-- One loop for the three cases: a token is stored, threads are blocked, or neither. -/
theorem CondBase.broadcast_eq (h : CondBase s) :
    pthreadCondBroadcast s =
      { s with
        tokens := s.unlocked :: s.tokens.tail, blocked := [],
        place := fun t => (s.place t).letThrough }.log .broadcasts := by
  unfold pthreadCondBroadcast
  congr 1
  have hplace : ∀ t, t ∉ s.blocked → (s.place t).letThrough = s.place t := by
    intro t ht
    have hat : (s.place t).atBlocked ≠ true := fun hat => ht ((h.blocked t).mpr hat)
    cases hp : s.place t <;> rw [hp] at hat <;> simp_all [CondPlace.letThrough, CondPlace.atBlocked]
  cases htokens : s.tokens with
  | nil =>
    rw [condBroadcastLoop_eq (fun t ht => (h.blocked t).mp ht) h.blockedNodup htokens]
    show CondState.mk _ _ _ _ _ _ _ = CondState.mk _ _ _ _ _ _ _
    congr 1
    funext t
    by_cases ht : t ∈ s.blocked
    · rw [if_pos ht]
    · rw [if_neg ht, hplace t ht]
  | cons token rest =>
    have hb : s.blocked = [] := h.stored (htokens ▸ List.cons_ne_nil token rest)
    have hlen : rest.length ≠ 65535 := by
      have hle := h.fits
      rw [htokens, List.length_cons] at hle
      omega
    have hsame : (fun t => (s.place t).letThrough) = s.place := by
      funext t
      exact hplace t (hb ▸ List.not_mem_nil)
    simp [condBroadcastLoop, CondState.trytake, CondState.release, htokens, hb, hlen, hsame]

/-- Every thread between unlocking and the semaphore has a token afterwards. -/
theorem CondBase.broadcast (h : CondBase s)
    (hlen : s.unlocked.length = max 1 s.tokens.length) :
    CondKeeps s (pthreadCondBroadcast s) := by
  rw [h.broadcast_eq]
  obtain ⟨c, hc⟩ := h.chosen
  have hplaces : ∀ u, ((s.place u).letThrough).atUnlocked = (s.place u).atUnlocked ∧
      ((s.place u).letThrough).atBlocked = false ∧
      ((s.place u).letThrough).passed = ((s.place u).passed || (s.place u).atBlocked) := by
    intro u
    cases s.place u <;> simp [CondPlace.letThrough, CondPlace.atUnlocked, CondPlace.atBlocked,
      CondPlace.passed]
  have hsub : s.tokens.tail.Sublist s.tokens := List.tail_sublist s.tokens
  have hmax : (s.unlocked :: s.tokens.tail).length = s.unlocked.length := by
    rw [List.length_cons, List.length_tail, hlen]
    omega
  -- with no token stored there is one thread to have the new one
  have hserved : ∃ c, Chosen s c ∧ ∃ c', c'.Nodup ∧ (∀ t ∈ c', t ∈ s.unlocked) ∧
      Serves c' (s.unlocked :: s.tokens.tail) := by
    refine ⟨c, hc, ?_⟩
    have hserves := hc.serves
    cases htokens : s.tokens with
    | nil =>
      rw [htokens, List.length_nil] at hlen
      obtain ⟨t, ht⟩ := List.length_eq_one_iff.mp hlen
      rw [ht]
      exact ⟨[t], List.nodup_singleton t, by simp,
        List.Forall₂.cons List.mem_cons_self List.Forall₂.nil⟩
    | cons token rest =>
      rw [htokens] at hserves
      cases hserves with
      | @cons x _ c1 _ hx hrest =>
        exact ⟨x :: c1, hc.nodup, hc.present,
          List.Forall₂.cons (hc.present x List.mem_cons_self) hrest⟩
  obtain ⟨c, hc, c', hnodup', hpresent', hserves'⟩ := hserved
  refine ⟨⟨?_, ?_, h.unlockedNodup, List.nodup_nil, fun _ => rfl, ?_, ?_,
    ⟨c', hnodup', hpresent', hserves'⟩, ?_⟩, .inr ⟨_, rfl, ?_⟩⟩
  · intro u
    show u ∈ s.unlocked ↔ ((s.place u).letThrough).atUnlocked = true
    rw [(hplaces u).1]
    exact h.unlocked u
  · intro u
    show u ∈ [] ↔ ((s.place u).letThrough).atBlocked = true
    rw [(hplaces u).2.1]
    simp
  · exact List.pairwise_cons.mpr
      ⟨fun token htoken => h.present token (hsub.subset htoken), h.nested.sublist hsub⟩
  · intro token htoken
    rcases List.mem_cons.mp htoken with rfl | htoken
    · exact fun u hu => hu
    · exact h.present token (hsub.subset htoken)
  · show (s.unlocked :: s.tokens.tail).length ≤ 65535
    have hfits := h.fits
    omega
  · rintro y ⟨c', hc', rfl⟩
    have hall : ∀ u ∈ s.unlocked, u ∈ c' := fun u => hc'.all hmax.ge
    refine ⟨s.seen c, ⟨c, hc, rfl⟩, ?_⟩
    show CondVar.mk _ _ = CondVar.mk _ _
    congr 1
    · ext u
      show u ∈ s.unlocked ∧ u ∉ c' ∨ u ∈ [] ↔ False
      have hu := hall u
      simp only [List.not_mem_nil, or_false, iff_false]
      exact fun hw => hw.2 (hu hw.1)
    · ext u
      show u ∈ c' ∨ ((s.place u).letThrough).passed = true ↔
        (u ∈ c ∨ (s.place u).passed = true) ∨ u ∈ s.unlocked ∧ u ∉ c ∨ u ∈ s.blocked
      have hu : u ∈ c' ↔ u ∈ s.unlocked := ⟨hc'.present u, hall u⟩
      have hin : u ∈ c → u ∈ s.unlocked := hc.present u
      rw [(hplaces u).2.2, hu, h.blocked u, Bool.or_eq_true]
      tauto

/-- A thread comes to the semaphore and finds no token. -/
theorem CondBase.find (h : CondBase s) (hp : s.place t = .unlocked m time)
    (hnone : s.tokens = []) : CondKeeps s (condSemTake s t m time) := by
  have hat : t ∈ s.unlocked := (h.unlocked t).mpr (by rw [hp]; rfl)
  have hout : t ∉ s.blocked := h.notBlocked (by rw [hp]; rfl)
  have hpassed : (s.place t).passed = false := by rw [hp]; rfl
  have hleft : ∀ u, u ∈ s.unlocked.erase t ↔ u ≠ t ∧ u ∈ s.unlocked :=
    fun u => h.unlockedNodup.mem_erase_iff
  have hserves : Serves [] s.tokens := hnone ▸ List.Forall₂.nil
  have hchosen : Chosen s [] := ⟨List.nodup_nil, by simp, hserves⟩
  unfold condSemTake
  simp only [hnone]
  split
  · refine ⟨⟨h.unlocked_erase rfl, h.blocked_move hout rfl, h.unlockedNodup.erase t,
      h.blockedNodup, fun hne => absurd rfl hne, List.Pairwise.nil,
      fun token htoken => absurd htoken List.not_mem_nil,
      ⟨[], List.nodup_nil, by simp, List.Forall₂.nil⟩, Nat.zero_le _⟩, .inr ⟨_, rfl, ?_⟩⟩
    rintro y ⟨c, ⟨-, -, hserves⟩, rfl⟩
    cases hserves
    refine ⟨s.seen [], ⟨[], hchosen, rfl⟩, .inl ⟨hat, by simp⟩, ?_⟩
    show CondVar.mk _ _ = CondVar.mk _ _
    congr 1
    · ext u
      show u ∈ s.unlocked.erase t ∧ u ∉ [] ∨ u ∈ s.blocked ↔
        (u ∈ s.unlocked ∧ u ∉ [] ∨ u ∈ s.blocked) ∧ u ≠ t
      rw [hleft]
      by_cases hut : u = t
      · simp [hut, hout]
      · simp [hut]
    · ext u
      show u ∈ [] ∨ ((s.move t (.taken m false)).place u).passed = true ↔
        u ∈ [] ∨ (s.place u).passed = true
      exact or_congr_right (passed_move hpassed rfl)
  · refine ⟨⟨h.unlocked_erase rfl, ?_, h.unlockedNodup.erase t, ?_, fun hne => absurd rfl hne,
      List.Pairwise.nil, fun token htoken => absurd htoken List.not_mem_nil,
      ⟨[], List.nodup_nil, by simp, List.Forall₂.nil⟩, Nat.zero_le _⟩, .inl ⟨rfl, ?_⟩⟩
    · intro u
      show u ∈ s.blocked ++ [t] ↔ ((s.move t (.blocked m time)).place u).atBlocked = true
      by_cases hut : u = t
      · rw [hut, condMove_same]
        simp [CondPlace.atBlocked]
      · rw [condMove_other hut, ← h.blocked u]
        simp [hut]
    · exact List.Nodup.append h.blockedNodup (List.nodup_singleton t) (by simpa using hout)
    · rintro y ⟨c, ⟨-, -, hserves⟩, rfl⟩
      cases hserves
      refine ⟨[], hchosen, ?_⟩
      show CondVar.mk _ _ = CondVar.mk _ _
      congr 1
      · ext u
        show u ∈ s.unlocked.erase t ∧ u ∉ [] ∨ u ∈ s.blocked ++ [t] ↔
          u ∈ s.unlocked ∧ u ∉ [] ∨ u ∈ s.blocked
        rw [hleft]
        by_cases hut : u = t
        · simp [hut, hat]
        · simp [hut]
      · ext u
        show u ∈ [] ∨ ((s.move t (.blocked m time)).place u).passed = true ↔
          u ∈ [] ∨ (s.place u).passed = true
        exact or_congr_right (passed_move hpassed rfl)

/-- A thread comes to the semaphore and takes one of the tokens it may have. -/
theorem CondBase.take (h : CondBase s) (hp : s.place t = .unlocked m time)
    (hmem : ∃ token ∈ s.tokens, t ∈ token) : CondKeeps s (condSemTake s t m time) := by
  have hat : t ∈ s.unlocked := (h.unlocked t).mpr (by rw [hp]; rfl)
  have hout : t ∉ s.blocked := h.notBlocked (by rw [hp]; rfl)
  have hne : s.tokens ≠ [] := by
    obtain ⟨token, htoken, -⟩ := hmem
    exact List.ne_nil_of_mem htoken
  have hleft : ∀ u, u ∈ s.unlocked.erase t ↔ u ≠ t ∧ u ∈ s.unlocked :=
    fun u => h.unlockedNodup.mem_erase_iff
  have htake : condSemTake s t m time =
      { s with unlocked := s.unlocked.erase t, tokens := leaveTokens t s.tokens }.move t
        (.taken m true) := by
    unfold condSemTake
    cases htokens : s.tokens with
    | nil => exact absurd htokens hne
    | cons token rest => rfl
  have hsub : (takeOldest t s.tokens).Sublist s.tokens := takeOldest_sublist
  rw [htake]
  refine ⟨⟨h.unlocked_erase rfl, h.blocked_move hout rfl, h.unlockedNodup.erase t,
    h.blockedNodup, fun _ => h.stored hne, ?_, ?_, ?_, ?_⟩, .inl ⟨rfl, ?_⟩⟩
  · apply List.pairwise_map.mpr
    apply (h.nested.sublist hsub).imp
    intro token older hsubset
    exact List.filter_subset _ hsubset
  · intro token htoken u hu
    obtain ⟨stored, hstored, rfl⟩ := List.mem_map.mp htoken
    obtain ⟨hu, hut⟩ := List.mem_filter.mp hu
    exact (hleft u).mpr ⟨by simpa using hut, h.present stored (hsub.subset hstored) hu⟩
  · obtain ⟨c, hc⟩ := h.chosen
    obtain ⟨v, c', hserves, hperm, htc, -⟩ := hc.serves.leave hc.nodup h.nested hmem
    have hnodup : c'.Nodup := (List.nodup_cons.mp (hperm.nodup_iff.mp hc.nodup)).2
    refine ⟨c', hnodup, ?_, serves_filter.mpr ⟨hserves, htc⟩⟩
    intro u hu
    have hin : u ∈ s.unlocked := hc.present u (hperm.mem_iff.mpr (List.mem_cons_of_mem v hu))
    exact (hleft u).mpr ⟨fun hut => htc (hut ▸ hu), hin⟩
  · show (leaveTokens t s.tokens).length ≤ 65535
    have hlen := hsub.length_le
    have hfits := h.fits
    simp only [leaveTokens, List.length_map]
    omega
  · rintro y ⟨c', ⟨hnodup, hpresent, hserves⟩, rfl⟩
    obtain ⟨hserves, htc⟩ := serves_filter.mp hserves
    obtain ⟨c, hall, hperm⟩ := Serves.rejoin hmem hserves
    have hc : Chosen s c := by
      refine ⟨hperm.nodup_iff.mpr (List.nodup_cons.mpr ⟨htc, hnodup⟩), fun u hu => ?_, hall⟩
      rcases List.mem_cons.mp (hperm.mem_iff.mp hu) with rfl | hu
      · exact hat
      · exact ((hleft u).mp (hpresent u hu)).2
    refine ⟨c, hc, ?_⟩
    show CondVar.mk _ _ = CondVar.mk _ _
    congr 1
    · ext u
      show u ∈ s.unlocked.erase t ∧ u ∉ c' ∨ u ∈ s.blocked ↔
        u ∈ s.unlocked ∧ u ∉ c ∨ u ∈ s.blocked
      rw [hleft, hperm.mem_iff, List.mem_cons]
      tauto
    · ext u
      show u ∈ c' ∨ ((s.move t (.taken m true)).place u).passed = true ↔
        u ∈ c ∨ (s.place u).passed = true
      rw [hperm.mem_iff, List.mem_cons]
      by_cases hut : u = t
      · rw [hut, condMove_same]
        simp [CondPlace.passed]
      · rw [condMove_other hut]
        simp [hut]

/-- The timer of a blocked thread fires. -/
theorem CondBase.expire (h : CondBase s) (hp : s.place t = .blocked m time) :
    CondKeeps s (({ s with blocked := s.blocked.erase t }.awaken t false).log (.expires t)) := by
  have hat : t ∈ s.blocked := (h.blocked t).mpr (by rw [hp]; rfl)
  have hout : t ∉ s.unlocked := h.notUnlocked (by rw [hp]; rfl)
  have hpassed : (s.place t).passed = false := by rw [hp]; rfl
  have hleft : ∀ u, u ∈ s.blocked.erase t ↔ u ≠ t ∧ u ∈ s.blocked :=
    fun u => h.blockedNodup.mem_erase_iff
  have hawaken : { s with blocked := s.blocked.erase t }.awaken t false =
      { s with blocked := s.blocked.erase t }.move t (.taken m false) := by
    simp only [CondState.awaken, hp]
  obtain ⟨c, hc⟩ := h.chosen
  rw [hawaken]
  refine ⟨⟨h.unlocked_move hout rfl, ?_, h.unlockedNodup, h.blockedNodup.erase t, ?_, h.nested,
    h.present, ⟨c, hc.nodup, hc.present, hc.serves⟩, h.fits⟩, .inr ⟨_, rfl, ?_⟩⟩
  · intro u
    show u ∈ s.blocked.erase t ↔ ((s.move t (.taken m false)).place u).atBlocked = true
    rw [hleft]
    by_cases hut : u = t
    · rw [hut, condMove_same]
      simp [CondPlace.atBlocked]
    · rw [condMove_other hut, ← h.blocked u]
      simp [hut]
  · intro hne
    show s.blocked.erase t = []
    rw [h.stored hne]
    rfl
  · rintro y ⟨c, ⟨hnodup, hpresent, hserves⟩, rfl⟩
    have htc : t ∉ c := fun hmem => hout (hpresent t hmem)
    refine ⟨s.seen c, ⟨c, ⟨hnodup, hpresent, hserves⟩, rfl⟩, .inr hat, ?_⟩
    show CondVar.mk _ _ = CondVar.mk _ _
    congr 1
    · ext u
      show u ∈ s.unlocked ∧ u ∉ c ∨ u ∈ s.blocked.erase t ↔
        (u ∈ s.unlocked ∧ u ∉ c ∨ u ∈ s.blocked) ∧ u ≠ t
      rw [hleft]
      by_cases hut : u = t
      · simp [hut, hout]
      · simp [hut]
    · ext u
      show u ∈ c ∨ ((s.move t (.taken m false)).place u).passed = true ↔
        u ∈ c ∨ (s.place u).passed = true
      exact or_congr_right (passed_move hpassed rfl)

/-- `pthread_cond_destroy` while threads wait. -/
theorem CondBase.busy (h : CondBase s) (hnone : s.tokens = [])
    (hwait : s.unlocked ≠ [] ∨ s.blocked ≠ []) : CondKeeps s (pthreadCondDestroy s) := by
  have hbusy : pthreadCondDestroy s = s.log (.destroys false) := by
    simp [pthreadCondDestroy, CondState.trytake, hnone]
  rw [hbusy]
  refine ⟨⟨h.unlocked, h.blocked, h.unlockedNodup, h.blockedNodup, h.stored, h.nested, h.present,
    ?_, h.fits⟩, .inr ⟨_, rfl, ?_⟩⟩
  · obtain ⟨c, hc⟩ := h.chosen
    exact ⟨c, hc.nodup, hc.present, hc.serves⟩
  · rintro y ⟨c, ⟨hnodup, hpresent, hserves⟩, rfl⟩
    refine ⟨s.seen c, ⟨c, ⟨hnodup, hpresent, hserves⟩, rfl⟩, ?_, rfl⟩
    have hserves : Serves c s.tokens := hserves
    rw [hnone] at hserves
    cases hserves
    obtain ⟨t, ht⟩ : ∃ t, t ∈ s.unlocked ∨ t ∈ s.blocked := by
      rcases hwait with hne | hne
      · obtain ⟨t, ht⟩ := List.exists_mem_of_ne_nil _ hne
        exact ⟨t, .inl ht⟩
      · obtain ⟨t, ht⟩ := List.exists_mem_of_ne_nil _ hne
        exact ⟨t, .inr ht⟩
    have hmem : t ∈ (s.seen []).waiting := ht.imp_left fun h => ⟨h, by simp⟩
    simp [Set.nonempty_iff_ne_empty.mp ⟨t, hmem⟩]

/-- A condition that is not initialised has nobody at it. -/
theorem CondBase.unused (h : CondBase s) (hearly : ∀ t, (s.place t).early = true) :
    s.unlocked = [] ∧ s.blocked = [] ∧ s.tokens = [] := by
  have hunlocked : s.unlocked = [] := by
    apply List.eq_nil_iff_forall_not_mem.mpr
    intro t ht
    have hat := (h.unlocked t).mp ht
    have hplace := hearly t
    cases hp : s.place t <;> rw [hp] at hat hplace <;>
      simp [CondPlace.atUnlocked, CondPlace.early] at hat hplace
  have hblocked : s.blocked = [] := by
    apply List.eq_nil_iff_forall_not_mem.mpr
    intro t ht
    have hat := (h.blocked t).mp ht
    have hplace := hearly t
    cases hp : s.place t <;> rw [hp] at hat hplace <;>
      simp [CondPlace.atBlocked, CondPlace.early] at hat hplace
  obtain ⟨c, hc⟩ := h.chosen
  have hnil : c = [] := by
    apply List.eq_nil_iff_forall_not_mem.mpr
    intro t ht
    have hmem := hc.present t ht
    rw [hunlocked] at hmem
    exact List.not_mem_nil hmem
  refine ⟨hunlocked, hblocked, List.length_eq_zero_iff.mp ?_⟩
  rw [← hc.serves.length_eq, hnil]
  rfl

theorem CondBase.idle (h : CondBase s) (hearly : ∀ t, (s.place t).early = true) :
    CondKeeps s (s.log (.destroys true)) := by
  obtain ⟨hunlocked, hblocked, -⟩ := h.unused hearly
  refine ⟨⟨h.unlocked, h.blocked, h.unlockedNodup, h.blockedNodup, h.stored, h.nested, h.present,
    ?_, h.fits⟩, .inr ⟨_, rfl, ?_⟩⟩
  · obtain ⟨c, hc⟩ := h.chosen
    exact ⟨c, hc.nodup, hc.present, hc.serves⟩
  · rintro y ⟨c, ⟨hnodup, hpresent, hserves⟩, rfl⟩
    refine ⟨s.seen c, ⟨c, ⟨hnodup, hpresent, hserves⟩, rfl⟩, ?_, rfl⟩
    simp [CondState.seen, hunlocked, hblocked]

/-- The wait returns. -/
theorem CondBase.returns (h : CondBase s) (hp : s.place t = .taken m true) :
    CondKeeps s ((s.move t .outside).log (.returns t)) := by
  have hout : t ∉ s.unlocked := h.notUnlocked (by rw [hp]; rfl)
  have hnotBlocked : t ∉ s.blocked := h.notBlocked (by rw [hp]; rfl)
  obtain ⟨c, hc⟩ := h.chosen
  refine ⟨⟨h.unlocked_move hout rfl, h.blocked_move hnotBlocked rfl, h.unlockedNodup,
    h.blockedNodup, h.stored, h.nested, h.present, ⟨c, hc.nodup, hc.present, hc.serves⟩, h.fits⟩,
    .inr ⟨_, rfl, ?_⟩⟩
  rintro y ⟨c, ⟨hnodup, hpresent, hserves⟩, rfl⟩
  have htc : t ∉ c := fun hmem => hout (hpresent t hmem)
  refine ⟨s.seen c, ⟨c, ⟨hnodup, hpresent, hserves⟩, rfl⟩, .inr (by rw [hp]; rfl), ?_⟩
  show CondVar.mk _ _ = CondVar.mk _ _
  congr 1
  ext u
  show u ∈ c ∨ ((s.move t .outside).place u).passed = true ↔
    (u ∈ c ∨ (s.place u).passed = true) ∧ u ≠ t
  by_cases hut : u = t
  · rw [hut, condMove_same]
    simp [CondPlace.passed, htc]
  · rw [condMove_other hut]
    simp [hut]

theorem CondKeeps.same {s1 : CondState} (h : CondKeeps s s1) (hsame : CondSame s1 s')
    (hh : s'.history = s1.history) : CondKeeps s s' := by
  refine ⟨hsame.base h.1, ?_⟩
  rcases h.2 with ⟨hold, hback⟩ | ⟨e, hmore, hback⟩
  · exact .inl ⟨hh.trans hold, fun y hy => hback y (hsame.fits hy)⟩
  · exact .inr ⟨e, hh.trans hmore, fun y hy => hback y (hsame.fits hy)⟩

/-- A call that is done with the condition ends. -/
theorem CondKeeps.leave {s1 : CondState} {op : CondOp} (h : CondKeeps s s1)
    (hp : s1.place t = .ready op) : CondKeeps s (s1.move t .outside) :=
  h.same (condSame_move (by rw [hp]; rfl) (by rw [hp]; rfl) (by rw [hp]; rfl)) rfl

theorem CondSame.after {s1 : CondState} (h1 : CondSame s s1) (h2 : CondSame s1 s') :
    CondSame s s' where
  tokens := h2.tokens.trans h1.tokens
  blocked := h2.blocked.trans h1.blocked
  unlocked := h2.unlocked.trans h1.unlocked
  atUnlocked t := (h2.atUnlocked t).trans (h1.atUnlocked t)
  atBlocked t := (h2.atBlocked t).trans (h1.atBlocked t)
  passed t := (h2.passed t).trans (h1.passed t)

/-- The same step from a state in which the condition is the same. -/
theorem CondKeeps.before {s1 : CondState} (hsame : CondSame s s1) (hh : s1.history = s.history)
    (h : CondKeeps s1 s') : CondKeeps s s' := by
  refine ⟨h.1, ?_⟩
  rcases h.2 with ⟨hold, hback⟩ | ⟨e, hmore, hback⟩
  · exact .inl ⟨hold.trans hh, fun y hy => hsame.fits (hback y hy)⟩
  · refine .inr ⟨e, hh ▸ hmore, fun y hy => ?_⟩
    obtain ⟨x, hx, he⟩ := hback y hy
    exact ⟨x, hsame.fits hx, he⟩

theorem CondBase.signal (h : CondBase s) {op : CondOp} (hp : s.place t = .ready op)
    (hok : s.blocked ≠ [] ∨ s.tokens.length < s.unlocked.length ∧ s.tokens.length < 65535) :
    CondKeeps s ((pthreadCondSignal s).move t .outside) := by
  cases hb : s.blocked with
  | nil =>
    obtain ⟨hlen, hmax⟩ : s.tokens.length < s.unlocked.length ∧ s.tokens.length < 65535 :=
      hok.resolve_left fun hne => hne hb
    have hrelease : s.release = { s with tokens := s.unlocked :: s.tokens } := by
      simp only [CondState.release, hb, if_neg (show s.tokens.length ≠ 65535 by omega)]
    unfold pthreadCondSignal
    rw [hrelease]
    exact (h.store hb hlen hmax).leave hp
  | cons u rest =>
    obtain ⟨m, time, hu⟩ : ∃ m time, s.place u = .blocked m time := by
      have hat := (h.blocked u).mp (hb ▸ List.mem_cons_self)
      cases hp : s.place u <;> rw [hp] at hat <;> simp [CondPlace.atBlocked] at hat ⊢
    have hrelease : s.release = { s with blocked := rest }.move u (.taken m true) := by
      simp only [CondState.release, CondState.awaken, hb, hu]
    have htu : t ≠ u := by
      rintro rfl
      rw [hp] at hu
      exact CondPlace.noConfusion hu
    unfold pthreadCondSignal
    rw [hrelease]
    exact (h.resume hb hu).leave ((condMove_other htu).trans hp)

theorem CondBase.run (h : CondBase s) (hok : CondSafe s (.run t))
    (hs : condRun s t = some s') : CondKeeps s s' := by
  unfold condRun at hs
  split at hs
  next m time hp =>
    obtain rfl := Option.some.inj hs
    unfold condUnlock
    split
    next hno =>
      exact (condSame_move (by rw [hp]; rfl) (by rw [hp]; rfl) (by rw [hp]; rfl)).keeps h rfl
    next s1 h1 =>
      obtain ⟨hsame, hh, hplace, -⟩ := condUnlock_same h1
      have hp1 : s1.place t = .ready (.wait m time) := (congrFun hplace t).trans hp
      exact ((hsame.base h).waits (by rw [hp1]; rfl) (by rw [hp1]; rfl) (by rw [hp1]; rfl)).before
        hsame hh
  next hp =>
    obtain rfl := Option.some.inj hs
    simp only [CondSafe, hp] at hok
    exact h.signal hp hok
  next hp =>
    obtain rfl := Option.some.inj hs
    simp only [CondSafe, hp] at hok
    apply (h.broadcast hok).leave
    rw [h.broadcast_eq]
    show (s.place t).letThrough = _
    rw [hp]
    rfl
  next hp =>
    obtain rfl := Option.some.inj hs
    simp only [CondSafe, hp] at hok
    apply (h.busy hok.1 hok.2).leave
    simp only [pthreadCondDestroy, CondState.trytake, hok.1]
    exact hp
  next => simp at hs

theorem CondBase.step {a : CondAction} (h : CondBase s) (hfresh : CondFresh s)
    (hok : CondSafe s a) (hs : condStep s a = some s') : CondKeeps s s' := by
  cases a with
  | lock t m =>
    simp only [condStep] at hs
    split at hs
    · obtain ⟨hsame, hh, -⟩ := condLock_same hs
      exact hsame.keeps h hh
    · simp at hs
  | unlock t m =>
    simp only [condStep] at hs
    split at hs
    · obtain ⟨hsame, hh, -⟩ := condUnlock_same hs
      exact hsame.keeps h hh
    · simp at hs
  | call t op =>
    simp only [condStep] at hs
    split at hs
    next hp =>
      obtain rfl := Option.some.inj hs
      unfold condCall
      split
      · exact (condSame_move (by rw [hp]; rfl) (by rw [hp]; rfl) (by rw [hp]; rfl)).keeps h rfl
      next hinit =>
        split
        · exact h.idle (hfresh (by simpa using hinit)).2
        · exact (condSame_move (by rw [hp]; rfl) (by rw [hp]; rfl) (by rw [hp]; rfl)).keeps h rfl
    next => simp at hs
  | init t =>
    simp only [condStep] at hs
    split at hs
    next op hp =>
      obtain rfl := Option.some.inj hs
      obtain ⟨-, hblocked, htokens⟩ := h.unused (hfresh hok).2
      have hsame : CondSame s s.fresh :=
        ⟨htokens.symm, hblocked.symm, rfl, fun _ => rfl, fun _ => rfl, fun _ => rfl⟩
      have hp' : s.fresh.place t = .checked op := hp
      have hmove := condSame_move (s := s.fresh) (t := t) (p := .ready op)
        (by rw [hp']; rfl) (by rw [hp']; rfl) (by rw [hp']; rfl)
      exact (hsame.after hmove).keeps h rfl
    next => simp at hs
  | run t => exact h.run hok hs
  | take t =>
    simp only [condStep] at hs
    split at hs
    next m time hp =>
      obtain rfl := Option.some.inj hs
      rcases hok with hnone | hmem
      · exact h.find hp hnone
      · exact h.take hp hmem
    next => simp at hs
  | timeout t =>
    simp only [condStep] at hs
    split at hs
    next m time hp =>
      split at hs
      · exact Option.some.inj hs ▸ h.expire hp
      · simp at hs
    next => simp at hs
  | relock t =>
    simp only [condStep, condRelock] at hs
    split at hs
    next m ok hp =>
      obtain ⟨s1, h1, rfl⟩ := Option.map_eq_some_iff.mp hs
      obtain ⟨hsame, hh, hplace, -⟩ := condLock_same h1
      have hp1 : s1.place t = .taken m ok := (congrFun hplace t).trans hp
      split
      next hok' => exact ((hsame.base h).returns (hok' ▸ hp1)).before hsame hh
      next hok' =>
        have hfalse : ok = false := by simpa using hok'
        rw [hfalse] at hp1
        have hmove := condSame_move (s := s1) (t := t) (p := .outside)
          (by rw [hp1]; rfl) (by rw [hp1]; rfl) (by rw [hp1]; rfl)
        exact (hmove.keeps (hsame.base h) rfl).before hsame hh
    next => simp at hs

theorem condRelease_initialised : s.release.initialised = s.initialised := by
  unfold CondState.release
  split
  · unfold CondState.awaken
    split <;> rfl
  · rfl

theorem condSemTake_initialised :
    (condSemTake s t m time).initialised = s.initialised := by
  unfold condSemTake
  dsimp only
  split
  · split <;> rfl
  · rfl

/-- Only a destroy that finds a token makes a condition uninitialised. -/
theorem CondBase.run_initialised (h : CondBase s) (hok : CondSafe s (.run t))
    (hs : condRun s t = some s') : s'.initialised = s.initialised := by
  unfold condRun at hs
  split at hs
  next m time hp =>
    obtain rfl := Option.some.inj hs
    unfold condUnlock
    split
    next => rfl
    next s1 h1 => exact (condUnlock_same h1).2.2.2
  next => exact Option.some.inj hs ▸ condRelease_initialised
  next =>
    obtain rfl := Option.some.inj hs
    rw [h.broadcast_eq]
    rfl
  next hp =>
    obtain rfl := Option.some.inj hs
    simp only [CondSafe, hp] at hok
    simp only [pthreadCondDestroy, CondState.trytake, hok.1]
    rfl
  next => simp at hs

theorem CondFresh.step {a : CondAction} (h : CondFresh s) (hbase : CondBase s)
    (hok : CondSafe s a) (hs : condStep s a = some s') : CondFresh s' := by
  intro hinit'
  have hlate : ∀ t, (s.place t).early = false → s.initialised = true := by
    intro t ht
    by_contra hinit
    have hearly := (h (by simpa using hinit)).2 t
    rw [ht] at hearly
    exact Bool.noConfusion hearly
  cases a with
  | lock t m =>
    simp only [condStep] at hs
    split at hs
    · obtain ⟨hsame, -, hplace, hinit⟩ := condLock_same hs
      rw [hsame.tokens, hplace]
      exact h (hinit ▸ hinit')
    · simp at hs
  | unlock t m =>
    simp only [condStep] at hs
    split at hs
    · obtain ⟨hsame, -, hplace, hinit⟩ := condUnlock_same hs
      rw [hsame.tokens, hplace]
      exact h (hinit ▸ hinit')
    · simp at hs
  | call t op =>
    simp only [condStep] at hs
    split at hs
    · obtain rfl := Option.some.inj hs
      unfold condCall at hinit' ⊢
      split at hinit'
      next hinit => exact absurd (hinit.symm.trans hinit') (by simp)
      next hinit =>
        obtain ⟨htokens, hearly⟩ := h (by simpa using hinit)
        rw [if_neg hinit]
        split
        · exact ⟨htokens, hearly⟩
        · refine ⟨htokens, fun u => ?_⟩
          by_cases hut : u = t
          · rw [hut, condMove_same]
            rfl
          · rw [condMove_other hut]
            exact hearly u
    · simp at hs
  | init t =>
    simp only [condStep] at hs
    split at hs
    · obtain rfl := Option.some.inj hs
      exact Bool.noConfusion hinit'
    · simp at hs
  | run t =>
    have hready : (s.place t).early = false := by
      simp only [condStep, condRun] at hs
      split at hs
      next hp => rw [hp]; rfl
      next hp => rw [hp]; rfl
      next hp => rw [hp]; rfl
      next hp => rw [hp]; rfl
      next => simp at hs
    rw [hbase.run_initialised hok hs, hlate t hready] at hinit'
    exact Bool.noConfusion hinit'
  | take t =>
    simp only [condStep] at hs
    split at hs
    next m time hp =>
      obtain rfl := Option.some.inj hs
      rw [condSemTake_initialised, hlate t (by rw [hp]; rfl)] at hinit'
      exact Bool.noConfusion hinit'
    next => simp at hs
  | timeout t =>
    simp only [condStep] at hs
    split at hs
    next m time hp =>
      split at hs
      · obtain rfl := Option.some.inj hs
        simp only [CondState.log, CondState.awaken, hp] at hinit'
        exact absurd ((hlate t (by rw [hp]; rfl)).symm.trans hinit') (by simp)
      · simp at hs
    next => simp at hs
  | relock t =>
    simp only [condStep, condRelock] at hs
    split at hs
    next m ok hp =>
      obtain ⟨s1, h1, rfl⟩ := Option.map_eq_some_iff.mp hs
      have hinit := (condLock_same h1).2.2.2.trans (hlate t (by rw [hp]; rfl))
      split at hinit' <;> exact absurd (hinit.symm.trans hinit') (by simp)
    next => simp at hs

end

instance decidableCondSafe (s : CondState) : ∀ a, Decidable (CondSafe s a)
  | .init _ => inferInstanceAs (Decidable (_ = _))
  | .run t =>
    match h : s.place t with
    | .ready .signal =>
      decidable_of_iff
        (s.blocked ≠ [] ∨ s.tokens.length < s.unlocked.length ∧ s.tokens.length < 65535)
        (by simp [CondSafe, h])
    | .ready .broadcast =>
      decidable_of_iff (s.unlocked.length = max 1 s.tokens.length) (by simp [CondSafe, h])
    | .ready .destroy =>
      decidable_of_iff (s.tokens = [] ∧ (s.unlocked ≠ [] ∨ s.blocked ≠ []))
        (by simp [CondSafe, h])
    | .ready (.wait _ _) => isTrue (by simp [CondSafe, h])
    | .outside => isTrue (by simp [CondSafe, h])
    | .checked _ => isTrue (by simp [CondSafe, h])
    | .unlocked _ _ => isTrue (by simp [CondSafe, h])
    | .blocked _ _ => isTrue (by simp [CondSafe, h])
    | .taken _ _ => isTrue (by simp [CondSafe, h])
  | .take _ => inferInstanceAs (Decidable (_ ∨ _))
  | .lock _ _ => isTrue trivial
  | .unlock _ _ => isTrue trivial
  | .call _ _ => isTrue trivial
  | .timeout _ => isTrue trivial
  | .relock _ => isTrue trivial

def condAfter (as : List CondAction) : CondState :=
  (runFrom condStep as (condStart true)).getD (condStart true)

/-- A wait up to where the mutex is unlocked. -/
def condBegins (t : ThreadId) (time : Int) : List CondAction :=
  [.lock t 0, .call t (.wait 0 time), .run t]

def condWhole (t : ThreadId) (op : CondOp) : List CondAction := [.call t op, .run t]

/-- A broadcast finds a thread blocked and another on its way; then a destroy that fails, a time-out
and a signal. -/
def broadcastMeetsTwo : List CondAction :=
  condBegins 1 (-1) ++ [.take 1] ++ condBegins 2 5 ++ condWhole 3 .broadcast ++
    [.relock 1, .unlock 1 0, .take 2, .relock 2, .unlock 2 0] ++
    condBegins 1 5 ++ [.take 1] ++ condBegins 2 (-1) ++ [.take 2] ++ condWhole 3 .destroy ++
    [.timeout 1, .relock 1, .unlock 1 0] ++ condWhole 3 .signal ++ [.relock 2]

/-- A notification that comes while nobody waits, and a wait after it. -/
def notifiedBefore (op : CondOp) : List CondAction :=
  condWhole 1 op ++ condBegins 2 (-1) ++ [.take 2]

end RTThread
