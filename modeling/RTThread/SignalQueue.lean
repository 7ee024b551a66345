import RTThread.SignalInvariant

namespace RTThread

/-- The nodes from `p`, at most `fuel` of them. -/
def sigNodes (mem : Word → Word) : Nat → Word → List Word
  | 0, _ => []
  | fuel + 1, p =>
    if p = 0 then []
    else
      let field := mem (listField p)
      p :: sigNodes mem fuel (if field = 0 then 0 else slistEntry field)

namespace SigState

/-- The nodes of a thread's `si_list`. -/
def queueNodes (s : SigState) (t : ThreadId) : List Word :=
  sigNodes s.mem s.pool.length (s.thread t).siList

/-- `rt_signal_wait` finds a wanted node, and takes the first one only if no node is behind it. -/
def SearchSafe (s : SigState) (t : ThreadId) (set : Word) : Prop :=
  match s.queueNodes t with
  | [] => True
  | a :: rest => if s.wanted set a then rest = [] else ∃ b ∈ rest, s.wanted set b = true

instance decidableSearchSafe (s : SigState) (t : ThreadId) (set : Word) :
    Decidable (s.SearchSafe t set) := by
  unfold SearchSafe
  split <;> infer_instance

/-- A call of `rt_thread_kill` has raised the signal and not queued it yet, or its node has been
taken for a handler that has not returned. -/
def InFlight (s : SigState) (t : ThreadId) (n : Nat) : Prop :=
  (∃ f ∈ s.kills, f.raises t n = true) ∨ ∃ f ∈ s.frames t, f.handles n = true

/-- The pending bit is set exactly when one node of the list has the signal's number. -/
def Agrees (s : SigState) (t : ThreadId) (n : Nat) : Prop :=
  (s.thread t).sigPending.getLsbD n = true ↔ (s.queueNodes t).countP (siSigno s.mem · == n) = 1

end SigState

/-- A call of `rt_thread_kill` does not search the list, and finds a free node. -/
def KillSafe (s : SigState) : KillFrame → Prop
  | .search _ _ _ => False
  | .alloc _ _ => s.free ≠ []
  | _ => True

instance decidableKillSafe (s : SigState) (f : KillFrame) : Decidable (KillSafe s f) := by
  unfold KillSafe
  split <;> infer_instance

/-- The set that a thread in `rt_signal_wait` waits for. -/
def SigState.waitingFor (s : SigState) (t : ThreadId) : Option Word :=
  match s.frames t with
  | .waiting set :: _ => some set
  | _ => none

/-- The search of a thread that wakes in `rt_signal_wait`, unless it has timed out. -/
def WokenSafe (s : SigState) (t : ThreadId) : Prop :=
  ∀ set ∈ s.waitingFor t, (s.thread t).error = .etimeout ∨ s.SearchSafe t set

instance decidableWokenSafe (s : SigState) (t : ThreadId) : Decidable (WokenSafe s t) :=
  Option.decidableForallMem (s.waitingFor t)

/-- `rt_thread_kill` is called for signals that are not pending and finds a free node;
`rt_signal_wait` does not search past the list, nor take its first node with others behind. -/
def KeepsSignals (s : SigState) : SigAction → Prop
  | .kill t signo => sigValid signo = false ∨ (s.thread t).sigPending &&& sigMask signo = 0
  | .killNext f => KillSafe s f
  | .wait t set _ => (s.thread t).sigPending &&& set = 0 ∨ s.SearchSafe t set
  | .woken t => WokenSafe s t
  | _ => True

instance decidableKeepsSignals (s : SigState) (a : SigAction) : Decidable (KeepsSignals s a) := by
  unfold KeepsSignals
  split <;> infer_instance

section
variable {s s' : SigState} {q : ThreadId → List Word} {t : ThreadId} {n : Nat} {set : Word}
  {mem : Word → Word} {nodes : List Word} {p : Word} {e : List SigEvent}

theorem sigNodes_eq (h : SigList mem p nodes) (hne : ∀ a ∈ nodes, a ≠ 0 ∧ listField a ≠ 0) {fuel : Nat}
    (hfuel : nodes.length ≤ fuel) : sigNodes mem fuel p = nodes := by
  induction nodes generalizing p fuel with
  | nil =>
    obtain rfl := sigList_nil.mp h
    cases fuel <;> rfl
  | cons a nodes ih =>
    obtain ⟨fuel, rfl⟩ := Nat.exists_eq_add_of_le' (Nat.one_le_of_lt hfuel)
    obtain rfl : p = a := h.head
    have hrest : ∀ b ∈ nodes, b ≠ 0 ∧ listField b ≠ 0 := fun b hb =>
      hne b (List.mem_cons_of_mem p hb)
    have hstep : sigNodes mem (fuel + 1) p = p :: sigNodes mem fuel
        (if mem (listField p) = 0 then 0 else slistEntry (mem (listField p))) :=
      if_neg (hne p List.mem_cons_self).1
    rw [hstep, h.tail_head fun b hb => (hrest b hb).2]
    exact congrArg (p :: ·) (ih h.tail hrest (Nat.le_of_succ_le_succ hfuel))

theorem SigInv.queueNodes_eq (hi : SigInv s q) (t : ThreadId) : s.queueNodes t = q t :=
  sigNodes_eq (hi.list t) (fun a ha => ⟨hi.layout.node_ne a (hi.pool_of_queued ha),
    hi.layout.field_ne a (hi.pool_of_queued ha)⟩) (hi.length_le t)

/-- Where the list is not empty the search takes its first wanted node off. -/
theorem waitDone_found (hi : SigInv s q) (hnil : q t ≠ []) (hsafe : s.SearchSafe t set) :
    ∃ as b bs s', q t = as ++ b :: bs ∧ s.wanted set b = true ∧
      s.waitDone t set = some (s', [.waited t (.eok (some (s.mem b, s.mem (b + 4))))]) ∧
      s' = (s.waitFound t as.getLast? b).1 ∧ SigInv s' (Function.update q t (as ++ bs)) := by
  -- the first wanted node
  obtain ⟨as, b, bs, hq, has, hb, hhead⟩ : ∃ as b bs, q t = as ++ b :: bs ∧
      (∀ a ∈ as, s.wanted set a = false) ∧ s.wanted set b = true ∧ (as = [] → bs = []) := by
    obtain ⟨a, rest, hq⟩ := List.exists_cons_of_ne_nil hnil
    rw [SigState.SearchSafe, hi.queueNodes_eq, hq] at hsafe
    dsimp only at hsafe
    by_cases ha : s.wanted set a = true
    · rw [if_pos ha] at hsafe
      exact ⟨[], a, rest, hq, by simp, ha, fun _ => hsafe⟩
    · rw [if_neg ha] at hsafe
      obtain ⟨b, hfind⟩ := Option.isSome_iff_exists.mp (List.find?_isSome.mpr hsafe)
      obtain ⟨hb, as, bs, rfl, has⟩ := List.find?_eq_some_iff_append.mp hfind
      refine ⟨a :: as, b, bs, hq, fun c hc => ?_, hb, by simp⟩
      rcases List.mem_cons.mp hc with rfl | hc
      · exact Bool.eq_false_iff.mpr ha
      · simpa using has c hc
  have hlist := hi.list t
  have hnodes : ∀ a ∈ q t, a ≠ 0 := fun a ha => hi.layout.node_ne a (hi.pool_of_queued ha)
  have hlen := hi.length_le t
  rw [hq] at hlist hnodes hlen
  have hfuel : as.length < s.pool.length := by
    simp at hlen
    omega
  refine ⟨as, b, bs, _, hq, hb, ?_, rfl, waitFound_inv hi hq hhead⟩
  unfold SigState.waitDone
  rw [waitSearch_eq hlist hnodes has hb hfuel none, Option.or_none]
  rfl

theorem waitDone_inv (hi : SigInv s q) (hsafe : s.SearchSafe t set)
    (hs : s.waitDone t set = some (s', e)) : ∃ q', SigInv s' q' := by
  by_cases hnil : q t = []
  · obtain ⟨⟨s1, si⟩, hsearch, heq⟩ := Option.map_eq_some_iff.mp hs
    obtain ⟨rfl, -⟩ := Prod.mk.inj heq
    have hnodes : ∀ a ∈ q t, a ≠ 0 := fun a ha => hi.layout.node_ne a (hi.pool_of_queued ha)
    have hnull : (s.thread t).siList = 0 := ((hi.list t).eq_zero hnodes).mpr hnil
    have hempty : ∀ fuel, s.waitSearch t set fuel none 0 = some (s, none) := by
      intro fuel
      cases fuel <;> exact if_pos rfl
    rw [hnull, hempty] at hsearch
    obtain ⟨rfl, -⟩ := Prod.mk.inj (Option.some.inj hsearch)
    exact ⟨q, hi⟩
  · obtain ⟨as, b, bs, s1, -, -, hdone, -, hinv⟩ := waitDone_found hi hnil hsafe
    obtain ⟨rfl, -⟩ := Prod.mk.inj (Option.some.inj (hdone.symm.trans hs))
    exact ⟨_, hinv⟩

theorem resume_sigSame : SigSame s (s.resume t) := by
  unfold SigState.resume
  split
  · exact set_sigSame rfl rfl
  · exact .refl

theorem killNext_inv {f : KillFrame} (hi : SigInv s q) (hf : f ∈ s.kills)
    (hok : KillSafe s f) (hs : s.killNext f = some s') : ∃ q', SigInv s' q' := by
  cases f with
  | search t signo node => exact absurd hok id
  | alloc t signo =>
    obtain rfl := Option.some.inj hs
    exact ⟨q, killAlloc_inv hi hf hok⟩
  | append t signo node => exact ⟨_, killAppend_inv hi hf hs⟩
  | deliver t =>
    obtain rfl := Option.some.inj hs
    refine ⟨q, SigSame.inv ?_ hi⟩
    unfold SigState.signalDeliver
    split
    · exact kills_sigSame hf rfl (fun _ _ => rfl) (.inl rfl)
    · exact kills_sigSame hf rfl (fun _ _ => rfl) (.inr ⟨_, rfl, rfl, fun _ _ => rfl⟩)
  | wake t =>
    obtain rfl := Option.some.inj hs
    have hkills : (s.resume t).kills = s.kills := by
      unfold SigState.resume
      split <;> rfl
    have hreturns : SigSame (s.resume t) ((s.resume t).killReturns (.wake t)) :=
      kills_sigSame (hkills ▸ hf) rfl (fun _ _ => rfl) (.inl rfl)
    exact ⟨q, hreturns.inv (resume_sigSame.inv hi)⟩

/-- `rt_signal_wait` up to `rt_schedule()` keeps the lists. -/
theorem rtSignalWait_inv {timeout : Int} (hi : SigInv s q)
    (hsafe : (s.thread t).sigPending &&& set = 0 ∨ s.SearchSafe t set)
    (hs : s.rtSignalWait t set timeout = some (s', e)) : ∃ q', SigInv s' q' := by
  unfold SigState.rtSignalWait at hs
  split at hs
  next =>
    obtain ⟨rfl, -⟩ := Prod.mk.inj (Option.some.inj hs)
    exact ⟨q, hi⟩
  next =>
    split at hs
    next hpending => exact waitDone_inv hi (hsafe.resolve_left hpending) hs
    next =>
      split at hs <;> obtain ⟨rfl, -⟩ := Prod.mk.inj (Option.some.inj hs)
      · exact ⟨q, hi⟩
      · refine ⟨q, ((set_sigSame rfl rfl).trans (setFrames_sigSame ?_ fun n => ?_)).inv hi⟩
        · exact List.filterMap_cons_none rfl
        · exact List.countP_cons_of_neg Bool.false_ne_true

theorem waiting_sigSame {fs : List SigFrame} (hframes : s.frames t = .waiting set :: fs) :
    SigSame s ((s.set t fun x => { x with sigWait := false }).setFrames t fs) := by
  refine (set_sigSame rfl rfl).trans (setFrames_sigSame ?_ fun n => ?_)
  · rw [SigState.set_frames, hframes]
    rfl
  · rw [SigState.set_frames, hframes]
    rfl

/-- `rt_signal_wait` after `rt_schedule()` keeps the lists. -/
theorem waitWoken_inv (hi : SigInv s q) (hok : WokenSafe s t)
    (hs : s.waitWoken t = some (s', e)) : ∃ q', SigInv s' q' := by
  unfold SigState.waitWoken at hs
  split at hs
  next _ set fs hframes =>
    have hsame := waiting_sigSame hframes
    split at hs
    next =>
      obtain ⟨rfl, -⟩ := Prod.mk.inj (Option.some.inj hs)
      exact ⟨q, (hsame.trans (set_sigSame rfl rfl)).inv hi⟩
    next herror =>
      have hset : set ∈ s.waitingFor t := by
        rw [SigState.waitingFor, hframes]
        rfl
      have hinv := hsame.inv hi
      refine waitDone_inv hinv ?_ hs
      have hsafe := (hok set hset).resolve_left herror
      rw [SigState.SearchSafe, hi.queueNodes_eq] at hsafe
      rw [SigState.SearchSafe, hinv.queueNodes_eq]
      exact hsafe
  next => simp at hs

/-- Every allowed step keeps the lists. -/
theorem sigStep_inv {a : SigAction} (hi : SigInv s q) (hok : KeepsSignals s a)
    (hs : sigStep s a = some (s', e)) : ∃ q', SigInv s' q' := by
  cases a with
  | install t signo handler =>
    obtain ⟨-, hs⟩ := Option.ite_none_right_eq_some.mp hs
    obtain ⟨rfl, -⟩ := Prod.mk.inj (Option.some.inj hs)
    refine ⟨q, SigSame.inv ?_ hi⟩
    unfold SigState.rtSignalInstall
    split
    · exact set_sigSame rfl rfl
    · exact .refl
  | mask t signo =>
    obtain ⟨-, hs⟩ := Option.ite_none_right_eq_some.mp hs
    obtain ⟨rfl, -⟩ := Prod.mk.inj (Option.some.inj hs)
    exact ⟨q, (set_sigSame rfl rfl).inv hi⟩
  | unmask t signo =>
    obtain ⟨-, hs⟩ := Option.ite_none_right_eq_some.mp hs
    obtain ⟨rfl, -⟩ := Prod.mk.inj (Option.some.inj hs)
    exact ⟨q, (set_sigSame rfl rfl).inv hi⟩
  | wait t set timeout =>
    obtain ⟨-, hs⟩ := Option.ite_none_right_eq_some.mp hs
    exact rtSignalWait_inv hi hok hs
  | woken t =>
    obtain ⟨-, hs⟩ := Option.ite_none_right_eq_some.mp hs
    exact waitWoken_inv hi hok hs
  | kill t signo =>
    obtain ⟨rfl, -⟩ := Prod.mk.inj (Option.some.inj hs)
    refine ⟨q, rtThreadKill_inv hi fun hvalid => hok.resolve_left ?_⟩
    rw [hvalid]
    exact Bool.noConfusion
  | killNext f =>
    obtain ⟨hf, hs⟩ := Option.ite_none_right_eq_some.mp hs
    obtain ⟨s1, hs1, heq⟩ := Option.map_eq_some_iff.mp hs
    obtain ⟨rfl, -⟩ := Prod.mk.inj heq
    exact killNext_inv hi hf hok hs1
  | take t =>
    obtain ⟨-, hs⟩ := Option.ite_none_right_eq_some.mp hs
    obtain ⟨s1, hs1, heq⟩ := Option.map_eq_some_iff.mp hs
    obtain ⟨rfl, -⟩ := Prod.mk.inj heq
    exact handleTake_inv hi hs1
  | invoke t =>
    obtain ⟨-, hs⟩ := Option.ite_none_right_eq_some.mp hs
    unfold SigState.handleInvoke at hs
    split at hs
    next _ n a handler fs hframes =>
      obtain ⟨rfl, -⟩ := Prod.mk.inj (Option.some.inj hs)
      refine ⟨q, SigSame.inv (setFrames_sigSame ?_ fun m => ?_) hi⟩ <;> rw [hframes] <;> rfl
    next => simp at hs
  | finish t =>
    obtain ⟨-, hs⟩ := Option.ite_none_right_eq_some.mp hs
    obtain ⟨s1, hs1, heq⟩ := Option.map_eq_some_iff.mp hs
    obtain ⟨rfl, -⟩ := Prod.mk.inj heq
    exact ⟨q, handleFinish_inv hi hs1⟩
  | block t timed =>
    obtain ⟨-, hs⟩ := Option.ite_none_right_eq_some.mp hs
    obtain ⟨rfl, -⟩ := Prod.mk.inj (Option.some.inj hs)
    exact ⟨q, (set_sigSame rfl rfl).inv hi⟩
  | resume t =>
    obtain ⟨rfl, -⟩ := Prod.mk.inj (Option.some.inj hs)
    exact ⟨q, resume_sigSame.inv hi⟩
  | timeout t =>
    obtain ⟨-, hs⟩ := Option.ite_none_right_eq_some.mp hs
    obtain ⟨rfl, -⟩ := Prod.mk.inj (Option.some.inj hs)
    exact ⟨q, (set_sigSame rfl rfl).inv hi⟩

/-- The nodes of a pool do not overlap. -/
theorem siginfoNodes_layout {base : Word} {n : Nat} (h : base.toNat + 16 * n ≤ 4294967296) :
    PoolLayout (siginfoNodes base n) ∧ (siginfoNodes base n).Nodup := by
  have hnode : ∀ a ∈ siginfoNodes base n, ∃ i < n, a.toNat = base.toNat + 4 + 16 * i := by
    intro a ha
    obtain ⟨i, hi, rfl⟩ := List.mem_map.mp ha
    refine ⟨i, List.mem_range.mp hi, ?_⟩
    have hi := List.mem_range.mp hi
    bv_omega
  refine ⟨⟨fun a ha => ?_, fun a ha => ?_, fun a ha b hb => ?_⟩, ?_⟩
  · obtain ⟨i, hi, ha⟩ := hnode a ha
    bv_omega
  · obtain ⟨i, hi, ha⟩ := hnode a ha
    rw [listField]
    bv_omega
  · obtain ⟨i, hi, ha⟩ := hnode a ha
    obtain ⟨j, hj, hb⟩ := hnode b hb
    rw [listField, listField]
    refine ⟨?_, ?_, ?_⟩ <;> bv_omega
  · refine List.Nodup.map_on (fun i hi j hj hij => ?_) List.nodup_range
    have hi := List.mem_range.mp hi
    have hj := List.mem_range.mp hj
    have heq := congrArg BitVec.toNat hij
    simp only [BitVec.toNat_add, BitVec.toNat_ofNat] at heq
    omega

theorem sigStart_inv (h : SigStart s) : SigInv s fun _ => [] := by
  obtain ⟨base, n, hn, hpool⟩ := h.pool
  obtain ⟨hlayout, hnodup⟩ := siginfoNodes_layout hn
  have hempty : ∀ p, p ≠ .free → sigHolds s (fun _ => []) p = [] := by
    intro p hp
    cases p with
    | free => exact absurd rfl hp
    | killing => simp [sigHolds, h.kills]
    | queued t => rfl
    | handled t => simp [sigHolds, h.frames]
  have hfree : ∀ {p a}, a ∈ sigHolds s (fun _ => []) p → p = .free := by
    intro p a ha
    by_contra hp
    rw [hempty p hp] at ha
    exact List.not_mem_nil ha
  refine ⟨hpool ▸ hlayout, ⟨fun p => ?_, fun hp hr => (hfree hp).trans (hfree hr).symm, fun {a p} ha => ?_⟩,
    fun t => ?_, fun t m a ha => ?_, fun t m => ?_⟩
  · by_cases hp : p = .free
    · rw [hp, sigHolds, h.free, hpool]
      exact hnodup
    · rw [hempty p hp]
      exact List.nodup_nil
  · obtain rfl := hfree ha
    rw [sigHolds, h.free] at ha
    exact ha
  · exact sigList_nil.mpr (h.siList t)
  · rw [h.kills] at ha
    exact absurd ha List.not_mem_nil
  · simp [signalTokens, h.kills, h.frames, h.sigPending]

abbrev SignalQueueReach : SigState × List SigEvent → Prop :=
  Reach sigLogStep (fun x => KeepsSignals x.1) (fun x => SigStart x.1 ∧ x.2 = [])

theorem signalQueueReach_inv {x : SigState × List SigEvent} (hr : SignalQueueReach x) :
    ∃ q, SigInv x.1 q := by
  refine hr.invariant (I := fun x => ∃ q, SigInv x.1 q) (fun x hx => ⟨_, sigStart_inv hx.1⟩)
    fun x a x' ⟨q, hi⟩ hok hs => ?_
  obtain ⟨⟨s1, e⟩, hs1, rfl⟩ := Option.map_eq_some_iff.mp hs
  exact sigStep_inv hi hok hs1

/-- In every run of allowed steps the list of a thread is a closed list of allocated nodes, and the
pending bit of a signal disagrees with it just while the signal is in flight. -/
theorem signalQueue_agrees_iff {x : SigState × List SigEvent} (hr : SignalQueueReach x) (t : ThreadId) :
    SigList x.1.mem (x.1.thread t).siList (x.1.queueNodes t) ∧
      (∀ a ∈ x.1.queueNodes t, a ∈ x.1.pool ∧ a ∉ x.1.free) ∧
      ∀ n, x.1.Agrees t n ↔ ¬ x.1.InFlight t n := by
  obtain ⟨q, hi⟩ := signalQueueReach_inv hr
  rw [hi.queueNodes_eq]
  refine ⟨hi.list t, fun a ha => ⟨hi.pool_of_queued ha, fun hfree => ?_⟩, fun n => ?_⟩
  · exact hi.not_queued (p := .free) hfree (by simp) ha
  · have htokens := hi.tokens t n
    have hle := Bool.toNat_le ((x.1.thread t).sigPending.getLsbD n)
    have hflight : x.1.InFlight t n ↔ 0 < x.1.kills.countP (KillFrame.raises t n) +
        (x.1.frames t).countP (SigFrame.handles n) := by
      rw [SigState.InFlight, ← List.countP_pos_iff, ← List.countP_pos_iff]
      omega
    rw [SigState.Agrees, hi.queueNodes_eq, hflight]
    rw [signalTokens] at htokens
    cases hbit : (x.1.thread t).sigPending.getLsbD n <;> rw [hbit] at htokens
    · simp only [Bool.toNat_false, Bool.false_eq_true, false_iff] at htokens ⊢
      omega
    · simp only [Bool.toNat_true, true_iff] at htokens ⊢
      omega

end

/-- Ready threads and 32 nodes behind 0x20000000. -/
def quietSignals : SigState where
  thread _ := ⟨.ready, false, .eok, false, 0, 0, none, 0⟩
  mem _ := 0
  pool := siginfoNodes 536870912 32
  free := siginfoNodes 536870912 32
  kills := []
  frames _ := []

theorem quietSignals_start : SigStart quietSignals where
  pool := ⟨536870912, 32, by decide, rfl⟩
  free := rfl
  kills := rfl
  frames _ := rfl
  siList _ := rfl
  sigPending _ := rfl
  sigMask _ := rfl
  sigVectors _ := rfl
  sigWait _ := rfl

/-- A call of `rt_thread_kill` that gets the node `a`. -/
def killCall (t : ThreadId) (signo : Nat) (a : Word) : List SigAction :=
  [.kill t signo, .killNext (.alloc t signo), .killNext (.append t signo a), .killNext (.deliver t)]

/-- Signal 10 is queued and a call for signal 12 has allocated its node. -/
def queuedRun : List SigAction :=
  killCall 0 10 536870916 ++ [.kill 0 12, .killNext (.alloc 0 12)]

theorem queued_some : (runFrom sigLogStep queuedRun (quietSignals, [])).isSome = true := by
  decide +kernel

def queuedState : SigState × List SigEvent :=
  (runFrom sigLogStep queuedRun (quietSignals, [])).get queued_some

theorem signalQueue_agrees_iff_queued :
    queuedState.1.Agrees 0 10 ∧ ¬ queuedState.1.Agrees 0 12 ∧
      (queuedState.1.Agrees 0 12 ↔ ¬ queuedState.1.InFlight 0 12) := by
  have hrun : runFrom sigLogStep queuedRun (quietSignals, []) = some queuedState :=
    (Option.some_get _).symm
  have hr : SignalQueueReach queuedState :=
    Reach.runFrom (by decide +kernel) (.start ⟨quietSignals_start, rfl⟩) hrun
  exact ⟨by unfold SigState.Agrees; decide +kernel, by unfold SigState.Agrees; decide +kernel,
    (signalQueue_agrees_iff hr 0).2.2 12⟩

/-- Signals 10 and 12 are queued and `rt_signal_wait` takes signal 10. -/
def waitFirstRun : List SigAction :=
  killCall 0 10 536870916 ++ killCall 0 12 536870932 ++ [.wait 0 (sigMask 10) 0]

theorem waitFirst_some : (runFrom sigLogStep waitFirstRun (quietSignals, [])).isSome = true := by
  decide +kernel

def waitFirstState : SigState × List SigEvent :=
  (runFrom sigLogStep waitFirstRun (quietSignals, [])).get waitFirst_some

/-- With no call under way, signal 12 is pending and the list has no node for it. -/
theorem waitFirst_disagrees : ¬ ∀ x, Reach sigLogStep (fun _ _ => True)
    (fun x => SigStart x.1 ∧ x.2 = []) x → x.1.kills = [] → ∀ t, x.1.frames t = [] →
      ∀ n, x.1.Agrees t n := by
  intro hclaim
  have hrun : runFrom sigLogStep waitFirstRun (quietSignals, []) = some waitFirstState :=
    (Option.some_get _).symm
  have hagrees := hclaim waitFirstState (Reach.runFrom (runMeets_of_forall fun _ _ _ => trivial)
    (.start ⟨quietSignals_start, rfl⟩) hrun) (by decide +kernel) 0 (by decide +kernel) 12
  revert hagrees
  unfold SigState.Agrees
  decide +kernel

end RTThread
