import RTThread.MessageQueueInvariant

namespace RTThread

/-- A queue with a pool and the pointers that `rt_mq_init` or `rt_mq_create` leaves behind. -/
def MqBuilt (built : (Nat → Nat) × MsgQueue) : Prop :=
  ∃ A next flag msgpool msgSize, msgpool ≠ 0 ∧
    ((∃ poolSize, built = rtMqInit A next flag msgpool msgSize poolSize) ∨
      ∃ maxMsgs, rtMqCreate A next flag msgpool msgSize maxMsgs = some built)

/-- Queues just built, in pools of their own, and nobody inside a call. -/
structure MqStart (s : MqState) : Prop where
  built : ∀ q, ∃ built, MqBuilt built ∧ s.mq q = built.2 ∧ ∀ n ∈ (s.mq q).nodes, s.next n = built.1 n
  disjoint : ∀ q r n, n ∈ (s.mq q).nodes → n ∈ (s.mq r).nodes → q = r
  waiters : ∀ q, s.waiters q = []
  frame : ∀ c, s.frame c = .outside

/-- Runs of the queues in which everything can happen in every order. -/
def MqReach : MqState × List MqEvent → Prop :=
  Reach mqLogStep (fun _ _ => True) fun x => MqStart x.1 ∧ x.2 = []

section
variable {s : MqState} {x y : MsgQueue} {next : Nat → Nat} {built : (Nat → Nat) × MsgQueue} {i j : Nat}

theorem node_inj (h : x.node i = x.node j) : i = j := by
  have heq : i * (x.msgSize + 4) = j * (x.msgSize + 4) := Nat.add_left_cancel h
  exact Nat.eq_of_mul_eq_mul_right (by omega) heq

theorem nodes_nodup : x.nodes.Nodup := List.Nodup.map (fun _ _ => node_inj) List.nodup_range

/-- The free list goes backwards through the pool. -/
theorem initFree_list (hx : x.msgPool ≠ 0) (next : Nat → Nat) (count : Nat) :
    NodeList (initFree x next count).1 0 (initFree x next count).2
      ((List.range count).map x.node).reverse := by
  induction count with
  | zero => exact nodeList_nil.mpr rfl
  | succ count ih =>
    have hne : x.node count ≠ 0 := by
      have hge : x.msgPool ≤ x.node count := Nat.le_add_right ..
      omega
    have hnot : x.node count ∉ ((List.range count).map x.node).reverse := by
      rw [List.mem_reverse, List.mem_map]
      rintro ⟨i, hi, hnode⟩
      have heq := node_inj hnode
      have hlt := List.mem_range.mp hi
      omega
    rw [List.range_succ, List.map_append, List.reverse_append]
    exact ih.push hne hnot

theorem initLists_built (hx : x.msgPool ≠ 0) :
    NodeList (initLists x next).1 0 (initLists x next).2.msgQueueFree x.nodes.reverse :=
  initFree_list hx next x.maxMsgs

/-- What a queue just built has, however it was built. -/
theorem MqBuilt.spec (h : MqBuilt built) :
    built.2.msgPool ≠ 0 ∧ built.2.maxMsgs ≤ 65535 ∧ built.2.msgQueueHead = 0 ∧
      built.2.msgQueueTail = 0 ∧ built.2.entry = 0 ∧
      NodeList built.1 0 built.2.msgQueueFree built.2.nodes.reverse := by
  obtain ⟨A, next, flag, msgpool, msgSize, hpool, ⟨poolSize, rfl⟩ | ⟨maxMsgs, h⟩⟩ := h
  · exact ⟨hpool, Nat.le_of_lt_succ (Nat.mod_lt _ (by decide)), rfl, rfl, rfl, initLists_built hpool⟩
  · rw [rtMqCreate, if_neg hpool] at h
    obtain rfl := Option.some.inj h
    exact ⟨hpool, Nat.le_of_lt_succ (Nat.mod_lt _ (by decide)), rfl, rfl, rfl, initLists_built hpool⟩

theorem MqStart.ok (h : MqStart s) : MqOk s [] := by
  have hspec : ∀ q, (s.mq q).msgPool ≠ 0 ∧ (s.mq q).maxMsgs ≤ 65535 ∧ (s.mq q).msgQueueHead = 0 ∧
      (s.mq q).msgQueueTail = 0 ∧ (s.mq q).entry = 0 ∧
      NodeList s.next 0 (s.mq q).msgQueueFree (s.mq q).nodes.reverse := fun q => by
    obtain ⟨built, hbuilt, hmq, hnext⟩ := h.built q
    obtain ⟨hpool, hmax, hhead, htail, hentry, hlist⟩ := hbuilt.spec
    rw [hmq] at hnext ⊢
    exact ⟨hpool, hmax, hhead, htail, hentry, hlist.congr fun n hn => hnext n (List.mem_reverse.mp hn)⟩
  have hplace : ∀ p n, At s ⟨fun q => (s.mq q).nodes.reverse, fun _ => []⟩ p n ↔
      p = .free p.queue ∧ n ∈ (s.mq p.queue).nodes := by
    intro p n
    cases p <;> simp [At, h.frame, MqFrame.fills, MqFrame.copies, Place.queue]
  refine ⟨⟨fun q => (s.mq q).nodes.reverse, fun _ => []⟩, ⟨⟨fun q h0 => ?_, h.disjoint,
      fun q => (hspec q).2.1⟩, ⟨fun n p p' hp hp' => ?_, fun n p hp => ((hplace p n).mp hp).2,
      fun q n hn => ⟨.free q, (hplace _ _).mpr ⟨rfl, hn⟩⟩⟩, fun q => (hspec q).2.2.2.2.2,
      fun q => nodeList_nil.mpr (hspec q).2.2.1, fun q => (hspec q).2.2.2.1, ?_, ?_, trivial⟩,
    fun q => ⟨(hspec q).2.2.2.2.1, .nil⟩⟩
  · obtain ⟨i, -, hi⟩ := List.mem_map.mp h0
    have hpool := (hspec q).1
    have hge : (s.mq q).msgPool ≤ (s.mq q).node i := Nat.le_add_right ..
    omega
  · obtain ⟨hp, hn⟩ := (hplace p n).mp hp
    obtain ⟨hp', hn'⟩ := (hplace p' n).mp hp'
    rw [hp, hp', h.disjoint _ _ n hn hn']
  · simp [h.frame]
  · simp [h.frame]

theorem mqReach_ok {x : MqState × List MqEvent} (hr : MqReach x) : MqOk x.1 x.2 := by
  refine hr.invariant (I := fun x => MqOk x.1 x.2) (fun x hx => ?_) fun x a x' hok _ hs => ?_
  · rw [hx.2]
    exact hx.1.ok
  · obtain ⟨⟨s', e⟩, hstep, rfl⟩ := Option.map_eq_some_iff.mp hs
    exact mqStep_ok hok hstep

/-- Messages are conserved, and received in the order in which they were linked. -/
theorem mqReach_conserves {x : MqState × List MqEvent} (hr : MqReach x) :
    ∃ l : MqLists,
      (∀ q, (x.1.mq q).nodes.length = (x.1.mq q).maxMsgs ∧ (x.1.mq q).nodes.Nodup ∧
        NodeList x.1.next 0 (x.1.mq q).msgQueueFree (l.free q) ∧
        NodeList x.1.next 0 (x.1.mq q).msgQueueHead (l.msgs q) ∧
        (∀ n ∈ (x.1.mq q).nodes, ∃ p, p.queue = q ∧ At x.1 l p n ∧ ∀ p', At x.1 l p' n → p' = p) ∧
        (x.1.mq q).entry = (l.msgs q).length ∧
        ((x.1.mq q).msgQueueTail = 0 ↔ l.msgs q = []) ∧
        (l.msgs q ≠ [] → (l.msgs q).getLast? = some (x.1.mq q).msgQueueTail) ∧
        List.Forall₂ (fun n msg => Holds (x.1.body n) msg) (l.msgs q) (pending q x.2) ∧
        (rtMqReset x.1 q).isSome) ∧
      ReceivedInOrder x.2 := by
  have hok := mqReach_ok hr
  obtain ⟨l, hcore, hcount⟩ := mqReach_ok hr
  refine ⟨l, fun q => ⟨by simp [MsgQueue.nodes], nodes_nodup, hcore.freeList q, hcore.msgList q,
    fun n hn => ?_, (hcount q).entry, ?_, fun hne => ?_, (hcount q).contents, ?_⟩, hcore.order⟩
  · obtain ⟨p, hp⟩ := hcore.placed.cover q n hn
    exact ⟨p, hcore.pools.disjoint p.queue q n (hcore.placed.inside n p hp) hn, hp,
      fun p' hp' => hcore.placed.unique n p' p hp' hp⟩
  · rw [hcore.tail q]
    cases hlast : (l.msgs q).getLast? with
    | none => simpa using List.getLast?_eq_none_iff.mp hlast
    | some last =>
      have hmem := List.mem_of_getLast? hlast
      refine iff_of_false (fun h0 => ?_) (List.ne_nil_of_mem hmem)
      exact (hcore.msgList q).null (h0 ▸ hmem)
  · rw [hcore.tail q, List.getLast?_eq_some_getLast hne, Option.getD_some]
  · obtain ⟨s', hs', -⟩ := rtMqReset_ok (q := q) hok
    rw [hs']
    rfl

end

/-- Queues of two messages of four bytes each. -/
def mqStartState : MqState where
  thread _ := ⟨.ready, 10, 10, .eok, false, 0, 1024, []⟩
  waiters _ := []
  mq q := (rtMqInit align4 (fun _ => 0) .fifo (1000 * (q + 1)) 3 16).2
  next n := if n % 1000 = 8 then n - 8 else 0
  body _ _ := 0
  tick := 0
  frame _ := .outside

theorem mqStartState_nodes (q : ObjectId) :
    (mqStartState.mq q).nodes = [1000 * (q + 1), 1000 * (q + 1) + 8] := by
  have hsize : rtAlign align4 3 % 65536 = 4 := by decide +kernel
  simp only [mqStartState, rtMqInit, hsize]
  simp [initLists, MsgQueue.nodes, MsgQueue.node, List.range_succ]

theorem mqStartState_start : MqStart mqStartState := by
  refine ⟨fun q => ⟨_, ⟨align4, fun _ => 0, .fifo, 1000 * (q + 1), 3, by omega, .inl ⟨16, rfl⟩⟩,
    rfl, fun n hn => ?_⟩, fun q r n hq hr => ?_, fun _ => rfl, fun _ => rfl⟩
  · rw [mqStartState_nodes] at hn
    have hsize : rtAlign align4 3 % 65536 = 4 := by decide +kernel
    simp only [rtMqInit, hsize]
    simp only [List.mem_cons, List.not_mem_nil, or_false] at hn
    rcases hn with rfl | rfl
    · simp [initLists, initFree, mqStartState, MsgQueue.node, Function.update]
    · simp [initLists, initFree, mqStartState, MsgQueue.node, Function.update]
  · rw [mqStartState_nodes] at hq hr
    simp only [List.mem_cons, List.not_mem_nil, or_false] at hq hr
    have heq : @Eq Nat q r := by omega
    exact heq

/-- A thread sends, an interrupt sends something urgent, and the thread takes the first message. -/
def afterUrgent : MqState × List MqEvent :=
  (runFrom mqLogStep [.send (.thread 1) 0 false [1, 2], .fill (.thread 1),
    .send (.interrupt 0) 0 true [3], .fill (.interrupt 0), .link (.thread 1), .link (.interrupt 0),
    .recv (.thread 1) 0 4 (-1), .copy (.thread 1)] (mqStartState, [])).get (by decide +kernel)

theorem mqReach_conserves_afterUrgent : ∃ l : MqLists, (l.msgs 0).length = 1 ∧
    (afterUrgent.1.mq 0).msgQueueTail ≠ 0 ∧
    ∃ msg, takenBy (.thread 1) afterUrgent.2.tail = some msg ∧ [3, 0, 0, 0].take msg.length = msg.take 4 := by
  have hr : MqReach afterUrgent :=
    Reach.runFrom (runMeets_of_forall fun _ _ _ => trivial) (.start ⟨mqStartState_start, rfl⟩)
      (Option.some_get _).symm
  obtain ⟨l, hq, horder⟩ := mqReach_conserves hr
  obtain ⟨-, -, -, -, -, hentry, htail, -⟩ := hq 0
  have hone : (afterUrgent.1.mq 0).entry = 1 := by decide +kernel
  have hlog : afterUrgent.2 = .received 0 (.thread 1) [3, 0, 0, 0] :: afterUrgent.2.tail := by
    decide +kernel
  rw [hone] at hentry
  refine ⟨l, hentry.symm, fun h0 => ?_, ?_⟩
  · rw [htail.mp h0] at hentry
    cases hentry
  · rw [hlog] at horder
    exact horder.1

end RTThread
