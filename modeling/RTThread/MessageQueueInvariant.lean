import RTThread.MessageQueueNodes

namespace RTThread

/-- The messages linked and not yet unlinked, the next one to receive first: an urgent message was
linked in front, another behind. -/
def pending (q : ObjectId) : List MqEvent → List (List (BitVec 8))
  | [] => []
  | .linked r urgent buffer :: log =>
    if r = q then if urgent then buffer :: pending q log else pending q log ++ [buffer]
    else pending q log
  | .unlinked r _ :: log => if r = q then (pending q log).tail else pending q log
  | .received .. :: log => pending q log
  | .reset r :: log => if r = q then [] else pending q log

/-- The message that was the next one when the caller last unlinked one. -/
def takenBy (c : Caller) : List MqEvent → Option (List (BitVec 8))
  | [] => none
  | .unlinked q c' :: log => if c' = c then (pending q log).head? else takenBy c log
  | _ :: log => takenBy c log

/-- Every receiver got the message that was the next one when it unlinked its own, cut to the shorter
of both lengths. -/
def ReceivedInOrder : List MqEvent → Prop
  | [] => True
  | .received _ c buffer :: log =>
    (∃ msg, takenBy c log = some msg ∧ buffer.take msg.length = msg.take buffer.length) ∧
      ReceivedInOrder log
  | _ :: log => ReceivedInOrder log

/-- The bytes behind a link begin with the message. -/
def Holds (body : Nat → BitVec 8) (msg : List (BitVec 8)) : Prop :=
  ∀ i b, msg[i]? = some b → body i = b

/-- The pool of a queue: it does not change. -/
def MsgQueue.shape (x : MsgQueue) : Nat × Nat × Nat := (x.msgPool, x.msgSize, x.maxMsgs)

/-- The pools hold no null pointer and do not overlap. -/
structure Pools (s : MqState) : Prop where
  zero : ∀ q, 0 ∉ (s.mq q).nodes
  disjoint : ∀ q r n, n ∈ (s.mq q).nodes → n ∈ (s.mq r).nodes → q = r
  small : ∀ q, (s.mq q).maxMsgs ≤ 65535

/-- What holds of the pointers and of the messages that callers have in their hands. -/
structure MqCore (s : MqState) (log : List MqEvent) (l : MqLists) : Prop where
  pools : Pools s
  placed : Placed s l
  freeList : ∀ q, NodeList s.next 0 (s.mq q).msgQueueFree (l.free q)
  msgList : ∀ q, NodeList s.next 0 (s.mq q).msgQueueHead (l.msgs q)
  tail : ∀ q, (s.mq q).msgQueueTail = (l.msgs q).getLast?.getD 0
  linking : ∀ c q n urgent buffer, s.frame c = .linking q n urgent buffer →
    Holds (s.body n) buffer ∧ (urgent = false → s.next n = 0)
  copying : ∀ c q n size, s.frame c = .copying q n size →
    ∃ msg, takenBy c log = some msg ∧ Holds (s.body n) msg
  order : ReceivedInOrder log

/-- The count of a queue, and what its messages hold. -/
structure Counted (s : MqState) (log : List MqEvent) (l : MqLists) (q : ObjectId) : Prop where
  entry : (s.mq q).entry = (l.msgs q).length
  contents : List.Forall₂ (fun n msg => Holds (s.body n) msg) (l.msgs q) (pending q log)

/-- A caller with no message in its hands. -/
def MqFrame.empty : MqFrame → Bool
  | .outside | .waiting .. | .again .. => true
  | _ => false

section
variable {s s' : MqState} {l l' : MqLists} {log log' : List MqEvent} {n m : Nat} {p : Place}
  {q r : ObjectId} {c c' : Caller} {ns : List Nat} {x y : MsgQueue} {f : MsgQueue → MsgQueue}
  {fr : MqFrame} {size : Nat} {urgent : Bool} {buffer : List (BitVec 8)} {e : Option MqEvent}

theorem nodes_congr (h : x.shape = y.shape) : x.nodes = y.nodes := by
  obtain ⟨hpool, hsize, hmax⟩ : x.msgPool = y.msgPool ∧ x.msgSize = y.msgSize ∧
      x.maxMsgs = y.maxMsgs := by simpa [MsgQueue.shape] using h
  simp only [MsgQueue.nodes, hmax]
  exact List.map_congr_left fun i _ => by simp only [MsgQueue.node, hpool, hsize]

/-- What an update of one queue keeps, it keeps of all. -/
theorem setMq_field {β : Type} (g : MsgQueue → β) (hg : g (f (s.mq q)) = g (s.mq q)) (r : ObjectId) :
    g ((s.setMq q f).mq r) = g (s.mq r) := by
  by_cases hr : r = q
  · rw [hr, setMq_self, hg]
  · rw [setMq_ne hr]

theorem Pools.congr (hp : Pools s) (h : ∀ q, (s'.mq q).shape = (s.mq q).shape) : Pools s' := by
  refine ⟨fun q => ?_, fun q r n hq hr => ?_, fun q => ?_⟩
  · rw [nodes_congr (h q)]
    exact hp.zero q
  · rw [nodes_congr (h q)] at hq
    rw [nodes_congr (h r)] at hr
    exact hp.disjoint q r n hq hr
  · have hmax : (s'.mq q).maxMsgs = (s.mq q).maxMsgs := congrArg (fun x => x.2.2) (h q)
    rw [hmax]
    exact hp.small q

theorem MqFrame.empty_fills (h : fr.empty = true) : ¬ fr.fills r m ∧ ¬ fr.copies r m := by
  cases fr <;> simp_all [MqFrame.empty, MqFrame.fills, MqFrame.copies]

/-- Steps that touch neither the queues nor a message. -/
theorem MqCore.idle (h : MqCore s log l) (hmq : s'.mq = s.mq) (hnext : s'.next = s.next)
    (hbody : s'.body = s.body) (hframe : ∀ c, s'.frame c = s.frame c ∨
      (s.frame c).empty = true ∧ (s'.frame c).empty = true) : MqCore s' log l := by
  have hat : ∀ p m, At s' l p m ↔ At s l p m := by
    intro p m
    cases p with
    | free q => exact Iff.rfl
    | listed q => exact Iff.rfl
    | filled q c =>
      rcases hframe c with hc | ⟨hc, hc'⟩
      · simp only [At, hc]
      · exact iff_of_false (MqFrame.empty_fills hc').1 (MqFrame.empty_fills hc).1
    | copied q c =>
      rcases hframe c with hc | ⟨hc, hc'⟩
      · simp only [At, hc]
      · exact iff_of_false (MqFrame.empty_fills hc').2 (MqFrame.empty_fills hc).2
  have hsame : ∀ c, (s'.frame c).empty = false → s.frame c = s'.frame c := fun c hc => by
    rcases hframe c with h | ⟨-, h⟩
    · exact h.symm
    · simp [h] at hc
  refine ⟨h.pools.congr fun q => by rw [hmq], h.placed.congr hat fun q => by rw [hmq],
    fun q => ?_, fun q => ?_, fun q => ?_, fun c q n urgent buffer hc => ?_, fun c q n size hc => ?_,
    h.order⟩
  · rw [hnext, hmq]
    exact h.freeList q
  · rw [hnext, hmq]
    exact h.msgList q
  · rw [hmq]
    exact h.tail q
  · rw [hbody, hnext]
    exact h.linking c q n urgent buffer ((hsame c (by rw [hc]; rfl)).trans hc)
  · rw [hbody]
    exact h.copying c q n size ((hsame c (by rw [hc]; rfl)).trans hc)

theorem Counted.congr (h : Counted s log l q) (hmq : (s'.mq q).entry = (s.mq q).entry)
    (hbody : s'.body = s.body) (hl : l'.msgs q = l.msgs q) (hlog : pending q log' = pending q log) :
    Counted s' log' l' q := by
  refine ⟨by rw [hmq, hl, h.entry], ?_⟩
  rw [hl, hlog, hbody]
  exact h.contents

theorem MqCore.log_congr (h : MqCore s log l) (htaken : ∀ c, takenBy c log' = takenBy c log)
    (horder : ReceivedInOrder log') : MqCore s log' l := by
  refine ⟨h.pools, h.placed, h.freeList, h.msgList, h.tail, h.linking, fun c q n size hc => ?_, horder⟩
  rw [htaken]
  exact h.copying c q n size hc

/-- What a caller that a step is about has in its hands after it. -/
def HandsOk (s : MqState) (log : List MqEvent) (c : Caller) : Prop :=
  (∀ q n urgent buffer, s.frame c ≠ .linking q n urgent buffer) ∧
    ∀ q n size, s.frame c = .copying q n size →
      ∃ msg, takenBy c log = some msg ∧ Holds (s.body n) msg

/-- A step that moves a message of the queue `q` to another place of `q`. -/
theorem MqCore.move {dest : Place} (h : MqCore s log l) (hat : At s l p n)
    (hmove : Moves s l s' l' n dest) (hp : p.queue = q) (hdest : dest.queue = q)
    (hmq : s'.mq = Function.update s.mq q x) (hshape : x.shape = (s.mq q).shape)
    (hbody : s'.body = s.body) (hl : ∀ r, r ≠ q → l'.free r = l.free r ∧ l'.msgs r = l.msgs r)
    (hnext : ∀ m, s'.next m ≠ s.next m → m = n ∨ m ∈ l.msgs q)
    (hfree : NodeList s'.next 0 x.msgQueueFree (l'.free q))
    (hmsgs : NodeList s'.next 0 x.msgQueueHead (l'.msgs q))
    (htail : x.msgQueueTail = (l'.msgs q).getLast?.getD 0)
    (hhands : ∀ c, s'.frame c = s.frame c ∧ takenBy c log' = takenBy c log ∧ (∀ r, p ≠ .filled r c) ∨
      HandsOk s' log' c)
    (horder : ReceivedInOrder log') : MqCore s' log' l' := by
  have hself : s'.mq q = x := by rw [hmq, Function.update_self]
  have hother : ∀ r, r ≠ q → s'.mq r = s.mq r := fun r hr => by rw [hmq, Function.update_of_ne hr]
  have hshape' : ∀ r, (s'.mq r).shape = (s.mq r).shape := fun r => by
    by_cases hr : r = q
    · rw [hr, hself, hshape]
    · rw [hother r hr]
  -- a pointer that changes is in no list of another queue and in nobody's hands
  have hkeep : ∀ p' m, At s l p' m → p' ≠ p → p' ≠ .listed q → s'.next m = s.next m := by
    intro p' m hm hne hne'
    by_contra hch
    rcases hnext m hch with rfl | hlist
    · exact hne (h.placed.unique m p' p hm hat)
    · exact hne' (h.placed.unique m p' (.listed q) hm hlist)
  refine ⟨h.pools.congr hshape', hmove.placed h.placed (fun r => nodes_congr (hshape' r)) ?_,
    fun r => ?_, fun r => ?_, fun r => ?_, fun c q' m urgent buffer hc => ?_, fun c q' m size hc => ?_,
    horder⟩
  · rw [hdest, ← hp]
    exact h.placed.inside n p hat
  · by_cases hr : r = q
    · rwa [hr, hself]
    · rw [hother r hr, (hl r hr).1]
      refine (h.freeList r).congr fun m hm => hkeep (.free r) m hm ?_ (by simp)
      rintro rfl
      exact hr hp
  · by_cases hr : r = q
    · rwa [hr, hself]
    · rw [hother r hr, (hl r hr).2]
      refine (h.msgList r).congr fun m hm => hkeep (.listed r) m hm ?_ (by simpa using hr)
      rintro rfl
      exact hr hp
  · by_cases hr : r = q
    · rw [hr, hself, htail]
    · rw [hother r hr, (hl r hr).2]
      exact h.tail r
  · rcases hhands c with ⟨hsame, -, hno⟩ | ⟨hno, -⟩
    · rw [hsame] at hc
      have hfilled : At s l (.filled q' c) m := by simp [At, hc, MqFrame.fills]
      rw [hbody, hkeep (.filled q' c) m hfilled (Ne.symm (hno q')) (by simp)]
      exact h.linking c q' m urgent buffer hc
    · exact absurd hc (hno q' m urgent buffer)
  · rcases hhands c with ⟨hsame, hlog, -⟩ | ⟨-, hcopy⟩
    · rw [hbody, hlog]
      exact h.copying c q' m size (hsame ▸ hc)
    · exact hcopy q' m size hc

/-- The hands of all callers in a step of one of them. -/
theorem hands_of_frame (hf : s'.frame = Function.update s.frame c fr)
    (hlog : ∀ c', c' ≠ c → takenBy c' log' = takenBy c' log)
    (hp : ∀ r c', p = .filled r c' → c' = c) (hok : HandsOk s' log' c) (c' : Caller) :
    s'.frame c' = s.frame c' ∧ takenBy c' log' = takenBy c' log ∧ (∀ r, p ≠ .filled r c') ∨
      HandsOk s' log' c' := by
  by_cases hc : c' = c
  · exact .inr (hc ▸ hok)
  · refine .inl ⟨?_, hlog c' hc, fun r hr => hc (hp r c' hr)⟩
    rw [hf, Function.update_of_ne hc]

theorem handsOk_outside (hf : s'.frame = Function.update s.frame c .outside) : HandsOk s' log' c := by
  have hc : s'.frame c = .outside := by rw [hf, Function.update_self]
  exact ⟨by simp [hc], by simp [hc]⟩

theorem Counted.contents_congr (h : Counted s log l q) (hbody : s'.body = s.body)
    (hl : l'.msgs q = l.msgs q) (hlog : pending q log' = pending q log) :
    List.Forall₂ (fun n msg => Holds (s'.body n) msg) (l'.msgs q) (pending q log') := by
  rw [hl, hlog, hbody]
  exact h.contents

/-- A step on one queue leaves the counts of the others alone. -/
theorem counted_of_self (h : ∀ r, Counted s log l r) (hmq : s'.mq = Function.update s.mq q x)
    (hbody : s'.body = s.body) (hl : ∀ r, r ≠ q → l'.msgs r = l.msgs r)
    (hlog : ∀ r, r ≠ q → pending r log' = pending r log) (hself : Counted s' log' l' q)
    (r : ObjectId) : Counted s' log' l' r := by
  by_cases hr : r = q
  · rwa [hr]
  · exact (h r).congr (by rw [hmq, Function.update_of_ne hr]) hbody (hl r hr) (hlog r hr)

/-- What holds between any two steps. -/
def MqOk (s : MqState) (log : List MqEvent) : Prop :=
  ∃ l, MqCore s log l ∧ ∀ q, Counted s log l q

theorem mqTakeFree_spec (hs : mqTakeFree s q c urgent buffer = some s') :
    s' = s ∨ (s.mq q).msgQueueFree ≠ 0 ∧
      s'.mq = Function.update s.mq q
        { s.mq q with msgQueueFree := s.next (s.mq q).msgQueueFree } ∧
      s'.next = s.next ∧ s'.body = s.body ∧
      s'.frame = Function.update s.frame c (.filling q (s.mq q).msgQueueFree urgent buffer) := by
  unfold mqTakeFree at hs
  obtain ⟨-, -, hs⟩ := Option.bind_eq_some_iff.mp hs
  split at hs
  next => exact .inl (Option.some.inj hs).symm
  next =>
    dsimp only at hs
    split at hs
    next => exact .inl (Option.some.inj hs).symm
    next hn =>
      obtain rfl := Option.some.inj hs
      exact .inr ⟨hn, rfl, rfl, rfl, rfl⟩

/-- The first free message is taken by a sender. -/
theorem mqTakeFree_ok (h : MqOk s log) (hc : s.frame c = .outside)
    (hs : mqTakeFree s q c urgent buffer = some s') : MqOk s' log := by
  obtain ⟨l, hcore, hcount⟩ := h
  rcases mqTakeFree_spec hs with rfl | ⟨hn, hmq, hnext, hbody, hf⟩
  · exact ⟨l, hcore, hcount⟩
  · have hlist := hcore.freeList q
    cases hfree : l.free q with
    | nil =>
      rw [hfree] at hlist
      exact absurd (nodeList_nil.mp hlist) hn
    | cons n ns =>
      rw [hfree] at hlist
      obtain ⟨hptr, -, hns⟩ := nodeList_cons.mp hlist
      rw [hptr] at hmq hf
      have hat : At s l (.free q) n := by simp [At, hfree]
      have hnodup := (List.nodup_cons.mp hlist.nodup).1
      refine ⟨⟨Function.update l.free q ns, l.msgs⟩,
        hcore.move (q := q) hat (moves_take hcore.placed hfree hnodup hc hf) rfl rfl hmq rfl hbody
          (fun r hr => ⟨Function.update_of_ne hr .., rfl⟩) (fun m hm => absurd (by rw [hnext]) hm)
          ?_ ?_ (hcore.tail q) (hands_of_frame hf (fun _ _ => rfl) (by simp) ⟨?_, ?_⟩) hcore.order,
        counted_of_self hcount hmq hbody (fun _ _ => rfl) (fun _ _ => rfl)
          ⟨?_, (hcount q).contents_congr hbody rfl rfl⟩⟩
      · simpa [hnext] using hns
      · rw [hnext]
        exact hcore.msgList q
      · simp [hf]
      · simp [hf]
      · rw [hmq, Function.update_self]
        exact (hcount q).entry

/-- A message is filled where it is. -/
theorem mqFill_ok (h : MqOk s log) (hs : mqFill s c = some s') : MqOk s' log := by
  obtain ⟨l, hcore, hcount⟩ := h
  unfold mqFill at hs
  split at hs
  next q n urgent buffer hc =>
    have hs := Option.some.inj hs
    have hmq : s'.mq = s.mq := by
      rw [← hs]
      cases urgent <;> rfl
    have hf : s'.frame = Function.update s.frame c (.linking q n urgent buffer) := by
      rw [← hs]
      cases urgent <;> rfl
    have hat : At s l (.filled q c) n := by simp [At, hc, MqFrame.fills]
    have hnext : ∀ m, m ≠ n → s'.next m = s.next m := fun m hm => by
      rw [← hs]
      cases urgent
      · exact Function.update_of_ne hm ..
      · rfl
    have hbody : ∀ m, m ≠ n → s'.body m = s.body m := fun m hm => by
      rw [← hs]
      cases urgent <;> exact Function.update_of_ne hm ..
    have hself : s'.body n = fun i => buffer.getD i (s.body n i) := by
      rw [← hs]
      cases urgent <;> exact Function.update_self ..
    have hne : ∀ p m, At s l p m → p ≠ .filled q c → m ≠ n := fun p m hm =>
      hcore.placed.ne hat hm
    have hsame : ∀ c', c' ≠ c → s'.frame c' = s.frame c' := fun c' hc' => by
      rw [hf, Function.update_of_ne hc']
    have hplace : ∀ p m, At s' l p m ↔ At s l p m := by
      intro p m
      cases p with
      | free r => exact Iff.rfl
      | listed r => exact Iff.rfl
      | filled r c' | copied r c' =>
        by_cases hc' : c' = c
        · simp [At, hf, hc', hc, MqFrame.fills, MqFrame.copies]
        · simp only [At, hsame c' hc']
    refine ⟨l, ⟨hcore.pools.congr fun r => by rw [hmq], hcore.placed.congr hplace fun r => by rw [hmq],
      fun r => ?_, fun r => ?_, fun r => ?_, fun c' r m urgent' buffer' hc' => ?_,
      fun c' r m size hc' => ?_, hcore.order⟩, fun r => ⟨?_, ?_⟩⟩
    · rw [hmq]
      exact (hcore.freeList r).congr fun m hm => hnext m (hne (.free r) m hm (by simp))
    · rw [hmq]
      exact (hcore.msgList r).congr fun m hm => hnext m (hne (.listed r) m hm (by simp))
    · rw [hmq]
      exact hcore.tail r
    · by_cases heq : c' = c
      · rw [heq, hf, Function.update_self] at hc'
        cases hc'
        refine ⟨fun i b hb => ?_, fun hu => ?_⟩
        · rw [hself]
          simp [hb]
        · rw [← hs, hu]
          exact Function.update_self ..
      · rw [hsame c' heq] at hc'
        have hm := hne (.filled r c') m (by simp [At, hc', MqFrame.fills]) (by simp [heq])
        rw [hbody m hm, hnext m hm]
        exact hcore.linking c' r m urgent' buffer' hc'
    · by_cases heq : c' = c
      · rw [heq, hf, Function.update_self] at hc'
        cases hc'
      · rw [hsame c' heq] at hc'
        rw [hbody m (hne (.copied r c') m (by simp [At, hc', MqFrame.copies]) (by simp))]
        exact hcore.copying c' r m size hc'
    · rw [hmq]
      exact (hcount r).entry
    · refine List.Forall₂.imp (fun _ _ hm => hm) ?_
      refine (List.forall₂_iff_get.mpr ?_)
      obtain ⟨hlen, hget⟩ := List.forall₂_iff_get.mp (hcount r).contents
      refine ⟨hlen, fun i h1 h2 => ?_⟩
      rw [hbody _ (hne (.listed r) _ (List.get_mem ..) (by simp))]
      exact hget i h1 h2
  next => exact absurd hs (by simp)

/-- A queue has no more messages linked than it has in all. -/
theorem MqCore.length_le (h : MqCore s log l) {ms : List Nat} (hnodup : ms.Nodup)
    (hms : ∀ m ∈ ms, m ∈ (s.mq q).nodes) : ms.length ≤ 65535 := by
  have hlen := (hnodup.subperm hms).length_le
  have hsmall := h.pools.small q
  simp only [MsgQueue.nodes, List.length_map, List.length_range] at hlen
  omega

/-- The pointers and the count of a queue after its message `n` is linked. -/
structure Linked (s s' : MqState) (q : ObjectId) (n : Nat) (ms ms' : List Nat) : Prop where
  mq : s'.mq = Function.update s.mq q (s'.mq q)
  shape : (s'.mq q).shape = (s.mq q).shape
  free : (s'.mq q).msgQueueFree = (s.mq q).msgQueueFree
  body : s'.body = s.body
  frame : s'.frame = s.frame
  next : ∀ m, s'.next m ≠ s.next m → m = n ∨ m ∈ ms
  list : NodeList s'.next 0 (s'.mq q).msgQueueHead ms'
  tail : (s'.mq q).msgQueueTail = ms'.getLast?.getD 0
  entry : (s'.mq q).entry = ((s.mq q).entry + 1) % 65536

theorem setMq_update : (s.setMq q f).mq = Function.update s.mq q ((s.setMq q f).mq q) := by
  rw [setMq_self]
  rfl

theorem linkTail_linked {ms : List Nat} (hlist : NodeList s.next 0 (s.mq q).msgQueueHead ms)
    (htail : (s.mq q).msgQueueTail = ms.getLast?.getD 0) (hn : n ≠ 0) (hms : n ∉ ms)
    (hnext : s.next n = 0) : Linked s (linkTail s q n) q n ms (ms ++ [n]) := by
  cases hlast : ms.getLast? with
  | none =>
    obtain rfl := List.getLast?_eq_none_iff.mp hlast
    have hhead := nodeList_nil.mp hlist
    have htail0 : (s.mq q).msgQueueTail = 0 := by simpa using htail
    simp only [linkTail, htail0, ne_eq, not_true_eq_false, if_false]
    refine ⟨setMq_update, by rw [setMq_self]; rfl, by rw [setMq_self], rfl, rfl,
      fun m hm => absurd rfl hm, ?_, ?_, by rw [setMq_self]⟩
    · rw [setMq_self, hhead, if_pos rfl]
      exact nodeList_cons.mpr ⟨rfl, hn, nodeList_nil.mpr hnext⟩
    · rw [setMq_self]
      rfl
  | some last =>
    have hmem := List.mem_of_getLast? hlast
    have htail0 : (s.mq q).msgQueueTail = last := by rw [htail, hlast, Option.getD_some]
    have hlast0 : last ≠ 0 := by
      rintro rfl
      exact hlist.null hmem
    have hhead : (s.mq q).msgQueueHead ≠ 0 := fun h0 => by
      have hnil := hlist.nil_iff.mpr h0
      rw [hnil] at hmem
      exact absurd hmem List.not_mem_nil
    simp only [linkTail, htail0, ne_eq, hlast0, not_false_eq_true, if_true]
    refine ⟨setMq_update, by rw [setMq_self]; rfl, by rw [setMq_self]; rfl, rfl, rfl,
      fun m hm => ?_, ?_, ?_, by rw [setMq_self]; rfl⟩
    · by_cases hm' : m = last
      · exact .inr (hm' ▸ hmem)
      · exact absurd (Function.update_of_ne hm' ..) hm
    · rw [setMq_self]
      change NodeList _ 0 (if (s.mq q).msgQueueHead = 0 then n else (s.mq q).msgQueueHead) _
      rw [if_neg hhead]
      exact hlist.snoc hlast hn hms hnext
    · rw [setMq_self]
      simp

theorem linkHead_linked {ms : List Nat} (hlist : NodeList s.next 0 (s.mq q).msgQueueHead ms)
    (htail : (s.mq q).msgQueueTail = ms.getLast?.getD 0) (hn : n ≠ 0) (hms : n ∉ ms) :
    Linked s (linkHead s q n) q n ms (n :: ms) := by
  refine ⟨setMq_update, by rw [linkHead, setMq_self]; rfl, by rw [linkHead, setMq_self]; rfl, rfl, rfl,
    fun m hm => ?_, ?_, ?_, by rw [linkHead, setMq_self]; rfl⟩
  · by_cases hm' : m = n
    · exact .inl hm'
    · exact absurd (Function.update_of_ne hm' ..) hm
  · rw [linkHead, setMq_self]
    exact hlist.push hn hms
  · rw [linkHead, setMq_self]
    change (if (s.mq q).msgQueueTail = 0 then n else (s.mq q).msgQueueTail) = _
    rw [htail, List.getLast?_cons, Option.getD_some]
    cases hlast : ms.getLast? with
    | none => simp
    | some last =>
      have hlast0 : last ≠ 0 := by
        rintro rfl
        exact hlist.null (List.mem_of_getLast? hlast)
      simp [hlast0]

/-- What is pending after a message is linked, if `ms'` are the linked messages then. -/
theorem linked_contents {ms ms' : List Nat} (hms : ms' = if urgent then n :: ms else ms ++ [n])
    (h : List.Forall₂ (fun n msg => Holds (s.body n) msg) ms (pending q log))
    (hn : Holds (s.body n) buffer) :
    List.Forall₂ (fun n msg => Holds (s.body n) msg) ms' (pending q (.linked q urgent buffer :: log)) := by
  rw [hms, pending, if_pos rfl]
  cases urgent
  · exact List.rel_append h (.cons hn .nil)
  · exact .cons hn h

/-- The second section of a sender. -/
theorem mqLink_ok (h : MqOk s log) (hs : mqLink s c = some (s', e)) : MqOk s' (e.toList ++ log) := by
  obtain ⟨l, hcore, hcount⟩ := h
  unfold mqLink at hs
  split at hs
  next q n urgent buffer hc =>
    have hat : At s l (.filled q c) n := by simp [At, hc, MqFrame.fills]
    have hin := hcore.placed.inside n (.filled q c) hat
    have hn : n ≠ 0 := by
      rintro rfl
      exact hcore.pools.zero q hin
    have hms : n ∉ l.msgs q := fun hmem =>
      hcore.placed.ne hat (p := .listed q) hmem (by simp) rfl
    obtain ⟨hholds, hnext⟩ := hcore.linking c q n urgent buffer hc
    obtain ⟨ms', hperm, hms', hlinked⟩ : ∃ ms', ms'.Perm (n :: l.msgs q) ∧
        (ms' = if urgent then n :: l.msgs q else l.msgs q ++ [n]) ∧
        Linked s (if urgent then linkHead s q n else linkTail s q n) q n (l.msgs q) ms' := by
      cases urgent
      · exact ⟨l.msgs q ++ [n], List.perm_append_singleton _ _, rfl,
          linkTail_linked (hcore.msgList q) (hcore.tail q) hn hms (hnext rfl)⟩
      · exact ⟨n :: l.msgs q, .refl _, rfl, linkHead_linked (hcore.msgList q) (hcore.tail q) hn hms⟩
    generalize (if urgent then linkHead s q n else linkTail s q n) = s1 at hs hlinked
    obtain ⟨hret, rfl⟩ := Prod.mk.inj (Option.some.inj hs)
    have hmq : s'.mq = Function.update s.mq q (s1.mq q) := by
      rw [← hret]
      exact hlinked.mq
    have hnext' : s'.next = s1.next := by rw [← hret]; rfl
    have hbody : s'.body = s.body := by
      rw [← hret]
      exact hlinked.body
    have hf : s'.frame = Function.update s.frame c .outside := by
      rw [← hret, ← hlinked.frame]
      rfl
    have hlen : ms'.length = (l.msgs q).length + 1 := hperm.length_eq
    have hbound : ms'.length ≤ 65535 := by
      refine hcore.length_le (q := q) (hperm.nodup_iff.mpr
        (List.nodup_cons.mpr ⟨hms, (hcore.msgList q).nodup⟩)) fun m hm => ?_
      rcases List.mem_cons.mp (hperm.mem_iff.mp hm) with rfl | hm
      · exact hin
      · exact hcore.placed.inside m (.listed q) hm
    refine ⟨⟨l.free, Function.update l.msgs q ms'⟩, hcore.move (q := q) hat
        (moves_link hcore.placed hat hperm (by simp [hc, MqFrame.copies])
          (by simp [hc, MqFrame.fills]) hf) rfl rfl hmq hlinked.shape hbody
        (fun r hr => ⟨rfl, Function.update_of_ne hr ..⟩) (by rw [hnext']; exact hlinked.next) ?_ ?_ ?_
        (hands_of_frame hf (fun _ _ => rfl) (fun r c' heq => by cases heq; rfl) (handsOk_outside hf))
        hcore.order,
      counted_of_self hcount hmq hbody (fun r hr => Function.update_of_ne hr ..)
        (fun r hr => ?_) ⟨?_, ?_⟩⟩
    · rw [hlinked.free, hnext']
      refine (hcore.freeList q).congr fun m hm => ?_
      by_contra hne
      rcases hlinked.next m hne with rfl | hmem
      · exact hcore.placed.ne hat (p := .free q) hm (by simp) rfl
      · simpa using hcore.placed.unique m (.free q) (.listed q) hm hmem
    · simpa [hnext'] using hlinked.list
    · simpa using hlinked.tail
    · simp [pending, Ne.symm hr]
    · have hentry := (hcount q).entry
      simp only [hmq, Function.update_self, hlinked.entry]
      omega
    · simp only [Function.update_self, hbody]
      exact linked_contents hms' (hcount q).contents hholds
  next => exact absurd hs (by simp)

/-- The first section of a receiver takes the first message. -/
theorem mqUnlink_ok (h : MqOk s log) (hc : (s.frame c).empty = true) (hentry : (s.mq q).entry ≠ 0)
    (hs : mqUnlink s q c size = (s', e)) : MqOk s' (e.toList ++ log) := by
  obtain ⟨l, hcore, hcount⟩ := h
  have hlist := hcore.msgList q
  have htail := hcore.tail q
  have hcontents := (hcount q).contents
  have hlen := (hcount q).entry
  cases hmsgs : l.msgs q with
  | nil =>
    rw [hmsgs] at hlen
    exact absurd hlen hentry
  | cons n ns =>
    rw [hmsgs] at hlist htail hlen hcontents
    obtain ⟨hptr, -, hns⟩ := nodeList_cons.mp hlist
    have hnodup := hlist.nodup
    have hbound : (n :: ns).length ≤ 65535 := hcore.length_le (q := q) hnodup fun m hm =>
      hcore.placed.inside m (.listed q) (by simpa [At, hmsgs] using hm)
    obtain ⟨hret, rfl⟩ := Prod.mk.inj hs
    have hat : At s l (.listed q) n := by simp [At, hmsgs]
    have hf : s'.frame = Function.update s.frame c (.copying q n size) := by
      rw [← hret, ← hptr]
      rfl
    have hmq : s'.mq = Function.update s.mq q
        { s.mq q with
          msgQueueHead := s.next n
          msgQueueTail := if (s.mq q).msgQueueTail = n then 0 else (s.mq q).msgQueueTail
          entry := ((s.mq q).entry + 65535) % 65536 } := by
      rw [← hret, ← hptr]
      rfl
    have hnext : s'.next = s.next := by rw [← hret]; rfl
    have hbody : s'.body = s.body := by rw [← hret]; rfl
    cases hpend : pending q log with
    | nil =>
      rw [hpend] at hcontents
      cases hcontents
    | cons msg msgs =>
      rw [hpend] at hcontents
      obtain ⟨hholds, hrest⟩ := List.forall₂_cons.mp hcontents
      refine ⟨⟨l.free, Function.update l.msgs q ns⟩, hcore.move (q := q) hat
          (moves_unlink hcore.placed hmsgs (List.nodup_cons.mp hnodup).1
            (fun r m => MqFrame.empty_fills hc) hf) rfl rfl hmq (by simp only [MsgQueue.shape]) hbody
          (fun r hr => ⟨rfl, Function.update_of_ne hr ..⟩) (fun m hm => absurd (by rw [hnext]) hm)
          ?_ ?_ ?_ (hands_of_frame hf (fun c' hc' => ?_) (by simp) ⟨?_, ?_⟩) hcore.order,
        counted_of_self hcount hmq hbody (fun r hr => Function.update_of_ne hr ..)
          (fun r hr => ?_) ⟨?_, ?_⟩⟩
      · rw [hnext]
        exact hcore.freeList q
      · simpa [hnext] using hns
      · simp only [Function.update_self]
        rw [htail]
        cases hlast : ns.getLast? with
        | none =>
          obtain rfl := List.getLast?_eq_none_iff.mp hlast
          simp
        | some last =>
          have hne : last ≠ n := ne_of_mem_of_not_mem (List.mem_of_getLast? hlast)
            (List.nodup_cons.mp hnodup).1
          simp [List.getLast?_cons, hlast, hne]
      · simp [takenBy, Ne.symm hc']
      · simp [hf]
      · simp only [hf, Function.update_self, MqFrame.copying.injEq, and_imp]
        rintro q' m size' rfl rfl -
        exact ⟨msg, by simp [takenBy, hpend], by rw [hbody]; exact hholds⟩
      · simp [pending, Ne.symm hr]
      · simp only [List.length_cons] at hlen hbound
        simp only [hmq, Function.update_self]
        omega
      · simp only [Option.toList_some, List.singleton_append, pending, if_true, hpend,
          Function.update_self, List.tail_cons, hbody]
        exact hrest

/-- A message is copied where it is. -/
theorem mqCopy_ok (h : MqOk s log) (hs : mqCopy s c = some (s', e)) : MqOk s' (e.toList ++ log) := by
  obtain ⟨l, hcore, hcount⟩ := h
  unfold mqCopy at hs
  split at hs
  next q n size hc =>
    obtain ⟨hret, rfl⟩ := Prod.mk.inj (Option.some.inj hs)
    obtain ⟨msg, htaken, hholds⟩ := hcore.copying c q n size hc
    have hf : s'.frame = Function.update s.frame c (.freeing q n) := by rw [← hret]; rfl
    have hmq : s'.mq = s.mq := by rw [← hret]; rfl
    have hnext : s'.next = s.next := by rw [← hret]; rfl
    have hbody : s'.body = s.body := by rw [← hret]; rfl
    have hsame : ∀ c', c' ≠ c → s'.frame c' = s.frame c' := fun c' hc' => by
      rw [hf, Function.update_of_ne hc']
    have hplace : ∀ p m, At s' l p m ↔ At s l p m := by
      intro p m
      cases p with
      | free r => exact Iff.rfl
      | listed r => exact Iff.rfl
      | filled r c' | copied r c' =>
        by_cases hc' : c' = c
        · simp [At, hf, hc', hc, MqFrame.fills, MqFrame.copies]
        · simp only [At, hsame c' hc']
    refine ⟨l, ⟨hcore.pools.congr fun r => by rw [hmq], hcore.placed.congr hplace fun r => by rw [hmq],
      fun r => ?_, fun r => ?_, fun r => ?_, fun c' r m urgent' buffer' hc' => ?_,
      fun c' r m size hc' => ?_, ⟨⟨msg, htaken, ?_⟩, hcore.order⟩⟩,
      fun r => (hcount r).congr (by rw [hmq]) hbody rfl rfl⟩
    · rw [hmq, hnext]
      exact hcore.freeList r
    · rw [hmq, hnext]
      exact hcore.msgList r
    · rw [hmq]
      exact hcore.tail r
    · rw [hbody, hnext]
      refine hcore.linking c' r m urgent' buffer' ?_
      by_cases heq : c' = c
      · rw [heq, hf, Function.update_self] at hc'
        cases hc'
      · rwa [← hsame c' heq]
    · rw [hbody]
      refine hcore.copying c' r m size ?_
      by_cases heq : c' = c
      · rw [heq, hf, Function.update_self] at hc'
        cases hc'
      · rwa [← hsame c' heq]
    · refine List.ext_getElem? fun i => ?_
      generalize (if size > (s.mq q).msgSize then (s.mq q).msgSize else size) = count
      by_cases hi : i < msg.length
      · have hbyte := hholds i msg[i] (List.getElem?_eq_getElem hi)
        by_cases hcount : i < count
        · simp [hi, hcount, hbyte]
        · simp [hi, hcount]
      · simp [hi]
  next => exact absurd hs (by simp)

/-- The second section of a receiver frees its message. -/
theorem mqPutFree_ok (h : MqOk s log) (hs : mqPutFree s c = some s') : MqOk s' log := by
  obtain ⟨l, hcore, hcount⟩ := h
  unfold mqPutFree at hs
  split at hs
  next q n hc =>
    have hs := Option.some.inj hs
    have hat : At s l (.copied q c) n := by simp [At, hc, MqFrame.copies]
    have hin := hcore.placed.inside n (.copied q c) hat
    have hn : n ≠ 0 := by
      rintro rfl
      exact hcore.pools.zero q hin
    have hnot : n ∉ l.free q := fun hmem => hcore.placed.ne hat (p := .free q) hmem (by simp) rfl
    have hf : s'.frame = Function.update s.frame c .outside := by rw [← hs]; rfl
    have hmq : s'.mq = Function.update s.mq q { s.mq q with msgQueueFree := n } := by rw [← hs]; rfl
    have hnext : s'.next = Function.update s.next n (s.mq q).msgQueueFree := by rw [← hs]; rfl
    have hbody : s'.body = s.body := by rw [← hs]; rfl
    refine ⟨⟨Function.update l.free q (n :: l.free q), l.msgs⟩, hcore.move (q := q) hat
        (moves_putFree hcore.placed hat (by simp [hc, MqFrame.fills])
          (by simp [hc, MqFrame.copies]) hf) rfl rfl hmq rfl hbody
        (fun r hr => ⟨Function.update_of_ne hr .., rfl⟩) (fun m hm => .inl ?_) ?_ ?_
        (hcore.tail q) (hands_of_frame hf (fun _ _ => rfl) (by simp) (handsOk_outside hf)) hcore.order,
      counted_of_self hcount hmq hbody (fun _ _ => rfl) (fun _ _ => rfl)
        ⟨?_, (hcount q).contents_congr hbody rfl rfl⟩⟩
    · by_contra hmn
      exact hm (by rw [hnext, Function.update_of_ne hmn])
    · simpa [hnext] using (hcore.freeList q).push hn hnot
    · rw [hnext]
      exact (hcore.msgList q).congr fun m hm =>
        Function.update_of_ne (hcore.placed.ne hat (p := .listed q) hm (by simp)) ..
    · rw [hmq, Function.update_self]
      exact (hcount q).entry
  next => exact absurd hs (by simp)

/-- What a step changes when it touches neither the queues nor a message. -/
theorem MqOk.idle (h : MqOk s log) (hmq : s'.mq = s.mq) (hnext : s'.next = s.next)
    (hbody : s'.body = s.body) (hframe : ∀ c, s'.frame c = s.frame c ∨
      (s.frame c).empty = true ∧ (s'.frame c).empty = true) : MqOk s' log := by
  obtain ⟨l, hcore, hcount⟩ := h
  exact ⟨l, hcore.idle hmq hnext hbody hframe, fun r => (hcount r).congr (by rw [hmq]) hbody rfl rfl⟩

theorem MqOk.setEmpty (h : MqOk s log) (hc : (s.frame c).empty = true) (hfr : fr.empty = true) :
    MqOk (s.setFrame c fr) log := by
  refine h.idle rfl rfl rfl fun c' => ?_
  by_cases hc' : c' = c
  · rw [hc', setFrame_self]
    exact .inr ⟨hc, hfr⟩
  · exact .inl (setFrame_ne hc')

theorem MqOk.setThreads {threads : Threads} (h : MqOk s log) :
    MqOk { s with toThreads := threads } log := h.idle rfl rfl rfl fun _ => .inl rfl

theorem mqLoop_ok {time : Int} {since : Nat} (h : MqOk s log) (hc : (s.frame c).empty = true)
    (hs : mqLoop s q c size time since = some (s', e)) : MqOk s' (e.toList ++ log) := by
  unfold mqLoop at hs
  split at hs
  next =>
    split at hs
    next => exact absurd hs (by simp)
    next t =>
      split at hs <;> obtain ⟨rfl, rfl⟩ := Prod.mk.inj (Option.some.inj hs)
      · exact h.setThreads.setEmpty hc rfl
      · exact h.setThreads.setEmpty hc rfl
  next hentry => exact mqUnlink_ok h hc hentry (Option.some.inj hs)

/-- A turn of the reset's loop; the count of the queue is wrong until its end. -/
theorem releaseHead_core (h : MqCore s log l) (hother : ∀ r, r ≠ q → Counted s log l r)
    (hmsgs : l.msgs q = n :: ns) :
    ∃ l', MqCore (releaseHead s q) log l' ∧ l'.msgs q = ns ∧
      ∀ r, r ≠ q → Counted (releaseHead s q) log l' r := by
  have hlist := h.msgList q
  have htail := h.tail q
  rw [hmsgs] at hlist htail
  obtain ⟨hptr, hn, hns⟩ := nodeList_cons.mp hlist
  have hnodup := List.nodup_cons.mp hlist.nodup
  have hat : At s l (.listed q) n := by simp [At, hmsgs]
  have hnot : n ∉ l.free q := fun hmem => h.placed.ne hat (p := .free q) hmem (by simp) rfl
  obtain ⟨s', hs⟩ : ∃ s', s' = releaseHead s q := ⟨_, rfl⟩
  have hmq : s'.mq = Function.update s.mq q
      { s.mq q with
        msgQueueHead := s.next n
        msgQueueTail := if (s.mq q).msgQueueTail = n then 0 else (s.mq q).msgQueueTail
        msgQueueFree := n } := by
    rw [hs, ← hptr]
    rfl
  have hnext : s'.next = Function.update s.next n (s.mq q).msgQueueFree := by
    rw [hs, ← hptr]
    rfl
  have hbody : s'.body = s.body := by rw [hs]; rfl
  have hf : s'.frame = s.frame := by rw [hs]; rfl
  rw [← hs]
  refine ⟨⟨Function.update l.free q (n :: l.free q), Function.update l.msgs q ns⟩,
    h.move (q := q) hat (moves_release h.placed hmsgs hnodup.1 hf) rfl rfl hmq
      (by simp only [MsgQueue.shape]) hbody
      (fun r hr => ⟨Function.update_of_ne hr .., Function.update_of_ne hr ..⟩)
      (fun m hm => .inl ?_) ?_ ?_ ?_ (fun c => .inl ⟨by rw [hf], rfl, by simp⟩) h.order,
    Function.update_self .., fun r hr => ?_⟩
  · by_contra hmn
    exact hm (by rw [hnext, Function.update_of_ne hmn])
  · simpa [hnext] using (h.freeList q).push hn hnot
  · simp only [Function.update_self, hnext]
    exact hns.congr fun m hm => Function.update_of_ne (ne_of_mem_of_not_mem hm hnodup.1) ..
  · simp only [Function.update_self]
    rw [htail]
    cases hlast : ns.getLast? with
    | none =>
      obtain rfl := List.getLast?_eq_none_iff.mp hlast
      simp
    | some last =>
      have hne : last ≠ n := ne_of_mem_of_not_mem (List.mem_of_getLast? hlast) hnodup.1
      simp [List.getLast?_cons, hlast, hne]
  · exact (hother r hr).congr (by rw [hmq, Function.update_of_ne hr]) hbody
      (Function.update_of_ne hr ..) rfl

/-- The loop of the reset ends, and no message is linked then. -/
theorem releaseAll_core (fuel : Nat) (h : MqCore s log l) (hother : ∀ r, r ≠ q → Counted s log l r)
    (hfuel : (l.msgs q).length ≤ fuel) :
    ∃ s' l', releaseAll q fuel s = some s' ∧ MqCore s' log l' ∧ l'.msgs q = [] ∧
      ∀ r, r ≠ q → Counted s' log l' r := by
  induction fuel generalizing s l with
  | zero =>
    have hnil : l.msgs q = [] := List.length_eq_zero_iff.mp (Nat.le_zero.mp hfuel)
    have hhead := (h.msgList q).nil_iff.mp hnil
    exact ⟨s, l, by simp [releaseAll, hhead], h, hnil, hother⟩
  | succ fuel ih =>
    cases hmsgs : l.msgs q with
    | nil =>
      have hhead := (h.msgList q).nil_iff.mp hmsgs
      exact ⟨s, l, by simp [releaseAll, hhead], h, hmsgs, hother⟩
    | cons n ns =>
      have hhead : (s.mq q).msgQueueHead ≠ 0 := fun h0 => by
        simpa [hmsgs] using (h.msgList q).nil_iff.mpr h0
      obtain ⟨l1, hcore, hl1, hother1⟩ := releaseHead_core h hother hmsgs
      simp only [hmsgs, List.length_cons, Nat.add_le_add_iff_right] at hfuel
      obtain ⟨s', l', hs', hrest⟩ := ih hcore hother1 (by rw [hl1]; exact hfuel)
      exact ⟨s', l', by simpa [releaseAll, hhead] using hs', hrest⟩

/-- The count plays no part in the core. -/
theorem MqCore.setEntry {k : Nat} (h : MqCore s log l) :
    MqCore (s.setMq q fun x => { x with entry := k }) log l := by
  have hshape : ∀ r, ((s.setMq q fun x => { x with entry := k }).mq r).shape = (s.mq r).shape :=
    setMq_field MsgQueue.shape rfl
  refine ⟨h.pools.congr hshape, h.placed.congr (fun p m => ?_) fun r => nodes_congr (hshape r),
    fun r => ?_, fun r => ?_, fun r => ?_, h.linking, h.copying, h.order⟩
  · cases p <;> exact Iff.rfl
  · rw [setMq_field MsgQueue.msgQueueFree rfl]
    exact h.freeList r
  · rw [setMq_field MsgQueue.msgQueueHead rfl]
    exact h.msgList r
  · rw [setMq_field MsgQueue.msgQueueTail rfl]
    exact h.tail r

/-- The reset always ends. -/
theorem rtMqReset_ok (h : MqOk s log) :
    ∃ s', rtMqReset s q = some s' ∧ MqOk s' (.reset q :: log) := by
  have hthreads : MqOk { s with toThreads := rtIpcListResumeAll s.toThreads q } log := h.setThreads
  obtain ⟨l, hcore, hcount⟩ := hthreads
  have hlen : (l.msgs q).length ≤ (s.mq q).maxMsgs := by
    have hsub := ((hcore.msgList q).nodup.subperm fun m hm =>
      hcore.placed.inside m (.listed q) hm).length_le
    simpa [MsgQueue.nodes, Place.queue] using hsub
  obtain ⟨s1, l1, hs1, hcore1, hnil, hother⟩ :=
    releaseAll_core (s.mq q).maxMsgs hcore (fun r _ => hcount r) hlen
  refine ⟨s1.setMq q fun x => { x with entry := 0 }, by rw [rtMqReset, hs1]; rfl, l1, ?_, fun r => ?_⟩
  · exact (hcore1.setEntry (k := 0)).log_congr (fun _ => rfl) hcore1.order
  · by_cases hr : r = q
    · subst hr
      refine ⟨?_, ?_⟩
      · rw [setMq_self, hnil]
        rfl
      · rw [hnil, pending, if_pos rfl]
        exact .nil
    · exact (hother r hr).congr (by rw [setMq_ne hr]) rfl rfl (by rw [pending, if_neg (Ne.symm hr)])

theorem mqStep_ok {a : MqAction} (h : MqOk s log) (hs : mqStep s a = some (s', e)) :
    MqOk s' (e.toList ++ log) := by
  have hempty : ∀ {c}, s.frame c = .outside → (s.frame c).empty = true := fun hc => by rw [hc]; rfl
  cases a with
  | send c q urgent buffer =>
    obtain ⟨⟨-, hc⟩, hs⟩ := Option.ite_none_right_eq_some.mp hs
    obtain ⟨s1, hret, heq⟩ := Option.map_eq_some_iff.mp hs
    obtain ⟨rfl, rfl⟩ := Prod.mk.inj heq
    exact mqTakeFree_ok h hc hret
  | fill c =>
    obtain ⟨s1, hret, heq⟩ := Option.map_eq_some_iff.mp (Option.ite_none_right_eq_some.mp hs).2
    obtain ⟨rfl, rfl⟩ := Prod.mk.inj heq
    exact mqFill_ok h hret
  | link c => exact mqLink_ok h (Option.ite_none_right_eq_some.mp hs).2
  | recv c q size timeout =>
    obtain ⟨⟨-, hc⟩, hs⟩ := Option.ite_none_right_eq_some.mp hs
    obtain ⟨-, -, hs⟩ := Option.bind_eq_some_iff.mp hs
    split at hs
    next =>
      obtain ⟨rfl, rfl⟩ := Prod.mk.inj (Option.some.inj hs)
      exact h
    next => exact mqLoop_ok h (hempty hc) hs
  | wake t =>
    obtain ⟨s1, hret, heq⟩ := Option.map_eq_some_iff.mp (Option.ite_none_right_eq_some.mp hs).2
    obtain ⟨rfl, rfl⟩ := Prod.mk.inj heq
    unfold mqWake at hret
    split at hret
    next q size timeout tickDelta hc =>
      have hemp : (s.frame (.thread t)).empty = true := by rw [hc]; rfl
      split at hret <;> obtain rfl := Option.some.inj hret
      · exact h.setEmpty hemp rfl
      · exact h.setEmpty hemp rfl
    next => exact absurd hret (by simp)
  | again t =>
    have hs := (Option.ite_none_right_eq_some.mp hs).2
    unfold mqAgain at hs
    split at hs
    next q size timeout tickDelta hc => exact mqLoop_ok h (by rw [hc]; rfl) hs
    next => exact absurd hs (by simp)
  | copy c => exact mqCopy_ok h (Option.ite_none_right_eq_some.mp hs).2
  | free c =>
    obtain ⟨s1, hret, heq⟩ := Option.map_eq_some_iff.mp (Option.ite_none_right_eq_some.mp hs).2
    obtain ⟨rfl, rfl⟩ := Prod.mk.inj heq
    exact mqPutFree_ok h hret
  | timeout t =>
    obtain ⟨threads, -, heq⟩ := Option.map_eq_some_iff.mp hs
    obtain ⟨rfl, rfl⟩ := Prod.mk.inj heq
    exact h.setThreads
  | tick =>
    obtain ⟨rfl, rfl⟩ := Prod.mk.inj (Option.some.inj hs)
    exact h.idle rfl rfl rfl fun _ => .inl rfl
  | reset q =>
    obtain ⟨s1, hret, heq⟩ := Option.map_eq_some_iff.mp hs
    obtain ⟨rfl, rfl⟩ := Prod.mk.inj heq
    obtain ⟨s2, hs2, hok⟩ := rtMqReset_ok (q := q) h
    rw [hret] at hs2
    obtain rfl := Option.some.inj hs2
    exact hok

end

end RTThread
