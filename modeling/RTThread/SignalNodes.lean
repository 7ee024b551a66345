import RTThread.SignalModel
import RTThread.Places

namespace RTThread

/-- The address a list field of the first node has, or null. -/
def firstField (nodes : List Word) : Word := (nodes.map listField).headD 0

/-- `p` points to the first node, and the `list` field of each node points to the next one's. -/
structure SigList (mem : Word → Word) (p : Word) (nodes : List Word) : Prop where
  head : p = nodes.headD 0
  fields : NodeList mem 0 (firstField nodes) (nodes.map listField)

/-- The words of the nodes do not overlap, and none is at the null address. -/
structure PoolLayout (pool : List Word) : Prop where
  node_ne : ∀ a ∈ pool, a ≠ 0
  field_ne : ∀ a ∈ pool, listField a ≠ 0
  apart : ∀ a ∈ pool, ∀ b ∈ pool, listField a ≠ b ∧ a + 4 ≠ b ∧ a + 4 ≠ listField b

/-- The node that a call of `rt_thread_kill` has allocated and not appended yet. -/
def KillFrame.node : KillFrame → Option Word
  | .append _ _ a => some a
  | _ => none

/-- The call has set the pending bit and not appended its node yet. -/
def KillFrame.raises (t : ThreadId) (n : Nat) : KillFrame → Bool
  | .alloc u m | .append u m _ => decide (u = t ∧ m = n)
  | _ => false

/-- The node whose handler is called. -/
def SigFrame.node : SigFrame → Option Word
  | .taken _ a _ | .handling _ a => some a
  | .waiting _ => none

def SigFrame.handles (n : Nat) : SigFrame → Bool
  | .taken m _ _ | .handling m _ => decide (m = n)
  | .waiting _ => false

/-- Where a node of the pool can be. -/
inductive SigPlace where
  | free
  | killing
  | queued (t : ThreadId)
  | handled (t : ThreadId)

def sigHolds (s : SigState) (q : ThreadId → List Word) : SigPlace → List Word
  | .free => s.free
  | .killing => s.kills.filterMap KillFrame.node
  | .queued t => q t
  | .handled t => (s.frames t).filterMap SigFrame.node

/-- The calls that raise a signal of a thread, its nodes and the calls that handle it. -/
def signalTokens (s : SigState) (nodes : List Word) (t : ThreadId) (n : Nat) : Nat :=
  s.kills.countP (KillFrame.raises t n) + nodes.countP (siSigno s.mem · == n) +
    (s.frames t).countP (SigFrame.handles n)

/-- The lists of the threads hold the nodes `q`; a pending signal is raised, queued or handled
once. -/
structure SigInv (s : SigState) (q : ThreadId → List Word) : Prop where
  layout : PoolLayout s.pool
  held : Held s.pool (sigHolds s q)
  list : ∀ t, SigList s.mem (s.thread t).siList (q t)
  filled : ∀ t n a, .append t n a ∈ s.kills → siSigno s.mem a = n ∧ s.mem (listField a) = 0
  tokens : ∀ t n, signalTokens s (q t) t n = ((s.thread t).sigPending.getLsbD n).toNat

section
variable {n m : Nat} {x : Word}

theorem sigMask_getLsbD (hn : n < 32) : (sigMask m).getLsbD n = decide (m = n) := by
  rw [sigMask, BitVec.getLsbD_shiftLeft, BitVec.getLsbD_one]
  simp only [hn, decide_true, Bool.true_and]
  grind

theorem and_sigMask_eq_zero (hn : n < 32) : x &&& sigMask n = 0 ↔ x.getLsbD n = false := by
  constructor
  · intro h
    have hbit := congrArg (·.getLsbD n) h
    simpa [sigMask_getLsbD hn] using hbit
  · intro h
    refine BitVec.eq_of_getLsbD_eq fun i hi => ?_
    rw [BitVec.getLsbD_and, sigMask_getLsbD hi]
    by_cases hni : n = i
    · subst hni
      simp [h]
    · simp [hni]

theorem setPending_getLsbD (hm : m < 32) :
    (x ||| sigMask m).getLsbD n = (x.getLsbD n || decide (m = n)) := by
  rw [BitVec.getLsbD_or]
  by_cases hn : n < 32
  · rw [sigMask_getLsbD hn]
  · rw [BitVec.getLsbD_of_ge x n (by omega), BitVec.getLsbD_of_ge (sigMask m) n (by omega),
      decide_eq_false (by omega)]

theorem clearPending_getLsbD : (x &&& ~~~sigMask m).getLsbD n = (x.getLsbD n && decide (m ≠ n)) := by
  by_cases hn : n < 32
  · rw [BitVec.getLsbD_and, BitVec.getLsbD_not, sigMask_getLsbD hn]
    simp [hn]
  · rw [BitVec.getLsbD_of_ge _ n (by omega), BitVec.getLsbD_of_ge _ n (by omega), Bool.false_and]

end

section
variable {mem mem' : Word → Word} {p a b : Word} {nodes as bs : List Word}

theorem listField_inj : listField a = listField b ↔ a = b := BitVec.add_left_inj ..

theorem slistEntry_listField : slistEntry (listField a) = a := BitVec.add_sub_cancel a 8

theorem SigList.congr (h : SigList mem p nodes)
    (hmem : ∀ a ∈ nodes, mem' (listField a) = mem (listField a)) : SigList mem' p nodes :=
  ⟨h.head, h.fields.congr fun f hf => by
    obtain ⟨a, ha, rfl⟩ := List.mem_map.mp hf
    exact hmem a ha⟩

theorem sigList_nil : SigList mem p [] ↔ p = 0 :=
  ⟨fun h => h.head, fun h => ⟨h, nodeList_nil.mpr rfl⟩⟩

/-- The first field is where the node before points. -/
theorem SigList.next (h : SigList mem p (a :: nodes)) :
    mem (listField a) = firstField nodes ∧ NodeList mem 0 (firstField nodes) (nodes.map listField) := by
  obtain ⟨-, -, hrest⟩ := nodeList_cons.mp h.fields
  have hnext : mem (listField a) = firstField nodes := by
    cases nodes with
    | nil => exact nodeList_nil.mp hrest
    | cons b nodes => exact (nodeList_cons.mp hrest).1
  exact ⟨hnext, hnext ▸ hrest⟩

theorem SigList.tail (h : SigList mem p (a :: nodes)) : SigList mem (nodes.headD 0) nodes :=
  ⟨rfl, h.next.2⟩

theorem firstField_eq_zero (h : ∀ a ∈ nodes, listField a ≠ 0) :
    firstField nodes = 0 ↔ nodes = [] := by
  cases nodes with
  | nil => simp [firstField]
  | cons a nodes => simpa [firstField] using h a List.mem_cons_self

theorem SigList.eq_zero (h : SigList mem p nodes) (hne : ∀ a ∈ nodes, a ≠ 0) :
    p = 0 ↔ nodes = [] := by
  cases nodes with
  | nil => simpa using h.head
  | cons a nodes => simpa [h.head] using hne a List.mem_cons_self

/-- What `rt_thread_handle_sig` stores in `si_list`. -/
theorem SigList.tail_head (h : SigList mem p (a :: nodes)) (hne : ∀ b ∈ nodes, listField b ≠ 0) :
    (if mem (listField a) = 0 then 0 else slistEntry (mem (listField a))) = nodes.headD 0 := by
  rw [h.next.1]
  cases nodes with
  | nil => exact if_pos rfl
  | cons b nodes =>
    have hfield : firstField (b :: nodes) = listField b := rfl
    rw [hfield, if_neg (hne b List.mem_cons_self)]
    exact slistEntry_listField

/-- A node is linked behind the last one. -/
theorem SigList.snoc (h : SigList mem p (as ++ [b])) (ha : listField a ≠ 0) (hmem : a ∉ as ++ [b])
    (hnull : mem (listField a) = 0) :
    SigList (Function.update mem (listField b) (listField a)) p (as ++ [b] ++ [a]) := by
  have hnot : listField a ∉ (as ++ [b]).map listField := by
    intro hf
    obtain ⟨c, hc, heq⟩ := List.mem_map.mp hf
    rw [listField_inj.mp heq] at hc
    exact hmem hc
  have hfields := h.fields.snoc (b := listField b) (by simp) ha hnot hnull
  refine ⟨?_, ?_⟩
  · rw [h.head]
    cases as <;> rfl
  · have hfirst : firstField (as ++ [b] ++ [a]) = firstField (as ++ [b]) := by cases as <;> rfl
    have hmap : (as ++ [b] ++ [a]).map listField = (as ++ [b]).map listField ++ [listField a] :=
      List.map_append
    rw [hfirst, hmap]
    exact hfields

/-- The node behind `b` is unlinked. -/
theorem SigList.unlink (h : SigList mem p (as ++ b :: a :: bs)) :
    SigList (Function.update mem (listField b) (mem (listField a))) p (as ++ b :: bs) := by
  have hfields := h.fields
  rw [List.map_append, List.map_cons, List.map_cons] at hfields
  refine ⟨?_, ?_⟩
  · rw [h.head]
    cases as <;> rfl
  · have hfirst : firstField (as ++ b :: bs) = firstField (as ++ b :: a :: bs) := by
      cases as <;> rfl
    rw [hfirst, List.map_append, List.map_cons]
    exact hfields.unlink

/-- `rt_slist_append` finds the last node. -/
theorem slistLast_eq (h : SigList mem p (as ++ [b])) (hne : ∀ a ∈ as ++ [b], listField a ≠ 0)
    {fuel : Nat} (hfuel : (as ++ [b]).length ≤ fuel) :
    SigState.slistLast mem fuel (firstField (as ++ [b])) = some (listField b) := by
  induction as generalizing p fuel with
  | nil =>
    obtain ⟨fuel, rfl⟩ := Nat.exists_eq_add_of_le' hfuel
    have hnext := h.next.1
    exact if_pos hnext
  | cons a as ih =>
    obtain ⟨fuel, rfl⟩ := Nat.exists_eq_add_of_le' (Nat.one_le_of_lt hfuel)
    rw [List.cons_append] at h hne hfuel
    have hnext : mem (listField a) = firstField (as ++ [b]) := h.next.1
    have hnull : ¬ mem (listField a) = 0 := by
      rw [hnext, firstField_eq_zero fun c hc => hne c (List.mem_cons_of_mem a hc)]
      exact List.append_ne_nil_of_right_ne_nil as (List.cons_ne_nil b [])
    have hstep : SigState.slistLast mem (fuel + 1) (listField a) =
        SigState.slistLast mem fuel (mem (listField a)) := if_neg hnull
    refine hstep.trans ?_
    rw [hnext]
    refine ih h.tail (fun c hc => hne c (List.mem_cons_of_mem a hc)) ?_
    rw [List.length_cons] at hfuel
    omega

/-- The loop of `rt_signal_wait` finds the first wanted node. -/
theorem waitSearch_eq {s : SigState} {t : ThreadId} {set : Word} (h : SigList s.mem p (as ++ b :: bs))
    (hne : ∀ a ∈ as ++ b :: bs, a ≠ 0) (has : ∀ a ∈ as, s.wanted set a = false)
    (hb : s.wanted set b = true) {fuel : Nat} (hfuel : as.length < fuel) (prev : Option Word) :
    s.waitSearch t set fuel prev p = some (s.waitFound t (as.getLast?.or prev) b) := by
  induction as generalizing p fuel prev with
  | nil =>
    obtain ⟨fuel, rfl⟩ := Nat.exists_eq_add_of_le' hfuel
    obtain rfl : p = b := h.head
    exact (if_neg (hne p List.mem_cons_self)).trans (if_pos hb)
  | cons a as ih =>
    obtain ⟨fuel, rfl⟩ := Nat.exists_eq_add_of_le' (Nat.one_le_of_lt hfuel)
    rw [List.cons_append] at h hne
    obtain rfl : p = a := h.head
    have hnext : slistEntry (s.mem (listField p)) = (as ++ b :: bs).headD 0 := by
      rw [h.next.1]
      cases as <;> exact slistEntry_listField
    have hstep : s.waitSearch t set (fuel + 1) prev p =
        s.waitSearch t set fuel (some p) (slistEntry (s.mem (listField p))) :=
      (if_neg (hne p List.mem_cons_self)).trans
        (if_neg (by rw [has p List.mem_cons_self]; exact Bool.false_ne_true))
    have hlast : (p :: as).getLast?.or prev = as.getLast?.or (some p) := by
      rw [List.getLast?_cons]
      cases as.getLast? <;> rfl
    rw [hstep, hnext, hlast]
    exact ih h.tail (fun c hc => hne c (List.mem_cons_of_mem p hc))
      (fun c hc => has c (List.mem_cons_of_mem p hc)) (Nat.lt_of_succ_lt_succ hfuel) (some p)

end

end RTThread
