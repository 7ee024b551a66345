import RTThread.MessageQueueModel

namespace RTThread

/-- The message is being filled, or is filled and not yet linked. -/
def MqFrame.fills (q : ObjectId) (n : Nat) : MqFrame → Prop
  | .filling r m _ _ | .linking r m _ _ => r = q ∧ m = n
  | _ => False

/-- The message is being copied out, or is copied and not yet free. -/
def MqFrame.copies (q : ObjectId) (n : Nat) : MqFrame → Prop
  | .copying r m _ | .freeing r m => r = q ∧ m = n
  | _ => False

/-- Where a message of the queue `q` can be. -/
inductive Place where
  | free (q : ObjectId)
  | listed (q : ObjectId)
  | filled (q : ObjectId) (c : Caller)
  | copied (q : ObjectId) (c : Caller)

def Place.queue : Place → ObjectId
  | .free q | .listed q | .filled q _ | .copied q _ => q

/-- The free messages and the linked messages of each queue. -/
structure MqLists where
  free : ObjectId → List Nat
  msgs : ObjectId → List Nat

def At (s : MqState) (l : MqLists) : Place → Nat → Prop
  | .free q, n => n ∈ l.free q
  | .listed q, n => n ∈ l.msgs q
  | .filled q c, n => (s.frame c).fills q n
  | .copied q c, n => (s.frame c).copies q n

/-- Every message is in one place, of its own queue. -/
structure Placed (s : MqState) (l : MqLists) : Prop where
  unique : ∀ n p p', At s l p n → At s l p' n → p = p'
  inside : ∀ n p, At s l p n → n ∈ (s.mq p.queue).nodes
  cover : ∀ q n, n ∈ (s.mq q).nodes → ∃ p, At s l p n

/-- One message goes to another place. -/
def Moves (s : MqState) (l : MqLists) (s' : MqState) (l' : MqLists) (n : Nat) (dest : Place) : Prop :=
  ∀ p m, At s' l' p m ↔ At s l p m ∧ m ≠ n ∨ p = dest ∧ m = n

section
variable {s s' : MqState} {l l' : MqLists} {n m : Nat} {p dest : Place} {q r : ObjectId} {c : Caller}
  {ns : List Nat} {x : MsgQueue} {next : Nat → Nat} {count : Nat} {f : MqFrame}

theorem Moves.placed (h : Moves s l s' l' n dest) (hp : Placed s l)
    (hnodes : ∀ q, (s'.mq q).nodes = (s.mq q).nodes) (hto : n ∈ (s.mq dest.queue).nodes) :
    Placed s' l' := by
  refine ⟨fun m p p' h1 h2 => ?_, fun m p h1 => ?_, fun q m hm => ?_⟩
  · rcases (h p m).mp h1 with ⟨h1, hne⟩ | ⟨rfl, rfl⟩
    · rcases (h p' m).mp h2 with ⟨h2, -⟩ | ⟨-, heq⟩
      · exact hp.unique m p p' h1 h2
      · exact absurd heq hne
    · rcases (h p' m).mp h2 with ⟨-, hne⟩ | ⟨rfl, -⟩
      · exact absurd rfl hne
      · rfl
  · rw [hnodes]
    rcases (h p m).mp h1 with ⟨h1, -⟩ | ⟨rfl, rfl⟩
    · exact hp.inside m p h1
    · exact hto
  · rw [hnodes] at hm
    by_cases hmn : m = n
    · exact ⟨dest, (h dest m).mpr (.inr ⟨rfl, hmn⟩)⟩
    · obtain ⟨p, hat⟩ := hp.cover q m hm
      exact ⟨p, (h p m).mpr (.inl ⟨hat, hmn⟩)⟩

theorem Placed.congr (hp : Placed s l) (hat : ∀ p m, At s' l' p m ↔ At s l p m)
    (hnodes : ∀ q, (s'.mq q).nodes = (s.mq q).nodes) : Placed s' l' := by
  refine ⟨fun m p p' h1 h2 => ?_, fun m p h1 => ?_, fun q m hm => ?_⟩
  · exact hp.unique m p p' ((hat p m).mp h1) ((hat p' m).mp h2)
  · rw [hnodes]
    exact hp.inside m p ((hat p m).mp h1)
  · rw [hnodes] at hm
    obtain ⟨p, h⟩ := hp.cover q m hm
    exact ⟨p, (hat p m).mpr h⟩

theorem Placed.ne (hp : Placed s l) (hn : At s l dest n) (hm : At s l p m) (hne : p ≠ dest) :
    m ≠ n := by
  rintro rfl
  exact hne (hp.unique m p dest hm hn)

/-- The message goes into the hands of the caller `c`, or out of them. -/
theorem frames_move {src : Place} (dest : Place) (hp : Placed s l) (hat : At s l src n)
    (hsrc : ∀ r c', src = .filled r c' ∨ src = .copied r c' → c' = c)
    (hdest : ∀ r c', dest = .filled r c' ∨ dest = .copied r c' → c' = c)
    (hold : ∀ r m, (s.frame c).fills r m ∨ (s.frame c).copies r m → m = n)
    (hframe : s'.frame = Function.update s.frame c f)
    (hfills : ∀ r m, f.fills r m ↔ .filled r c = dest ∧ m = n)
    (hcopies : ∀ r m, f.copies r m ↔ .copied r c = dest ∧ m = n) (r : ObjectId) (c' : Caller) (m : Nat) :
    ((s'.frame c').fills r m ↔
        (s.frame c').fills r m ∧ m ≠ n ∨ .filled r c' = dest ∧ m = n) ∧
      ((s'.frame c').copies r m ↔
        (s.frame c').copies r m ∧ m ≠ n ∨ .copied r c' = dest ∧ m = n) := by
  by_cases hc : c' = c
  · subst hc
    rw [hframe, Function.update_self, hfills, hcopies]
    have hf := fun h => hold r m (.inl h)
    have hg := fun h => hold r m (.inr h)
    tauto
  · rw [hframe, Function.update_of_ne hc]
    have hf : (s.frame c').fills r m → m ≠ n := by
      rintro h rfl
      exact hc (hsrc r c' (.inl (hp.unique m _ (.filled r c') hat h)))
    have hg : (s.frame c').copies r m → m ≠ n := by
      rintro h rfl
      exact hc (hsrc r c' (.inr (hp.unique m _ (.copied r c') hat h)))
    have hfd : .filled r c' ≠ dest := fun h => hc (hdest r c' (.inl h.symm))
    have hgd : .copied r c' ≠ dest := fun h => hc (hdest r c' (.inr h.symm))
    tauto

/-- `rt_mq_send` takes the first free message. -/
theorem moves_take (hp : Placed s l) (hfree : l.free q = n :: ns) (hn : n ∉ ns)
    (hc : s.frame c = .outside) {urgent : Bool} {buffer : List (BitVec 8)}
    (hf : s'.frame = Function.update s.frame c (.filling q n urgent buffer)) :
    Moves s l s' { l with free := Function.update l.free q ns } n (.filled q c) := by
  have hat : At s l (.free q) n := by simp [At, hfree]
  have hframe := frames_move (.filled q c) hp hat (by simp) (by rintro r c' (h | h) <;> cases h; rfl)
    (by simp [hc, MqFrame.fills, MqFrame.copies]) hf
    (fun r m => by simp [MqFrame.fills, eq_comm]) (fun r m => by simp [MqFrame.copies])
  intro p m
  cases p with
  | free r =>
    by_cases hr : r = q
    · subst hr
      have hne : m ∈ ns → m ≠ n := fun h => ne_of_mem_of_not_mem h hn
      simp only [At, Function.update_self, hfree, List.mem_cons, reduceCtorEq, false_and, or_false]
      tauto
    · have hne : m ∈ l.free r → m ≠ n := fun h => hp.ne hat (p := .free r) h (by simpa using hr)
      simp only [At, Function.update_of_ne hr, reduceCtorEq, false_and, or_false]
      tauto
  | listed r =>
    have hne : m ∈ l.msgs r → m ≠ n := fun h => hp.ne hat (p := .listed r) h (by simp)
    simp only [At, reduceCtorEq, false_and, or_false]
    tauto
  | filled r c' => exact (hframe r c' m).1
  | copied r c' => exact (hframe r c' m).2

/-- The second section of `rt_mq_send` or `rt_mq_urgent` links its message. -/
theorem moves_link (hp : Placed s l) (hat : At s l (.filled q c) n) (hns : ns.Perm (n :: l.msgs q))
    (hc : ∀ r m, ¬ (s.frame c).copies r m) (hc' : ∀ r m, (s.frame c).fills r m → m = n)
    (hf : s'.frame = Function.update s.frame c .outside) :
    Moves s l s' { l with msgs := Function.update l.msgs q ns } n (.listed q) := by
  have hframe := frames_move (.listed q) hp hat (by rintro r c' (h | h) <;> cases h; rfl) (by simp)
    (fun r m h => hc' r m (h.resolve_right (hc r m))) hf
    (fun r m => by simp [MqFrame.fills]) (fun r m => by simp [MqFrame.copies])
  intro p m
  cases p with
  | free r =>
    have hne : m ∈ l.free r → m ≠ n := fun h => hp.ne hat (p := .free r) h (by simp)
    simp only [At, reduceCtorEq, false_and, or_false]
    tauto
  | listed r =>
    have hne : m ∈ l.msgs r → m ≠ n := fun h => hp.ne hat (p := .listed r) h (by simp)
    by_cases hr : r = q
    · subst hr
      simp only [At, Function.update_self, hns.mem_iff, List.mem_cons, true_and]
      tauto
    · simp only [At, Function.update_of_ne hr, Place.listed.injEq, hr, false_and, or_false]
      tauto
  | filled r c' => exact (hframe r c' m).1
  | copied r c' => exact (hframe r c' m).2

/-- `rt_mq_recv` unlinks the first message. -/
theorem moves_unlink (hp : Placed s l) (hmsgs : l.msgs q = n :: ns) (hn : n ∉ ns)
    (hc : ∀ r m, ¬ (s.frame c).fills r m ∧ ¬ (s.frame c).copies r m) {size : Nat}
    (hf : s'.frame = Function.update s.frame c (.copying q n size)) :
    Moves s l s' { l with msgs := Function.update l.msgs q ns } n (.copied q c) := by
  have hat : At s l (.listed q) n := by simp [At, hmsgs]
  have hframe := frames_move (.copied q c) hp hat (by simp) (by rintro r c' (h | h) <;> cases h; rfl)
    (fun r m h => absurd h (not_or.mpr (hc r m))) hf
    (fun r m => by simp [MqFrame.fills]) (fun r m => by simp [MqFrame.copies, eq_comm])
  intro p m
  cases p with
  | free r =>
    have hne : m ∈ l.free r → m ≠ n := fun h => hp.ne hat (p := .free r) h (by simp)
    simp only [At, reduceCtorEq, false_and, or_false]
    tauto
  | listed r =>
    by_cases hr : r = q
    · subst hr
      have hne : m ∈ ns → m ≠ n := fun h => ne_of_mem_of_not_mem h hn
      simp only [At, Function.update_self, hmsgs, List.mem_cons, reduceCtorEq, false_and, or_false]
      tauto
    · have hne : m ∈ l.msgs r → m ≠ n := fun h => hp.ne hat (p := .listed r) h (by simpa using hr)
      simp only [At, Function.update_of_ne hr, reduceCtorEq, false_and, or_false]
      tauto
  | filled r c' => exact (hframe r c' m).1
  | copied r c' => exact (hframe r c' m).2

/-- The second section of `rt_mq_recv` frees its message. -/
theorem moves_putFree (hp : Placed s l) (hat : At s l (.copied q c) n)
    (hc : ∀ r m, ¬ (s.frame c).fills r m) (hc' : ∀ r m, (s.frame c).copies r m → m = n)
    (hf : s'.frame = Function.update s.frame c .outside) :
    Moves s l s' { l with free := Function.update l.free q (n :: l.free q) } n (.free q) := by
  have hframe := frames_move (.free q) hp hat (by rintro r c' (h | h) <;> cases h; rfl) (by simp)
    (fun r m h => hc' r m (h.resolve_left (hc r m))) hf
    (fun r m => by simp [MqFrame.fills]) (fun r m => by simp [MqFrame.copies])
  intro p m
  cases p with
  | free r =>
    have hne : m ∈ l.free r → m ≠ n := fun h => hp.ne hat (p := .free r) h (by simp)
    by_cases hr : r = q
    · subst hr
      simp only [At, Function.update_self, List.mem_cons, true_and]
      tauto
    · simp only [At, Function.update_of_ne hr, Place.free.injEq, hr, false_and, or_false]
      tauto
  | listed r =>
    have hne : m ∈ l.msgs r → m ≠ n := fun h => hp.ne hat (p := .listed r) h (by simp)
    simp only [At, reduceCtorEq, false_and, or_false]
    tauto
  | filled r c' => exact (hframe r c' m).1
  | copied r c' => exact (hframe r c' m).2

/-- A turn of the reset's loop frees the first message. -/
theorem moves_release (hp : Placed s l) (hmsgs : l.msgs q = n :: ns) (hn : n ∉ ns)
    (hf : s'.frame = s.frame) :
    Moves s l s' ⟨Function.update l.free q (n :: l.free q), Function.update l.msgs q ns⟩ n (.free q) := by
  have hat : At s l (.listed q) n := by simp [At, hmsgs]
  intro p m
  cases p with
  | free r =>
    have hne : m ∈ l.free r → m ≠ n := fun h => hp.ne hat (p := .free r) h (by simp)
    by_cases hr : r = q
    · subst hr
      simp only [At, Function.update_self, List.mem_cons, true_and]
      tauto
    · simp only [At, Function.update_of_ne hr, Place.free.injEq, hr, false_and, or_false]
      tauto
  | listed r =>
    by_cases hr : r = q
    · subst hr
      have hne : m ∈ ns → m ≠ n := fun h => ne_of_mem_of_not_mem h hn
      simp only [At, Function.update_self, hmsgs, List.mem_cons, reduceCtorEq, false_and, or_false]
      tauto
    · have hne : m ∈ l.msgs r → m ≠ n := fun h => hp.ne hat (p := .listed r) h (by simpa using hr)
      simp only [At, Function.update_of_ne hr, reduceCtorEq, false_and, or_false]
      tauto
  | filled r c' =>
    have hne : (s.frame c').fills r m → m ≠ n := fun h => hp.ne hat (p := .filled r c') h (by simp)
    simp only [At, hf, reduceCtorEq, false_and, or_false]
    tauto
  | copied r c' =>
    have hne : (s.frame c').copies r m → m ≠ n := fun h => hp.ne hat (p := .copied r c') h (by simp)
    simp only [At, hf, reduceCtorEq, false_and, or_false]
    tauto

end

end RTThread
