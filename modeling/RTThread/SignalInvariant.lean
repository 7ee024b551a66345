import RTThread.SignalNodes

namespace RTThread

/-- Nothing changes that the signal lists and pending bits depend on. -/
structure SigSame (s s' : SigState) : Prop where
  pool : s'.pool = s.pool
  free : s'.free = s.free
  mem : s'.mem = s.mem
  siList : ∀ t, (s'.thread t).siList = (s.thread t).siList
  sigPending : ∀ t, (s'.thread t).sigPending = (s.thread t).sigPending
  killNodes : (s'.kills.filterMap KillFrame.node).Perm (s.kills.filterMap KillFrame.node)
  raises : ∀ t n, s'.kills.countP (KillFrame.raises t n) = s.kills.countP (KillFrame.raises t n)
  appends : ∀ t n a, .append t n a ∈ s'.kills → .append t n a ∈ s.kills
  nodes : ∀ t, (s'.frames t).filterMap SigFrame.node = (s.frames t).filterMap SigFrame.node
  handles : ∀ t n, (s'.frames t).countP (SigFrame.handles n) = (s.frames t).countP (SigFrame.handles n)

/-- Only the list of a thread changes, from the nodes `old` to `new`. -/
structure Relinks (s s' : SigState) (t : ThreadId) (old new : List Word) : Prop where
  pool : s'.pool = s.pool
  free : s'.free = s.free
  kills : s'.kills = s.kills
  frames : s'.frames = s.frames
  signo : ∀ b ∈ s.pool, siSigno s'.mem b = siSigno s.mem b
  fields : ∀ b ∈ s.pool, b ∉ old → s'.mem (listField b) = s.mem (listField b)
  list : SigList s'.mem (s'.thread t).siList new
  others : ∀ u, u ≠ t → s'.thread u = s.thread u
  sigPending : (s'.thread t).sigPending = (s.thread t).sigPending

section
variable {s s' : SigState} {q : ThreadId → List Word} {t u : ThreadId} {f g : KillFrame}
  {fs : List SigFrame} {x : SigThread → SigThread} {a b : Word} {n : Nat}

@[simp] theorem SigState.set_self : (s.set t x).thread t = x (s.thread t) := Function.update_self ..

@[simp] theorem SigState.set_mem : (s.set t x).mem = s.mem := rfl

@[simp] theorem SigState.set_kills : (s.set t x).kills = s.kills := rfl

@[simp] theorem SigState.set_frames : (s.set t x).frames = s.frames := rfl

theorem SigState.set_ne (hu : u ≠ t) : (s.set t x).thread u = s.thread u :=
  Function.update_of_ne hu ..

theorem SigSame.inv (h : SigSame s s') (hi : SigInv s q) : SigInv s' q := by
  have hholds : ∀ p, (sigHolds s' q p).Perm (sigHolds s q p) := by
    intro p
    cases p with
    | free => exact .of_eq h.free
    | killing => exact h.killNodes
    | queued t => exact .refl _
    | handled t => exact .of_eq (h.nodes t)
  refine ⟨?_, ?_, fun t => ?_, fun t n a ha => ?_, fun t n => ?_⟩
  · rw [h.pool]
    exact hi.layout
  · rw [h.pool]
    exact hi.held.congr hholds
  · rw [h.mem, h.siList]
    exact hi.list t
  · rw [h.mem]
    exact hi.filled t n a (h.appends t n a ha)
  · rw [h.sigPending, ← hi.tokens t n, signalTokens, signalTokens, h.raises, h.handles, h.mem]

/-- A change of one thread that keeps its list and its pending signals. -/
theorem set_sigSame (hlist : (x (s.thread t)).siList = (s.thread t).siList)
    (hpending : (x (s.thread t)).sigPending = (s.thread t).sigPending) : SigSame s (s.set t x) := by
  refine ⟨rfl, rfl, rfl, fun u => ?_, fun u => ?_, .refl _, fun _ _ => rfl, fun _ _ _ h => h,
    fun _ => rfl, fun _ _ => rfl⟩ <;> by_cases hu : u = t
  · rw [hu, SigState.set_self, hlist]
  · rw [SigState.set_ne hu]
  · rw [hu, SigState.set_self, hpending]
  · rw [SigState.set_ne hu]

theorem SigSame.trans {s'' : SigState} (h : SigSame s s') (h' : SigSame s' s'') : SigSame s s'' where
  pool := h'.pool.trans h.pool
  free := h'.free.trans h.free
  mem := h'.mem.trans h.mem
  siList t := (h'.siList t).trans (h.siList t)
  sigPending t := (h'.sigPending t).trans (h.sigPending t)
  killNodes := h'.killNodes.trans h.killNodes
  raises t n := (h'.raises t n).trans (h.raises t n)
  appends t n a ha := h.appends t n a (h'.appends t n a ha)
  nodes t := (h'.nodes t).trans (h.nodes t)
  handles t n := (h'.handles t n).trans (h.handles t n)

theorem SigSame.refl : SigSame s s :=
  ⟨rfl, rfl, rfl, fun _ => rfl, fun _ => rfl, .refl _, fun _ _ => rfl, fun _ _ _ h => h,
    fun _ => rfl, fun _ _ => rfl⟩

/-- The frames of one thread change, and not what they handle. -/
theorem setFrames_sigSame (hnodes : fs.filterMap SigFrame.node = (s.frames t).filterMap SigFrame.node)
    (hhandles : ∀ n, fs.countP (SigFrame.handles n) = (s.frames t).countP (SigFrame.handles n)) :
    SigSame s (s.setFrames t fs) := by
  refine ⟨rfl, rfl, rfl, fun _ => rfl, fun _ => rfl, .refl _, fun _ _ => rfl, fun _ _ _ h => h,
    fun u => ?_, fun u n => ?_⟩ <;> by_cases hu : u = t
  · subst hu
    exact (congrArg _ (Function.update_self ..)).trans hnodes
  · exact congrArg _ (Function.update_of_ne hu ..)
  · subst hu
    exact (congrArg _ (Function.update_self ..)).trans (hhandles n)
  · exact congrArg _ (Function.update_of_ne hu ..)

theorem countP_erase (hf : f ∈ s.kills) (p : KillFrame → Bool) :
    s.kills.countP p = (s.kills.erase f).countP p + if p f then 1 else 0 := by
  rw [(List.perm_cons_erase hf).countP_eq, List.countP_cons]

/-- A call that raises nothing goes on or returns. -/
theorem kills_sigSame {ks : List KillFrame} (hf : f ∈ s.kills) (hnode : f.node = none)
    (hraises : ∀ t n, f.raises t n = false) (hks : ks = s.kills.erase f ∨
      ∃ g : KillFrame, ks = g :: s.kills.erase f ∧ g.node = none ∧ ∀ t n, g.raises t n = false) :
    SigSame s { s with kills := ks } := by
  have hnodes : (s.kills.filterMap KillFrame.node).Perm
      ((s.kills.erase f).filterMap KillFrame.node) := by
    have hperm := (List.perm_cons_erase hf).filterMap KillFrame.node
    rwa [List.filterMap_cons_none hnode] at hperm
  refine ⟨rfl, rfl, rfl, fun _ => rfl, fun _ => rfl, ?_, fun t n => ?_, fun t n a ha => ?_,
    fun _ => rfl, fun _ _ => rfl⟩ <;> rcases hks with rfl | ⟨g, rfl, hg, hgr⟩
  · exact hnodes.symm
  · rw [List.filterMap_cons_none hg]
    exact hnodes.symm
  · rw [countP_erase hf, hraises]
    rfl
  · rw [countP_erase hf, hraises, List.countP_cons, hgr]
  · exact List.mem_of_mem_erase ha
  · rcases List.mem_cons.mp ha with rfl | ha
    · cases hg
    · exact List.mem_of_mem_erase ha

/-- `rt_thread_kill` raises a signal that is not pending. -/
theorem rtThreadKill_inv (hi : SigInv s q)
    (hnew : sigValid n = true → (s.thread t).sigPending &&& sigMask n = 0) :
    SigInv (s.rtThreadKill t n) q := by
  unfold SigState.rtThreadKill
  split
  next hvalid =>
    have hn : n < 32 := of_decide_eq_true hvalid
    have hbit := (and_sigMask_eq_zero hn).mp (hnew hvalid)
    rw [if_neg (not_not.mpr (hnew hvalid))]
    refine ⟨hi.layout, hi.held.congr fun p => ?_, fun u => ?_, fun u m a ha => ?_, fun u m => ?_⟩
    · cases p <;> exact .refl _
    · by_cases hu : u = t
      · subst hu
        simpa using hi.list u
      · simpa [SigState.set_ne hu] using hi.list u
    · exact hi.filled u m a (by simpa using ha)
    · have htokens := hi.tokens u m
      have hraises : (KillFrame.alloc t n).raises u m = decide (t = u ∧ n = m) := rfl
      simp only [signalTokens] at htokens ⊢
      rw [List.countP_cons, hraises]
      by_cases hu : u = t
      · subst hu
        rw [SigState.set_self, setPending_getLsbD hn]
        by_cases hm : n = m
        · subst hm
          rw [hbit, Bool.toNat_false] at htokens
          simp only [hbit, and_self, decide_true, if_true, Bool.or_true, Bool.toNat_true,
            SigState.set_mem, SigState.set_frames]
          omega
        · simpa [hm] using htokens
      · rw [SigState.set_ne hu]
        simpa [Ne.symm hu] using htokens
  next => exact hi

/-- `rt_thread_kill` fills the node it has allocated. -/
def filled (mem : Word → Word) (a : Word) (n : Nat) : Word → Word :=
  Function.update (Function.update (Function.update mem (listField a) 0) a (siUser n)) (a + 4) 0

theorem filled_of_ne {mem : Word → Word} {p : Word} (ha : p ≠ a) (hvalue : p ≠ a + 4)
    (hfield : p ≠ listField a) : filled mem a n p = mem p := by
  rw [filled, Function.update_of_ne hvalue, Function.update_of_ne ha, Function.update_of_ne hfield]

theorem PoolLayout.filled_other {pool : List Word} (h : PoolLayout pool) (ha : a ∈ pool)
    (hb : b ∈ pool) (hne : b ≠ a) (mem : Word → Word) :
    siSigno (filled mem a n) b = siSigno mem b ∧
      filled mem a n (listField b) = mem (listField b) := by
  obtain ⟨hfield, hvalue, hvalueField⟩ := h.apart a ha b hb
  have hback := (h.apart b hb a ha).1
  refine ⟨?_, filled_of_ne hback hvalueField.symm fun h => hne (listField_inj.mp h)⟩
  rw [siSigno, filled_of_ne hne hvalue.symm hfield.symm, siSigno]

theorem PoolLayout.filled_self {pool : List Word} (h : PoolLayout pool) (ha : a ∈ pool) (hn : n < 32)
    (mem : Word → Word) : siSigno (filled mem a n) a = n ∧ filled mem a n (listField a) = 0 := by
  obtain ⟨hfield, hvalue, hvalueField⟩ := h.apart a ha a ha
  refine ⟨?_, ?_⟩
  · rw [siSigno, filled, Function.update_of_ne hvalue.symm, Function.update_self, siUser,
      BitVec.toNat_ofNat]
    omega
  · rw [filled, Function.update_of_ne hvalueField.symm, Function.update_of_ne hfield,
      Function.update_self]

/-- A call that raises a signal raises one below 32. -/
theorem SigInv.raises_lt (hi : SigInv s q) (hf : f ∈ s.kills) (hr : f.raises t n = true) : n < 32 := by
  have htokens := hi.tokens t n
  have hpos : 0 < s.kills.countP (KillFrame.raises t n) := List.countP_pos_iff.mpr ⟨f, hf, hr⟩
  by_contra hn
  rw [BitVec.getLsbD_of_ge _ n (by omega), signalTokens, Bool.toNat_false] at htokens
  omega

/-- `rt_thread_kill` allocates a node where one is free. -/
theorem killAlloc_inv (hi : SigInv s q) (hf : .alloc t n ∈ s.kills) (hfree : s.free ≠ []) :
    SigInv (s.killAlloc t n) q := by
  obtain ⟨a, rest, hcons⟩ := List.exists_cons_of_ne_nil hfree
  have hn : n < 32 := hi.raises_lt hf (t := t) (n := n) (by simp [KillFrame.raises])
  have ha : a ∈ sigHolds s q .free := by
    rw [sigHolds, hcons]
    exact List.mem_cons_self
  have hpool := hi.held.inside ha
  -- the other nodes keep their words
  have hother : ∀ {p b}, b ∈ sigHolds s q p → p ≠ .free →
      siSigno (filled s.mem a n) b = siSigno s.mem b ∧
        filled s.mem a n (listField b) = s.mem (listField b) := fun hb hp =>
    hi.layout.filled_other hpool (hi.held.inside hb)
      (fun hba => hp (hi.held.unique (hba ▸ hb) ha)) s.mem
  have hstate : s.killAlloc t n =
      { s with
        free := rest
        mem := filled s.mem a n
        kills := .append t n a :: s.kills.erase (.alloc t n) } := by
    simp only [SigState.killAlloc, hcons]
    rfl
  have hperm := List.perm_cons_erase hf
  rw [hstate]
  refine ⟨hi.layout, ?_, fun u => ?_, fun u m b hb => ?_, fun u m => ?_⟩
  · refine hi.held.move (p := .free) (d := .killing) (by simp) (.of_eq hcons) (.refl _) ?_ ?_
    · have hnodes := hperm.filterMap KillFrame.node
      rw [List.filterMap_cons_none rfl] at hnodes
      exact hnodes.symm.cons a
    · intro r h1 h2
      cases r with
      | free => exact absurd rfl h1
      | killing => exact absurd rfl h2
      | queued u => exact .refl _
      | handled u => exact .refl _
  · exact (hi.list u).congr fun b hb => (hother (p := .queued u) hb (by simp)).2
  · rcases List.mem_cons.mp hb with heq | hb
    · obtain ⟨-, rfl, rfl⟩ := KillFrame.append.inj heq
      exact hi.layout.filled_self hpool hn s.mem
    · have hb := List.mem_of_mem_erase hb
      have hnode : b ∈ sigHolds s q .killing := List.mem_filterMap.mpr ⟨_, hb, rfl⟩
      obtain ⟨hsigno, hfield⟩ := hother hnode (by simp)
      obtain ⟨hm, hnull⟩ := hi.filled u m b hb
      exact ⟨hsigno.trans hm, hfield.trans hnull⟩
  · rw [← hi.tokens u m, signalTokens, signalTokens, countP_erase hf]
    have hqueue : (q u).countP (siSigno (filled s.mem a n) · == m) =
        (q u).countP (siSigno s.mem · == m) :=
      List.countP_congr fun b hb => by rw [(hother (p := .queued u) hb (by simp)).1]
    rw [hqueue, List.countP_cons]
    rfl

theorem SigInv.length_le (hi : SigInv s q) (t : ThreadId) : (q t).length ≤ s.pool.length :=
  ((hi.held.nodup (.queued t)).subperm fun _ ha => hi.held.inside (p := .queued t) ha).length_le

theorem SigInv.pool_of_queued (hi : SigInv s q) (ha : a ∈ q t) : a ∈ s.pool :=
  hi.held.inside (p := .queued t) ha

theorem SigInv.not_queued (hi : SigInv s q) {p : SigPlace} (ha : a ∈ sigHolds s q p)
    (hp : p ≠ .queued t) : a ∉ q t := fun haq => hp (hi.held.unique (r := .queued t) ha haq)

section
variable {new : List Word}

theorem Relinks.lists (h : Relinks s s' t (q t) new) (hi : SigInv s q) (u : ThreadId) :
    SigList s'.mem (s'.thread u).siList (Function.update q t new u) := by
  by_cases hu : u = t
  · subst hu
    rw [Function.update_self]
    exact h.list
  · rw [Function.update_of_ne hu, h.others u hu]
    refine (hi.list u).congr fun b hb => h.fields b (hi.pool_of_queued hb) ?_
    exact hi.not_queued (p := .queued u) hb fun hp => hu (SigPlace.queued.inj hp)

theorem Relinks.filled (h : Relinks s s' t (q t) new) (hi : SigInv s q) (u : ThreadId) (m : Nat)
    (b : Word) (hb : .append u m b ∈ s.kills) : siSigno s'.mem b = m ∧ s'.mem (listField b) = 0 := by
  have hplace : b ∈ sigHolds s q .killing := List.mem_filterMap.mpr ⟨_, hb, rfl⟩
  have hpool := hi.held.inside hplace
  obtain ⟨hm, hnull⟩ := hi.filled u m b hb
  exact ⟨(h.signo b hpool).trans hm,
    (h.fields b hpool (hi.not_queued hplace (by simp))).trans hnull⟩

theorem Relinks.counts (h : Relinks s s' t (q t) new) (hi : SigInv s q) (hnew : ∀ b ∈ new, b ∈ s.pool)
    (u : ThreadId) (m : Nat) : (Function.update q t new u).countP (siSigno s'.mem · == m) =
      (Function.update q t new u).countP (siSigno s.mem · == m) := by
  refine List.countP_congr fun b hb => ?_
  have hpool : b ∈ s.pool := by
    by_cases hu : u = t
    · subst hu
      rw [Function.update_self] at hb
      exact hnew b hb
    · rw [Function.update_of_ne hu] at hb
      exact hi.pool_of_queued hb
  rw [h.signo b hpool]

theorem Relinks.pending (h : Relinks s s' t (q t) new) (u : ThreadId) :
    (s'.thread u).sigPending = (s.thread u).sigPending := by
  by_cases hu : u = t
  · subst hu
    exact h.sigPending
  · rw [h.others u hu]

end

/-- `rt_thread_kill` appends its node. -/
theorem killAppend_relinks (hi : SigInv s q) (ha : a ∈ s.pool) (haq : a ∉ q t)
    (hnull : s.mem (listField a) = 0) : ∃ s1, Relinks s s1 t (q t) (q t ++ [a]) ∧
      s.killAppend t n a = some (s1.killTo (.append t n a) (.deliver t)) := by
  have hlist := hi.list t
  by_cases hnil : q t = []
  · rw [hnil] at hlist ⊢
    refine ⟨s.set t fun x => { x with siList := a }, ?_, if_pos (sigList_nil.mp hlist)⟩
    refine ⟨rfl, rfl, rfl, rfl, fun _ _ => rfl, fun _ _ _ => rfl, ?_,
      fun u hu => SigState.set_ne hu, by rw [SigState.set_self]⟩
    rw [SigState.set_self]
    exact ⟨rfl, nodeList_cons.mpr ⟨rfl, hi.layout.field_ne a ha, nodeList_nil.mpr hnull⟩⟩
  · obtain ⟨as, b, hq⟩ := (List.eq_nil_or_concat' (q t)).resolve_left hnil
    have hb : b ∈ s.pool := hi.pool_of_queued (t := t) (by simp [hq])
    have hab : listField a ≠ listField b := fun h => haq (by simp [hq, listField_inj.mp h])
    have hfields : ∀ c ∈ q t, listField c ≠ 0 := fun c hc =>
      hi.layout.field_ne c (hi.pool_of_queued hc)
    have hlast : SigState.slistLast s.mem s.pool.length (listField (s.thread t).siList) =
        some (listField b) := by
      have hfirst : listField (s.thread t).siList = firstField (q t) := by
        rw [hlist.head, hq]
        cases as <;> rfl
      have hlen := hi.length_le t
      rw [hfirst]
      rw [hq] at hlist hfields hlen ⊢
      exact slistLast_eq hlist hfields hlen
    -- the pointer of the new last node is null already
    have hmem : (s.write (listField b) (listField a)).write (listField a) 0 =
        s.write (listField b) (listField a) := by
      have hsame : Function.update (Function.update s.mem (listField b) (listField a)) (listField a) 0 =
          Function.update s.mem (listField b) (listField a) := by
        refine Function.update_eq_self_iff.mpr ?_
        rw [Function.update_of_ne hab, hnull]
      simp only [SigState.write, hsame]
    have hne : ¬ (s.thread t).siList = 0 := fun h => hnil ((hlist.eq_zero fun c hc =>
      hi.layout.node_ne c (hi.pool_of_queued hc)).mp h)
    refine ⟨s.write (listField b) (listField a), ?_, ?_⟩
    · refine ⟨rfl, rfl, rfl, rfl, fun c hc => ?_, fun c _ hcq => ?_, ?_, fun _ _ => rfl, rfl⟩
      · have hc : (s.write (listField b) (listField a)).mem c = s.mem c :=
          Function.update_of_ne (hi.layout.apart b hb c hc).1.symm ..
        rw [siSigno, hc, siSigno]
      · refine Function.update_of_ne (fun h => hcq ?_) ..
        simp [hq, listField_inj.mp h]
      · rw [hq] at hlist haq ⊢
        exact hlist.snoc (hi.layout.field_ne a ha) haq hnull
    · rw [SigState.killAppend, if_neg hne, hlast, Option.map_some, hmem]

theorem killAppend_inv (hi : SigInv s q) (hf : .append t n a ∈ s.kills)
    (hs : s.killAppend t n a = some s') :
    SigInv s' (Function.update q t (q t ++ [a])) := by
  have hnode : a ∈ sigHolds s q .killing := List.mem_filterMap.mpr ⟨_, hf, rfl⟩
  have hpool := hi.held.inside hnode
  obtain ⟨hsigno, hnull⟩ := hi.filled t n a hf
  obtain ⟨s1, h1, hs1⟩ := killAppend_relinks (n := n) hi hpool (hi.not_queued hnode (by simp)) hnull
  obtain rfl := Option.some.inj (hs1.symm.trans hs)
  have hnew : ∀ b ∈ q t ++ [a], b ∈ s.pool := by
    intro b hb
    rcases List.mem_append.mp hb with hb | hb
    · exact hi.pool_of_queued hb
    · exact List.mem_singleton.mp hb ▸ hpool
  have hkills : (s1.killTo (.append t n a) (.deliver t)).kills =
      .deliver t :: s.kills.erase (.append t n a) := congrArg (_ :: List.erase · _) h1.kills
  refine ⟨h1.pool ▸ hi.layout, h1.pool ▸ ?_, h1.lists hi, fun u m b hb => ?_, fun u m => ?_⟩
  · refine hi.held.move (p := .killing) (d := .queued t) (by simp)
      ((List.perm_cons_erase hf).filterMap KillFrame.node) ?_ ?_ ?_
    · rw [sigHolds, hkills]
      exact .refl _
    · simp only [sigHolds, Function.update_self]
      exact List.perm_append_singleton a (q t)
    · intro r h1' h2
      cases r with
      | free => exact .of_eq h1.free
      | killing => exact absurd rfl h1'
      | queued u =>
        have hu : u ≠ t := fun h => h2 (congrArg _ h)
        simp only [sigHolds, Function.update_of_ne hu]
        exact .refl _
      | handled u => exact .of_eq (congrArg (fun fs => (fs u).filterMap SigFrame.node) h1.frames)
  · rw [hkills] at hb
    exact h1.filled hi u m b
      (List.mem_of_mem_erase ((List.mem_cons.mp hb).resolve_left (by simp)))
  · have htokens := hi.tokens u m
    have hraises : (KillFrame.append t n a).raises u m = decide (t = u ∧ n = m) := rfl
    have hrest : (KillFrame.deliver t :: s.kills.erase (.append t n a)).countP
        (KillFrame.raises u m) = (s.kills.erase (.append t n a)).countP (KillFrame.raises u m) :=
      List.countP_cons_of_neg (by simp [KillFrame.raises])
    rw [signalTokens, countP_erase hf, hraises] at htokens
    refine Eq.trans ?_ (htokens.trans (congrArg (fun x => (BitVec.getLsbD x m).toNat)
      (h1.pending u)).symm)
    rw [signalTokens, hkills, hrest]
    have hcounts := h1.counts hi hnew u m
    have hframes : (s1.frames u).countP (SigFrame.handles m) =
      (s.frames u).countP (SigFrame.handles m) := by rw [h1.frames]
    simp only [SigState.killTo, hcounts, hframes]
    by_cases hu : u = t
    · subst hu
      rw [Function.update_self, List.countP_append, List.countP_singleton, hsigno]
      by_cases hm : n = m
      · simp [hm]
        omega
      · simp [hm]
    · rw [Function.update_of_ne hu]
      simp [Ne.symm hu]

/-- `rt_thread_handle_sig` takes the first node. -/
theorem handleTake_inv (hi : SigInv s q) (hs : s.handleTake t = some s') :
    ∃ q', SigInv s' q' := by
  obtain ⟨⟨-, -, hne⟩, hs⟩ := Option.ite_none_right_eq_some.mp hs
  have hlist := hi.list t
  obtain ⟨a, rest, hq⟩ := List.exists_cons_of_ne_nil fun hnil => hne
    ((hlist.eq_zero fun b hb => hi.layout.node_ne b (hi.pool_of_queued hb)).mpr hnil)
  rw [hq] at hlist
  have hhead : (s.thread t).siList = a := hlist.head
  have hrest : ∀ b ∈ rest, b ∈ s.pool := fun b hb =>
    hi.pool_of_queued (t := t) (by simp [hq, hb])
  rw [hhead, hlist.tail_head fun b hb => hi.layout.field_ne b (hrest b hb)] at hs
  obtain rfl := Option.some.inj hs
  have hrelinks : Relinks s (s.set t fun y => { y with siList := rest.headD 0 }) t (q t) rest := by
    refine ⟨rfl, rfl, rfl, rfl, fun _ _ => rfl, fun _ _ _ => rfl, ?_,
      fun u hu => SigState.set_ne hu, by rw [SigState.set_self]⟩
    rw [SigState.set_self]
    exact hlist.tail
  refine ⟨Function.update q t rest, hi.layout, ?_, hrelinks.lists hi, hi.filled, fun u m => ?_⟩
  · refine hi.held.move (p := .queued t) (d := .handled t) (by simp) (.of_eq hq) ?_ ?_ ?_
    · simp only [sigHolds, Function.update_self]
      exact .refl _
    · simp only [sigHolds, SigState.setFrames, Function.update_self]
      exact .refl _
    · intro r h1 h2
      cases r with
      | free => exact .refl _
      | killing => exact .refl _
      | queued u =>
        have hu : u ≠ t := fun h => h1 (congrArg _ h)
        simp only [sigHolds, Function.update_of_ne hu]
        exact .refl _
      | handled u =>
        have hu : u ≠ t := fun h => h2 (congrArg _ h)
        simp only [sigHolds, SigState.setFrames, Function.update_of_ne hu]
        exact .refl _
  · have htokens := hi.tokens u m
    refine Eq.trans ?_ (htokens.trans (congrArg (fun x => (BitVec.getLsbD x m).toNat)
      (hrelinks.pending u)).symm)
    simp only [signalTokens, SigState.setFrames, SigState.set_mem, SigState.set_kills]
    by_cases hu : u = t
    · subst hu
      have hhandles : (SigFrame.taken (siSigno s.mem a) a (s.handler u (siSigno s.mem a))).handles m =
          (siSigno s.mem a == m) := rfl
      rw [Function.update_self, Function.update_self, List.countP_cons, hhandles, hq, List.countP_cons]
      omega
    · rw [Function.update_of_ne hu, Function.update_of_ne hu, SigState.set_frames]

/-- A signal that is handled or taken is no longer pending. -/
theorem SigInv.clear_tokens (hi : SigInv s q) {c : ThreadId → Nat → Nat}
    (hcount : ∀ u m, signalTokens s (q u) u m = c u m + if u = t ∧ n = m then 1 else 0)
    (u : ThreadId) (m : Nat) :
    c u m = (((s.clearPending t n).thread u).sigPending.getLsbD m).toNat := by
  have htokens := (hcount u m).symm.trans (hi.tokens u m)
  rw [SigState.clearPending]
  by_cases hu : u = t
  · subst hu
    rw [SigState.set_self, clearPending_getLsbD]
    by_cases hm : n = m
    · have hle := Bool.toNat_le ((s.thread u).sigPending.getLsbD m)
      rw [if_pos ⟨rfl, hm⟩] at htokens
      rw [decide_eq_false (not_not.mpr hm), Bool.and_false, Bool.toNat_false]
      omega
    · simpa [hm] using htokens
  · rw [SigState.set_ne hu]
    simpa [hu] using htokens

theorem clearPending_siList : ((s.clearPending t n).thread u).siList = (s.thread u).siList := by
  by_cases hu : u = t
  · subst hu
    rw [SigState.clearPending, SigState.set_self]
  · rw [SigState.clearPending, SigState.set_ne hu]

/-- `rt_thread_handle_sig` frees the node after its handler. -/
theorem handleFinish_inv (hi : SigInv s q) (hs : s.handleFinish t = some s') : SigInv s' q := by
  unfold SigState.handleFinish at hs
  split at hs
  next _ n a fs hframes =>
    obtain rfl := Option.some.inj hs
    have hclear := hi.clear_tokens (t := t) (n := n) (c := fun u m =>
      s.kills.countP (KillFrame.raises u m) + (q u).countP (siSigno s.mem · == m) +
        (Function.update s.frames t fs u).countP (SigFrame.handles m)) fun u m => by
      by_cases hu : u = t
      · subst hu
        rw [signalTokens, hframes, List.countP_cons, Function.update_self]
        simp only [SigFrame.handles, decide_eq_true_eq, true_and]
        omega
      · rw [signalTokens, Function.update_of_ne hu, if_neg (fun h => hu h.1), Nat.add_zero]
    have hfreed : SigInv (((s.clearPending t n).rtMpFree a).setFrames t fs) q := by
      refine ⟨hi.layout, ?_, fun u => ?_, hi.filled, hclear⟩
      · refine hi.held.move (p := .handled t) (d := .free) (a := a)
          (l := fs.filterMap SigFrame.node) (by simp) ?_ ?_ (.refl _) ?_
        · simp only [sigHolds, hframes]
          exact .refl _
        · simp only [sigHolds, SigState.setFrames, Function.update_self]
          exact .refl _
        · intro r h1 h2
          cases r with
          | free => exact absurd rfl h2
          | killing => exact .refl _
          | queued u => exact .refl _
          | handled u =>
            have hu : u ≠ t := fun h => h1 (congrArg _ h)
            simp only [sigHolds, SigState.setFrames, Function.update_of_ne hu]
            exact .refl _
      · have hlist : ((s.clearPending t n).thread u).siList = (s.thread u).siList :=
          clearPending_siList
        exact hlist ▸ hi.list u
    exact (set_sigSame (t := t) (x := fun x => { x with error := .eintr }) rfl rfl).inv hfreed
  next => simp at hs

/-- `rt_signal_wait` takes a node; the first one only if no node is behind it. -/
theorem waitFound_inv {as bs : List Word} (hi : SigInv s q) (hq : q t = as ++ b :: bs)
    (hhead : as = [] → bs = []) :
    SigInv (s.waitFound t as.getLast? b).1 (Function.update q t (as ++ bs)) := by
  have hlist := hi.list t
  have hb : b ∈ s.pool := hi.pool_of_queued (t := t) (by simp [hq])
  have hnew : ∀ c ∈ as ++ bs, c ∈ s.pool := fun c hc => hi.pool_of_queued (t := t) (by
    rw [hq]
    simp only [List.mem_append, List.mem_cons] at hc ⊢
    tauto)
  -- the part before the signal is cleared and the node freed
  obtain ⟨s1, h1, hs1⟩ : ∃ s1, Relinks s s1 t (q t) (as ++ bs) ∧
      (s.waitFound t as.getLast? b).1 =
        (s1.clearPending t (siSigno s.mem b)).rtMpFree b := by
    rcases List.eq_nil_or_concat' as with rfl | ⟨as', c, rfl⟩
    · obtain rfl := hhead rfl
      have hnext : s.mem (listField b) = 0 := (hq ▸ hlist).next.1
      refine ⟨s.set t fun x => { x with siList := s.mem (listField b) }, ?_, rfl⟩
      refine ⟨rfl, rfl, rfl, rfl, fun _ _ => rfl, fun _ _ _ => rfl, ?_,
        fun u hu => SigState.set_ne hu, by rw [SigState.set_self]⟩
      rw [SigState.set_self]
      exact sigList_nil.mpr hnext
    · have hc : c ∈ s.pool := hi.pool_of_queued (t := t) (by simp [hq])
      refine ⟨s.write (listField c) (s.mem (listField b)), ?_, ?_⟩
      · refine ⟨rfl, rfl, rfl, rfl, fun d hd => ?_, fun d _ hdq => ?_, ?_, fun _ _ => rfl, rfl⟩
        · have hd : (s.write (listField c) (s.mem (listField b))).mem d = s.mem d :=
            Function.update_of_ne (hi.layout.apart c hc d hd).1.symm ..
          rw [siSigno, hd, siSigno]
        · refine Function.update_of_ne (fun h => hdq ?_) ..
          simp [hq, listField_inj.mp h]
        · rw [hq, List.append_assoc] at hlist
          rw [List.append_assoc]
          exact hlist.unlink
      · rw [List.getLast?_concat]
        rfl
  have hclear := hi.clear_tokens (t := t) (n := siSigno s.mem b) (c := fun u m =>
    s.kills.countP (KillFrame.raises u m) +
      (Function.update q t (as ++ bs) u).countP (siSigno s.mem · == m) +
        (s.frames u).countP (SigFrame.handles m)) fun u m => by
    by_cases hu : u = t
    · subst hu
      rw [signalTokens, hq, Function.update_self, List.countP_append, List.countP_append,
        List.countP_cons]
      simp only [beq_iff_eq, true_and]
      omega
    · rw [signalTokens, Function.update_of_ne hu, if_neg (fun h => hu h.1), Nat.add_zero]
  rw [hs1]
  refine ⟨h1.pool ▸ hi.layout, h1.pool ▸ ?_, fun u => ?_, fun u m c hc => ?_, fun u m => ?_⟩
  · refine hi.held.move (p := .queued t) (d := .free) (a := b) (l := as ++ bs) (by simp) ?_ ?_ ?_ ?_
    · exact (List.Perm.of_eq hq).trans List.perm_middle
    · simp only [sigHolds, Function.update_self]
      exact .refl _
    · exact .of_eq (congrArg (b :: ·) h1.free)
    · intro r h1' h2
      cases r with
      | free => exact absurd rfl h2
      | killing => exact .of_eq (congrArg (List.filterMap KillFrame.node) h1.kills)
      | queued u =>
        have hu : u ≠ t := fun h => h1' (congrArg _ h)
        simp only [sigHolds, Function.update_of_ne hu]
        exact .refl _
      | handled u => exact .of_eq (congrArg (fun fs => (fs u).filterMap SigFrame.node) h1.frames)
  · have hlist := h1.lists hi u
    rw [← clearPending_siList (s := s1) (t := t) (n := siSigno s.mem b)] at hlist
    exact hlist
  · exact h1.filled hi u m c (h1.kills ▸ hc)
  · have hpending : ((s1.clearPending t (siSigno s.mem b)).thread u).sigPending =
        ((s.clearPending t (siSigno s.mem b)).thread u).sigPending := by
      by_cases hu : u = t
      · subst hu
        rw [SigState.clearPending, SigState.clearPending, SigState.set_self, SigState.set_self]
        exact congrArg (· &&& _) h1.sigPending
      · rw [SigState.clearPending, SigState.clearPending, SigState.set_ne hu, SigState.set_ne hu,
          h1.others u hu]
    refine Eq.trans ?_ ((hclear u m).trans (congrArg (fun x => (BitVec.getLsbD x m).toNat)
      hpending.symm))
    have hcounts := h1.counts hi hnew u m
    have hframes : (s1.frames u).countP (SigFrame.handles m) =
      (s.frames u).countP (SigFrame.handles m) := by rw [h1.frames]
    have hkills : s1.kills.countP (KillFrame.raises u m) =
      s.kills.countP (KillFrame.raises u m) := by rw [h1.kills]
    exact congrArg₂ (· + ·) (congrArg₂ (· + ·) hkills hcounts) hframes

end

end RTThread
