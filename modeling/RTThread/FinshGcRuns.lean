import RTThread.FinshHeapRuns

namespace RTThread

/-- `literals` are the pointers in the string nodes of the line, oldest first, and `nodes` counts
the entries of `global_node_table` that are taken. `running` says that the line is compiled. -/
structure FinshSession where
  heap : FinshHeap
  vars : FinshVars
  nodes : Nat
  literals : List Nat
  running : Bool

def finshSessionInit (P : FinshPlace) (m : Memory) : FinshSession :=
  ⟨finshHeapInit P m, finshVarInit, 0, [], false⟩

def storeBytes (m : Memory) (ptr : Nat) : List UInt8 → Memory
  | [] => m
  | c :: cs => storeBytes (write8 m ptr c.toNat) (ptr + 1) cs

/-- `none` is the copy through a null pointer when the heap is full. -/
def finshNodeNewString (s : FinshSession) (text : List UInt8) : Option FinshSession :=
  if s.nodes = finshNodeMax then some s
  else do
    let (ptr, heap) ← finshHeapAllocate s.heap s.vars (text.length + 1)
    if ptr = 0 then none
    else
      some { s with
        heap := { heap with mem := storeBytes heap.mem ptr (text ++ [0]) }
        nodes := s.nodes + 1
        literals := s.literals ++ [ptr] }

/-- What the lines do, one after the other: while a line is parsed it declares variables and makes
nodes, some of them for literals; while it runs it stores literals in variables of type `char*`
and copies such variables; `finsh_flush` ends it, also after an error. -/
inductive FinshLineStep where
  | declare (name : List UInt8) (type : FinshType)
  | node
  | literal (text : List UInt8)
  | compile
  | assign (v k : Nat)
  | copy (v w : Nat)
  | flush

def setValue (vars : FinshVars) (v p : Nat) : FinshVars :=
  vars.modify v fun x => { x with value := p }

/-- The value of variable `v` if it is a `char*`. -/
def charpValue (vars : FinshVars) (v : Nat) : Option Nat :=
  (vars[v]?).bind fun x => if x.type = .charp then some x.value else none

def finshLineStep (s : FinshSession) : FinshLineStep → Option FinshSession
  | .declare name type =>
    if s.running then none
    else some { s with vars := (finshVarInsert s.vars name type).getD s.vars }
  | .node =>
    if s.running then none else some { s with nodes := min finshNodeMax (s.nodes + 1) }
  | .literal text =>
    if s.running ∨ finshStringMax ≤ text.length then none else finshNodeNewString s text
  | .compile => some { s with running := true }
  | .assign v k =>
    if s.running then do
      let _ ← charpValue s.vars v
      let p ← s.literals[k]?
      some { s with vars := setValue s.vars v p }
    else none
  | .copy v w =>
    if s.running then do
      let _ ← charpValue s.vars v
      let p ← charpValue s.vars w
      some { s with vars := setValue s.vars v p }
    else none
  | .flush => some { s with nodes := 0, literals := [], running := false }

/-- Block `h` is allocated, and a variable or a string node of the line refers to it. -/
def InUse (s : FinshSession) (h : Nat) : Prop :=
  IsAllocated s.heap h ∧ (blockGetData h ∈ s.literals ∨ heldByVariable s.vars h = true)

/-- No block in use is freed, and none is handed out to a new literal. -/
def FreesNone (s s' : FinshSession) : Prop :=
  ∀ h, InUse s h → IsAllocated s'.heap h ∧
    ∀ p, s'.literals = s.literals ++ [p] → p ≠ blockGetData h

/-- The blocks of two literals share no byte. -/
def LiteralsApart (s : FinshSession) : Prop :=
  s.literals.Pairwise fun p q =>
    p + blockLength s.heap.mem (blockGetHeader p) ≤ blockGetHeader q ∨
      q + blockLength s.heap.mem (blockGetHeader q) ≤ blockGetHeader p

/-- A literal that makes the heap collect is the first of its line. -/
def CollectsFirst (s : FinshSession) : FinshLineStep → Prop
  | .literal text => s.nodes ≠ finshNodeMax →
      firstFit s.heap (heapAlignSize (text.length + 1)) = some 0 → s.literals = []
  | _ => True

instance (s : FinshSession) : ∀ c, Decidable (CollectsFirst s c)
  | .literal _ => inferInstanceAs (Decidable (_ → _ → _))
  | .declare _ _ | .node | .compile | .assign _ _ | .copy _ _ | .flush => isTrue trivial

/-- The string nodes and the variables refer to allocated blocks, and while a line is parsed no
variable refers to one of its literals. -/
structure SessionRep (P : FinshPlace) (s : FinshSession) (bs : List FinshBlock) : Prop where
  rep : FinshHeapRep P s.heap bs
  literals : ∀ p ∈ s.literals, ∃ b ∈ blocksUsed bs, blockGetData b.addr = p
  nodup : s.literals.Nodup
  vars : ∀ v ∈ s.vars, v.value = 0 ∨
    v.type ≠ .unknown ∧ ∃ b ∈ blocksUsed bs, blockGetData b.addr = v.value
  fresh : s.running = false → ∀ v ∈ s.vars, v.value ∉ s.literals

def SessionInv (P : FinshPlace) (s : FinshSession) : Prop := ∃ bs, SessionRep P s bs

section
variable {P : FinshPlace} {m : Memory} {s s' : FinshSession} {h : FinshHeap} {bs : List FinshBlock}
  {b c : FinshBlock} {vars : FinshVars} {text : List UInt8} {as : List FinshLineStep} {x p v : Nat}

theorem storeBytes_outside {cs : List UInt8} {i : Nat} (hi : i < p ∨ p + cs.length ≤ i) :
    (storeBytes m p cs).byte i = m.byte i := by
  induction cs generalizing m p with
  | nil => rfl
  | cons c cs ih =>
    simp only [List.length_cons] at hi
    unfold storeBytes
    rw [ih (by omega)]
    exact if_neg (by omega)

theorem FinshHeapRep.data_eq (hr : FinshHeapRep P h bs) (hb : b ∈ bs) :
    blockGetData b.addr = b.addr + blockHeader := by
  have hstop := (hr.tiles.bounds hb).2
  have := P.fits
  apply word_of_lt
  simp only [FinshBlock.stop] at hstop
  omega

theorem FinshHeapRep.data_inj (hr : FinshHeapRep P h bs) (hb : b ∈ bs) (hc : c ∈ bs)
    (heq : blockGetData b.addr = blockGetData c.addr) : b = c := by
  rw [hr.data_eq hb, hr.data_eq hc] at heq
  exact hr.tiles.eq_of_addr hb hc (by omega)

theorem FinshHeapRep.data_ne_zero (hr : FinshHeapRep P h bs) (hb : b ∈ bs) :
    blockGetData b.addr ≠ 0 := by
  rw [hr.data_eq hb]
  unfold blockHeader
  omega

theorem FinshHeapRep.isAllocated_iff (hr : FinshHeapRep P h bs) :
    IsAllocated h x ↔ ∃ b ∈ blocksUsed bs, b.addr = x := by
  constructor
  · rintro ⟨ns, hns, hmem⟩
    rw [hns.unique hr.used] at hmem
    exact List.mem_map.mp hmem
  · rintro ⟨b, hb, rfl⟩
    exact hr.isAllocated hb

theorem heldByVariable_iff : heldByVariable vars x = true ↔
    ∃ v ∈ vars, v.type ≠ .unknown ∧ v.value = blockGetData x := by
  simp [heldByVariable]

theorem size_fits (htext : ¬finshStringMax ≤ text.length) :
    heapAlignSize (text.length + 1) + blockHeader < 4294967296 ∧
      text.length + 1 ≤ heapAlignSize (text.length + 1) := by
  rw [heapAlignSize_eq]
  unfold finshStringMax at htext
  unfold word blockHeader
  omega

/-- A block that a new literal leaves in use. -/
def Survives (s : FinshSession) (text : List UInt8) (bs : List FinshBlock) (c : FinshBlock) : Prop :=
  c ∈ blocksUsed bs ∧ (firstFit s.heap (heapAlignSize (text.length + 1)) = some 0 →
    heldByVariable s.vars c.addr = true)

/-- What a new string node does: the blocks that survive are still in use, and the block of the
literal is none of them. -/
theorem SessionRep.newString (hs : SessionRep P s bs) (htext : ¬finshStringMax ≤ text.length)
    (hnodes : s.nodes ≠ finshNodeMax) (hstep : finshNodeNewString s text = some s') :
    ∃ bs' b, FinshHeapRep P s'.heap bs' ∧ s'.vars = s.vars ∧ s'.running = s.running ∧
      s'.literals = s.literals ++ [blockGetData b.addr] ∧
      (∀ c, c ∈ blocksUsed bs' ↔ c = b ∨ Survives s text bs c) ∧
      ∀ c, Survives s text bs c → c.addr ≠ b.addr := by
  obtain ⟨hsize, hlen⟩ := size_fits htext
  obtain ⟨ptr, h1, bs1, us, halloc, hrep, hus, hres⟩ := hs.rep.allocate s.vars hsize
  unfold finshNodeNewString at hstep
  rw [if_neg hnodes] at hstep
  simp only [Option.bind_eq_bind, halloc, Option.bind_some] at hstep
  have hmem : ∀ c, c ∈ us ↔ Survives s text bs c := by
    intro c
    unfold Survives
    rw [hus]
    by_cases hfirst : firstFit s.heap (heapAlignSize (text.length + 1)) = some 0
    · simp [hfirst, List.mem_filter]
    · simp [hfirst]
  rcases hres with ⟨rfl, -⟩ | ⟨ls, rs, x, hsplit, hused, rfl⟩
  · simp at hstep
  · have hbu : (⟨x, heapAlignSize (text.length + 1), false⟩ : FinshBlock) ∈ blocksUsed bs1 := by
      simp [hused]
    have hbm := (mem_blocksUsed.mp hbu).1
    have hdata : blockGetData x = x + blockHeader := hrep.data_eq hbm
    rw [if_neg (hrep.data_ne_zero hbm)] at hstep
    obtain rfl := Option.some.inj hstep
    refine ⟨bs1, ⟨x, heapAlignSize (text.length + 1), false⟩,
      ⟨hrep.data_written hbm fun i _ hout => ?_, hrep.apart, hrep.last⟩, rfl, rfl, rfl,
      fun c => ?_, fun c hc heq => ?_⟩
    · simp only [FinshBlock.stop] at hout
      apply storeBytes_outside
      rw [hdata, List.length_append, List.length_singleton]
      omega
    · rw [hused, ← hmem, hsplit]
      simp only [List.mem_append, List.mem_cons]
      tauto
    · have hnodup : (addrs (blocksUsed bs1)).Nodup :=
        (hrep.tiles.ascending.sublist (List.filter_sublist.map _)).imp Nat.ne_of_lt
      rw [hused] at hnodup
      simp only [addrs_append, addrs_cons] at hnodup
      obtain ⟨-, hcons, hcross⟩ := List.nodup_append.mp hnodup
      have hcu := (hmem c).mpr hc
      rw [hsplit] at hcu
      rcases List.mem_append.mp hcu with hcu | hcu
      · exact hcross c.addr (List.mem_map_of_mem hcu) x List.mem_cons_self heq
      · have hx : c.addr ∈ addrs rs := List.mem_map_of_mem hcu
        simp only [heq] at hx
        exact (List.nodup_cons.mp hcons).1 hx

theorem survives_of_held (hs : SessionRep P s bs) {w : FinshVar} (hw : w ∈ s.vars)
    (hb : b ∈ blocksUsed bs) (hval : blockGetData b.addr = w.value) : Survives s text bs b := by
  refine ⟨hb, fun _ => heldByVariable_iff.mpr ⟨w, hw, ?_, hval.symm⟩⟩
  rcases hs.vars w hw with hzero | ⟨hne, -⟩
  · exact absurd (hval.trans hzero) (hs.rep.data_ne_zero (mem_blocksUsed.mp hb).1)
  · exact hne

/-- While a line is parsed, a variable holds no literal of the line. -/
theorem SessionRep.not_held (hs : SessionRep P s bs) (hrun : s.running = false)
    (hp : blockGetData x ∈ s.literals) : ¬heldByVariable s.vars x = true := by
  intro hheld
  obtain ⟨w, hw, -, hval⟩ := heldByVariable_iff.mp hheld
  exact hs.fresh hrun w hw (hval ▸ hp)

theorem SessionRep.literal (hs : SessionRep P s bs) (hrun : s.running = false)
    (htext : ¬finshStringMax ≤ text.length) (hfirst : CollectsFirst s (.literal text))
    (hstep : finshNodeNewString s text = some s') : SessionInv P s' := by
  by_cases hnodes : s.nodes = finshNodeMax
  · unfold finshNodeNewString at hstep
    rw [if_pos hnodes] at hstep
    obtain rfl := Option.some.inj hstep
    exact ⟨bs, hs⟩
  · obtain ⟨bs', b, hrep, hvars, hrun', hlits, hmem, hnew⟩ := hs.newString htext hnodes hstep
    -- a collection can only take what no variable holds, and then the line has no literal yet
    have hkept : ∀ p ∈ s.literals, ∃ c, Survives s text bs c ∧ blockGetData c.addr = p := by
      intro p hp
      obtain ⟨c, hc, rfl⟩ := hs.literals p hp
      refine ⟨c, ⟨hc, fun hfit => ?_⟩, rfl⟩
      rw [hfirst hnodes hfit] at hp
      exact absurd hp List.not_mem_nil
    have hb' : b ∈ blocksUsed bs' := (hmem b).mpr (Or.inl rfl)
    have hne : ∀ c, Survives s text bs c → blockGetData c.addr ≠ blockGetData b.addr := by
      intro c hc heq
      have hc' : c ∈ blocksUsed bs' := (hmem c).mpr (Or.inr hc)
      have := hrep.data_inj (mem_blocksUsed.mp hc').1 (mem_blocksUsed.mp hb').1 heq
      exact hnew c hc (congrArg FinshBlock.addr this)
    refine ⟨bs', hrep, fun p hp => ?_, ?_, fun w hw => ?_, fun _ w hw hmemw => ?_⟩
    · rw [hlits] at hp
      rcases List.mem_append.mp hp with hp | hp
      · obtain ⟨c, hc, rfl⟩ := hkept p hp
        exact ⟨c, (hmem c).mpr (Or.inr hc), rfl⟩
      · exact ⟨b, hb', (List.mem_singleton.mp hp).symm⟩
    · rw [hlits]
      refine List.nodup_append.mpr ⟨hs.nodup, List.nodup_singleton _, fun p hp q hq => ?_⟩
      obtain ⟨c, hc, rfl⟩ := hkept p hp
      rw [List.mem_singleton.mp hq]
      exact hne c hc
    · rw [hvars] at hw
      rcases hs.vars w hw with hzero | ⟨htype, c, hc, hval⟩
      · exact Or.inl hzero
      · exact Or.inr ⟨htype, c, (hmem c).mpr (Or.inr (survives_of_held hs hw hc hval)), hval⟩
    · rw [hvars] at hw
      rw [hlits] at hmemw
      rcases List.mem_append.mp hmemw with hold | hnewp
      · exact hs.fresh hrun w hw hold
      · rw [List.mem_singleton] at hnewp
        rcases hs.vars w hw with hzero | ⟨-, c, hc, hval⟩
        · exact hrep.data_ne_zero (mem_blocksUsed.mp hb').1 (hnewp.symm.trans hzero)
        · exact hne c (survives_of_held hs hw hc hval) (hval.trans hnewp)

theorem SessionRep.literal_frees_none (hs : SessionRep P s bs) (hrun : s.running = false)
    (htext : ¬finshStringMax ≤ text.length) (hstep : finshNodeNewString s text = some s') :
    FreesNone s s' ↔ CollectsFirst s (.literal text) := by
  by_cases hnodes : s.nodes = finshNodeMax
  · unfold finshNodeNewString at hstep
    rw [if_pos hnodes] at hstep
    obtain rfl := Option.some.inj hstep
    refine ⟨fun _ hn => absurd hnodes hn, fun _ h hh => ⟨hh.1, fun p hp => ?_⟩⟩
    have := congrArg List.length hp
    simp at this
  · obtain ⟨bs', b, hrep, hvars, hrun', hlits, hmem, hnew⟩ := hs.newString htext hnodes hstep
    constructor
    · intro hfrees _ hfit
      by_contra hne
      obtain ⟨p, hp⟩ := List.exists_mem_of_ne_nil _ hne
      obtain ⟨c, hc, rfl⟩ := hs.literals p hp
      obtain ⟨halloc, hhanded⟩ := hfrees c.addr ⟨hs.rep.isAllocated hc, Or.inl hp⟩
      obtain ⟨d, hd, hda⟩ := hrep.isAllocated_iff.mp halloc
      rcases (hmem d).mp hd with rfl | hsurv
      · exact hhanded _ hlits (by rw [hda])
      · have hheld := hsurv.2 hfit
        rw [hda] at hheld
        exact hs.not_held hrun hp hheld
    · rintro hfirst h ⟨halloc, href⟩
      obtain ⟨c, hc, rfl⟩ := hs.rep.isAllocated_iff.mp halloc
      have hsurv : Survives s text bs c := by
        refine ⟨hc, fun hfit => href.resolve_left fun hlit => ?_⟩
        rw [hfirst hnodes hfit] at hlit
        exact List.not_mem_nil hlit
      have hc' : c ∈ blocksUsed bs' := (hmem c).mpr (Or.inr hsurv)
      have hb' : b ∈ blocksUsed bs' := (hmem b).mpr (Or.inl rfl)
      refine ⟨hrep.isAllocated hc', fun p hp heq => ?_⟩
      rw [hlits] at hp
      have hpb : blockGetData b.addr = p := by simpa using List.append_cancel_left hp
      have := hrep.data_inj (mem_blocksUsed.mp hb').1 (mem_blocksUsed.mp hc').1 (hpb.trans heq)
      exact hnew c hsurv (congrArg FinshBlock.addr this).symm

theorem mem_modify_cases {f : FinshVar → FinshVar} {i : Nat} {w : FinshVar}
    (hw : w ∈ vars.modify i f) : w ∈ vars ∨ ∃ u, vars[i]? = some u ∧ w = f u := by
  obtain ⟨j, hj⟩ := List.mem_iff_getElem?.mp hw
  rw [List.getElem?_modify] at hj
  by_cases hij : i = j
  · subst hij
    simp only [if_true, Option.map_eq_map, Option.map_eq_some_iff] at hj
    obtain ⟨u, hu, rfl⟩ := hj
    exact Or.inr ⟨u, hu, rfl⟩
  · simp only [if_neg hij, Option.map_eq_map, Option.map_id'] at hj
    exact Or.inl (List.mem_iff_getElem?.mpr ⟨j, by simpa using hj⟩)

theorem finshVarInit_blank {w : FinshVar} (hw : w ∈ finshVarInit) : w.value = 0 := by
  rw [List.eq_of_mem_replicate hw]

theorem SessionRep.declare (hs : SessionRep P s bs) {name : List UInt8} {type : FinshType} {w : FinshVar}
    (hw : w ∈ (finshVarInsert s.vars name type).getD s.vars) : w ∈ s.vars ∨ w.value = 0 := by
  unfold finshVarInsert at hw
  split at hw
  next => exact Or.inl hw
  next =>
    simp only [] at hw
    split at hw
    next hlt =>
      rcases mem_modify_cases hw with hw | ⟨u, hu, rfl⟩
      · exact Or.inl hw
      · right
        have hun : u.type = .unknown := by
          have hget := List.findIdx_getElem (w := hlt)
          rw [List.getElem?_eq_getElem hlt] at hu
          rw [Option.some.inj hu] at hget
          simpa using hget
        rcases hs.vars u (List.mem_of_getElem? hu) with hzero | ⟨hne, -⟩
        · exact hzero
        · exact absurd hun hne
    next => exact Or.inl hw

/-- A `char*` variable may be given the value of a literal or of another variable. -/
theorem SessionRep.set_value (hs : SessionRep P s bs) (hrun : s.running = true)
    (hv : ∃ q, charpValue s.vars v = some q)
    (hp : p = 0 ∨ ∃ b ∈ blocksUsed bs, blockGetData b.addr = p) :
    SessionRep P { s with vars := setValue s.vars v p } bs := by
  refine ⟨hs.rep, hs.literals, hs.nodup, fun w hw => ?_, fun hfalse => ?_⟩
  · rcases mem_modify_cases hw with hw | ⟨u, hu, rfl⟩
    · exact hs.vars w hw
    · obtain ⟨q, hq⟩ := hv
      obtain ⟨u', hu', hq⟩ := Option.bind_eq_some_iff.mp hq
      obtain rfl := Option.some.inj (hu.symm.trans hu')
      have htype : u.type = .charp := by
        by_contra hne
        simp [hne] at hq
      rcases hp with hp | hp
      · exact Or.inl hp
      · exact Or.inr ⟨by simp [htype], hp⟩
  · rw [hrun] at hfalse
    exact absurd hfalse.symm Bool.false_ne_true

theorem SessionInv.step {c : FinshLineStep} (hs : SessionInv P s) (hfirst : CollectsFirst s c)
    (hstep : finshLineStep s c = some s') : SessionInv P s' := by
  obtain ⟨bs, hs⟩ := hs
  cases c with
  | declare name type =>
    simp only [finshLineStep] at hstep
    split at hstep
    next => simp at hstep
    next hrun =>
      obtain rfl := Option.some.inj hstep
      refine ⟨bs, hs.rep, hs.literals, hs.nodup, fun w hw => ?_, fun _ w hw hlit => ?_⟩
      · rcases hs.declare hw with hw | hw
        · exact hs.vars w hw
        · exact Or.inl hw
      · rcases hs.declare hw with hw | hw
        · exact hs.fresh (by simpa using hrun) w hw hlit
        · obtain ⟨b, hb, hval⟩ := hs.literals _ hlit
          exact hs.rep.data_ne_zero (mem_blocksUsed.mp hb).1 (hval.trans hw)
  | node =>
    simp only [finshLineStep] at hstep
    split at hstep
    next => simp at hstep
    next =>
      obtain rfl := Option.some.inj hstep
      exact ⟨bs, hs.rep, hs.literals, hs.nodup, hs.vars, hs.fresh⟩
  | literal text =>
    simp only [finshLineStep] at hstep
    split at hstep
    next => simp at hstep
    next hcond =>
      obtain ⟨hrun, htext⟩ := not_or.mp hcond
      exact hs.literal (by simpa using hrun) htext hfirst hstep
  | compile =>
    obtain rfl := Option.some.inj hstep
    exact ⟨bs, hs.rep, hs.literals, hs.nodup, hs.vars, fun hfalse =>
      absurd hfalse.symm Bool.false_ne_true⟩
  | assign v k =>
    simp only [finshLineStep] at hstep
    split at hstep
    next hrun =>
      obtain ⟨q, hq, hstep⟩ := Option.bind_eq_some_iff.mp hstep
      obtain ⟨p, hp, hstep⟩ := Option.bind_eq_some_iff.mp hstep
      obtain rfl := Option.some.inj hstep
      exact ⟨bs, hs.set_value hrun ⟨q, hq⟩ (Or.inr (hs.literals p (List.mem_of_getElem? hp)))⟩
    next => simp at hstep
  | copy v w =>
    simp only [finshLineStep] at hstep
    split at hstep
    next hrun =>
      obtain ⟨q, hq, hstep⟩ := Option.bind_eq_some_iff.mp hstep
      obtain ⟨p, hp, hstep⟩ := Option.bind_eq_some_iff.mp hstep
      obtain rfl := Option.some.inj hstep
      obtain ⟨u, hu, hp⟩ := Option.bind_eq_some_iff.mp hp
      have hval : u.value = p := by
        split at hp
        next => exact Option.some.inj hp
        next => simp at hp
      have hpu := hs.vars u (List.mem_of_getElem? hu)
      rw [hval] at hpu
      exact ⟨bs, hs.set_value hrun ⟨q, hq⟩ (hpu.imp_right And.right)⟩
    next => simp at hstep
  | flush =>
    obtain rfl := Option.some.inj hstep
    exact ⟨bs, hs.rep, fun p hp => absurd hp List.not_mem_nil, List.nodup_nil, hs.vars,
      fun _ w _ => List.not_mem_nil⟩

/-- A step that makes no literal leaves the heap and the literals of the line as they are. -/
theorem heap_kept {c : FinshLineStep} (hstep : finshLineStep s c = some s')
    (hc : ∀ text, c ≠ .literal text) : s'.heap = s.heap ∧
      (s'.literals = s.literals ∨ s'.literals = []) := by
  cases c with
  | literal text => exact absurd rfl (hc text)
  | compile | flush =>
    obtain rfl := Option.some.inj hstep
    simp
  | declare name type =>
    simp only [finshLineStep] at hstep
    split at hstep
    next => simp at hstep
    next =>
      obtain rfl := Option.some.inj hstep
      simp
  | node =>
    simp only [finshLineStep] at hstep
    split at hstep
    next => simp at hstep
    next =>
      obtain rfl := Option.some.inj hstep
      simp
  | assign v k | copy v k =>
    simp only [finshLineStep] at hstep
    split at hstep
    next =>
      obtain ⟨q, -, hstep⟩ := Option.bind_eq_some_iff.mp hstep
      obtain ⟨p, -, hstep⟩ := Option.bind_eq_some_iff.mp hstep
      obtain rfl := Option.some.inj hstep
      simp
    next => simp at hstep

theorem freesNone_iff {c : FinshLineStep} (hs : SessionInv P s)
    (hstep : finshLineStep s c = some s') : FreesNone s s' ↔ CollectsFirst s c := by
  obtain ⟨bs, hs⟩ := hs
  by_cases hc : ∃ text, c = .literal text
  · obtain ⟨text, rfl⟩ := hc
    simp only [finshLineStep] at hstep
    split at hstep
    next => simp at hstep
    next hcond =>
      obtain ⟨hrun, htext⟩ := not_or.mp hcond
      exact hs.literal_frees_none (by simpa using hrun) htext hstep
  · obtain ⟨hheap, hlits⟩ := heap_kept hstep fun text heq => hc ⟨text, heq⟩
    have htrue : CollectsFirst s c := by
      cases c with
      | literal text => exact absurd ⟨text, rfl⟩ hc
      | _ => trivial
    refine ⟨fun _ => htrue, fun _ h hh => ⟨?_, fun p hp => ?_⟩⟩
    · rw [hheap]
      exact hh.1
    · have hlen := congrArg List.length hp
      rcases hlits with hl | hl
      · rw [hl] at hlen
        simp at hlen
      · rw [hl] at hlen
        simp at hlen

theorem SessionRep.apart (hs : SessionRep P s bs) : LiteralsApart s := by
  have hfits := P.fits
  refine hs.nodup.imp_of_mem fun {p q} hp hq hne => ?_
  obtain ⟨b, hb, rfl⟩ := hs.literals p hp
  obtain ⟨c, hc, rfl⟩ := hs.literals q hq
  have hbm := (mem_blocksUsed.mp hb).1
  have hcm := (mem_blocksUsed.mp hc).1
  have hlt : ∀ d ∈ bs, d.addr < 4294967296 := fun d hd =>
    hs.rep.tiles.headers.lt _ (List.mem_map_of_mem hd)
  rw [blockGetHeader_blockGetData (hlt b hbm), blockGetHeader_blockGetData (hlt c hcm),
    hs.rep.lengths b hbm, hs.rep.lengths c hcm, hs.rep.data_eq hbm, hs.rep.data_eq hcm]
  have hbc : b ≠ c := fun heq => hne (heq ▸ rfl)
  obtain ⟨ls, rs, rfl⟩ := List.append_of_mem hbm
  obtain ⟨-, hcons, hcross⟩ := List.pairwise_append.mp hs.rep.tiles.pairwise
  simp only [List.mem_append, List.mem_cons] at hcm
  rcases hcm with hcm | rfl | hcm
  · exact Or.inr (hcross c hcm b List.mem_cons_self)
  · exact absurd rfl hbc
  · exact Or.inl ((List.pairwise_cons.mp hcons).1 c hcm)

theorem finshSessionInit_inv : SessionInv P (finshSessionInit P m) := by
  refine ⟨_, finshHeapInit_rep, fun p hp => absurd hp List.not_mem_nil, List.nodup_nil,
    fun w hw => Or.inl (finshVarInit_blank hw), fun _ w _ => List.not_mem_nil⟩

theorem SessionInv.run (hs : SessionInv P s) (hok : RunMeets finshLineStep CollectsFirst as s)
    (hrun : runFrom finshLineStep as s = some s') : SessionInv P s' :=
  ((Reach.start hs : Reach finshLineStep CollectsFirst (SessionInv P) s).runFrom hok hrun).invariant
    (fun _ h => h) fun _ _ _ h hfirst hstep => h.step hfirst hstep

/-- No string in use is freed or handed out, and the literals of the line lie apart, in just those
runs in which a literal that makes the heap collect is the first of its line. -/
theorem gc_frees_none_iff {s : FinshSession}
    (hrun : runFrom finshLineStep as (finshSessionInit P m) = some s) :
    (RunMeets finshLineStep (fun s c => ∀ s' ∈ finshLineStep s c, FreesNone s s') as
        (finshSessionInit P m) ∧ LiteralsApart s) ↔
      RunMeets finshLineStep CollectsFirst as (finshSessionInit P m) := by
  have hiff : RunMeets finshLineStep CollectsFirst as (finshSessionInit P m) ↔
      RunMeets finshLineStep (fun s c => ∀ s' ∈ finshLineStep s c, FreesNone s s') as
        (finshSessionInit P m) := by
    refine runMeets_iff (I := SessionInv P) (fun s c s' hs hstep => ?_)
      (fun s c s' hs hfirst hstep => hs.step hfirst hstep) finshSessionInit_inv hrun
    rw [hstep]
    simp only [Option.mem_some_iff, forall_eq']
    exact (freesNone_iff hs hstep).symm
  constructor
  · rintro ⟨hfrees, -⟩
    exact hiff.mpr hfrees
  · intro hfirst
    obtain ⟨bs, hs⟩ := finshSessionInit_inv.run hfirst hrun
    exact ⟨hiff.mp hfirst, hs.apart⟩

end

def finshSessionFresh : FinshSession := finshSessionInit finshArray ⟨fun _ => 0⟩

/-- `char *s = "ab";` and then a call with a literal. -/
def finshLines : List FinshLineStep :=
  [.declare [115] .charp, .node, .literal [97, 98], .node, .compile, .assign 0 0, .flush,
    .node, .literal [99], .node, .compile]

theorem finshLines_some : (runFrom finshLineStep finshLines finshSessionFresh).isSome = true := by
  decide +kernel

theorem gc_frees_none_of_finshLines :
    RunMeets finshLineStep (fun s c => ∀ s' ∈ finshLineStep s c, FreesNone s s') finshLines
        finshSessionFresh ∧
      LiteralsApart ((runFrom finshLineStep finshLines finshSessionFresh).get finshLines_some) :=
  (gc_frees_none_iff (P := finshArray) (Option.some_get finshLines_some).symm).mpr
    (by decide +kernel)

/-- A call with two literals of 53 characters. -/
def finshLongLine : List FinshLineStep :=
  [.node, .literal (List.replicate 53 97), .literal (List.replicate 53 98), .node]

theorem finshLongLine_some :
    (runFrom finshLineStep finshLongLine finshSessionFresh).isSome = true := by
  decide +kernel

/-- The second literal makes the heap collect the first, and is given its block. -/
theorem gc_frees_literal_of_line :
    ¬∀ P m as s, runFrom finshLineStep as (finshSessionInit P m) = some s →
      RunMeets finshLineStep (fun s c => ∀ s' ∈ finshLineStep s c, FreesNone s s') as
        (finshSessionInit P m) ∧ LiteralsApart s := by
  intro hall
  obtain ⟨-, hapart⟩ := hall finshArray ⟨fun _ => 0⟩ finshLongLine _
    (Option.some_get finshLongLine_some).symm
  revert hapart
  unfold LiteralsApart
  decide +kernel

end RTThread
