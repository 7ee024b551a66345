import RTThread.FinshStackValues

namespace RTThread

variable {M : FinshMachine} {vars : FinshVars} {links : FinshLinks} {trees before after : List FinshNode}
  {codes : List (List FinshOp)} {tree : FinshNode} {err : FinshErr} {start : FinshVm}

/-- Where the code of a statement begins, behind the pop of the statements before it. -/
def statementStart (vars : FinshVars) (links : FinshLinks) (before : List FinshNode) (err : FinshErr) : Nat :=
  if before = [] then 0 else (finshCompilerRun vars links before err).text.length + 1

/-- A run of the code of a line: the stack pointer stays in the stack, every operation finds its
operands in it, and each statement starts on the empty stack and ends with its value on it. -/
structure StackBalanced (M : FinshMachine) (vars : FinshVars) (links : FinshLinks)
    (trees : List FinshNode) (err : FinshErr) (start : FinshVm) : Prop where
  within : ∀ s, VmReach M (textSegment (finshCompilerRun vars links trees err)) start s →
    0 ≤ s.sp ∧ s.sp ≤ finshStackMax
  operands : ∀ s, VmReach M (textSegment (finshCompilerRun vars links trees err)) start s →
    s.pc < finshTextMax → ∃ n,
      s.operands (textSegment (finshCompilerRun vars links trees err)) = some n ∧ (n : Int) ≤ s.sp
  statements : ∀ before tree after, trees = before ++ tree :: after → ∃ a b,
    VmReach M (textSegment (finshCompilerRun vars links trees err)) start a ∧
      a.pc = statementStart vars links before err ∧ a.sp = 0 ∧
    VmReach M (textSegment (finshCompilerRun vars links trees err)) a b ∧
      b.pc = (finshCompilerRun vars links (before ++ [tree]) err).text.length ∧ b.sp = 1

theorem textSegment_length (code : FinshCode) : (textSegment code).length = finshTextMax := by
  unfold textSegment
  rw [List.length_take, List.length_append, List.length_replicate]
  omega

theorem textSegment_fits {code : FinshCode} (h : code.text.length ≤ finshTextMax) :
    textSegment code = code.ops.flatMap FinshOp.bytes ++
      List.replicate (finshTextMax - code.text.length) 0 := by
  unfold textSegment
  rw [List.take_append, List.take_of_length_le h, List.take_replicate, Nat.min_eq_left (Nat.sub_le _ _)]
  rfl

/-- The code in front of a statement. -/
def opsBefore : List (List FinshOp) → List FinshOp
  | [] => []
  | c :: cs => lineOps (c :: cs) ++ [FinshOp.pop]

theorem lineOps_split (cb ca : List (List FinshOp)) (c : List FinshOp) :
    lineOps (cb ++ c :: ca) = opsBefore cb ++ (c ++ ca.flatMap (FinshOp.pop :: ·)) := by
  cases cb with
  | nil => rfl
  | cons c0 cs =>
    simp only [lineOps, opsBefore, List.cons_append, List.flatMap_append, List.flatMap_cons,
      List.append_assoc, List.nil_append]

theorem lineOps_bytes (hcodes : List.Forall₂ (StatementCode vars) trees codes)
    (htrees : ∀ tree ∈ trees, tree ≠ .null) :
    ((lineOps codes).flatMap FinshOp.bytes).length = lineBytes vars (.chain trees) := by
  induction hcodes with
  | nil => rfl
  | @cons tree c trees codes hc hcodes ih =>
    have hrest : ∀ tree ∈ trees, tree ≠ .null := fun t ht => htrees t (List.mem_cons_of_mem tree ht)
    have hlast := ih hrest
    cases tree with
    | null => exact absurd rfl (htrees .null List.mem_cons_self)
    | node type dataType address child sibling =>
      show _ = treeBytes vars (.node type dataType address child .null) false +
        if FinshNode.chain trees = .null then 0 else 1 + lineBytes vars (.chain trees)
      rw [lineOps, List.flatMap_append, List.length_append, hc.bytes]
      show treeBytes vars (.node type dataType address child .null) false + _ = _
      cases hcodes with
      | nil => rfl
      | @cons second c2 trees codes _ _ =>
        rw [if_neg fun h => absurd ((chain_null hrest).mp h) (List.cons_ne_nil _ _), ← hlast]
        simp only [lineOps, List.flatMap_cons, List.length_append, List.flatMap_append]
        show _ + (1 + _ + _) = _
        rw [Nat.add_assoc 1]

theorem opsBefore_bytes (hcodes : List.Forall₂ (StatementCode vars) before codes)
    (hbefore : ∀ tree ∈ before, tree ≠ .null) :
    ((opsBefore codes).flatMap FinshOp.bytes).length = statementStart vars links before err := by
  unfold statementStart
  rw [finshCompilerRun_length, ← lineOps_bytes hcodes hbefore]
  cases hcodes with
  | nil => rfl
  | cons _ _ =>
    rw [if_neg (List.cons_ne_nil _ _), opsBefore, List.flatMap_append, List.length_append]
    rfl

theorem forall₂_split {α β : Type} {R : α → β → Prop} {as as' : List α} {a : α} {bs : List β}
    (h : List.Forall₂ R (as ++ a :: as') bs) :
    ∃ cs c cs', bs = cs ++ c :: cs' ∧ List.Forall₂ R as cs ∧ R a c ∧ List.Forall₂ R as' cs' := by
  induction as generalizing bs with
  | nil =>
    cases h with
    | @cons _ c _ cs' hc hcs => exact ⟨[], c, cs', rfl, .nil, hc, hcs⟩
  | cons first as ih =>
    cases h with
    | @cons _ c0 _ bs hc0 hrest =>
      obtain ⟨cs, c, cs', rfl, hcs, hc, hcs'⟩ := ih hrest
      exact ⟨c0 :: cs, c, cs', rfl, .cons hc0 hcs, hc, hcs'⟩

/-- Statements that leave one value each, popped before the next. -/
theorem pops_depth {cs : List (List FinshOp)} (h : ∀ c ∈ cs, opsDepth c 0 = some 1) :
    opsDepth (cs.flatMap (FinshOp.pop :: ·)) 1 = some 1 := by
  induction cs with
  | nil => rfl
  | cons c cs ih =>
    show opsDepth (c ++ cs.flatMap (FinshOp.pop :: ·)) 0 = some 1
    rw [opsDepth_append, h c List.mem_cons_self]
    exact ih fun c' hc' => h c' (List.mem_cons_of_mem c hc')

theorem opsBefore_depth {cs : List (List FinshOp)} (h : ∀ c ∈ cs, opsDepth c 0 = some 1) :
    opsDepth (opsBefore cs) 0 = some 0 := by
  cases cs with
  | nil => rfl
  | cons c cs =>
    rw [opsBefore, lineOps, opsDepth_append, opsDepth_append, h c List.mem_cons_self, Option.bind_some,
      pops_depth fun c' hc' => h c' (List.mem_cons_of_mem c hc')]
    rfl

theorem codes_of {c : List FinshOp} (hcodes : List.Forall₂ (StatementCode vars) trees codes)
    (hc : c ∈ codes) : ∃ tree ∈ trees, StatementCode vars tree c := by
  induction hcodes with
  | nil => cases hc
  | @cons tree first trees codes hfirst _ ih =>
    rcases List.mem_cons.mp hc with rfl | hc
    · exact ⟨tree, List.mem_cons_self, hfirst⟩
    · obtain ⟨t, ht, hcode⟩ := ih hc
      exact ⟨t, List.mem_cons_of_mem tree ht, hcode⟩

theorem codes_depth (hcodes : List.Forall₂ (StatementCode vars) trees codes)
    (hvalues : ∀ tree ∈ trees, valuesBehind vars (tree.setSibling .null) false 0 = some 1) :
    ∀ c ∈ codes, opsDepth c 0 = some 1 := by
  intro c hc
  obtain ⟨tree, htree, hcode⟩ := codes_of hcodes hc
  rw [hcode.depth]
  exact hvalues tree htree

theorem finshCompilerRun_codes (htrees : ∀ tree ∈ trees, tree ≠ .null)
    (hcount : (FinshNode.chain trees).count ≤ 256) :
    ∃ codes, List.Forall₂ (StatementCode vars) trees codes ∧
      (finshCompilerRun vars links trees err).ops = lineOps codes :=
  compileStatements_codes htrees hcount err

theorem lineOps_encodable (hcodes : List.Forall₂ (StatementCode vars) trees codes) :
    ∀ op ∈ lineOps codes, op.Encodable := by
  have hall : ∀ c ∈ codes, ∀ op ∈ c, op.Encodable := by
    intro c hc
    obtain ⟨tree, -, hcode⟩ := codes_of hcodes hc
    exact hcode.encodable
  cases codes with
  | nil => simp [lineOps]
  | cons c cs =>
    intro op hop
    rcases List.mem_append.mp hop with hop | hop
    · exact hall c List.mem_cons_self op hop
    · obtain ⟨c', hc', hop⟩ := List.mem_flatMap.mp hop
      rcases List.mem_cons.mp hop with rfl | hop
      · exact trivial
      · exact hall c' (List.mem_cons_of_mem c hc') op hop

/-- The place of a statement in the code of its line. -/
theorem statement_place (hsplit : trees = before ++ tree :: after) (htrees : ∀ tree ∈ trees, tree ≠ .null)
    (hcodes : List.Forall₂ (StatementCode vars) trees codes) :
    ∃ cb c ca, codes = cb ++ c :: ca ∧ StatementCode vars tree c ∧
      ((opsBefore cb).flatMap FinshOp.bytes).length = statementStart vars links before err ∧
      ((opsBefore cb).flatMap FinshOp.bytes).length + (c.flatMap FinshOp.bytes).length =
        (finshCompilerRun vars links (before ++ [tree]) err).text.length := by
  rw [hsplit] at hcodes
  obtain ⟨cb, c, ca, rfl, hcb, hc, -⟩ := forall₂_split hcodes
  have hbefore : ∀ tree ∈ before, tree ≠ .null := fun t ht => htrees t (by rw [hsplit]; simp [ht])
  have hprefix : ∀ t ∈ before ++ [tree], t ≠ .null := fun t ht => htrees t (by
    rw [hsplit]
    rcases List.mem_append.mp ht with ht | ht
    · exact List.mem_append_left _ ht
    · rw [List.mem_singleton.mp ht]
      simp)
  have hone : List.Forall₂ (StatementCode vars) (before ++ [tree]) (cb ++ [c]) :=
    List.rel_append hcb (.cons hc .nil)
  refine ⟨cb, c, ca, rfl, hc, opsBefore_bytes hcb hbefore, ?_⟩
  rw [finshCompilerRun_length, ← lineOps_bytes hone hprefix, lineOps_split, List.flatMap_append,
    List.length_append, List.flatMap_nil, List.append_nil]

/-- The text behind the start of a statement begins with its code. -/
theorem textSegment_drop {cb ca : List (List FinshOp)} {c : List FinshOp} {code : FinshCode}
    (hfits : code.text.length ≤ finshTextMax) (hops : code.ops = lineOps (cb ++ c :: ca)) :
    ∃ rest, (textSegment code).drop ((opsBefore cb).flatMap FinshOp.bytes).length =
      c.flatMap FinshOp.bytes ++ rest := by
  rw [textSegment_fits hfits, hops, lineOps_split]
  simp only [List.flatMap_append, List.append_assoc, List.drop_left]
  exact ⟨_, rfl⟩

/-- Each statement of a balanced line leaves one value on the empty stack. -/
theorem StackBalanced.values (hbal : StackBalanced M vars links trees err start)
    (htrees : ∀ tree ∈ trees, tree ≠ .null) (hcount : (FinshNode.chain trees).count ≤ 256)
    (hstart : start.AtStart) :
    lineBytes vars (.chain trees) ≤ finshTextMax ∧
      ∀ tree ∈ trees, valuesBehind vars (tree.setSibling .null) false 0 = some 1 := by
  have hfits : (finshCompilerRun vars links trees err).text.length ≤ finshTextMax := by
    rcases List.eq_nil_or_concat' trees with rfl | ⟨before, last, rfl⟩
    · exact Nat.zero_le _
    · obtain ⟨a, b, ha, -, -, hb, hpc, -⟩ := hbal.statements before last [] rfl
      obtain hsame | ⟨-, hle⟩ := VmReach.pc_lt (ha.trans hb)
      · rw [← hpc, ← hsame, hstart.1]
        exact Nat.zero_le _
      · rwa [hpc, textSegment_length] at hle
  obtain ⟨codes, hcodes, hops⟩ := @finshCompilerRun_codes vars links trees err htrees hcount
  refine ⟨@finshCompilerRun_length vars links trees err ▸ hfits, fun tree htree => ?_⟩
  obtain ⟨before, after, hsplit⟩ := List.append_of_mem htree
  obtain ⟨a, b, ha, hapc, hasp, hb, hbpc, hbsp⟩ := hbal.statements before tree after hsplit
  obtain ⟨cb, c, ca, rfl, hcode, hfirst, hend⟩ :=
    @statement_place vars links trees before after codes tree err hsplit htrees hcodes
  obtain ⟨rest, hdrop⟩ := textSegment_drop hfits hops
  rw [hfirst, ← hapc] at hdrop
  obtain ⟨e, b', hdepth, hreach, hpc, hsp⟩ | ⟨-, s, n, hreach, hinside, hoperands, hmisses⟩ :=
    VmReach.code (M := M) (textSegment_length _) hcode.encodable hdrop (d := 0) hasp
  · -- both states are where the code of the statement ends
    have hsame := VmReach.unique (ha.trans hreach) (ha.trans hb) (by omega)
    rw [← hcode.depth, hdepth]
    subst hsame
    congr 1
    omega
  · obtain ⟨m, hm, hfound⟩ := hbal.operands s (ha.trans hreach) hinside
    obtain rfl := Option.some.inj (hm.symm.trans hoperands)
    omega

theorem StackBalanced.of_values (htrees : ∀ tree ∈ trees, tree ≠ .null)
    (hcount : (FinshNode.chain trees).count ≤ 256) (hstart : start.AtStart)
    (hfits : (finshCompilerRun vars links trees err).text.length ≤ finshTextMax)
    (hvalues : ∀ tree ∈ trees, valuesBehind vars (tree.setSibling .null) false 0 = some 1) :
    StackBalanced M vars links trees err start := by
  obtain ⟨codes, hcodes, hops⟩ := @finshCompilerRun_codes vars links trees err htrees hcount
  have hdepths := codes_depth hcodes hvalues
  have htext := textSegment_fits hfits
  rw [hops] at htext
  obtain ⟨e, hdepth⟩ : ∃ e, opsDepth (lineOps codes) 0 = some e := by
    cases codes with
    | nil => exact ⟨0, rfl⟩
    | cons c cs =>
      refine ⟨1, ?_⟩
      rw [lineOps, opsDepth_append, hdepths c List.mem_cons_self]
      exact pops_depth fun c' hc' => hdepths c' (List.mem_cons_of_mem c hc')
  have henc := lineOps_encodable hcodes
  have hrun := fun s hs => @VmReach.balanced M _ s start _ e _ henc htext (textSegment_length _) hdepth
    hstart hs
  refine ⟨fun s hs => (hrun s hs).1, fun s hs => (hrun s hs).2, ?_⟩
  intro before tree after hsplit
  obtain ⟨cb, c, ca, rfl, hcode, hfirst, hend⟩ :=
    @statement_place vars links trees before after codes tree err hsplit htrees hcodes
  have hbefore : ∀ op ∈ opsBefore cb, op.Encodable := fun op hop =>
    henc op (by rw [lineOps_split]; exact List.mem_append_left _ hop)
  have hzero : opsDepth (opsBefore cb) 0 = some 0 :=
    opsBefore_depth fun c' hc' => hdepths c' (List.mem_append_left _ hc')
  have hone : opsDepth c 0 = some 1 := hdepths c (by simp)
  have hdrop : (textSegment (finshCompilerRun vars links trees err)).drop start.pc =
      (opsBefore cb).flatMap FinshOp.bytes ++ ((c ++ ca.flatMap (FinshOp.pop :: ·)).flatMap FinshOp.bytes ++
        List.replicate (finshTextMax - (finshCompilerRun vars links trees err).text.length) 0) := by
    rw [hstart.1, List.drop_zero, htext, lineOps_split, List.flatMap_append, List.append_assoc]
  obtain ⟨e0, a, ha0, ha, hapc, hasp⟩ | ⟨hnone, -⟩ :=
    VmReach.code (M := M) (textSegment_length _) hbefore hdrop (d := 0) hstart.2
  · obtain rfl := Option.some.inj (hzero.symm.trans ha0)
    rw [hstart.1, Nat.zero_add, hfirst] at hapc
    obtain ⟨rest, hnext⟩ := textSegment_drop hfits hops
    rw [hfirst, ← hapc] at hnext
    obtain ⟨e1, b, hb1, hb, hbpc, hbsp⟩ | ⟨hnone, -⟩ :=
      VmReach.code (M := M) (textSegment_length _) hcode.encodable hnext hasp
    · obtain rfl := Option.some.inj (hone.symm.trans hb1)
      exact ⟨a, b, ha, hapc, hasp, hb, by omega, hbsp⟩
    · rw [hone] at hnone
      cases hnone
  · rw [hzero] at hnone
    cases hnone

/-- Exactly the lines whose code fits and whose statements leave one value each, as the trees say. -/
theorem stackBalanced_iff (htrees : ∀ tree ∈ trees, tree ≠ .null)
    (hnodes : (FinshNode.chain trees).count ≤ finshNodeMax) (err : FinshErr) (hstart : start.AtStart) :
    StackBalanced M vars links trees err start ↔
      lineBytes vars (.chain trees) ≤ finshTextMax ∧
        ∀ tree ∈ trees, valuesBehind vars (tree.setSibling .null) false 0 = some 1 := by
  have hcount : (FinshNode.chain trees).count ≤ 256 := Nat.le_trans hnodes (by decide)
  constructor
  · intro hbal
    exact hbal.values htrees hcount hstart
  · rintro ⟨hfits, hvalues⟩
    rw [← @finshCompilerRun_length vars links trees err] at hfits
    exact .of_values htrees hcount hstart hfits hvalues

section
variable {S : FinshSymbols} {p p' : FinshParser} {nodes nodes' : List FinshNode} {token token' : FinshToken}

theorem FinshNode.toList_nonnull {n m : FinshNode} (h : m ∈ n.toList) : m ≠ .null := by
  unfold FinshNode.toList at h
  split at h
  next => cases h
  next hn =>
    rw [List.mem_singleton.mp h]
    exact hn

theorem procInitialiser_nonnull {fuel : Nat} {id : List UInt8}
    (h : procInitialiser S fuel id token nodes p = some ((token', nodes'), p'))
    (hnodes : ∀ n ∈ nodes, n ≠ .null) : ∀ n ∈ nodes', n ≠ .null := by
  unfold procInitialiser at h
  split at h
  next =>
    obtain ⟨⟨assign, s1⟩, -, h⟩ := Option.bind_eq_some_iff.mp h
    simp only at h
    split at h
    next =>
      obtain ⟨hpair, -⟩ := Prod.mk.inj (Option.some.inj h)
      obtain ⟨-, rfl⟩ := Prod.mk.inj hpair
      exact hnodes
    next =>
      obtain ⟨hpair, -⟩ := Prod.mk.inj (Option.some.inj h)
      obtain ⟨-, rfl⟩ := Prod.mk.inj hpair
      intro n hn
      rcases List.mem_append.mp hn with hn | hn
      · exact hnodes n hn
      · exact FinshNode.toList_nonnull hn
  next =>
    obtain ⟨hpair, -⟩ := Prod.mk.inj (Option.some.inj h)
    obtain ⟨-, rfl⟩ := Prod.mk.inj hpair
    exact hnodes

theorem declaratorLoop_nonnull {fuel turns : Nat} {type : FinshType}
    (h : declaratorLoop S fuel type turns token nodes p = some ((token', nodes'), p'))
    (hnodes : ∀ n ∈ nodes, n ≠ .null) : ∀ n ∈ nodes', n ≠ .null := by
  induction turns generalizing token nodes p with
  | zero => cases h
  | succ turns ih =>
    unfold declaratorLoop at h
    split at h
    next =>
      obtain ⟨⟨⟨token1, nodes1⟩, s1⟩, h1, h⟩ := Option.bind_eq_some_iff.mp h
      exact ih h (procInitialiser_nonnull h1 hnodes)
    next =>
      obtain ⟨hpair, -⟩ := Prod.mk.inj (Option.some.inj h)
      obtain ⟨-, rfl⟩ := Prod.mk.inj hpair
      exact hnodes

theorem procVariableDecl_nonnull {fuel : Nat} (h : procVariableDecl S fuel p = some (nodes, p')) :
    ∀ n ∈ nodes, n ≠ .null := by
  unfold procVariableDecl at h
  simp only at h
  split at h
  next =>
    obtain ⟨⟨⟨token1, nodes1⟩, s1⟩, h1, h⟩ := Option.bind_eq_some_iff.mp h
    obtain ⟨⟨⟨token2, nodes2⟩, s2⟩, h2, h⟩ := Option.bind_eq_some_iff.mp h
    obtain ⟨rfl, -⟩ := Prod.mk.inj (Option.some.inj h)
    exact declaratorLoop_nonnull h2 (procInitialiser_nonnull h1 (by simp))
  next =>
    split at h
    next =>
      obtain ⟨rfl, -⟩ := Prod.mk.inj (Option.some.inj h)
      simp
    next =>
      obtain ⟨rfl, -⟩ := Prod.mk.inj (Option.some.inj h)
      simp

theorem FinshRoot.attach_nonnull {root : FinshRoot} (hroot : ∀ n ∈ root.trees, n ≠ .null)
    (hnodes : ∀ n ∈ nodes, n ≠ .null) : ∀ n ∈ (root.attach nodes).trees, n ≠ .null := by
  unfold FinshRoot.attach
  split
  · exact hnodes
  · intro n hn
    rcases List.mem_append.mp hn with hn | hn
    · exact hroot n (List.mem_of_mem_take hn)
    · exact hnodes n hn

/-- The parser hangs no null pointer on the list of statements. -/
theorem parserLoop_nonnull {fuel turns : Nat} {root root' : FinshRoot}
    (h : parserLoop S fuel turns token root p = some (root', p'))
    (hroot : ∀ n ∈ root.trees, n ≠ .null) : ∀ n ∈ root'.trees, n ≠ .null := by
  induction turns generalizing token root p with
  | zero => cases h
  | succ turns ih =>
    unfold parserLoop at h
    split at h
    next =>
      obtain ⟨rfl, -⟩ := Prod.mk.inj (Option.some.inj h)
      exact hroot
    next =>
      obtain ⟨⟨root1, s1⟩, hturn, h⟩ := Option.bind_eq_some_iff.mp h
      have hroot1 : ∀ n ∈ root1.trees, n ≠ .null := by
        unfold parserTurn at hturn
        split at hturn
        next =>
          obtain ⟨⟨nodes, s2⟩, hdecl, hturn⟩ := Option.bind_eq_some_iff.mp hturn
          obtain ⟨rfl, -⟩ := Prod.mk.inj (Option.some.inj hturn)
          exact FinshRoot.attach_nonnull hroot (procVariableDecl_nonnull hdecl)
        next =>
          obtain ⟨⟨node, s2⟩, -, hturn⟩ := Option.bind_eq_some_iff.mp hturn
          obtain ⟨rfl, -⟩ := Prod.mk.inj (Option.some.inj hturn)
          exact FinshRoot.attach_nonnull hroot fun n hn => FinshNode.toList_nonnull hn
      simp only at h
      split at h
      next =>
        obtain ⟨rfl, -⟩ := Prod.mk.inj (Option.some.inj h)
        exact hroot1
      next => exact ih h hroot1

end

/-- Of a parsed line exactly those whose code fits and whose statements leave one value each, as the
trees say. -/
theorem finshLine_balanced_iff {S : FinshSymbols} {vars0 : FinshVars} {line : List FinshToken}
    {root : FinshRoot} {p : FinshParser} (hparse : finshParserRun S vars0 line = some (root, p))
    (hnodes : (FinshNode.chain root.trees).count ≤ finshNodeMax) (hstart : start.AtStart) :
    StackBalanced M p.vars links root.trees p.errno start ↔
      lineBytes p.vars (.chain root.trees) ≤ finshTextMax ∧
        ∀ tree ∈ root.trees, valuesBehind p.vars (tree.setSibling .null) false 0 = some 1 := by
  have htrees : ∀ tree ∈ root.trees, tree ≠ .null := parserLoop_nonnull hparse (by simp)
  exact stackBalanced_iff htrees hnodes p.errno hstart

/-- A machine whose functions answer 0, and the virtual machine before it runs a line. -/
def quietMachine : FinshMachine := ⟨true, fun _ _ m => (0, m)⟩

def vmStart : FinshVm := ⟨0, 0, fun _ => 0, ⟨fun _ => 0⟩⟩

def someAddresses : FinshLinks := ⟨fun _ => 4096, fun _ => 0⟩

/-- `a = 1; a++;` for an `int`. -/
theorem finshLine_balanced_two :
    ∃ root p, finshParserRun noSymbols [⟨[97], .int, 0⟩]
        [.identifier [97], .assign, .valueInt 1, .semicolon, .identifier [97], .inc, .semicolon] =
          some (root, p) ∧
      StackBalanced quietMachine p.vars someAddresses root.trees p.errno vmStart := by
  obtain ⟨root, p, hparse, hvars, htrees⟩ : ∃ root p, finshParserRun noSymbols [⟨[97], .int, 0⟩]
      [.identifier [97], .assign, .valueInt 1, .semicolon, .identifier [97], .inc, .semicolon] =
        some (root, p) ∧ p.vars = [⟨[97], .int, 0⟩] ∧
      root.trees = [sysNode .assign (.leaf (.id (.var 0))) [.leaf (.valueInt 1)],
        sysNode .inc (.leaf (.id (.var 0))) []] :=
    ⟨_, _, rfl, rfl, rfl⟩
  refine ⟨root, p, hparse, (finshLine_balanced_iff hparse ?_ ⟨rfl, rfl⟩).mpr ?_⟩
  · rw [htrees]
    decide
  · rw [hvars, htrees]
    decide

/-- The sum of a call and a number: `+` has the `data_type` of the function, which has none, and
writes nothing. -/
def callPlusTwo : FinshNode :=
  sysNode .add (sysNode .func (.leaf (.id (.syscall 8192))) []) [.leaf (.valueInt 2)]

/-- `f() + 2;` parses and compiles without an error and leaves two values. -/
theorem callPlusTwo_unbalanced :
    ((finshParserRun ⟨fun _ => none, fun _ => some 8192⟩ []
        [.identifier [102], .leftParen, .rightParen, .add, .valueInt 2, .semicolon]).map
      fun r => (r.2.errno, r.1.trees)) = some (.ok, [callPlusTwo]) ∧
      (finshCompilerRun [] someAddresses [callPlusTwo] .ok).errno = .ok ∧
      ¬StackBalanced quietMachine [] someAddresses [callPlusTwo] .ok vmStart := by
  refine ⟨by decide +kernel, rfl, ?_⟩
  intro hbal
  have hvalues := (hbal.values (by simp [callPlusTwo, sysNode]) (by decide) ⟨rfl, rfl⟩).2 callPlusTwo
    List.mem_cons_self
  exact absurd hvalues (by decide)

end RTThread
