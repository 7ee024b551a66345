import RTThread.FinshTextSize
import RTThread.FinshVmRuns

namespace RTThread

variable {vars : FinshVars} {links : FinshLinks}

def increasedValues (values : Nat × Nat) (dataType : Nat) : Option FinshNodeType → Nat × Nat
  | some (.id _) => if (widthOf dataType).isSome then values else (0, 0)
  | _ => (0, 0)

/-- The values on the stack that the code of a node takes, and those it leaves in their place; `head`
is the kind of its first child. -/
def nodeValues (vars : FinshVars) (type : FinshNodeType) (dataType : Nat) (address : Bool)
    (head : Option FinshNodeType) (headType children : Nat) : Nat × Nat :=
  let known (v : Nat × Nat) := if (widthOf dataType).isSome then v else (0, 0)
  match type with
  | .id (.syscall _) => (0, 1)
  | .id ref => if ((identifierType vars ref).bind loadWidth).isSome then (0, 1) else (0, 0)
  | .valueChar _ | .valueInt _ | .valueLong _ | .valueString _ | .valueNull => (0, 1)
  | .func => if head = none then (0, 0) else (children, 1)
  | .assign =>
    match head with
    | some (.id _) => if (widthOf headType).isSome then (2, 1) else (0, 0)
    | some .getvalue => if (widthOf (headType % 16)).isSome then (2, 1) else (0, 0)
    | _ => (0, 0)
  | .preinc | .predec => increasedValues (1, 1) dataType head
  | .inc | .dec | .getaddr => (0, 0)
  | .getvalue => if address then (0, 0) else known (1, 1)
  | .bitwise => known (1, 1)
  | _ => known (2, 1)

/-- The depth of the stack behind a node. -/
def depthBehind (values : Nat × Nat) (d : Nat) : Option Nat :=
  if values.1 ≤ d then some (d - values.1 + values.2) else none

/-- The depth of the stack behind a tree and its siblings; none of their nodes misses a value. -/
def valuesBehind (vars : FinshVars) : FinshNode → Bool → Nat → Option Nat
  | .null, _, d => some d
  | .node type dataType address child sibling, isAddr, d => do
    let d ← valuesBehind vars child (childAddress type isAddr) d
    let d ← depthBehind (nodeValues vars type (exprType vars (.node type dataType address child sibling))
      (if isSyscall type && !address then address else address || isAddr) child.head
      (exprType vars child) child.siblings) d
    valuesBehind vars sibling false d

/-- What is written between two points of the compilation does with the depth of the stack. -/
def FinshCode.Adds (s s' : FinshCode) (depth : Nat → Option Nat) : Prop :=
  ∃ ops, s'.ops = s.ops ++ ops ∧ (∀ op ∈ ops, op.Encodable) ∧ ∀ d, opsDepth ops d = depth d

section
variable {s s1 s2 : FinshCode} {f g : Nat → Option Nat}

theorem FinshCode.Adds.nothing (h : s1.ops = s.ops) : s.Adds s1 (depthBehind (0, 0)) :=
  ⟨[], by rw [h, List.append_nil], by simp, fun _ => rfl⟩

theorem FinshCode.Adds.trans (h : s.Adds s1 f) (h' : s1.Adds s2 g) :
    s.Adds s2 fun d => (f d).bind g := by
  obtain ⟨ops, heq, henc, hdepth⟩ := h
  obtain ⟨ops', heq', henc', hdepth'⟩ := h'
  refine ⟨ops ++ ops', by rw [heq', heq, List.append_assoc], ?_, fun d => ?_⟩
  · intro op hop
    rcases List.mem_append.mp hop with hop | hop
    · exact henc op hop
    · exact henc' op hop
  · rw [opsDepth_append, hdepth, funext hdepth']

theorem FinshCode.Adds.one (op : FinshOp) (hop : op.Encodable) :
    s.Adds (s.emit [op]) (depthBehind (op.takes, op.leaves)) :=
  ⟨[op], rfl, by simpa using hop, fun _ => rfl⟩

/-- An operator is written for a known width only. -/
theorem FinshCode.Adds.operator (op : FinshWidth → FinshOp) {v : Nat × Nat}
    (hop : ∀ w, (op w).Encodable ∧ ((op w).takes, (op w).leaves) = v) (o : Option FinshWidth) :
    s.Adds (s.emit (o.map op).toList) (depthBehind (if o.isSome then v else (0, 0))) := by
  cases o with
  | none => exact .nothing (List.append_nil _)
  | some w =>
    have h := FinshCode.Adds.one (s := s) (op w) (hop w).1
    rw [(hop w).2] at h
    exact h

theorem FinshCode.Adds.id (ref : FinshId) (address : Bool) :
    s.Adds (s.emit (idOps vars links ref address))
      (depthBehind (nodeValues vars (.id ref) 0 address none 0 0)) := by
  cases ref with
  | syscall func => exact .one (.ldDword func) trivial
  | var i =>
    simp only [idOps, nodeValues]
    cases (identifierType vars (.var i)).bind loadWidth with
    | none => exact .nothing (List.append_nil _)
    | some w =>
      cases address with
      | true => exact .one (.ldDword _) trivial
      | false => exact .one (.ldValue w _) trivial
  | sysvar type addr =>
    simp only [idOps, nodeValues]
    cases (identifierType vars (.sysvar type addr)).bind loadWidth with
    | none => exact .nothing (List.append_nil _)
    | some w =>
      cases address with
      | true => exact .one (.ldDword _) trivial
      | false => exact .one (.ldValue w _) trivial

theorem opsDepth_push {op : FinshOp} {ops : List FinshOp} (h : op.takes = 0 ∧ op.leaves = 1) (d : Nat) :
    opsDepth (op :: ops) d = opsDepth ops (d + 1) := by
  rw [opsDepth, h.1, h.2, if_pos (Nat.zero_le d), Nat.sub_zero]

theorem opsDepth_two {op : FinshOp} {ops : List FinshOp} (h : op.takes = 2 ∧ op.leaves = 1) (d : Nat) :
    opsDepth (op :: ops) (d + 2) = opsDepth ops (d + 1) := by
  rw [opsDepth, h.1, h.2, if_pos (Nat.le_add_left 2 d), Nat.add_sub_cancel]

theorem ldOne_pushes (w : FinshWidth) : (ldOne w).takes = 0 ∧ (ldOne w).leaves = 1 := by
  cases w with
  | byte => exact ⟨rfl, rfl⟩
  | word => exact ⟨rfl, rfl⟩
  | dword => exact ⟨rfl, rfl⟩

theorem ldOne_encodable (w : FinshWidth) : (ldOne w).Encodable := by
  cases w with
  | byte => exact trivial
  | word => exact trivial
  | dword => exact trivial

theorem preOps_depth (op : FinshBinary) (w : FinshWidth) (addr d : Nat) :
    opsDepth (preOps op w addr) d = depthBehind (1, 1) d := by
  unfold preOps
  rw [opsDepth_push ⟨rfl, rfl⟩, opsDepth_push (ldOne_pushes w), opsDepth_two ⟨rfl, rfl⟩]
  show (if 2 ≤ d + 1 then if 1 ≤ d + 1 - 2 + 1 then some (d + 1 - 2 + 1 - 1 + 1) else none else none) =
    if 1 ≤ d then some (d - 1 + 1) else none
  by_cases hd : 1 ≤ d
  · rw [if_pos hd, if_pos (by omega), if_pos (by omega)]
    rfl
  · rw [if_neg hd, if_neg (by omega)]

theorem postOps_depth (op : FinshBinary) (w : FinshWidth) (addr d : Nat) :
    opsDepth (postOps op w addr) d = depthBehind (0, 0) d := by
  unfold postOps
  rw [opsDepth_push ⟨rfl, rfl⟩, opsDepth_push ⟨rfl, rfl⟩, opsDepth_push (ldOne_pushes w),
    opsDepth_two ⟨rfl, rfl⟩, opsDepth_two ⟨rfl, rfl⟩]
  exact if_pos (Nat.le_add_left 1 d)

theorem preOps_encodable (op : FinshBinary) (w : FinshWidth) (addr : Nat) :
    ∀ o ∈ preOps op w addr, o.Encodable := by
  intro o ho
  simp only [preOps, List.mem_cons, List.not_mem_nil, or_false] at ho
  rcases ho with rfl | rfl | rfl | rfl | rfl
  · exact trivial
  · exact ldOne_encodable w
  · exact trivial
  · exact trivial
  · exact trivial

theorem postOps_encodable (op : FinshBinary) (w : FinshWidth) (addr : Nat) :
    ∀ o ∈ postOps op w addr, o.Encodable := by
  intro o ho
  simp only [postOps, List.mem_cons, List.not_mem_nil, or_false] at ho
  rcases ho with rfl | rfl | rfl | rfl | rfl | rfl
  · exact trivial
  · exact trivial
  · exact ldOne_encodable w
  · exact trivial
  · exact trivial
  · exact trivial

/-- An increment is written for an identifier of a known width only. -/
theorem FinshCode.Adds.increase {ops : FinshWidth → Nat → List FinshOp} {v : Nat × Nat}
    (henc : ∀ w addr, ∀ op ∈ ops w addr, op.Encodable)
    (hops : ∀ w addr d, opsDepth (ops w addr) d = depthBehind v d) (dataType : Nat)
    (child : FinshNode) :
    s.Adds (s.emit (increaseOps links ops dataType child))
      (depthBehind (increasedValues v dataType child.head)) := by
  cases child with
  | null => exact .nothing (List.append_nil _)
  | node type d a c sibling =>
    cases type with
    | id ref =>
      simp only [increaseOps, increasedValues, FinshNode.head]
      cases widthOf dataType with
      | none => exact .nothing (List.append_nil _)
      | some w => exact ⟨_, rfl, henc w _, hops w _⟩
    | _ => exact .nothing (List.append_nil _)

theorem increasedValues_zero (dataType : Nat) (head : Option FinshNodeType) :
    increasedValues (0, 0) dataType head = (0, 0) := by
  unfold increasedValues
  split
  · exact ite_self _
  · rfl

theorem FinshCode.Adds.store (o : Option FinshWidth) :
    s.Adds (storeCode o s) (depthBehind (if o.isSome then (2, 1) else (0, 0))) := by
  cases o with
  | none => exact .nothing rfl
  | some w =>
    refine ⟨[.st w, .ldValueStack w], rfl, ?_, fun d => ?_⟩
    · intro op hop
      simp only [List.mem_cons, List.not_mem_nil, or_false] at hop
      rcases hop with rfl | rfl
      · exact trivial
      · exact trivial
    · show (if 2 ≤ d then if 1 ≤ d - 2 + 1 then some (d - 2 + 1 - 1 + 1) else none else none) =
        if 2 ≤ d then some (d - 2 + 1) else none
      split
      · exact if_pos (Nat.le_add_left 1 _)
      · rfl

theorem FinshCode.Adds.assign (dataType : Nat) (address : Bool) (child : FinshNode) :
    s.Adds (assignCode child s) (depthBehind
      (nodeValues vars .assign dataType address child.head child.dataType child.siblings)) := by
  cases child with
  | null => exact .nothing rfl
  | node type d a c sibling =>
    cases type with
    | id ref => exact .store (widthOf d)
    | getvalue => exact .store (widthOf (d % 16))
    | _ => exact .nothing rfl

theorem FinshCode.Adds.node (type : FinshNodeType) (dataType : Nat) (address : Bool)
    (child : FinshNode) (hparams : child.siblings ≤ 256) :
    s.Adds (compileNode vars links type dataType address child s) (depthBehind
      (nodeValues vars type dataType address child.head child.dataType child.siblings)) := by
  cases type with
  | id ref =>
    have h := @FinshCode.Adds.id vars links s ref address
    cases ref with
    | syscall func => exact h
    | var i => exact h
    | sysvar t addr => exact h
  | valueChar c => exact .one (.ldByte c) trivial
  | valueInt v => exact .one (.ldDword v) trivial
  | valueLong v => exact .one (.ldDword v) trivial
  | valueNull => exact .one (.ldDword 0) trivial
  | valueString text => exact .one (.ldDword (links.stringAddr text)) trivial
  | func =>
    cases child with
    | null => exact .nothing rfl
    | node t d a c sibling =>
      have hsiblings : (FinshNode.node t d a c sibling).siblings = sibling.siblings + 1 := rfl
      exact .one (.syscall (sibling.siblings + 1 - 1)) (by show _ < 256; omega)
  | assign => exact .assign dataType address child
  | preinc => exact .increase (preOps_encodable .add) (preOps_depth .add) dataType child
  | predec => exact .increase (preOps_encodable .sub) (preOps_depth .sub) dataType child
  | inc =>
    have h := @FinshCode.Adds.increase links s _ _ (postOps_encodable .add) (postOps_depth .add) dataType
      child
    rw [increasedValues_zero] at h
    exact h
  | dec =>
    have h := @FinshCode.Adds.increase links s _ _ (postOps_encodable .sub) (postOps_depth .sub) dataType
      child
    rw [increasedValues_zero] at h
    exact h
  | getvalue =>
    cases address with
    | true => exact .nothing rfl
    | false => exact .operator .ldValueStack (fun _ => ⟨trivial, rfl⟩) (widthOf dataType)
  | getaddr => exact .nothing rfl
  | bitwise => exact .operator .bitwise (fun _ => ⟨trivial, rfl⟩) (widthOf dataType)
  | add => exact .operator (.binary .add) (fun _ => ⟨trivial, rfl⟩) (widthOf dataType)
  | sub => exact .operator (.binary .sub) (fun _ => ⟨trivial, rfl⟩) (widthOf dataType)
  | mul => exact .operator (.binary .mul) (fun _ => ⟨trivial, rfl⟩) (widthOf dataType)
  | div => exact .operator (.binary .div) (fun _ => ⟨trivial, rfl⟩) (widthOf dataType)
  | mod => exact .operator (.binary .mod) (fun _ => ⟨trivial, rfl⟩) (widthOf dataType)
  | and => exact .operator (.binary .and) (fun _ => ⟨trivial, rfl⟩) (widthOf dataType)
  | or => exact .operator (.binary .or) (fun _ => ⟨trivial, rfl⟩) (widthOf dataType)
  | xor => exact .operator (.binary .xor) (fun _ => ⟨trivial, rfl⟩) (widthOf dataType)
  | shl => exact .operator (.binary .shl) (fun _ => ⟨trivial, rfl⟩) (widthOf dataType)
  | shr => exact .operator (.binary .shr) (fun _ => ⟨trivial, rfl⟩) (widthOf dataType)

theorem finshTypeCheck_siblings (n : FinshNode) (isAddr : Bool) (err : FinshErr) :
    (finshTypeCheck vars n isAddr err).1.siblings = n.siblings := by
  induction n generalizing isAddr err with
  | null => rfl
  | node type dataType address child sibling _ ihs =>
    obtain ⟨err1, err2, hcheck⟩ := @finshTypeCheck_node vars type dataType address child sibling isAddr err
    rw [hcheck]
    exact congrArg (· + 1) (ihs false err2)

theorem siblings_le_count (n : FinshNode) : n.siblings ≤ n.count := by
  induction n with
  | null => exact Nat.le_refl 0
  | node type dataType address child sibling _ ihs =>
    simp only [FinshNode.siblings, FinshNode.count]
    omega

/-- A node whose child has been checked. -/
theorem FinshCode.Adds.checked (type : FinshNodeType) (dataType : Nat) (address isAddr : Bool)
    (child : FinshNode) (err : FinshErr) (hcount : child.count ≤ 256) :
    s.Adds (compileNode vars links type dataType address (finshTypeCheck vars child isAddr err).1 s)
      (depthBehind (nodeValues vars type dataType address child.head (exprType vars child)
        child.siblings)) := by
  have hparams := siblings_le_count child
  have hnode := @FinshCode.Adds.node vars links s type dataType address
    (finshTypeCheck vars child isAddr err).1 (by rw [finshTypeCheck_siblings]; omega)
  rwa [finshTypeCheck_siblings, finshTypeCheck_head, finshTypeCheck_dataType] at hnode

theorem finshCompile_adds (n : FinshNode) (isAddr : Bool) (err : FinshErr) (hcount : n.count ≤ 256) :
    s.Adds (finshCompile vars links (finshTypeCheck vars n isAddr err).1 s) (valuesBehind vars n isAddr) := by
  induction n generalizing isAddr err s with
  | null => exact ⟨[], (List.append_nil _).symm, by simp, fun _ => rfl⟩
  | node type dataType address child sibling ihc ihs =>
    simp only [FinshNode.count] at hcount
    obtain ⟨err1, err2, hcheck⟩ := @finshTypeCheck_node vars type dataType address child sibling isAddr err
    rw [hcheck]
    have hchild := @ihc s (childAddress type isAddr) err1 (by omega)
    exact hchild.trans ((FinshCode.Adds.checked type _ _ _ child err1 (by omega)).trans
      (ihs false err2 (by omega)))

/-- The code of a line: the codes of its statements with a pop between them. -/
def lineOps : List (List FinshOp) → List FinshOp
  | [] => []
  | c :: cs => c ++ cs.flatMap (FinshOp.pop :: ·)

/-- A tree as a statement of its own, and its code. -/
structure StatementCode (vars : FinshVars) (tree : FinshNode) (code : List FinshOp) : Prop where
  encodable : ∀ op ∈ code, op.Encodable
  depth : ∀ d, opsDepth code d = valuesBehind vars (tree.setSibling .null) false d
  bytes : (code.flatMap FinshOp.bytes).length = treeBytes vars (tree.setSibling .null) false

/-- A statement is compiled without its siblings. -/
theorem finshCompile_code (type : FinshNodeType) (dataType : Nat) (address : Bool)
    (child sibling : FinshNode) (err : FinshErr) (hcount : child.count ≤ 256) :
    ∃ code, StatementCode vars (.node type dataType address child sibling) code ∧
      (finshCompile vars links (.node type (exprType vars (.node type dataType address child sibling))
        (if isSyscall type && !address then address else address || false)
        (finshTypeCheck vars child (childAddress type false) err).1 .null) s).ops = s.ops ++ code := by
  have hchild := @finshCompile_adds vars links s child (childAddress type false) err hcount
  have hnode := @FinshCode.Adds.checked vars links
    (finshCompile vars links (finshTypeCheck vars child (childAddress type false) err).1 s) type
    (exprType vars (.node type dataType address child sibling))
    (if isSyscall type && !address then address else address || false) (childAddress type false)
    child err hcount
  obtain ⟨code, heq, henc, hdepth⟩ := hchild.trans hnode
  refine ⟨code, ⟨henc, fun d => ?_, ?_⟩, heq⟩
  · rw [hdepth]
    show _ = (valuesBehind vars child (childAddress type false) d).bind fun e =>
      (depthBehind _ e).bind some
    simp only [Option.bind_fun_some]
    rfl
  · have hbytes := @finshCompile_statement vars links type dataType address child sibling err s
    simp only [finshCompile] at hbytes
    unfold FinshCode.text at hbytes
    rw [heq, List.flatMap_append, List.length_append] at hbytes
    exact Nat.add_left_cancel hbytes

theorem chain_null {trees : List FinshNode} (htrees : ∀ tree ∈ trees, tree ≠ .null) :
    FinshNode.chain trees = .null ↔ trees = [] := by
  cases trees with
  | nil => exact ⟨fun _ => rfl, fun _ => rfl⟩
  | cons tree trees =>
    cases tree with
    | null => exact absurd rfl (htrees .null List.mem_cons_self)
    | node => exact ⟨fun h => absurd h FinshNode.noConfusion, fun h => absurd h (List.cons_ne_nil _ _)⟩

theorem compileStatements_codes {trees : List FinshNode} (htrees : ∀ tree ∈ trees, tree ≠ .null)
    (hcount : (FinshNode.chain trees).count ≤ 256) (err : FinshErr) :
    ∃ codes, List.Forall₂ (StatementCode vars) trees codes ∧
      (compileStatements vars links (finshTypeCheck vars (.chain trees) false err).1 s).ops =
        s.ops ++ lineOps codes := by
  induction trees generalizing s err with
  | nil => exact ⟨[], .nil, (List.append_nil _).symm⟩
  | cons tree trees ih =>
    have hrest : ∀ tree ∈ trees, tree ≠ .null := fun t ht => htrees t (List.mem_cons_of_mem tree ht)
    cases tree with
    | null => exact absurd rfl (htrees .null List.mem_cons_self)
    | node type dataType address child sibling =>
      have hchain : FinshNode.chain (.node type dataType address child sibling :: trees) =
        .node type dataType address child (.chain trees) := rfl
      rw [hchain] at hcount ⊢
      simp only [FinshNode.count] at hcount
      obtain ⟨err1, err2, hcheck⟩ :=
        @finshTypeCheck_node vars type dataType address child (.chain trees) false err
      obtain ⟨code, hcode, hfirst⟩ :=
        @finshCompile_code vars links s type dataType address child sibling err1 (by omega)
      rw [hcheck]
      simp only [compileStatements, finshTypeCheck_null, chain_null hrest]
      split
      next hnil =>
        subst hnil
        refine ⟨[code], .cons hcode .nil, ?_⟩
        rw [lineOps, List.flatMap_nil, List.append_nil]
        exact hfirst
      next hne =>
        obtain ⟨codes, hcodes, hlast⟩ := ih hrest (by omega) err2
        refine ⟨code :: codes, .cons hcode hcodes, ?_⟩
        rw [hlast]
        show (finshCompile vars links _ s).ops ++ [FinshOp.pop] ++ lineOps codes = _
        cases codes with
        | nil =>
          cases hcodes
          exact absurd rfl hne
        | cons second codes =>
          refine (congrArg (· ++ [FinshOp.pop] ++ lineOps (second :: codes)) hfirst).trans ?_
          simp only [lineOps, List.flatMap_cons, List.append_assoc, List.cons_append, List.nil_append]

end

end RTThread
