import RTThread.FinshCompilerModel
import RTThread.FinshLines

namespace RTThread

variable {vars : FinshVars} {links : FinshLinks}

def FinshNode.head : FinshNode → Option FinshNodeType
  | .null => none
  | .node type _ _ _ _ => some type

/-- The data type of an expression is that of its leftmost leaf. -/
def exprType (vars : FinshVars) : FinshNode → Nat
  | .null => 0
  | .node type dataType _ child _ =>
    if child = .null then (leafDataType vars type dataType .ok).1 else exprType vars child

/-- The bytes of an increment of an identifier by the width of its variable. -/
def increaseBytes (short : Nat) : Option FinshWidth → Nat
  | some .byte => short
  | some .word => short + 1
  | some .dword => short + 3
  | none => 0

def increasedBytes (short dataType : Nat) : Option FinshNodeType → Nat
  | some (.id _) => increaseBytes short (widthOf dataType)
  | _ => 0

/-- What a node adds to the text segment; `head` is the kind of its first child. -/
def nodeBytes (vars : FinshVars) (type : FinshNodeType) (dataType : Nat) (address : Bool)
    (head : Option FinshNodeType) (headType : Nat) : Nat :=
  match type with
  | .id (.syscall _) => 5
  | .id ref => if ((identifierType vars ref).bind loadWidth).isSome then 5 else 0
  | .valueChar _ => 2
  | .valueInt _ | .valueLong _ | .valueString _ | .valueNull => 5
  | .func => if head = none then 0 else 2
  | .assign =>
    match head with
    | some (.id _) => if (widthOf headType).isSome then 2 else 0
    | some .getvalue => if (widthOf (headType % 16)).isSome then 2 else 0
    | _ => 0
  | .preinc | .predec => increasedBytes 10 dataType head
  | .inc | .dec => increasedBytes 15 dataType head
  | .getvalue => if address = false ∧ (widthOf dataType).isSome then 1 else 0
  | .getaddr => 0
  | _ => if (widthOf dataType).isSome then 1 else 0

/-- The bytes of a tree and its siblings, whose first node stands where an address is wanted or not. -/
def treeBytes (vars : FinshVars) : FinshNode → Bool → Nat
  | .null, _ => 0
  | .node type dataType address child sibling, isAddr =>
    treeBytes vars child (childAddress type isAddr) +
      nodeBytes vars type (exprType vars (.node type dataType address child sibling))
        (if isSyscall type && !address then address else address || isAddr) child.head
        (exprType vars child) +
      treeBytes vars sibling false

/-- The bytes of the statements of a line, with the pops between them. -/
def lineBytes (vars : FinshVars) : FinshNode → Nat
  | .null => 0
  | .node type dataType address child sibling =>
    treeBytes vars (.node type dataType address child .null) false +
      if sibling = .null then 0 else 1 + lineBytes vars sibling

theorem FinshCode.emit_text (s : FinshCode) (ops : List FinshOp) :
    (s.emit ops).text.length = s.text.length + (ops.flatMap FinshOp.bytes).length := by
  unfold FinshCode.text FinshCode.emit
  rw [List.flatMap_append, List.length_append]

theorem leafDataType_fst (type : FinshNodeType) (dataType : Nat) (err err' : FinshErr) :
    (leafDataType vars type dataType err).1 = (leafDataType vars type dataType err').1 := by
  cases type with
  | id ref =>
    unfold leafDataType
    simp only
    cases identifierType vars ref with
    | none => rfl
    | some t =>
      simp only
      cases dataTypeOf t with
      | none => rfl
      | some d => rfl
  | _ => rfl

theorem finshTypeCheck_null (n : FinshNode) (isAddr : Bool) (err : FinshErr) :
    (finshTypeCheck vars n isAddr err).1 = .null ↔ n = .null := by
  cases n with
  | null => exact ⟨fun _ => rfl, fun _ => rfl⟩
  | node type dataType address child sibling =>
    constructor
    · intro h
      unfold finshTypeCheck at h
      simp only at h
      split at h
      · exact absurd h FinshNode.noConfusion
      · exact absurd h FinshNode.noConfusion
    · intro h
      exact absurd h FinshNode.noConfusion

theorem finshTypeCheck_dataType (n : FinshNode) (isAddr : Bool) (err : FinshErr) :
    (finshTypeCheck vars n isAddr err).1.dataType = exprType vars n := by
  induction n generalizing isAddr err with
  | null => rfl
  | node type dataType address child sibling ihc _ =>
    unfold finshTypeCheck exprType
    simp only [ne_eq, finshTypeCheck_null]
    by_cases hc : child = .null
    · rw [if_neg (not_not_intro hc), if_pos hc]
      exact leafDataType_fst _ _ _ _
    · rw [if_pos hc, if_neg hc]
      exact ihc _ _

theorem finshTypeCheck_node (type : FinshNodeType) (dataType : Nat) (address : Bool)
    (child sibling : FinshNode) (isAddr : Bool) (err : FinshErr) :
    ∃ err1 err2, (finshTypeCheck vars (.node type dataType address child sibling) isAddr err).1 =
      .node type (exprType vars (.node type dataType address child sibling))
        (if isSyscall type && !address then address else address || isAddr)
        (finshTypeCheck vars child (childAddress type isAddr) err1).1
        (finshTypeCheck vars sibling false err2).1 := by
  refine ⟨err, (finshTypeCheck vars child (childAddress type isAddr) err).2, ?_⟩
  rw [← finshTypeCheck_dataType (.node type dataType address child sibling) isAddr err]
  rw [finshTypeCheck]
  split
  · rfl
  · rfl

theorem finshTypeCheck_head (n : FinshNode) (isAddr : Bool) (err : FinshErr) :
    (finshTypeCheck vars n isAddr err).1.head = n.head := by
  cases n with
  | null => rfl
  | node type dataType address child sibling =>
    obtain ⟨err1, err2, h⟩ := @finshTypeCheck_node vars type dataType address child sibling isAddr err
    rw [h]
    rfl

theorem head_none (n : FinshNode) : n.head = none ↔ n = .null := by
  cases n with
  | null => exact ⟨fun _ => rfl, fun _ => rfl⟩
  | node => exact ⟨fun h => absurd h (by simp [FinshNode.head]), fun h => absurd h FinshNode.noConfusion⟩

theorem idOps_length (ref : FinshId) (address : Bool) :
    ((idOps vars links ref address).flatMap FinshOp.bytes).length =
      nodeBytes vars (.id ref) 0 address none 0 := by
  cases ref with
  | syscall func => rfl
  | var i =>
    simp only [idOps, nodeBytes]
    cases (identifierType vars (.var i)).bind loadWidth with
    | none => rfl
    | some w =>
      cases address with
      | true => rfl
      | false => rfl
  | sysvar type addr =>
    simp only [idOps, nodeBytes]
    cases (identifierType vars (.sysvar type addr)).bind loadWidth with
    | none => rfl
    | some w =>
      cases address with
      | true => rfl
      | false => rfl

theorem increaseOps_length {ops : FinshWidth → Nat → List FinshOp} {short : Nat}
    (hops : ∀ w addr, ((ops w addr).flatMap FinshOp.bytes).length = increaseBytes short (some w))
    (dataType : Nat) (child : FinshNode) :
    ((increaseOps links ops dataType child).flatMap FinshOp.bytes).length =
      increasedBytes short dataType child.head := by
  cases child with
  | null => rfl
  | node type d address child sibling =>
    cases type with
    | id ref =>
      simp only [increaseOps, increasedBytes, FinshNode.head]
      cases widthOf dataType with
      | none => rfl
      | some w => exact hops w _
    | _ => rfl

theorem preOps_length (op : FinshBinary) (w : FinshWidth) (addr : Nat) :
    ((preOps op w addr).flatMap FinshOp.bytes).length = increaseBytes 10 (some w) := by
  cases w with
  | byte => rfl
  | word => rfl
  | dword => rfl

theorem postOps_length (op : FinshBinary) (w : FinshWidth) (addr : Nat) :
    ((postOps op w addr).flatMap FinshOp.bytes).length = increaseBytes 15 (some w) := by
  cases w with
  | byte => rfl
  | word => rfl
  | dword => rfl

theorem storeCode_length (o : Option FinshWidth) (s : FinshCode) :
    (storeCode o s).text.length = s.text.length + if o.isSome then 2 else 0 := by
  cases o with
  | none => rfl
  | some w => exact s.emit_text [.st w, .ldValueStack w]

theorem assignCode_length (dataType : Nat) (address : Bool) (child : FinshNode) (s : FinshCode) :
    (assignCode child s).text.length =
      s.text.length + nodeBytes vars .assign dataType address child.head child.dataType := by
  cases child with
  | null => rfl
  | node type d a child sibling =>
    cases type with
    | id ref => exact storeCode_length (widthOf d) s
    | getvalue => exact storeCode_length (widthOf (d % 16)) s
    | _ => rfl

theorem operator_length {op : FinshWidth → FinshOp} (hop : ∀ w, (op w).bytes.length = 1) (dataType : Nat)
    (s : FinshCode) :
    (s.emit ((widthOf dataType).map op).toList).text.length =
      s.text.length + if (widthOf dataType).isSome then 1 else 0 := by
  rw [s.emit_text]
  cases widthOf dataType with
  | none => rfl
  | some w =>
    show s.text.length + ((op w).bytes ++ []).length = _
    rw [List.append_nil, hop]
    rfl

theorem compileNode_length (type : FinshNodeType) (dataType : Nat) (address : Bool) (child : FinshNode)
    (s : FinshCode) :
    (compileNode vars links type dataType address child s).text.length =
      s.text.length + nodeBytes vars type dataType address child.head child.dataType := by
  cases type with
  | id ref =>
    show (s.emit _).text.length = _
    rw [s.emit_text, idOps_length]
    cases ref with
    | syscall func => rfl
    | var i => rfl
    | sysvar type addr => rfl
  | valueChar c => exact s.emit_text [.ldByte c]
  | valueInt v => exact s.emit_text [.ldDword v]
  | valueLong v => exact s.emit_text [.ldDword v]
  | valueNull => exact s.emit_text [.ldDword 0]
  | valueString text => exact s.emit_text [.ldDword (links.stringAddr text)]
  | func =>
    simp only [compileNode, nodeBytes, head_none]
    split
    · rfl
    · exact s.emit_text [.syscall (child.siblings - 1)]
  | assign => exact assignCode_length dataType address child s
  | preinc =>
    show (s.emit _).text.length = _
    rw [s.emit_text, increaseOps_length (preOps_length .add)]
    rfl
  | predec =>
    show (s.emit _).text.length = _
    rw [s.emit_text, increaseOps_length (preOps_length .sub)]
    rfl
  | inc =>
    show (s.emit _).text.length = _
    rw [s.emit_text, increaseOps_length (postOps_length .add)]
    rfl
  | dec =>
    show (s.emit _).text.length = _
    rw [s.emit_text, increaseOps_length (postOps_length .sub)]
    rfl
  | getvalue =>
    cases address with
    | true => rfl
    | false =>
      show (s.emit _).text.length = _
      rw [operator_length fun _ => rfl]
      simp [nodeBytes]
  | getaddr => rfl
  | _ => exact operator_length (fun _ => rfl) dataType s

theorem finshCompile_length (n : FinshNode) (isAddr : Bool) (err : FinshErr) (s : FinshCode) :
    (finshCompile vars links (finshTypeCheck vars n isAddr err).1 s).text.length =
      s.text.length + treeBytes vars n isAddr := by
  induction n generalizing isAddr err s with
  | null => rfl
  | node type dataType address child sibling ihc ihs =>
    obtain ⟨err1, err2, hcheck⟩ := @finshTypeCheck_node vars type dataType address child sibling isAddr err
    rw [hcheck]
    simp only [finshCompile, treeBytes]
    rw [ihs, compileNode_length, ihc, finshTypeCheck_head, finshTypeCheck_dataType]
    omega

/-- A statement is compiled without its siblings. -/
theorem finshCompile_statement (type : FinshNodeType) (dataType : Nat) (address : Bool)
    (child sibling : FinshNode) (err : FinshErr) (s : FinshCode) :
    (finshCompile vars links (.node type (exprType vars (.node type dataType address child sibling))
        (if isSyscall type && !address then address else address || false)
        (finshTypeCheck vars child (childAddress type false) err).1 .null) s).text.length =
      s.text.length + treeBytes vars (.node type dataType address child .null) false := by
  simp only [finshCompile, treeBytes]
  rw [compileNode_length, finshCompile_length, finshTypeCheck_head, finshTypeCheck_dataType]
  simp only [exprType]
  omega

theorem compileStatements_length (n : FinshNode) (err : FinshErr) (s : FinshCode) :
    (compileStatements vars links (finshTypeCheck vars n false err).1 s).text.length =
      s.text.length + lineBytes vars n := by
  induction n generalizing err s with
  | null => rfl
  | node type dataType address child sibling _ ihs =>
    obtain ⟨err1, err2, hcheck⟩ := @finshTypeCheck_node vars type dataType address child sibling false err
    have hfirst := @finshCompile_statement vars links type dataType address child sibling err1 s
    rw [hcheck]
    simp only [compileStatements, lineBytes, finshTypeCheck_null]
    split
    · exact hfirst
    · rw [ihs, FinshCode.emit_text, hfirst]
      show _ + 1 + _ = _
      omega

theorem finshCompilerRun_length (trees : List FinshNode) (err : FinshErr) :
    (finshCompilerRun vars links trees err).text.length = lineBytes vars (.chain trees) := by
  unfold finshCompilerRun
  rw [compileStatements_length]
  exact Nat.zero_add _

/-- The code fits into the text segment, or an error is set and nothing is written past the segment. -/
def TextSafe (code : FinshCode) : Prop :=
  code.text.length ≤ finshTextMax ∨
    code.errno ≠ .ok ∧ ∀ i, finshTextMax ≤ i → code.text[i]? = none

/-- No emission looks at the end of the segment. -/
theorem finshCompilerRun_safe_iff (trees : List FinshNode) (err : FinshErr) :
    TextSafe (finshCompilerRun vars links trees err) ↔ lineBytes vars (.chain trees) ≤ finshTextMax := by
  unfold TextSafe
  rw [finshCompilerRun_length]
  constructor
  · rintro (h | ⟨-, h⟩)
    · exact h
    · have hlen := List.getElem?_eq_none_iff.mp (h finshTextMax (Nat.le_refl _))
      rwa [finshCompilerRun_length] at hlen
  · exact .inl

/-- Six times `x++;` for an `int` are twelve nodes, and their code is 143 bytes long. -/
theorem six_increments_overflow :
    ((finshParserRun noSymbols [⟨[120], .int, 0⟩]
        (List.replicate 6 [.identifier [120], .inc, .semicolon]).flatten).map
      fun r => (r.2.errno, r.2.nodes, r.1.trees)) =
        some (.ok, 12, List.replicate 6 (sysNode .inc (.leaf (.id (.var 0))) [])) ∧
      ¬TextSafe (finshCompilerRun [⟨[120], .int, 0⟩] ⟨fun _ => 4096, fun _ => 0⟩
        (List.replicate 6 (sysNode .inc (.leaf (.id (.var 0))) [])) .ok) := by
  refine ⟨by decide +kernel, ?_⟩
  rintro (h | ⟨h, -⟩)
  · exact absurd h (by decide +kernel)
  · exact absurd h (by decide +kernel)

end RTThread
