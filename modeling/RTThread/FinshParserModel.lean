import RTThread.FinshTokens

namespace RTThread

/-- A procedure of the parser; `none` is a call that has not ended when its fuel is spent. -/
abbrev FinshProc (α : Type) := FinshParser → Option (α × FinshParser)

def isBaseType : FinshToken → Bool
  | .typeVoid | .typeChar | .typeShort | .typeInt | .typeLong => true
  | _ => false

/-- The type a basic type names, plain and after `unsigned`. -/
def baseType : FinshToken → Option FinshType
  | .typeVoid => some .void
  | .typeChar => some .char
  | .typeShort => some .short
  | .typeInt => some .int
  | .typeLong => some .long
  | _ => none

def unsignedType : FinshToken → Option FinshType
  | .typeChar => some .uchar
  | .typeShort => some .ushort
  | .typeInt => some .uint
  | .typeLong => some .ulong
  | _ => none

def pointerType : FinshType → FinshType
  | .void => .voidp
  | .char | .uchar => .charp
  | .short | .ushort => .shortp
  | .int | .uint => .intp
  | .long | .ulong => .longp
  | _ => .voidp

/-- The end of `proc_type`: `parse for pointer`. -/
def procPointer (type : FinshType) (s : FinshParser) : FinshType × FinshParser :=
  let (token, s) := s.nextToken
  if token = .mul then (pointerType type, s) else (type, s.replayToken)

def procType (s : FinshParser) : FinshType × FinshParser :=
  let (token, s) := s.nextToken
  match baseType token with
  | some type => procPointer type s
  | none =>
    if token = .typeUnsigned then
      let (token, s) := s.nextToken
      if isBaseType token then
        match unsignedType token with
        | some type => procPointer type s
        | none => (.unknown, s.replayToken.errorSet .unknownType)
      else procPointer .unknown (s.replayToken.errorSet .expectType)
    else (.unknown, s.replayToken.errorSet .unknownType)

def isIdentifier : FinshToken → Bool
  | .identifier _ => true
  | _ => false

def procIdentifier (s : FinshParser) : List UInt8 × FinshParser :=
  let s := s.matchToken isIdentifier
  (s.string.take finshNameMax, s)

section
variable (S : FinshSymbols) (assign : FinshProc FinshNode)

/-- The `while` loop of `proc_param_list`, whose answer is the list of the parameters. -/
def paramLoop : Nat → FinshToken → List FinshNode → FinshProc (List FinshNode)
  | 0, _, _, _ => none
  | fuel + 1, token, nodes, s =>
    if token = .comma then do
      let (node, s) ← assign s
      let s := if node = .null then s.errorSet .expectOperator else s
      let (token, s) := s.nextToken
      paramLoop fuel token (nodes ++ node.toList) s
    else some (nodes, s.replayToken)

def procParamList (fuel : Nat) : FinshProc (List FinshNode) := fun s => do
  let (node, s) ← assign s
  if node = .null then some ([], s)
  else
    let (token, s) := s.nextToken
    paramLoop assign fuel token [node] s

def procPrimaryExpr : FinshProc FinshNode := fun s =>
  let (token, s) := s.nextToken
  match token with
  | .identifier _ =>
    let (id, s) := procIdentifier s.replayToken
    some (s.nodeNewId S id)
  | .leftParen => do
    let (expr, s) ← assign s
    some (expr, s.matchToken (· = .rightParen))
  | .valueInt i => some (s.nodeNewValue (.valueInt i))
  | .valueLong l => some (s.nodeNewValue (.valueLong l))
  | .valueChar c => some (s.nodeNewValue (.valueChar c))
  | .valueString text => some (s.nodeNewValue (.valueString text))
  | .valueNull => some (s.nodeNewValue .valueNull)
  | _ => some (.null, s.errorSet .invalidToken)

/-- The parameters of a call, from the token behind the left parenthesis. -/
def procCall (fuel : Nat) : FinshProc (List FinshNode) := fun s =>
  let (token, s) := s.nextToken
  if token = .rightParen then some ([], s)
  else do
    let (params, s) ← procParamList assign fuel s.replayToken
    some (params, s.matchToken (· = .rightParen))

/-- The `while` loop of `proc_postfix_expr`. -/
def postfixLoop : Nat → FinshToken → FinshNode → FinshProc FinshNode
  | 0, _, _, _ => none
  | fuel + 1, token, post, s =>
    if token = .inc then
      let (post, s) := s.makeSysNode .inc post []
      let (token, s) := s.nextToken
      postfixLoop fuel token post s
    else if token = .dec then
      let (post, s) := s.makeSysNode .dec post []
      let (token, s) := s.nextToken
      postfixLoop fuel token post s
    else if token = .leftParen then do
      let (params, s) ← procCall assign fuel s
      let (post, s) := s.makeSysNode .func post params
      let (token, s) := s.nextToken
      postfixLoop fuel token post s
    else some (post, s.replayToken)

def procPostfixExpr (fuel : Nat) : FinshProc FinshNode := fun s => do
  let (post, s) ← procPrimaryExpr S assign s
  let (token, s) := s.nextToken
  postfixLoop assign fuel token post s

/-- The operators of `expr_unary` that have a node of their own with one child. -/
def unaryOp : FinshToken → Option FinshNodeType
  | .inc => some .preinc
  | .dec => some .predec
  | .bitwise => some .bitwise
  | .mul => some .getvalue
  | .and => some .getaddr
  | _ => none

def procUnaryExpr (cast : FinshProc FinshNode) (fuel : Nat) : FinshProc FinshNode := fun s =>
  let (token, s) := s.nextToken
  if token = .add then cast s
  else if token = .sub then do
    let (node, s) ← cast s
    let (zero, s) := s.nodeNewValue (.valueLong 0)
    some (s.makeSysNode .sub zero node.toList)
  else
    match unaryOp token with
    | some type => do
      let (node, s) ← cast s
      some (s.makeSysNode type node [])
    | none => procPostfixExpr S assign fuel s.replayToken

/-- What `cast->data_type = type` stores. -/
def FinshType.code (type : FinshType) : Nat := type.ctorIdx

def procCastExpr : Nat → FinshProc FinshNode
  | 0, _ => none
  | fuel + 1, s =>
    let (token, s) := s.nextToken
    if token = .leftParen then do
      let (type, s) := procType s
      let s := s.matchToken (· = .rightParen)
      let (cast, s) ← procCastExpr fuel s
      if cast ≠ .null then some (cast.setDataType type.code, s)
      else procUnaryExpr S assign (procCastExpr fuel) fuel s.replayToken
    else procUnaryExpr S assign (procCastExpr fuel) fuel s.replayToken

/-- The `while` loop of the six procedures of binary operators, which differ in the operand and
in the operators `op` they turn into nodes. -/
def binaryLoop (operand : FinshProc FinshNode) (op : FinshToken → Option FinshNodeType) :
    Nat → FinshToken → FinshNode → FinshProc FinshNode
  | 0, _, _, _ => none
  | fuel + 1, token, left, s =>
    match op token with
    | some type => do
      let (right, s) ← operand s
      let (left, s) := if right = .null then (left, s.errorSet .expectOperator)
        else s.makeSysNode type left [right]
      let (token, s) := s.nextToken
      binaryLoop operand op fuel token left s
    | none => some (left, s.replayToken)

def procBinary (operand : FinshProc FinshNode) (op : FinshToken → Option FinshNodeType)
    (fuel : Nat) : FinshProc FinshNode := fun s => do
  let (left, s) ← operand s
  let (token, s) := s.nextToken
  binaryLoop operand op fuel token left s

def multiplicativeOp : FinshToken → Option FinshNodeType
  | .mul => some .mul
  | .div => some .div
  | .mod => some .mod
  | _ => none

def additiveOp : FinshToken → Option FinshNodeType
  | .sub => some .sub
  | .add => some .add
  | _ => none

def shiftOp : FinshToken → Option FinshNodeType
  | .shl => some .shl
  | .shr => some .shr
  | _ => none

def andOp : FinshToken → Option FinshNodeType
  | .and => some .and
  | _ => none

def exclusiveOrOp : FinshToken → Option FinshNodeType
  | .xor => some .xor
  | _ => none

def inclusiveOrOp : FinshToken → Option FinshNodeType
  | .or => some .or
  | _ => none

def procMultiplicativeExpr (fuel : Nat) : FinshProc FinshNode :=
  procBinary (procCastExpr S assign fuel) multiplicativeOp fuel

def procAdditiveExpr (fuel : Nat) : FinshProc FinshNode :=
  procBinary (procMultiplicativeExpr S assign fuel) additiveOp fuel

def procShiftExpr (fuel : Nat) : FinshProc FinshNode :=
  procBinary (procAdditiveExpr S assign fuel) shiftOp fuel

def procAndExpr (fuel : Nat) : FinshProc FinshNode :=
  procBinary (procShiftExpr S assign fuel) andOp fuel

def procExclusiveOrExpr (fuel : Nat) : FinshProc FinshNode :=
  procBinary (procAndExpr S assign fuel) exclusiveOrOp fuel

def procInclusiveOrExpr (fuel : Nat) : FinshProc FinshNode :=
  procBinary (procExclusiveOrExpr S assign fuel) inclusiveOrOp fuel

end

section
variable (S : FinshSymbols)

def procAssignExpr : Nat → FinshProc FinshNode
  | 0, _ => none
  | fuel + 1, s => do
    let (or, s) ← procInclusiveOrExpr S (procAssignExpr fuel) fuel s
    let (token, s) := s.nextToken
    if token = .assign then
      let (assign, s) ← procAssignExpr fuel s
      some (s.makeSysNode .assign or assign.toList)
    else some (or, s.replayToken)

def procExprStatement (fuel : Nat) : FinshProc FinshNode := fun s =>
  let (token, s) := s.nextToken
  if token = .semicolon then some (.null, s)
  else do
    let (expr, s) ← procAssignExpr S fuel s.replayToken
    some (expr, s.matchToken (· = .semicolon))

/-- `process id`: the name and the entry in `global_variable`. -/
def declareId (type : FinshType) (s : FinshParser) : List UInt8 × FinshParser :=
  let (id, s) := procIdentifier s
  match finshVarInsert s.vars id type with
  | some vars => (id, { s with vars := vars })
  | none => (id, s.errorSet .variableExist)

/-- A declarator from the token behind its identifier on; the answer is the token behind it and the
assignments made so far. -/
def procInitialiser (fuel : Nat) (id : List UInt8) (token : FinshToken) (nodes : List FinshNode) :
    FinshProc (FinshToken × List FinshNode) := fun s =>
  if token = .assign then do
    let (assign, s) ← procAssignExpr S fuel s
    if assign = .null then some ((token, nodes), s)
    else
      let (idnode, s) := s.nodeNewId S id
      let (node, s) := s.makeSysNode .assign idnode [assign]
      let (token, s) := s.nextToken
      some ((token, nodes ++ node.toList), s)
  else some ((token, nodes), s)

/-- The declarators that follow a comma. -/
def declaratorLoop (fuel : Nat) (type : FinshType) : Nat → FinshToken → List FinshNode →
    FinshProc (FinshToken × List FinshNode)
  | 0, _, _, _ => none
  | turns + 1, token, nodes, s =>
    if token = .comma then do
      let (id, s) := declareId type s
      let (token, s) := s.nextToken
      let ((token, nodes), s) ← procInitialiser S fuel id token nodes s
      declaratorLoop fuel type turns token nodes s
    else some ((token, nodes), s)

def procVariableDecl (fuel : Nat) : FinshProc (List FinshNode) := fun s => do
  let (type, s) := procType s
  let (id, s) := declareId type s
  let (token, s) := s.nextToken
  if token = .comma ∨ token = .assign then
    let ((token, nodes), s) ← procInitialiser S fuel id token [] s
    let ((token, nodes), s) ← declaratorLoop S fuel type fuel token nodes s
    some (nodes, s.checkToken token (· = .semicolon))
  else if token = .semicolon then some ([], s)
  else some ([], s.errorSet .expectType)

/-- The list at `parser->root`, and the place in it of the local variable `node`. -/
structure FinshRoot where
  trees : List FinshNode
  last : Nat
deriving DecidableEq, Repr

/-- `finsh_node_sibling(node) = …`, or the first root; what followed `node` is dropped. -/
def FinshRoot.attach (root : FinshRoot) (nodes : List FinshNode) : FinshRoot :=
  if root.trees = [] then ⟨nodes, 0⟩
  else ⟨root.trees.take (root.last + 1) ++ nodes, if nodes = [] then root.last else root.last + 1⟩

def isDeclaration (token : FinshToken) : Bool := isBaseType token || token == .typeUnsigned

/-- The body of the loop in `finsh_parser_run`. -/
def parserTurn (fuel : Nat) (token : FinshToken) (root : FinshRoot) : FinshProc FinshRoot := fun s =>
  if isDeclaration token then do
    let (nodes, s) ← procVariableDecl S fuel s.replayToken
    some (root.attach nodes, s)
  else do
    let (node, s) ← procExprStatement S fuel s.replayToken
    -- only this branch of the source reads a token when an old root gets no new statement
    let skips := isIdentifier token = false ∧ root.trees ≠ [] ∧ node = .null
    some (root.attach node.toList, if skips then s.nextToken.2 else s)

def parserLoop (fuel : Nat) : Nat → FinshToken → FinshRoot → FinshProc FinshRoot
  | 0, _, _, _ => none
  | turns + 1, token, root, s =>
    if token = .eof ∨ token = .bad then some (root, s)
    else do
      let (root, s) ← parserTurn S fuel token root s
      if root.trees = [] then some (root, s)
      else
        let (token, s) := s.nextToken
        parserLoop fuel turns token root s

/-- The parser at the beginning of a line. -/
def finshParserInit (vars : FinshVars) (line : List FinshToken) : FinshParser :=
  ⟨line, .eof, [], false, .ok, vars, 0⟩

/-- `finsh_parser_run`, with more fuel than there are tokens. -/
def finshParserRun (vars : FinshVars) (line : List FinshToken) : Option (FinshRoot × FinshParser) :=
  let (token, s) := (finshParserInit vars line).nextToken
  parserLoop S (line.length + 4) (line.length + 4) token ⟨[], 0⟩ s

end

end RTThread
