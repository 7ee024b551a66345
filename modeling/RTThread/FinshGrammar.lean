import RTThread.FinshParserModel

namespace RTThread

/-- Expressions as the grammar of the parser derives them. `unary` is a prefix operator with a node
of its own, or a postfix `++` or `--`; `binary` is a binary operator or an assignment. -/
inductive FinshExpr where
  | id (name : List UInt8)
  | value (type : FinshNodeType)
  | paren (e : FinshExpr)
  | unary (type : FinshNodeType) (e : FinshExpr)
  | plus (e : FinshExpr)
  | minus (e : FinshExpr)
  | cast (type : FinshType) (e : FinshExpr)
  | binary (type : FinshNodeType) (a b : FinshExpr)
  | call (f : FinshExpr) (args : List FinshExpr)

/-- The node that `make_sys_node` builds. -/
def sysNode (type : FinshNodeType) (node1 : FinshNode) (node2 : List FinshNode) : FinshNode :=
  .node type 0 false (node1.setSibling (.chain node2)) .null

section
variable (lookup : List UInt8 → Option FinshId)

mutual

/-- The tree of an expression, if its identifiers are known. -/
def FinshExpr.tree : FinshExpr → Option FinshNode
  | .id name => (lookup (name.take finshNameMax)).map fun ref => .leaf (.id ref)
  | .value type => some (.leaf type)
  | .paren e => e.tree
  | .unary type e => e.tree.map fun n => sysNode type n []
  | .plus e => e.tree
  | .minus e => e.tree.map fun n => sysNode .sub (.leaf (.valueLong 0)) [n]
  | .cast type e => e.tree.map fun n => n.setDataType type.code
  | .binary type a b => a.tree.bind fun n1 => b.tree.map fun n2 => sysNode type n1 [n2]
  | .call f args => f.tree.bind fun n => (FinshExpr.trees args).map fun ns => sysNode .func n ns

def FinshExpr.trees : List FinshExpr → Option (List FinshNode)
  | [] => some []
  | e :: es => e.tree.bind fun n => (FinshExpr.trees es).map fun ns => n :: ns

end

end

/-- The six levels of binary operators. -/
inductive BinaryLevel where
  | multiplicative
  | additive
  | shift
  | and
  | exclusiveOr
  | inclusiveOr
deriving DecidableEq, Repr

inductive FinshLevel where
  | primary
  | postfixExpr
  | unary
  | cast
  | binary (b : BinaryLevel)
  | assign
  | params
deriving DecidableEq, Repr

def BinaryLevel.inner : BinaryLevel → FinshLevel
  | .multiplicative => .cast
  | .additive => .binary .multiplicative
  | .shift => .binary .additive
  | .and => .binary .shift
  | .exclusiveOr => .binary .and
  | .inclusiveOr => .binary .exclusiveOr

def BinaryLevel.op : BinaryLevel → FinshToken → Option FinshNodeType
  | .multiplicative => multiplicativeOp
  | .additive => additiveOp
  | .shift => shiftOp
  | .and => andOp
  | .exclusiveOr => exclusiveOrOp
  | .inclusiveOr => inclusiveOrOp

/-- The literals. -/
def valueNode : FinshToken → Option FinshNodeType
  | .valueInt i => some (.valueInt i)
  | .valueLong l => some (.valueLong l)
  | .valueChar c => some (.valueChar c)
  | .valueString text => some (.valueString text)
  | .valueNull => some .valueNull
  | _ => none

/-- The grammar in the comments of the parser, over a choice of types. The expressions of a
parameter list are a list, those of every other level a single one. -/
inductive Derives (T : List FinshToken → FinshType → Prop) :
    FinshLevel → List FinshToken → List FinshExpr → Prop where
  | identifier (name) : Derives T .primary [.identifier name] [.id name]
  | value {t type} (h : valueNode t = some type) : Derives T .primary [t] [.value type]
  | paren {ts e} (h : Derives T .assign ts [e]) :
    Derives T .primary (.leftParen :: (ts ++ [.rightParen])) [.paren e]
  | postfixExpr {ts e} (h : Derives T .primary ts [e]) : Derives T .postfixExpr ts [e]
  | inc {ts e} (h : Derives T .postfixExpr ts [e]) : Derives T .postfixExpr (ts ++ [.inc]) [.unary .inc e]
  | dec {ts e} (h : Derives T .postfixExpr ts [e]) : Derives T .postfixExpr (ts ++ [.dec]) [.unary .dec e]
  | call {ts us f args} (hf : Derives T .postfixExpr ts [f]) (ha : Derives T .params us args) :
    Derives T .postfixExpr (ts ++ .leftParen :: (us ++ [.rightParen])) [.call f args]
  | unary {ts e} (h : Derives T .postfixExpr ts [e]) : Derives T .unary ts [e]
  | plus {ts e} (h : Derives T .cast ts [e]) : Derives T .unary (.add :: ts) [.plus e]
  | minus {ts e} (h : Derives T .cast ts [e]) : Derives T .unary (.sub :: ts) [.minus e]
  | operator {t type ts e} (ht : unaryOp t = some type) (h : Derives T .cast ts [e]) :
    Derives T .unary (t :: ts) [.unary type e]
  | cast {ts e} (h : Derives T .unary ts [e]) : Derives T .cast ts [e]
  | castType {us type ts e} (hu : T us type) (h : Derives T .cast ts [e]) :
    Derives T .cast (.leftParen :: (us ++ .rightParen :: ts)) [.cast type e]
  | inner {b ts e} (h : Derives T (BinaryLevel.inner b) ts [e]) : Derives T (.binary b) ts [e]
  | binary {b t type ts us e1 e2} (h1 : Derives T (.binary b) ts [e1])
    (ht : BinaryLevel.op b t = some type) (h2 : Derives T (BinaryLevel.inner b) us [e2]) :
    Derives T (.binary b) (ts ++ t :: us) [.binary type e1 e2]
  | expr {ts e} (h : Derives T (.binary .inclusiveOr) ts [e]) : Derives T .assign ts [e]
  | assign {ts us e1 e2} (h1 : Derives T .unary ts [e1]) (h2 : Derives T .assign us [e2]) :
    Derives T .assign (ts ++ .assign :: us) [.binary .assign e1 e2]
  | noParams : Derives T .params [] []
  | oneParam {ts e} (h : Derives T .assign ts [e]) : Derives T .params ts [e]
  | moreParams {ts us es e} (h1 : Derives T .params ts es) (h2 : Derives T .assign us [e]) :
    Derives T .params (ts ++ .comma :: us) (es ++ [e])

/-- A basic type, perhaps after `unsigned`. -/
inductive BasicType : List FinshToken → FinshType → Prop where
  | plain {t type} (h : baseType t = some type) : BasicType [t] type
  | unsigned {t type} (h : unsignedType t = some type) : BasicType [.typeUnsigned, t] type
  | unsignedVoid : BasicType [.typeUnsigned, .typeVoid] .unknown

/-- The types of a declaration or a cast, with pointers. -/
inductive TypeTokens : List FinshToken → FinshType → Prop where
  | basic {us type} (h : BasicType us type) : TypeTokens us type
  | pointer {us type} (h : BasicType us type) : TypeTokens (us ++ [.mul]) (pointerType type)

end RTThread
