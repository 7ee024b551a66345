import Mathlib.Tactic

namespace RTThread

/-- `enum finsh_type`. -/
inductive FinshType where
  | unknown
  | void
  | voidp
  | char
  | uchar
  | charp
  | short
  | ushort
  | shortp
  | int
  | uint
  | intp
  | long
  | ulong
  | longp
deriving DecidableEq, Repr

def finshNameMax : Nat := 16

def finshVariableMax : Nat := 8

/-- `struct finsh_var`; `value` is the union, read as a `long`. -/
structure FinshVar where
  name : List UInt8
  type : FinshType
  value : Nat
deriving DecidableEq, Repr

/-- `global_variable`. -/
abbrev FinshVars := List FinshVar

/-- `finsh_var_init`. -/
def finshVarInit : FinshVars := List.replicate finshVariableMax ⟨[], .unknown, 0⟩

/-- `strncmp(a, b, FINSH_NAME_MAX) == 0`. -/
def sameName (a b : List UInt8) : Bool := a.take finshNameMax == b.take finshNameMax

/-- `none` is the answer -1: the name exists, or every entry is taken. -/
def finshVarInsert (vars : FinshVars) (name : List UInt8) (type : FinshType) : Option FinshVars :=
  if vars.any fun v => sameName v.name name then none
  else
    let empty := vars.findIdx fun v => v.type == .unknown
    if empty < vars.length then
      some (vars.modify empty fun v => { v with name := name.take finshNameMax, type := type })
    else none

def finshVarLookup (vars : FinshVars) (name : List UInt8) : Option Nat :=
  vars.findIdx? fun v => sameName v.name name

/-- `enum finsh_token_type`, with what the lexer leaves in `value` or `string`. -/
inductive FinshToken where
  | leftParen
  | rightParen
  | comma
  | semicolon
  | mul
  | add
  | inc
  | sub
  | dec
  | div
  | mod
  | assign
  | and
  | or
  | xor
  | bitwise
  | shl
  | shr
  | typeVoid
  | typeChar
  | typeShort
  | typeInt
  | typeLong
  | typeUnsigned
  | valueChar (c : Nat)
  | valueInt (i : Nat)
  | valueLong (l : Nat)
  | valueString (text : List UInt8)
  | valueNull
  | identifier (name : List UInt8)
  | bad
  | eof
deriving DecidableEq, Repr

inductive FinshErr where
  | ok
  | invalidToken
  | expectType
  | unknownType
  | variableExist
  | expectOperator
  | memoryFull
  | unknownNode
  | unknownSymbol
  | nullNode
deriving DecidableEq, Repr

/-- What an identifier stands for: a variable of `global_variable`, a system variable with its
type and address, or a system call. -/
inductive FinshId where
  | var (i : Nat)
  | sysvar (type : FinshType) (addr : Nat)
  | syscall (func : Nat)
deriving DecidableEq, Repr

/-- `node_type`, with the value or the identifier of a leaf. -/
inductive FinshNodeType where
  | id (ref : FinshId)
  | valueChar (c : Nat)
  | valueInt (i : Nat)
  | valueLong (l : Nat)
  | valueString (text : List UInt8)
  | valueNull
  | add
  | sub
  | mul
  | div
  | mod
  | and
  | or
  | xor
  | bitwise
  | shl
  | shr
  | func
  | assign
  | preinc
  | predec
  | inc
  | dec
  | getvalue
  | getaddr
deriving DecidableEq, Repr

/-- A node of `global_node_table` with the nodes it points to; `null` is the null pointer.
`address` is the bit `FINSH_IDTYPE_ADDRESS` of `idtype`. -/
inductive FinshNode where
  | null
  | node (type : FinshNodeType) (dataType : Nat) (address : Bool) (child sibling : FinshNode)
deriving DecidableEq, Repr

namespace FinshNode

def leaf (type : FinshNodeType) : FinshNode := .node type 0 false .null .null

def setSibling : FinshNode → FinshNode → FinshNode
  | .null, _ => .null
  | .node type dataType address child _, sibling => .node type dataType address child sibling

def setDataType : FinshNode → Nat → FinshNode
  | .null, _ => .null
  | .node type _ address child sibling, dataType => .node type dataType address child sibling

/-- The nodes of a list, each the sibling of the one before it. -/
def chain : List FinshNode → FinshNode
  | [] => .null
  | n :: ns => n.setSibling (chain ns)

def toList (n : FinshNode) : List FinshNode := if n = .null then [] else [n]

def count : FinshNode → Nat
  | .null => 0
  | .node _ _ _ child sibling => child.count + sibling.count + 1

end FinshNode

/-- The system tables: variables and calls by name. -/
structure FinshSymbols where
  sysvar : List UInt8 → Option (FinshType × Nat)
  syscall : List UInt8 → Option Nat

/-- The lexer with its one token of replay, `global_errno`, `global_variable` and the number of
entries taken in `global_node_table`. `rest` is what the lexer has not read yet. -/
structure FinshParser where
  rest : List FinshToken
  current : FinshToken
  string : List UInt8
  replay : Bool
  errno : FinshErr
  vars : FinshVars
  nodes : Nat
deriving DecidableEq, Repr

def finshNodeMax : Nat := 16

def finshStringMax : Nat := 128

/-- What `token_get_string` leaves in `string`: the text of a word, or nothing. At the end of the
line the buffer keeps what it held. -/
def tokenString : FinshToken → List UInt8 → List UInt8
  | .identifier name, _ => name
  | .valueString text, _ => text
  | .typeVoid, _ => "void".toUTF8.toList
  | .typeChar, _ => "char".toUTF8.toList
  | .typeShort, _ => "short".toUTF8.toList
  | .typeInt, _ => "int".toUTF8.toList
  | .typeLong, _ => "long".toUTF8.toList
  | .typeUnsigned, _ => "unsigned".toUTF8.toList
  | .valueNull, _ => "null".toUTF8.toList
  | .eof, old => old
  | _, _ => []

namespace FinshParser

/-- `finsh_token_token`. -/
def nextToken (s : FinshParser) : FinshToken × FinshParser :=
  if s.replay then (s.current, { s with replay := false })
  else
    match s.rest with
    | [] => (.eof, { s with current := .eof, string := tokenString .eof s.string })
    | t :: ts => (t, { s with rest := ts, current := t, string := tokenString t s.string })

def replayToken (s : FinshParser) : FinshParser := { s with replay := true }

def errorSet (s : FinshParser) (err : FinshErr) : FinshParser := { s with errno := err }

def checkToken (s : FinshParser) (token : FinshToken) (type : FinshToken → Bool) : FinshParser :=
  if type token then s else (s.errorSet .invalidToken).replayToken

def matchToken (s : FinshParser) (type : FinshToken → Bool) : FinshParser :=
  let (token, s) := s.nextToken
  s.checkToken token type

/-- `finsh_node_allocate`: `false` when the table is full. -/
def nodeAllocate (s : FinshParser) : Bool × FinshParser :=
  if s.nodes < finshNodeMax then (true, { s with nodes := s.nodes + 1 }) else (false, s)

/-- `finsh_node_new_char` and the other four constructors of values. -/
def nodeNewValue (s : FinshParser) (type : FinshNodeType) : FinshNode × FinshParser :=
  let (allocated, s) := s.nodeAllocate
  if allocated then (.leaf type, s) else (.null, s.errorSet .memoryFull)

def lookup (S : FinshSymbols) (vars : FinshVars) (name : List UInt8) : Option FinshId :=
  match finshVarLookup vars name with
  | some i => some (.var i)
  | none =>
    match S.sysvar name with
    | some (type, addr) => some (.sysvar type addr)
    | none => (S.syscall name).map .syscall

def nodeNewId (S : FinshSymbols) (s : FinshParser) (name : List UInt8) : FinshNode × FinshParser :=
  match lookup S s.vars name with
  | some ref => s.nodeNewValue (.id ref)
  | none => (.null, s.errorSet .unknownSymbol)

/-- `make_sys_node`; the second node comes with its siblings. -/
def makeSysNode (s : FinshParser) (type : FinshNodeType) (node1 : FinshNode)
    (node2 : List FinshNode) : FinshNode × FinshParser :=
  let (allocated, s) := s.nodeAllocate
  if allocated then
    if node1 = .null then (.leaf type, s.errorSet .nullNode)
    else (.node type 0 false (node1.setSibling (.chain node2)) .null, s)
  else (.null, s.errorSet .nullNode)

end FinshParser

end RTThread
