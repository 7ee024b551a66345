import RTThread.FinshParserModel

namespace RTThread

inductive FinshWidth where
  | byte
  | word
  | dword
deriving DecidableEq, Repr

inductive FinshBinary where
  | add
  | sub
  | div
  | mod
  | mul
  | and
  | or
  | xor
  | shl
  | shr
deriving DecidableEq, Repr

/-- An operation of the text segment with its operand. -/
inductive FinshOp where
  | binary (op : FinshBinary) (w : FinshWidth)
  | bitwise (w : FinshWidth)
  | ldByte (v : Nat)
  | ldWord (v : Nat)
  | ldDword (v : Nat)
  | ldValue (w : FinshWidth) (addr : Nat)
  | st (w : FinshWidth)
  | pop
  | syscall (parameters : Nat)
  | ldValueStack (w : FinshWidth)
deriving DecidableEq, Repr

def FinshWidth.index : FinshWidth → Nat
  | .byte => 0
  | .word => 1
  | .dword => 2

/-- The opcode of the byte variant. -/
def FinshBinary.opcode : FinshBinary → Nat
  | .add => 0x01
  | .sub => 0x04
  | .div => 0x07
  | .mod => 0x0a
  | .mul => 0x0d
  | .and => 0x10
  | .or => 0x13
  | .xor => 0x16
  | .shl => 0x1c
  | .shr => 0x1f

def finshSet16 (v : Nat) : List UInt8 := [UInt8.ofNat v, UInt8.ofNat (v / 256)]

def finshSet32 (v : Nat) : List UInt8 := finshSet16 v ++ finshSet16 (v / 65536)

/-- The bytes that `finsh_code_byte`, `finsh_code_word` and `finsh_code_dword` write. -/
def FinshOp.bytes : FinshOp → List UInt8
  | .binary op w => [UInt8.ofNat (op.opcode + w.index)]
  | .bitwise w => [UInt8.ofNat (0x19 + w.index)]
  | .ldByte v => [0x22, UInt8.ofNat v]
  | .ldWord v => 0x23 :: finshSet16 v
  | .ldDword v => 0x24 :: finshSet32 v
  | .ldValue w addr => UInt8.ofNat (0x25 + w.index) :: finshSet32 addr
  | .st w => [UInt8.ofNat (0x28 + w.index)]
  | .pop => [0x2b]
  | .syscall parameters => [0x2c, UInt8.ofNat parameters]
  | .ldValueStack w => [UInt8.ofNat (0x2d + w.index)]

/-- Addresses that end up in the code: `&var->value` of an identifier's `id.var`, and the copies of
the strings in the heap. -/
structure FinshLinks where
  valueAddr : FinshId → Nat
  stringAddr : List UInt8 → Nat

/-- The code written from `text_segment[0]` on, and `global_errno`. -/
structure FinshCode where
  ops : List FinshOp
  errno : FinshErr
deriving DecidableEq, Repr

namespace FinshCode

def emit (s : FinshCode) (ops : List FinshOp) : FinshCode := { s with ops := s.ops ++ ops }

def errorSet (s : FinshCode) (err : FinshErr) : FinshCode := { s with errno := err }

/-- Everything that has been written, past the end of the segment too. -/
def text (s : FinshCode) : List UInt8 := s.ops.flatMap FinshOp.bytes

end FinshCode

/-- The `data_type` of an identifier of a type. -/
def dataTypeOf : FinshType → Option Nat
  | .void => some 0
  | .char | .uchar => some 1
  | .short | .ushort => some 2
  | .unknown => none
  | _ => some 3

/-- The width that the code of an identifier loads; the types `void` and `void*` have no case. -/
def loadWidth : FinshType → Option FinshWidth
  | .char | .uchar => some .byte
  | .short | .ushort => some .word
  | .unknown | .void | .voidp => none
  | _ => some .dword

/-- `FINSH_DATA_TYPE_BYTE`, `_WORD` and `_DWORD`. -/
def widthOf : Nat → Option FinshWidth
  | 1 => some .byte
  | 2 => some .word
  | 3 => some .dword
  | _ => none

def isSyscall : FinshNodeType → Bool
  | .id (.syscall _) => true
  | _ => false

/-- The `is_addr` that `finsh_type_check` hands to the child. -/
def childAddress (type : FinshNodeType) (isAddr : Bool) : Bool :=
  match type with
  | .assign | .preinc | .predec | .getaddr => true
  | .getvalue => false
  | _ => isAddr

section
variable (vars : FinshVars)

/-- The type that an identifier names, if it has one. -/
def identifierType : FinshId → Option FinshType
  | .var i => vars[i]?.map FinshVar.type
  | .sysvar type _ => some type
  | .syscall _ => none

/-- The attributes of a node without children. -/
def leafDataType (type : FinshNodeType) (dataType : Nat) (err : FinshErr) : Nat × FinshErr :=
  match type with
  | .id ref =>
    match identifierType vars ref with
    | some t =>
      match dataTypeOf t with
      | some d => (d, err)
      | none => (dataType, .unknownType)
    | none => (dataType, err)
  | .valueChar _ => (1, err)
  | .valueInt _ | .valueLong _ | .valueString _ | .valueNull => (3, err)
  | _ => (dataType, err)

def FinshNode.dataType : FinshNode → Nat
  | .null => 0
  | .node _ dataType _ _ _ => dataType

def finshTypeCheck : FinshNode → Bool → FinshErr → FinshNode × FinshErr
  | .null, _, err => (.null, err)
  | .node type dataType address child sibling, isAddr, err =>
    let c := finshTypeCheck child (childAddress type isAddr) err
    let b := finshTypeCheck sibling false c.2
    let address := if isSyscall type && !address then address else address || isAddr
    if c.1 ≠ .null then (.node type c.1.dataType address c.1 b.1, b.2)
    else
      let leaf := leafDataType vars type dataType b.2
      (.node type leaf.1 address c.1 b.1, leaf.2)

end

/-- The number of nodes in a chain of siblings. -/
def FinshNode.siblings : FinshNode → Nat
  | .null => 0
  | .node _ _ _ _ sibling => sibling.siblings + 1

/-- The operators of one byte; `bitwise` has one operand. -/
def operatorOp : FinshNodeType → Option (FinshWidth → FinshOp)
  | .add => some (.binary .add)
  | .sub => some (.binary .sub)
  | .mul => some (.binary .mul)
  | .div => some (.binary .div)
  | .mod => some (.binary .mod)
  | .and => some (.binary .and)
  | .or => some (.binary .or)
  | .xor => some (.binary .xor)
  | .bitwise => some .bitwise
  | .shl => some (.binary .shl)
  | .shr => some (.binary .shr)
  | _ => none

/-- `ld_byte 1` and its like. -/
def ldOne : FinshWidth → FinshOp
  | .byte => .ldByte 1
  | .word => .ldWord 1
  | .dword => .ldDword 1

section
variable (vars : FinshVars) (links : FinshLinks)

/-- The code of an identifier: its address or its value. -/
def idOps (ref : FinshId) (address : Bool) : List FinshOp :=
  match ref with
  | .syscall func => [.ldDword func]
  | _ =>
    match (identifierType vars ref).bind loadWidth with
    | some w =>
      let addr := match ref with
        | .sysvar _ addr => addr
        | _ => links.valueAddr ref
      if address then [.ldDword addr] else [.ldValue w addr]
    | none => []

/-- `++` or `--` in front of an identifier, whose address is on the stack. -/
def preOps (op : FinshBinary) (w : FinshWidth) (addr : Nat) : List FinshOp :=
  [.ldValue w addr, ldOne w, .binary op w, .st w, .ldValueStack .dword]

/-- `++` or `--` behind an identifier, whose value is on the stack. -/
def postOps (op : FinshBinary) (w : FinshWidth) (addr : Nat) : List FinshOp :=
  [.ldDword addr, .ldValue w addr, ldOne w, .binary op w, .st w, .pop]

/-- The four increments: code only for an identifier as the child, and of a known width. -/
def increaseOps (ops : FinshWidth → Nat → List FinshOp) (dataType : Nat) : FinshNode → List FinshOp
  | .node (.id ref) _ _ _ _ =>
    match widthOf dataType with
    | some w => ops w (links.valueAddr ref)
    | none => []
  | _ => []

/-- `st` and `load value again`, or the error of the default case. -/
def storeCode : Option FinshWidth → FinshCode → FinshCode
  | some w, s => s.emit [.st w, .ldValueStack w]
  | none, s => s.errorSet .unknownType

/-- An assignment to `child`: code for an identifier and for `*` only. -/
def assignCode (child : FinshNode) (s : FinshCode) : FinshCode :=
  match child with
  | .node (.id _) dataType _ _ _ => storeCode (widthOf dataType) s
  | .node .getvalue dataType _ _ _ => storeCode (widthOf (dataType % 16)) s
  | _ => s

/-- `compile current node`. -/
def compileNode (type : FinshNodeType) (dataType : Nat) (address : Bool) (child : FinshNode)
    (s : FinshCode) : FinshCode :=
  match type with
  | .id ref => s.emit (idOps vars links ref address)
  | .valueChar c => s.emit [.ldByte c]
  | .valueInt v | .valueLong v => s.emit [.ldDword v]
  | .valueNull => s.emit [.ldDword 0]
  | .valueString text => s.emit [.ldDword (links.stringAddr text)]
  | .func => if child = .null then s else s.emit [.syscall (child.siblings - 1)]
  | .assign => assignCode child s
  | .preinc => s.emit (increaseOps links (preOps .add) dataType child)
  | .predec => s.emit (increaseOps links (preOps .sub) dataType child)
  | .inc => s.emit (increaseOps links (postOps .add) dataType child)
  | .dec => s.emit (increaseOps links (postOps .sub) dataType child)
  | .getvalue => if address then s else s.emit ((widthOf dataType).map FinshOp.ldValueStack).toList
  | .getaddr => s
  | type =>
    match operatorOp type with
    | some op => s.emit ((widthOf dataType).map op).toList
    | none => s

def finshCompile : FinshNode → FinshCode → FinshCode
  | .null, s => s
  | .node type dataType address child sibling, s =>
    let s := finshCompile child s
    let s := compileNode vars links type dataType address child s
    finshCompile sibling s

/-- The loop of `finsh_compiler_run` over the statements. -/
def compileStatements : FinshNode → FinshCode → FinshCode
  | .null, s => s
  | .node type dataType address child sibling, s =>
    let s := finshCompile vars links (.node type dataType address child .null) s
    if sibling = .null then s else compileStatements sibling (s.emit [.pop])

/-- `finsh_compiler_run` on the list at `parser->root`. -/
def finshCompilerRun (trees : List FinshNode) (err : FinshErr) : FinshCode :=
  let checked := finshTypeCheck vars (.chain trees) false err
  compileStatements vars links checked.1 ⟨[], checked.2⟩

end

def finshTextMax : Nat := 128

end RTThread
