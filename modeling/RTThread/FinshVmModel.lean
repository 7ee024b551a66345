import RTThread.ByteFields
import RTThread.ByteMemory
import RTThread.FinshCompilerModel

namespace RTThread

/-- The functions of `op_table`. -/
inductive FinshVmOp where
  | noOp
  | binary (op : FinshBinary) (w : FinshWidth)
  | bitwise (w : FinshWidth)
  | ld (w : FinshWidth)
  | ldValue (w : FinshWidth)
  | st (w : FinshWidth)
  | pop
  | call
  | ldValueStack (w : FinshWidth)
deriving DecidableEq, Repr

def opTable : List FinshVmOp :=
  [.noOp,
    .binary .add .byte, .binary .add .word, .binary .add .dword,
    .binary .sub .byte, .binary .sub .word, .binary .sub .dword,
    .binary .div .byte, .binary .div .word, .binary .div .dword,
    .binary .mod .byte, .binary .mod .word, .binary .mod .dword,
    .binary .mul .byte, .binary .mul .word, .binary .mul .dword,
    .binary .and .byte, .binary .and .word, .binary .and .dword,
    .binary .or .byte, .binary .or .word, .binary .or .dword,
    .binary .xor .byte, .binary .xor .word, .binary .xor .dword,
    .bitwise .byte, .bitwise .word, .bitwise .dword,
    .binary .shl .byte, .binary .shl .word, .binary .shl .dword,
    .binary .shr .byte, .binary .shr .word, .binary .shr .dword,
    .ld .byte, .ld .word, .ld .dword,
    .ldValue .byte, .ldValue .word, .ldValue .dword,
    .st .byte, .st .word, .st .dword,
    .pop, .call,
    .ldValueStack .byte, .ldValueStack .word, .ldValueStack .dword]

def FinshWidth.size : FinshWidth → Nat
  | .byte => 1
  | .word => 2
  | .dword => 4

/-- A slot of `finsh_vm_stack`, the union of `char_value`, `short_value` and `long_value`. -/
abbrev FinshSlot := BitVec 32

/-- Whether `char` is signed, and what a function answers and leaves in the memory when the finsh
calls it. -/
structure FinshMachine where
  charSigned : Bool
  call : FinshSlot → List FinshSlot → Memory → FinshSlot × Memory

/-- A field of a slot, promoted to `int`. -/
def FinshMachine.field (M : FinshMachine) (w : FinshWidth) (slot : FinshSlot) : FinshSlot :=
  match w with
  | .byte => if M.charSigned then (slot.setWidth 8).signExtend 32 else (slot.setWidth 8).setWidth 32
  | .word => (slot.setWidth 16).signExtend 32
  | .dword => slot

/-- The slot with `v` in one of its fields; the bytes beside the field stay. -/
def FinshWidth.put (w : FinshWidth) (v slot : FinshSlot) : FinshSlot :=
  match w with
  | .byte => slot &&& 0xffffff00 ||| v &&& 0xff
  | .word => slot &&& 0xffff0000 ||| v &&& 0xffff
  | .dword => v

/-- C leaves a division by zero and a shift by 32 or more open; the stack pointer moves all the
same. -/
def FinshBinary.apply : FinshBinary → FinshSlot → FinshSlot → FinshSlot
  | .add, x, y => x + y
  | .sub, x, y => x - y
  | .div, x, y => x.sdiv y
  | .mod, x, y => x.srem y
  | .mul, x, y => x * y
  | .and, x, y => x &&& y
  | .or, x, y => x ||| y
  | .xor, x, y => x ^^^ y
  | .shl, x, y => x <<< y
  | .shr, x, y => x.sshiftRight y.toNat

/-- What a pointer to a type of the width points to. -/
def FinshWidth.load (w : FinshWidth) (m : Memory) (addr : FinshSlot) : FinshSlot :=
  match w with
  | .byte => .ofNat 32 (m.byte addr.toNat).toNat
  | .word => .ofNat 32 (read16 m addr.toNat)
  | .dword => .ofNat 32 (read32 m addr.toNat)

def FinshWidth.store (w : FinshWidth) (m : Memory) (addr v : FinshSlot) : Memory :=
  match w with
  | .byte => write8 m addr.toNat v.toNat
  | .word => write16 m addr.toNat v.toNat
  | .dword => write32 m addr.toNat v.toNat

/-- `finsh_pc` and `finsh_sp` count from the first byte of the text and the first slot of the stack;
a store does not reach the variables of the virtual machine itself. -/
structure FinshVm where
  pc : Nat
  sp : Int
  stack : Int → FinshSlot
  mem : Memory

namespace FinshVm

def put (s : FinshVm) (w : FinshWidth) (i : Int) (v : FinshSlot) : FinshVm :=
  { s with stack := Function.update s.stack i (w.put v (s.stack i)) }

/-- `OP_call` behind its operand; the `switch` calls nothing for more than 16 parameters. -/
def call (M : FinshMachine) (parameters : Nat) (s : FinshVm) : FinshVm :=
  let base := s.sp - 1 - parameters
  let f := s.stack base
  let parameterv := (List.range parameters).map fun (i : Nat) => s.stack (base + 1 + i)
  let r :=
    if parameters = 0 then M.call f [0] s.mem
    else if parameters ≤ 16 then M.call f parameterv s.mem
    else (0, s.mem)
  { s with stack := Function.update s.stack base r.1, sp := base + 1, mem := r.2 }

/-- The function of an operation; `none` is a read past the end of the text. -/
def run (M : FinshMachine) (text : List UInt8) (op : FinshVmOp) (s : FinshVm) : Option FinshVm :=
  match op with
  | .noOp => some s
  | .binary op w =>
    let x := M.field w (s.stack (s.sp - 2))
    let y := M.field w (s.stack (s.sp - 1))
    some { s.put w (s.sp - 2) (op.apply x y) with sp := s.sp - 1 }
  | .bitwise w => some (s.put w (s.sp - 1) (~~~ M.field w (s.stack (s.sp - 1))))
  | .ld w => do
    let (v, _) ← takeNat w.size (text.drop s.pc)
    some { s.put w s.sp (.ofNat 32 v) with sp := s.sp + 1, pc := s.pc + w.size }
  | .ldValue w => do
    let (addr, _) ← takeNat 4 (text.drop s.pc)
    some { s.put w s.sp (w.load s.mem (.ofNat 32 addr)) with sp := s.sp + 1, pc := s.pc + 4 }
  | .st w =>
    some { s with mem := w.store s.mem (s.stack (s.sp - 2)) (s.stack (s.sp - 1)), sp := s.sp - 1 }
  | .pop => some { s with sp := s.sp - 1 }
  | .call => do
    let parameters ← text[s.pc]?
    some (call M parameters.toNat { s with pc := s.pc + 1 })
  | .ldValueStack w => some (s.put w (s.sp - 1) (w.load s.mem (s.stack (s.sp - 1))))

/-- A turn of the loop of `finsh_vm_run`; `none` also stands for an opcode without a function. -/
def turn (M : FinshMachine) (text : List UInt8) (s : FinshVm) : Option FinshVm := do
  let byte ← text[s.pc]?
  let op ← opTable[byte.toNat]?
  run M text op { s with pc := s.pc + 1 }

/-- `finsh_vm_run` sets `sp` and `pc` and leaves the stack as earlier lines left it. -/
def AtStart (s : FinshVm) : Prop := s.pc = 0 ∧ s.sp = 0

end FinshVm

def finshStackMax : Nat := 64

/-- `text_segment` behind the compiler, which clears it first. -/
def textSegment (code : FinshCode) : List UInt8 :=
  (code.text ++ List.replicate finshTextMax 0).take finshTextMax

/-- The loop goes from `s` on to `s'`. -/
def VmTurn (M : FinshMachine) (text : List UInt8) (s s' : FinshVm) : Prop :=
  s.pc < finshTextMax ∧ s.turn M text = some s'

abbrev VmReach (M : FinshMachine) (text : List UInt8) : FinshVm → FinshVm → Prop :=
  Relation.ReflTransGen (VmTurn M text)

end RTThread
