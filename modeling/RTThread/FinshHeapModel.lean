import RTThread.ByteMemory
import RTThread.FinshTokens
import RTThread.NodeLists
import RTThread.Runs

namespace RTThread

def finshHeapMax : Nat := 128

/-- `HEAP_ALIGN_SIZE` on 32-bit operands, with `HEAP_ALIGNMENT` 4: the sum wraps. -/
def heapAlignSize (size : Nat) : Nat := word (size + 4 - 1) &&& 4294967292

/-- `sizeof(struct finsh_block_header)`. -/
def blockHeader : Nat := 8

def blockLength (m : Memory) (h : Nat) : Nat := read32 m h

def blockNext (m : Memory) (h : Nat) : Nat := read32 m (h + 4)

def setLength (m : Memory) (h v : Nat) : Memory := write32 m h v

def setBlockNext (m : Memory) (h v : Nat) : Memory := write32 m (h + 4) v

def blockGetHeader (data : Nat) : Nat := wordSub data blockHeader

def blockGetData (h : Nat) : Nat := word (h + blockHeader)

/-- Where the array `finsh_heap` lies. -/
structure FinshPlace where
  addr : Nat
  pos : 0 < addr
  fits : addr + finshHeapMax < 4294967296

structure FinshHeap where
  mem : Memory
  freeList : Nat
  allocateList : Nat

def finshHeapInit (P : FinshPlace) (m : Memory) : FinshHeap :=
  let m := rtMemset m P.addr 0 finshHeapMax
  let m := setLength m P.addr (finshHeapMax - blockHeader)
  ⟨setBlockNext m P.addr 0, P.addr, 0⟩

/-- More turns than there are addresses: a walk that long goes round forever. -/
def walkTurns : Nat := 4294967296

/-- `for (node = list; node != NULL && !stop; node = node->next)`. -/
def walkBlocks (m : Memory) (stop : Nat → Bool) (list : Nat) : Option Nat :=
  scanNodes (blockNext m) 0 stop walkTurns list

/-- The list is passed as the pointer it begins with; the answer is the new one. -/
def finshBlockInsert (m : Memory) (list h : Nat) : Option (Nat × Memory) :=
  if list = 0 then some (h, m)
  else if list > h then some (h, setBlockNext m h list)
  else do
    let node ← walkBlocks m (fun node => blockNext m node > h ∨ blockNext m node = 0) list
    let next := blockNext m node
    -- the last node of the list leaves the pointer in the new one as it is
    let m := if next ≠ 0 then setBlockNext m h next else m
    some (list, setBlockNext m node h)

def finshBlockRemove (m : Memory) (list h : Nat) : Option (Nat × Memory) :=
  if list = h then some (blockNext m h, setBlockNext m h 0)
  else do
    let node ← walkBlocks m (fun node => blockNext m node = h) list
    some (list, if node ≠ 0 then setBlockNext m node (blockNext m h) else m)

def finshBlockSplit (m : Memory) (h size : Nat) : Memory :=
  let next := word (h + blockHeader + size)
  let m := setLength m next (wordSub (wordSub (blockLength m h) blockHeader) size)
  let m := setLength m h size
  let m := setBlockNext m next (blockNext m h)
  setBlockNext m h next

/-- The end of a block, where `finsh_block_merge` looks for the next one. -/
def blockEnd (m : Memory) (h : Nat) : Nat := word (h + blockLength m h + blockHeader)

/-- The `prev_node` of `finsh_block_merge`. -/
def prevBlock (m : Memory) (list h : Nat) : Option Nat :=
  if list = h then some 0 else walkBlocks m (fun node => blockNext m node = h) list

def finshBlockMerge (m : Memory) (list h : Nat) : Option Memory := do
  let nextNode := blockNext m h
  let prevNode ← prevBlock m list h
  if prevNode ≠ 0 ∧ blockEnd m prevNode = h then
    if nextNode ≠ 0 ∧ blockEnd m h = nextNode then
      let sum := blockLength m h + blockLength m nextNode + 2 * blockHeader
      let m' := setLength m prevNode (word (blockLength m prevNode + sum))
      some (setBlockNext m' prevNode (blockNext m' nextNode))
    else
      let m' := setLength m prevNode
        (word (blockLength m prevNode + (blockLength m h + blockHeader)))
      some (setBlockNext m' prevNode (blockNext m' h))
  else if nextNode ≠ 0 ∧ blockEnd m h = nextNode then
    let m' := setLength m h (word (blockLength m h + (blockLength m nextNode + blockHeader)))
    some (setBlockNext m' h (blockNext m' nextNode))
  else some m

def finshHeapFree (s : FinshHeap) (ptr : Nat) : Option FinshHeap := do
  let h := blockGetHeader ptr
  let (allocateList, m) ← finshBlockRemove s.mem s.allocateList h
  let (freeList, m) ← finshBlockInsert m s.freeList h
  let m ← finshBlockMerge m freeList h
  some ⟨m, freeList, allocateList⟩

/-- A variable whose value is the address of the data of block `h`. -/
def heldByVariable (vars : FinshVars) (h : Nat) : Bool :=
  vars.any fun v => v.type != .unknown && v.value == blockGetData h

def finshHeapGcFrom (vars : FinshVars) : Nat → Nat → FinshHeap → Option FinshHeap
  | 0, _, _ => none
  | turns + 1, h, s =>
    if h = 0 then some s
    else
      let next := blockNext s.mem h
      if heldByVariable vars h then finshHeapGcFrom vars turns next s
      else do
        let s ← finshHeapFree s (blockGetData h)
        finshHeapGcFrom vars turns next s

def finshHeapGc (s : FinshHeap) (vars : FinshVars) : Option FinshHeap :=
  finshHeapGcFrom vars walkTurns s.allocateList s

/-- The first search of `finsh_heap_allocate`. -/
def firstFit (s : FinshHeap) (size : Nat) : Option Nat :=
  walkBlocks s.mem (fun h => ¬blockLength s.mem h ≤ word (size + blockHeader)) s.freeList

/-- Both searches, with the collection between them. -/
def findFit (s : FinshHeap) (vars : FinshVars) (size : Nat) : Option (Nat × FinshHeap) := do
  let h ← firstFit s size
  if h ≠ 0 then some (h, s)
  else
    let s ← finshHeapGc s vars
    let h ← walkBlocks s.mem (fun h => ¬blockLength s.mem h < word (size + blockHeader)) s.freeList
    some (h, s)

/-- The answer 0 is `NULL`. -/
def finshHeapAllocate (s : FinshHeap) (vars : FinshVars) (size : Nat) :
    Option (Nat × FinshHeap) := do
  let size := heapAlignSize size
  let (h, s) ← findFit s vars size
  if h = 0 then some (0, s)
  else
    let m := finshBlockSplit s.mem h size
    let (freeList, m) ← finshBlockRemove m s.freeList h
    let m := setBlockNext m h 0
    let (allocateList, m) ← finshBlockInsert m s.allocateList h
    some (blockGetData h, ⟨rtMemset m (blockGetData h) 0 size, freeList, allocateList⟩)

end RTThread
