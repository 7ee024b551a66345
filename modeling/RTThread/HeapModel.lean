import RTThread.ByteMemory
import RTThread.Tiling

namespace RTThread

/-- `RT_ALIGN_SIZE`, a power of two small enough for the sums of header sizes to fit 32 bits. -/
structure AlignSize where
  log : Nat
  log_le : log ≤ 29

def AlignSize.size (A : AlignSize) : Nat := 2 ^ A.log

def align4 : AlignSize := ⟨2, by decide⟩

/-- `RT_ALIGN(n, RT_ALIGN_SIZE)` on 32-bit operands: the sum wraps. -/
def rtAlign (A : AlignSize) (n : Nat) : Nat := word (n + A.size - 1) &&& (4294967296 - A.size)

def rtAlignDown (A : AlignSize) (n : Nat) : Nat := n &&& (4294967296 - A.size)

def heapMagic : Nat := 0x1ea0

def minSize : Nat := 12

structure HeapTag where
  magic : Nat
  used : Nat
deriving DecidableEq, Repr

/-- `struct heap_mem`: magic and used flag in the tag, then the two offsets. -/
abbrev HeapMem := Links HeapTag

def sizeofHeapMem : Nat := 12

def AlignSize.minSizeAligned (A : AlignSize) : Nat := rtAlign A minSize

def AlignSize.sizeofStructMem (A : AlignSize) : Nat := rtAlign A sizeofHeapMem

def header (m : Memory) (o : Nat) : HeapMem :=
  ⟨⟨read16 m o, read16 m (o + 2)⟩, read32 m (o + 4), read32 m (o + 8)⟩

def setMagic (m : Memory) (o v : Nat) : Memory := write16 m o v

def setUsed (m : Memory) (o v : Nat) : Memory := write16 m (o + 2) v

def setNext (m : Memory) (o v : Nat) : Memory := write32 m (o + 4) v

def setPrev (m : Memory) (o v : Nat) : Memory := write32 m (o + 8) v

/-- The static state of the allocator. `mem` is indexed by distance from `heap_ptr`,
and `heapEnd` and `lfree` are such distances; `heapPtr` itself is an address. -/
structure Heap where
  mem : Memory
  heapPtr : Nat
  heapEnd : Nat
  lfree : Nat
  memSizeAligned : Nat
  usedMem : Nat
  maxMem : Nat

/-- A failing `RT_ASSERT` never returns. -/
def rtAssert (p : Prop) [Decidable p] : Option Unit := if p then some () else none

def plugForward (h : Heap) (mem : Nat) : Heap :=
  let nmem := (header h.mem mem).next
  if mem ≠ nmem ∧ (header h.mem nmem).tag.used = 0 ∧ nmem ≠ h.heapEnd then
    let m := setNext h.mem mem (header h.mem nmem).next
    { h with
      lfree := if h.lfree = nmem then mem else h.lfree
      mem := setPrev m (header m nmem).next mem }
  else h

def plugBackward (h : Heap) (mem : Nat) : Heap :=
  let pmem := (header h.mem mem).prev
  if pmem ≠ mem ∧ (header h.mem pmem).tag.used = 0 then
    let m := setNext h.mem pmem (header h.mem mem).next
    { h with
      lfree := if h.lfree = mem then pmem else h.lfree
      mem := setPrev m (header m mem).next pmem }
  else h

def plugHoles (h : Heap) (mem : Nat) : Option Heap := do
  rtAssert (mem < h.heapEnd)
  rtAssert ((header h.mem mem).tag.used = 0)
  some (plugBackward (plugForward h mem) mem)

section
variable (A : AlignSize)

/-- `none` is the branch that prints an error and leaves the heap unset. -/
def rtSystemHeapInit (m : Memory) (beginAddr endAddr : Nat) : Option Heap :=
  let beginAlign := rtAlign A beginAddr
  let endAlign := rtAlignDown A endAddr
  if endAlign > 2 * A.sizeofStructMem ∧ endAlign - 2 * A.sizeofStructMem ≥ beginAlign then
    let memSizeAligned := endAlign - beginAlign - 2 * A.sizeofStructMem
    let m := setMagic m 0 heapMagic
    let m := setNext m 0 (memSizeAligned + A.sizeofStructMem)
    let m := setPrev m 0 0
    let m := setUsed m 0 0
    let heapEnd := (header m 0).next
    let m := setMagic m heapEnd heapMagic
    let m := setUsed m heapEnd 1
    let m := setNext m heapEnd (memSizeAligned + A.sizeofStructMem)
    let m := setPrev m heapEnd (memSizeAligned + A.sizeofStructMem)
    some ⟨m, beginAlign, heapEnd, 0, memSizeAligned, 0, 0⟩
  else none

/-- The `for` loop of `rt_malloc`. The outer option is the loop's fuel: a walk that reaches
`heap_end` while `ptr` is still below the bound turns there forever. -/
def mallocSearch (h : Heap) (size : Nat) : Nat → Nat → Option (Option Nat)
  | 0, _ => none
  | fuel + 1, ptr =>
    if ptr < wordSub h.memSizeAligned size then
      let mem := header h.mem ptr
      if mem.tag.used = 0 ∧ wordSub mem.next (ptr + A.sizeofStructMem) ≥ size then some (some ptr)
      else mallocSearch h size fuel mem.next
    else some none

/-- `while (lfree->used && lfree != heap_end)`. -/
def advanceLfree (h : Heap) : Nat → Nat → Option Nat
  | 0, _ => none
  | fuel + 1, lfree =>
    if (header h.mem lfree).tag.used ≠ 0 ∧ lfree ≠ h.heapEnd then
      advanceLfree h fuel (header h.mem lfree).next
    else some lfree

/-- Create the `mem2` struct at `ptr2` and insert it after `mem`. -/
def insertRemainder (m : Memory) (ptr ptr2 : Nat) : Memory :=
  let m := setMagic m ptr2 heapMagic
  let m := setUsed m ptr2 0
  let m := setNext m ptr2 (header m ptr).next
  let m := setPrev m ptr2 ptr
  setNext m ptr ptr2

def relinkSuccessor (h : Heap) (m : Memory) (ptr2 : Nat) : Memory :=
  if (header m ptr2).next ≠ h.memSizeAligned + A.sizeofStructMem then
    setPrev m (header m ptr2).next ptr2
  else m

def chargeUsed (h : Heap) (n : Nat) : Heap :=
  let usedMem := word (h.usedMem + n)
  { h with usedMem := usedMem, maxMem := if h.maxMem < usedMem then usedMem else h.maxMem }

/-- The two ways `rt_malloc` uses the block it found: split it, or take it whole. -/
def mallocCarve (h : Heap) (ptr size : Nat) : Heap :=
  if wordSub (header h.mem ptr).next (ptr + A.sizeofStructMem) ≥
      size + A.sizeofStructMem + A.minSizeAligned then
    let ptr2 := ptr + A.sizeofStructMem + size
    let m := setUsed (insertRemainder h.mem ptr ptr2) ptr 1
    chargeUsed { h with mem := relinkSuccessor A h m ptr2 } (size + A.sizeofStructMem)
  else
    let m := setUsed h.mem ptr 1
    chargeUsed { h with mem := m } (wordSub (header m ptr).next ptr)

def stampMagic (h : Heap) (ptr : Nat) : Heap := { h with mem := setMagic h.mem ptr heapMagic }

/-- When the lowest free block was taken, `lfree` moves to the next one. -/
def nextLfree (fuel : Nat) (h : Heap) (ptr : Nat) : Option Nat :=
  if ptr = h.lfree then advanceLfree h fuel h.lfree else some h.lfree

/-- What `rt_malloc` still does once the block at `ptr` is carved out and marked. -/
def mallocFinish (fuel : Nat) (h : Heap) (ptr size : Nat) : Option (Heap × Nat) := do
  let lfree ← nextLfree fuel h ptr
  rtAssert (ptr = h.lfree → lfree = h.heapEnd ∨ (header h.mem lfree).tag.used = 0)
  rtAssert (ptr + A.sizeofStructMem + size ≤ h.heapEnd)
  rtAssert ((h.heapPtr + ptr + A.sizeofStructMem) % A.size = 0)
  rtAssert ((h.heapPtr + ptr) % A.size = 0)
  some ({ h with lfree := lfree }, h.heapPtr + ptr + A.sizeofStructMem)

def mallocTake (fuel : Nat) (h : Heap) (ptr size : Nat) : Option (Heap × Nat) :=
  mallocFinish A fuel (stampMagic (mallocCarve A h ptr size) ptr) ptr size

/-- The null pointer is `0`. -/
def rtMalloc (fuel : Nat) (h : Heap) (size : Nat) : Option (Heap × Nat) :=
  if size = 0 then some (h, 0)
  else
    let size := rtAlign A size
    if size > h.memSizeAligned then some (h, 0)
    else
      let size := if size < A.minSizeAligned then A.minSizeAligned else size
      (mallocSearch A h size fuel h.lfree).bind fun found =>
        match found with
        | none => some (h, 0)
        | some ptr => mallocTake A fuel h ptr size

def rtFree (h : Heap) (rmem : Nat) : Option Heap :=
  if rmem = 0 then some h
  else do
    rtAssert (rmem % A.size = 0)
    rtAssert (h.heapPtr ≤ rmem ∧ rmem < h.heapPtr + h.heapEnd)
    let mem := wordSub rmem (h.heapPtr + A.sizeofStructMem)
    rtAssert ((header h.mem mem).tag.used ≠ 0)
    rtAssert ((header h.mem mem).tag.magic = heapMagic)
    let m := setMagic (setUsed h.mem mem 0) mem heapMagic
    plugHoles { h with
      mem := m
      lfree := if mem < h.lfree then mem else h.lfree
      usedMem := wordSub h.usedMem (wordSub (header m mem).next mem) } mem

def rtRealloc (fuel : Nat) (h : Heap) (rmem newsize : Nat) : Option (Heap × Nat) :=
  let newsize := rtAlign A newsize
  if newsize > h.memSizeAligned then some (h, 0)
  else if newsize = 0 then do
    let h' ← rtFree A h rmem
    some (h', 0)
  else if rmem = 0 then rtMalloc A fuel h newsize
  else if rmem < h.heapPtr ∨ h.heapPtr + h.heapEnd ≤ rmem then some (h, rmem)
  else
    let ptr := wordSub rmem (h.heapPtr + A.sizeofStructMem)
    let size := wordSub (wordSub (header h.mem ptr).next ptr) A.sizeofStructMem
    if size = newsize then some (h, rmem)
    else if newsize + A.sizeofStructMem + minSize < size then do
      let ptr2 := ptr + A.sizeofStructMem + newsize
      let m := relinkSuccessor A h (insertRemainder h.mem ptr ptr2) ptr2
      let h' ← plugHoles
        { h with mem := m, usedMem := wordSub h.usedMem (size - newsize) } ptr2
      some (h', rmem)
    else do
      let (h', nmem) ← rtMalloc A fuel h newsize
      if nmem ≠ 0 then do
        let m := rtMemcpy h'.mem (wordSub nmem h'.heapPtr) (wordSub rmem h'.heapPtr)
          (if size < newsize then size else newsize)
        let h'' ← rtFree A { h' with mem := m } rmem
        some (h'', nmem)
      else some (h', nmem)

def rtCalloc (fuel : Nat) (h : Heap) (count size : Nat) : Option (Heap × Nat) := do
  let (h', p) ← rtMalloc A fuel h (word (count * size))
  if p ≠ 0 then
    some ({ h' with mem := rtMemset h'.mem (wordSub p h'.heapPtr) 0 (word (count * size)) }, p)
  else some (h', p)

end

end RTThread
