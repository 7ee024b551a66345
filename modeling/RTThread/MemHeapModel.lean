import RTThread.HeapModel

namespace RTThread

/-- The fields of `struct rt_memheap_item`. -/
inductive ItemField where
  | magic
  | poolPtr
  | next
  | prev
  | nextFree
  | prevFree
deriving DecidableEq, Repr

def ItemField.offset : ItemField → Nat
  | .magic => 0
  | .poolPtr => 4
  | .next => 8
  | .prev => 12
  | .nextFree => 16
  | .prevFree => 20

def getItem (m : Memory) (f : ItemField) (item : Nat) : Nat := read32 m (item + f.offset)

def setItem (m : Memory) (f : ItemField) (item v : Nat) : Memory := write32 m (item + f.offset) v

def memheapMagic : Nat := 0x1ea01ea0

def memheapMask : Nat := 0xfffffffe

def memheapUsed : Nat := 1

def memheapMinialloc : Nat := 12

def sizeofMemheapItem : Nat := 24

/-- `struct rt_memheap`, the address of its `free_header`, and the memory. The lock is free between
two calls. -/
structure MemHeap where
  self : Nat
  freeHeader : Nat
  startAddr : Nat
  poolSize : Nat
  availableSize : Nat
  maxUsedSize : Nat
  blockList : Nat
  freeList : Nat
  mem : Memory

def memheapIsUsed (m : Memory) (item : Nat) : Bool := getItem m .magic item &&& memheapUsed != 0

/-- Marks a new block as free and as one of the pool. -/
def newItem (m : Memory) (pool item : Nat) : Memory :=
  setItem (setItem m .magic item memheapMagic) .poolPtr item pool

/-- Breaks the block list between `header` and the block after it. -/
def insertBlock (m : Memory) (header new : Nat) : Memory :=
  let m := setItem m .prev new header
  let m := setItem m .next new (getItem m .next header)
  let m := setItem m .prev (getItem m .next header) new
  setItem m .next header new

/-- Takes the block after `item` out of the block list. -/
def mergeNext (m : Memory) (item : Nat) : Memory :=
  let next := getItem m .next item
  let m := setItem m .prev (getItem m .next next) item
  setItem m .next item (getItem m .next next)

/-- Takes `item` out of the block list. -/
def mergePrev (m : Memory) (item : Nat) : Memory :=
  let m := setItem m .next (getItem m .prev item) (getItem m .next item)
  setItem m .prev (getItem m .next item) (getItem m .prev item)

def removeFree (m : Memory) (item : Nat) : Memory :=
  let m := setItem m .prevFree (getItem m .nextFree item) (getItem m .prevFree item)
  setItem m .nextFree (getItem m .prevFree item) (getItem m .nextFree item)

def insertFree (m : Memory) (freeList item : Nat) : Memory :=
  let m := setItem m .nextFree item (getItem m .nextFree freeList)
  let m := setItem m .prevFree item freeList
  let m := setItem m .prevFree (getItem m .nextFree freeList) item
  setItem m .nextFree freeList item

/-- A new `available_size`, and the most that has been in use. -/
def MemHeap.take (h : MemHeap) (availableSize : Nat) : MemHeap :=
  let used := wordSub h.poolSize availableSize
  { h with
    availableSize := availableSize
    maxUsedSize := if used > h.maxUsedSize then used else h.maxUsedSize }

section
variable (A : AlignSize)

/-- `RT_MEMHEAP_SIZE`. -/
def AlignSize.memheapSize : Nat := rtAlign A sizeofMemheapItem

/-- `MEMITEM_SIZE(item)`. -/
def memitemSize (m : Memory) (item : Nat) : Nat :=
  wordSub (wordSub (getItem m .next item) item) A.memheapSize

/-- The first block, then the tail. -/
def initBlocks (m : Memory) (self freeHeader startAddr availableSize : Nat) : Memory :=
  let m := setItem m .magic freeHeader memheapMagic
  let m := setItem m .poolPtr freeHeader self
  let m := setItem m .next freeHeader 0
  let m := setItem m .prev freeHeader 0
  let m := setItem m .nextFree freeHeader freeHeader
  let m := setItem m .prevFree freeHeader freeHeader
  let item := startAddr
  let m := setItem m .magic item memheapMagic
  let m := setItem m .poolPtr item self
  let m := setItem m .next item 0
  let m := setItem m .prev item 0
  let m := setItem m .nextFree item item
  let m := setItem m .prevFree item item
  let m := setItem m .next item (word (item + availableSize + A.memheapSize))
  let m := setItem m .prev item (getItem m .next item)
  let m := insertFree m freeHeader item
  let item := getItem m .next item
  let m := setItem m .magic item (memheapMagic ||| memheapUsed)
  let m := setItem m .poolPtr item self
  let m := setItem m .next item startAddr
  let m := setItem m .prev item startAddr
  let m := setItem m .prevFree item 0
  setItem m .nextFree item 0

def rtMemheapInit (m : Memory) (self freeHeader startAddr size : Nat) : MemHeap :=
  let poolSize := rtAlignDown A size
  let availableSize := wordSub poolSize (2 * A.memheapSize)
  { self, freeHeader, startAddr, poolSize, availableSize
    maxUsedSize := wordSub poolSize availableSize
    blockList := startAddr
    freeList := freeHeader
    mem := initBlocks A m self freeHeader startAddr availableSize }

/-- The size a request is rounded to. -/
def memheapAlign (size : Nat) : Nat :=
  if rtAlign A size < memheapMinialloc then memheapMinialloc else rtAlign A size

/-- The walk along the free list; `none` where it is out of fuel. -/
def searchFree (m : Memory) (freeList size : Nat) : Nat → Nat → Nat → Option (Nat × Nat)
  | 0, _, _ => none
  | n + 1, headerPtr, freeSize =>
    if headerPtr ≠ freeList ∧ freeSize < size then
      let freeSize := memitemSize A m headerPtr
      if freeSize < size then searchFree m freeList size n (getItem m .nextFree headerPtr) freeSize
      else searchFree m freeList size n headerPtr freeSize
    else some (headerPtr, freeSize)

/-- Hands out the block found, with what is over as a new free block where it is enough. -/
def carveBlock (h : MemHeap) (headerPtr freeSize size : Nat) : MemHeap :=
  let h :=
    if freeSize ≥ word (size + A.memheapSize + memheapMinialloc) then
      let newPtr := word (headerPtr + size + A.memheapSize)
      let m := insertBlock (newItem h.mem h.self newPtr) headerPtr newPtr
      let m := removeFree m headerPtr
      let m := setItem m .nextFree headerPtr 0
      let m := setItem m .prevFree headerPtr 0
      let m := insertFree m h.freeList newPtr
      { h with mem := m }.take (wordSub (wordSub h.availableSize size) A.memheapSize)
    else
      let m := removeFree h.mem headerPtr
      let m := setItem m .nextFree headerPtr 0
      let m := setItem m .prevFree headerPtr 0
      { h with mem := m }.take (wordSub h.availableSize freeSize)
  { h with mem := setItem h.mem .magic headerPtr (getItem h.mem .magic headerPtr ||| memheapUsed) }

/-- `none` where the walk does not end within the fuel. -/
def rtMemheapAlloc (fuel : Nat) (h : MemHeap) (size : Nat) : Option (MemHeap × Nat) :=
  let size := memheapAlign A size
  if size < h.availableSize then
    (searchFree A h.mem h.freeList size fuel (getItem h.mem .nextFree h.freeList) 0).map
      fun (headerPtr, freeSize) =>
        if freeSize ≥ size then
          (carveBlock A h headerPtr freeSize size, word (headerPtr + A.memheapSize))
        else (h, 0)
  else some (h, 0)

/-- The free block takes in the one behind it, if that is free too. -/
def mergeRight (m : Memory) (headerPtr available : Nat) : Memory × Nat :=
  let newPtr := getItem m .next headerPtr
  if memheapIsUsed m newPtr then (m, available)
  else (removeFree (mergeNext m headerPtr) newPtr, word (available + A.memheapSize))

/-- The part of `rt_memheap_free` that runs under the lock. -/
def memheapRelease (h : MemHeap) (headerPtr : Nat) : MemHeap :=
  let m := setItem h.mem .magic headerPtr (getItem h.mem .magic headerPtr &&& memheapMask)
  let available := word (h.availableSize + memitemSize A m headerPtr)
  let insertHeader := memheapIsUsed m (getItem m .prev headerPtr)
  let (m, headerPtr, available) :=
    if insertHeader then (m, headerPtr, available)
    else (mergePrev m headerPtr, getItem m .prev headerPtr, word (available + A.memheapSize))
  let (m, available) := mergeRight A m headerPtr available
  { h with
    mem := if insertHeader then insertFree m h.freeList headerPtr else m
    availableSize := available }

/-- `none` where an assertion fails, or the block belongs to another heap. -/
def rtMemheapFree (h : MemHeap) (ptr : Nat) : Option MemHeap :=
  if ptr = 0 then some h
  else do
    let headerPtr := wordSub ptr A.memheapSize
    rtAssert (getItem h.mem .magic headerPtr &&& memheapMask = memheapMagic)
    rtAssert (memheapIsUsed h.mem headerPtr)
    rtAssert (getItem h.mem .magic (getItem h.mem .next headerPtr) &&& memheapMask = memheapMagic)
    rtAssert (getItem h.mem .poolPtr headerPtr = h.self)
    some (memheapRelease A h headerPtr)

/-- The block at `ptr` takes what it lacks from the free block behind it. -/
def growInPlace (h : MemHeap) (headerPtr ptr oldsize newsize : Nat) : MemHeap :=
  let nextPtr := getItem h.mem .next headerPtr
  let m := removeFree h.mem nextPtr
  let m := setItem m .prev (getItem m .next nextPtr) (getItem m .prev nextPtr)
  let m := setItem m .next (getItem m .prev nextPtr) (getItem m .next nextPtr)
  let nextPtr := word (ptr + newsize)
  let m := insertBlock (newItem m h.self nextPtr) headerPtr nextPtr
  let m := insertFree m h.freeList nextPtr
  { h with mem := m }.take (wordSub h.availableSize (wordSub newsize oldsize))

/-- What is over at the end of the block becomes a free block, with the next one if that is free. -/
def memheapShrink (h : MemHeap) (headerPtr newsize : Nat) : MemHeap :=
  let newPtr := word (headerPtr + newsize + A.memheapSize)
  let m := insertBlock (newItem h.mem h.self newPtr) headerPtr newPtr
  let freePtr := getItem m .next newPtr
  let (m, available) :=
    if memheapIsUsed m freePtr then (m, h.availableSize)
    else (removeFree (mergeNext m newPtr) freePtr, wordSub h.availableSize (memitemSize A m freePtr))
  let m := insertFree m h.freeList newPtr
  { h with mem := m, availableSize := word (available + memitemSize A m newPtr) }

/-- The data go to a new block, and the old one is freed. -/
def memheapMove (fuel : Nat) (h : MemHeap) (ptr oldsize newsize : Nat) : Option (MemHeap × Nat) := do
  let (h, newPtr) ← rtMemheapAlloc A fuel h newsize
  if newPtr ≠ 0 then
    let length := if oldsize < newsize then oldsize else newsize
    let h ← rtMemheapFree A { h with mem := rtMemcpy h.mem newPtr ptr length } ptr
    some (h, newPtr)
  else some (h, 0)

def rtMemheapRealloc (fuel : Nat) (h : MemHeap) (ptr newsize : Nat) : Option (MemHeap × Nat) :=
  if newsize = 0 then (rtMemheapFree A h ptr).map fun h => (h, 0)
  else
    let newsize := memheapAlign A newsize
    if ptr = 0 then rtMemheapAlloc A fuel h newsize
    else
      let headerPtr := wordSub ptr A.memheapSize
      let oldsize := memitemSize A h.mem headerPtr
      if newsize > oldsize then do
        let nextPtr := getItem h.mem .next headerPtr
        rtAssert (nextPtr > headerPtr)
        if memheapIsUsed h.mem nextPtr then memheapMove A fuel h ptr oldsize newsize
        else do
          rtAssert (nextPtr > 0)
          if word (memitemSize A h.mem nextPtr + oldsize) > word (newsize + memheapMinialloc) then
            some (growInPlace h headerPtr ptr oldsize newsize, ptr)
          else memheapMove A fuel h ptr oldsize newsize
      else if word (newsize + A.memheapSize + memheapMinialloc) ≥ oldsize then some (h, ptr)
      else some (memheapShrink A h headerPtr newsize, ptr)

end

end RTThread
