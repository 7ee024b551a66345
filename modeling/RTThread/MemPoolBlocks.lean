import RTThread.HeapHeaders
import RTThread.MemPoolWaiters
import RTThread.NodeLists

namespace RTThread

/-- From one block to the next, the link word in front of the block included. -/
def MemPool.stride (x : MemPool) : Nat := word (x.blockSize + 4)

/-- Where the blocks of the pool begin. -/
def MemPool.blocks (x : MemPool) : List Nat :=
  (List.range x.blockTotalCount).map fun i => x.startAddress + i * x.stride

/-- A block that `rt_mp_alloc` has handed out, told by where it begins. -/
structure PoolOwner where
  thread : ThreadId
  pool : ObjectId
  block : Nat
deriving DecidableEq

structure PoolUse where
  state : PoolState
  owners : List PoolOwner

/-- The blocks of `p` that somebody owns. -/
def PoolUse.owned (x : PoolUse) (p : ObjectId) : List Nat :=
  (x.owners.filter fun o => o.pool = p).map PoolOwner.block

/-- Calls on the pools, and the stores of the owners into their blocks. -/
inductive PoolUseAction where
  | call (a : PoolAction)
  | store (a v : Nat)

def handedOut (s : PoolState) (t : ThreadId) (p : ObjectId) : List PoolOwner :=
  if (s.pool p).blockFreeCount = 0 then [] else [⟨t, p, (s.pool p).blockList⟩]

def ownersAfter (s : PoolState) (os : List PoolOwner) : PoolAction → List PoolOwner
  | .alloc t p _ => handedOut s t p ++ os
  | .again t =>
    match s.frame t with
    | .again p _ => handedOut s t p ++ os
    | _ => os
  | .free block => os.filter fun o => o.block ≠ wordSub block 4
  | _ => os

def poolUseStep (x : PoolUse) : PoolUseAction → Option PoolUse
  | .call a => (poolStep x.state a).map fun s => ⟨s, ownersAfter x.state x.owners a⟩
  | .store a v => some { x with state := { x.state with mem := write8 x.state.mem a v } }

/-- Callers free and fill what they own, and no blocked allocation times out. -/
def PoolUseFits (pools : Set ObjectId) (x : PoolUse) : PoolUseAction → Prop
  | .call (.alloc _ p _) => p ∈ pools
  | .call (.free block) => ∃ o ∈ x.owners, block = o.block + 4
  | .call (.timeout t) => ∀ p time beforeSleep, x.state.frame t ≠ .waiting p time beforeSleep
  | .call _ => True
  | .store a _ => ∃ o ∈ x.owners, o.block + 4 ≤ a ∧
      a < o.block + 4 + (x.state.pool o.pool).blockSize

/-- The pool is as `rt_mp_init` or `rt_mp_create` leaves it, on memory that holds its blocks. -/
def FreshPool (A : AlignSize) (m : Memory) (x : MemPool) : Prop :=
  0 < x.startAddress ∧ 0 < x.size ∧ 0 < x.blockTotalCount ∧
    x.startAddress + x.blockTotalCount * x.stride ≤ 4294967296 ∧
    ∃ m0 m1 size blockSize, (rtMpInit A m0 x.startAddress size blockSize = (m1, x) ∨
        rtMpCreate A m0 x.startAddress size blockSize = some (m1, x)) ∧
      ∀ a, x.startAddress ≤ a → a < x.startAddress + x.blockTotalCount * x.stride →
        m.byte a = m1.byte a

/-- The blocks of two pools share no byte. -/
def MemPool.Apart (x y : MemPool) : Prop :=
  x.startAddress + x.blockTotalCount * x.stride ≤ y.startAddress ∨
    y.startAddress + y.blockTotalCount * y.stride ≤ x.startAddress

/-- The pools just made, each on memory of its own; nobody owns a block or waits for one. -/
structure PoolsReady (A : AlignSize) (pools : Set ObjectId) (x : PoolUse) : Prop where
  owners : x.owners = []
  frame : ∀ t, x.state.frame t = .outside
  address : ∀ p ∈ pools, p < 4294967296
  fresh : ∀ p ∈ pools, FreshPool A x.state.mem (x.state.pool p)
  apart : ∀ p ∈ pools, ∀ q ∈ pools, p ≠ q → (x.state.pool p).Apart (x.state.pool q)

/-- The free list has the counted number of different blocks; every block is on it or has one owner
and the pool's address in its link word. -/
def BlocksConserved (x : PoolUse) (p : ObjectId) : Prop :=
  ∃ free, NodeList (read32 x.state.mem) 0 (x.state.pool p).blockList free ∧ free.Nodup ∧
    free.length = (x.state.pool p).blockFreeCount ∧ (∀ b ∈ free, b ∈ (x.state.pool p).blocks) ∧
    ∀ b ∈ (x.state.pool p).blocks,
      b ∈ free ∧ (∀ o ∈ x.owners, o.block ≠ b) ∨
      b ∉ free ∧ read32 x.state.mem b = p ∧
        ∃ t, x.owners.filter (fun o => o.block = b) = [⟨t, p, b⟩]

/-- An allocator that has been woken looks at the pool again, and waits once more where it finds it
empty and has time left. -/
def WokenWaitsAgain (s : PoolState) (t : ThreadId) : Prop :=
  (s.thread t).stat = .ready →
    (∀ p time beforeSleep, s.frame t = .waiting p time beforeSleep →
      ∃ s', poolStep s (.wake t) = some s' ∧
        s'.frame t = .again p (remainingTime time s.tick beforeSleep)) ∧
    ∀ p time, s.frame t = .again p time → (s.pool p).blockFreeCount = 0 → time ≠ 0 →
      ∃ s' beforeSleep, poolStep s (.again t) = some s' ∧
        s'.frame t = .waiting p time beforeSleep ∧ t ∈ s'.waiters p ∧ (s'.thread t).stat = .suspend

/-- The blocks of the pool lie in the address space and do not overlap. -/
structure PoolRegion (x : MemPool) : Prop where
  start : 0 < x.startAddress
  stride : x.stride = x.blockSize + 4
  room : x.startAddress + x.blockTotalCount * x.stride ≤ 4294967296

structure FreeBlocks (m : Memory) (x : MemPool) (owned free : List Nat) : Prop where
  list : NodeList (read32 m) 0 x.blockList free
  count : x.blockFreeCount = free.length
  blocks : (free ++ owned).Perm x.blocks

structure PoolBlocksInv (pools : Set ObjectId) (x : PoolUse) : Prop where
  address : ∀ p ∈ pools, p < 4294967296
  region : ∀ p ∈ pools, PoolRegion (x.state.pool p)
  apart : ∀ p ∈ pools, ∀ q ∈ pools, p ≠ q → (x.state.pool p).Apart (x.state.pool q)
  free : ∀ p ∈ pools, ∃ free, FreeBlocks x.state.mem (x.state.pool p) (x.owned p) free
  owners : ∀ o ∈ x.owners, o.pool ∈ pools ∧ read32 x.state.mem o.block = o.pool
  waiting : ∀ t p time beforeSleep, x.state.frame t = .waiting p time beforeSleep →
    p ∈ pools ∧ (x.state.thread t).error = .eok
  again : ∀ t p time, x.state.frame t = .again p time → p ∈ pools

section
variable {A : AlignSize} {pools : Set ObjectId} {x : PoolUse} {s s' : PoolState} {p q : ObjectId}
  {t : ThreadId} {y z : MemPool} {m m' : Memory} {b c n i : Nat} {owned free : List Nat} {o : PoolOwner}
  {time : Int}

theorem mem_blocks : b ∈ y.blocks ↔ ∃ i < y.blockTotalCount, b = y.startAddress + i * y.stride := by
  simp [MemPool.blocks, eq_comm]

theorem blocks_inside (hb : b ∈ y.blocks) :
    y.startAddress ≤ b ∧ b + y.stride ≤ y.startAddress + y.blockTotalCount * y.stride := by
  obtain ⟨i, hi, rfl⟩ := mem_blocks.mp hb
  have hle : (i + 1) * y.stride ≤ y.blockTotalCount * y.stride := Nat.mul_le_mul_right _ hi
  rw [Nat.add_mul, Nat.one_mul] at hle
  omega

/-- Two blocks of a pool are apart. -/
theorem blocks_apart (hb : b ∈ y.blocks) (hc : c ∈ y.blocks) (hne : b ≠ c) :
    b + y.stride ≤ c ∨ c + y.stride ≤ b := by
  obtain ⟨i, -, rfl⟩ := mem_blocks.mp hb
  obtain ⟨j, -, rfl⟩ := mem_blocks.mp hc
  have hstep : ∀ {i j : Nat}, i < j → i * y.stride + y.stride ≤ j * y.stride := by
    intro i j hij
    have hle : (i + 1) * y.stride ≤ j * y.stride := Nat.mul_le_mul_right _ hij
    rwa [Nat.add_mul, Nat.one_mul] at hle
  rcases Nat.lt_trichotomy i j with hij | rfl | hij
  · have := hstep hij
    omega
  · exact absurd rfl hne
  · have := hstep hij
    omega

theorem PoolRegion.nodup (h : PoolRegion y) : y.blocks.Nodup := by
  refine List.Nodup.map ?_ List.nodup_range
  intro i j hij
  have hstride := h.stride
  have hmul : i * y.stride = j * y.stride := by
    simp only at hij
    omega
  exact Nat.eq_of_mul_eq_mul_right (by omega) hmul

theorem PoolRegion.total_lt (h : PoolRegion y) : y.blockTotalCount < 4294967296 := by
  obtain ⟨hstart, hstride, hroom⟩ := h
  have hle : y.blockTotalCount * 1 ≤ y.blockTotalCount * y.stride :=
    Nat.mul_le_mul_left _ (by omega)
  omega

/-- A block of a pool, free or not. -/
theorem FreeBlocks.mem (h : FreeBlocks m y owned free) (hb : b ∈ free ∨ b ∈ owned) : b ∈ y.blocks :=
  h.blocks.mem_iff.mp (List.mem_append.mpr hb)

theorem mem_owned (ho : o ∈ x.owners) : o.block ∈ x.owned o.pool :=
  List.mem_map.mpr ⟨o, List.mem_filter.mpr ⟨ho, by simp⟩, rfl⟩

theorem PoolBlocksInv.owner_block (h : PoolBlocksInv pools x) (ho : o ∈ x.owners) :
    o.block ∈ (x.state.pool o.pool).blocks := by
  obtain ⟨free, hf⟩ := h.free o.pool (h.owners o ho).1
  exact hf.mem (Or.inr (mem_owned ho))

/-- What is stored from `a` on, next to the blocks of the pools. -/
theorem PoolBlocksInv.apart_block (h : PoolBlocksInv pools x) (hp : p ∈ pools) (hq : q ∈ pools)
    (hb : b ∈ (x.state.pool p).blocks) (hc : c ∈ (x.state.pool q).blocks) (hne : b ≠ c) :
    b + (x.state.pool p).stride ≤ c ∨ c + (x.state.pool q).stride ≤ b := by
  by_cases hpq : p = q
  · subst hpq
    exact blocks_apart hb hc hne
  · have hib := blocks_inside hb
    have hic := blocks_inside hc
    rcases h.apart p hp q hq hpq with hlt | hlt <;> omega

/-- A write into one block leaves the link words of the others. -/
theorem PoolBlocksInv.link_kept (h : PoolBlocksInv pools x) (hp : p ∈ pools) (hq : q ∈ pools)
    (hb : b ∈ (x.state.pool p).blocks) (hc : c ∈ (x.state.pool q).blocks) (hne : b ≠ c)
    (hout : ∀ a, a < b ∨ b + (x.state.pool p).stride ≤ a → m.byte a = x.state.mem.byte a) :
    read32 m c = read32 x.state.mem c := by
  have hstride := (h.region q hq).stride
  have happ := h.apart_block hp hq hb hc hne
  exact read32_congr fun a _ _ => hout a (by omega)

/-- What a step that only moves threads leaves. -/
theorem PoolBlocksInv.congr (h : PoolBlocksInv pools x)
    (hpool : ∀ p, ∃ n, s'.pool p = { x.state.pool p with suspendThreadCount := n })
    (hmem : s'.mem = x.state.mem)
    (hwaiting : ∀ t p time beforeSleep, s'.frame t = .waiting p time beforeSleep →
      p ∈ pools ∧ (s'.thread t).error = .eok)
    (hagain : ∀ t p time, s'.frame t = .again p time → p ∈ pools) :
    PoolBlocksInv pools ⟨s', x.owners⟩ := by
  refine ⟨h.address, fun p hp => ?_, fun p hp q hq hne => ?_, fun p hp => ?_, fun o ho => ?_,
    hwaiting, hagain⟩
  · obtain ⟨n, hn⟩ := hpool p
    obtain ⟨h1, h2, h3⟩ := h.region p hp
    show PoolRegion (s'.pool p)
    rw [hn]
    exact ⟨h1, h2, h3⟩
  · obtain ⟨n, hn⟩ := hpool p
    obtain ⟨k, hk⟩ := hpool q
    show (s'.pool p).Apart (s'.pool q)
    rw [hn, hk]
    exact h.apart p hp q hq hne
  · obtain ⟨n, hn⟩ := hpool p
    obtain ⟨free, h1, h2, h3⟩ := h.free p hp
    refine ⟨free, ?_⟩
    show FreeBlocks s'.mem (s'.pool p) (x.owned p) free
    rw [hn, hmem]
    exact ⟨h1, h2, h3⟩
  · rw [hmem]
    exact h.owners o ho

theorem write32_block {v : Nat} (hstride : y.stride = y.blockSize + 4) :
    ∀ a, a < b ∨ b + y.stride ≤ a → (write32 m b v).byte a = m.byte a :=
  fun a ha => write32_outside (by omega)

/-- Two pools never share a block. -/
theorem PoolBlocksInv.other_block (h : PoolBlocksInv pools x) (hp : p ∈ pools) (hq : q ∈ pools)
    (hpq : q ≠ p) (hb : b ∈ (x.state.pool p).blocks) (hc : c ∈ (x.state.pool q).blocks) : b ≠ c := by
  rintro rfl
  have hib := blocks_inside hb
  have hic := blocks_inside hc
  have hsp := (h.region p hp).stride
  have hsq := (h.region q hq).stride
  rcases h.apart q hq p hp hpq with hlt | hlt <;> omega

/-- A step that rewrites the link word of one block of `p` leaves the other pools as they are. -/
theorem PoolBlocksInv.relink {os : List PoolOwner} {l k v : Nat} (h : PoolBlocksInv pools x)
    (hp : p ∈ pools) (hb : b ∈ (x.state.pool p).blocks)
    (hself : s'.pool p = { x.state.pool p with
      blockFreeCount := n, blockList := l, suspendThreadCount := k })
    (hpool : ∀ q, q ≠ p → s'.pool q = x.state.pool q) (hmem : s'.mem = write32 x.state.mem b v)
    (howned : ∀ q, q ≠ p → PoolUse.owned ⟨s', os⟩ q = x.owned q)
    (hfree : ∃ free, FreeBlocks s'.mem (s'.pool p) (PoolUse.owned ⟨s', os⟩ p) free)
    (howners : ∀ o ∈ os, o.pool ∈ pools ∧ read32 s'.mem o.block = o.pool)
    (hwaiting : ∀ t p time beforeSleep, s'.frame t = .waiting p time beforeSleep →
      p ∈ pools ∧ (s'.thread t).error = .eok)
    (hagain : ∀ t p time, s'.frame t = .again p time → p ∈ pools) : PoolBlocksInv pools ⟨s', os⟩ := by
  have hstride := (h.region p hp).stride
  have hregion : ∀ q ∈ pools, PoolRegion (s'.pool q) := by
    intro q hq
    obtain ⟨h1, h2, h3⟩ := h.region q hq
    by_cases hqp : q = p
    · subst hqp
      rw [hself]
      exact ⟨h1, h2, h3⟩
    · rw [hpool q hqp]
      exact ⟨h1, h2, h3⟩
  have hplace : ∀ q, (s'.pool q).startAddress = (x.state.pool q).startAddress ∧
      (s'.pool q).blockTotalCount = (x.state.pool q).blockTotalCount ∧
      (s'.pool q).stride = (x.state.pool q).stride := by
    intro q
    by_cases hqp : q = p
    · subst hqp
      rw [hself]
      exact ⟨rfl, rfl, rfl⟩
    · rw [hpool q hqp]
      exact ⟨rfl, rfl, rfl⟩
  refine ⟨h.address, hregion, fun q hq r hr hqr => ?_, fun q hq => ?_, howners, hwaiting, hagain⟩
  · have happ := h.apart q hq r hr hqr
    obtain ⟨a1, a2, a3⟩ := hplace q
    obtain ⟨b1, b2, b3⟩ := hplace r
    unfold MemPool.Apart at happ ⊢
    rwa [a1, a2, a3, b1, b2, b3]
  · by_cases hqp : q = p
    · subst hqp
      exact hfree
    · obtain ⟨others, hf⟩ := h.free q hq
      refine ⟨others, ?_⟩
      show FreeBlocks s'.mem (s'.pool q) (PoolUse.owned ⟨s', os⟩ q) others
      rw [hpool q hqp, howned q hqp, hmem]
      refine ⟨hf.list.congr fun c hc => ?_, hf.count, hf.blocks⟩
      have hcq := hf.mem (Or.inl hc)
      exact h.link_kept hp hq hb hcq (h.other_block hp hq hqp hb hcq) (write32_block hstride)

/-- An owner of another block still has its header. -/
theorem PoolBlocksInv.owner_kept {v : Nat} (h : PoolBlocksInv pools x) (hp : p ∈ pools)
    (hb : b ∈ (x.state.pool p).blocks) (ho : o ∈ x.owners) (hne : b ≠ o.block) :
    o.pool ∈ pools ∧ read32 (write32 x.state.mem b v) o.block = o.pool := by
  obtain ⟨hpool, hread⟩ := h.owners o ho
  refine ⟨hpool, ?_⟩
  rw [h.link_kept hp hpool hb (h.owner_block ho) hne (write32_block (h.region p hp).stride), hread]

theorem PoolBlocksInv.free_not_owned (h : PoolBlocksInv pools x) (hp : p ∈ pools)
    (hf : FreeBlocks x.state.mem (x.state.pool p) (x.owned p) free) (hb : b ∈ free) :
    ∀ o ∈ x.owners, b ≠ o.block := by
  intro o ho
  have hbp := hf.mem (Or.inl hb)
  by_cases hop : o.pool = p
  · have hnodup := hf.blocks.nodup_iff.mpr (h.region p hp).nodup
    rintro rfl
    exact (List.nodup_append.mp hnodup).2.2 _ hb _ (hop ▸ mem_owned ho) rfl
  · exact h.other_block hp (h.owners o ho).1 hop hbp (h.owner_block ho)

theorem mpTakeBlock_spec (hm : mpTakeBlock s p = some s') :
    s'.pool p = { s.pool p with
      blockFreeCount := (s.pool p).blockFreeCount - 1,
      blockList := read32 s.mem (s.pool p).blockList,
      suspendThreadCount := (s.pool p).suspendThreadCount } ∧
    (∀ q, q ≠ p → s'.pool q = s.pool q) ∧ s'.mem = write32 s.mem (s.pool p).blockList p ∧
    s'.frame = s.frame ∧ s'.toThreads = s.toThreads := by
  simp only [mpTakeBlock, Option.bind_eq_bind, Option.bind_eq_some_iff] at hm
  obtain ⟨-, -, hm⟩ := hm
  obtain rfl := Option.some.inj hm
  exact ⟨Function.update_self .., fun q hq => Function.update_of_ne hq .., rfl, rfl, rfl⟩

theorem owned_cons : PoolUse.owned ⟨s, o :: x.owners⟩ q =
    if o.pool = q then o.block :: x.owned q else x.owned q := by
  unfold PoolUse.owned
  rw [List.filter_cons]
  by_cases hq : o.pool = q <;> simp [hq]

/-- Leaving `rt_mp_alloc` makes nobody wait. -/
theorem setFrame_outside {f : AllocFrame} {u : ThreadId}
    (hu : (s.setFrame t .outside).frame u = f) (hf : f ≠ .outside) : s.frame u = f := by
  by_cases hut : u = t
  · subst hut
    exact absurd (hu.symm.trans (Function.update_self ..)) hf
  · exact (Function.update_of_ne hut ..).symm.trans hu

/-- The first block of the list goes to the thread. -/
theorem PoolBlocksInv.take (h : PoolBlocksInv pools x) (hp : p ∈ pools)
    (hcount : (x.state.pool p).blockFreeCount ≠ 0) (hm : mpTakeBlock x.state p = some s') :
    PoolBlocksInv pools ⟨s'.setFrame t .outside, ⟨t, p, (x.state.pool p).blockList⟩ :: x.owners⟩ := by
  obtain ⟨free, hf⟩ := h.free p hp
  rcases free with _ | ⟨b, free⟩
  · exact absurd hf.count hcount
  obtain ⟨hb, hne, hrest⟩ := nodeList_cons.mp hf.list
  have hbp : b ∈ (x.state.pool p).blocks := hf.mem (Or.inl List.mem_cons_self)
  have hsplit : (b :: (free ++ x.owned p)).Nodup := hf.blocks.nodup_iff.mpr (h.region p hp).nodup
  obtain ⟨hbout, -⟩ := List.nodup_cons.mp hsplit
  rw [List.mem_append, not_or] at hbout
  obtain ⟨hself, hother, hmem, hframe, hthreads⟩ := mpTakeBlock_spec hm
  rw [hb] at hself hmem ⊢
  refine h.relink hp hbp hself hother hmem (fun q hq => ?_) ⟨free, ?_⟩ (fun o ho => ?_)
    (fun u q time beforeSleep hu => ?_) (fun u q time hu => ?_)
  · rw [owned_cons, if_neg fun he => hq he.symm]
  · show FreeBlocks s'.mem (s'.pool p) (PoolUse.owned ⟨_, ⟨t, p, b⟩ :: x.owners⟩ p) free
    rw [owned_cons, if_pos rfl, hself, hmem]
    refine ⟨hrest.congr fun c hc => ?_, ?_, List.perm_middle.trans hf.blocks⟩
    · have hcp := hf.mem (Or.inl (List.mem_cons_of_mem b hc))
      exact h.link_kept hp hp hbp hcp (fun he => hbout.1 (he ▸ hc))
        (write32_block (h.region p hp).stride)
    · show (x.state.pool p).blockFreeCount - 1 = free.length
      rw [hf.count, List.length_cons, Nat.add_sub_cancel]
  · show o.pool ∈ pools ∧ read32 s'.mem o.block = o.pool
    rw [hmem]
    rcases List.mem_cons.mp ho with rfl | ho
    · exact ⟨hp, (read32_write32_same _ _ _).trans (word_of_lt (h.address p hp))⟩
    · exact h.owner_kept hp hbp ho (h.free_not_owned hp hf List.mem_cons_self o ho)
  · have hu' := setFrame_outside hu (fun he => AllocFrame.noConfusion he)
    rw [hframe] at hu'
    show q ∈ pools ∧ (s'.thread u).error = .eok
    rw [hthreads]
    exact h.waiting u q time beforeSleep hu'
  · have hu' := setFrame_outside hu (fun he => AllocFrame.noConfusion he)
    rw [hframe] at hu'
    exact h.again u q time hu'

theorem rtThreadResume_error {s : Threads} {u : ThreadId} :
    ((rtThreadResume s t).thread u).error = (s.thread u).error := by
  unfold rtThreadResume
  split
  · by_cases hu : u = t
    · subst hu
      simp [rtScheduleInsertThread, stopThreadTimer]
    · simp [rtScheduleInsertThread, stopThreadTimer, hu]
  · rfl

theorem mpResumeFirst_spec (hm : mpResumeFirst s p = some s') :
    (∃ k, s'.pool p = { s.pool p with suspendThreadCount := k }) ∧
    (∀ q, q ≠ p → s'.pool q = s.pool q) ∧ s'.mem = s.mem ∧ s'.frame = s.frame ∧
    ∀ u, (s.thread u).error = .eok → (s'.thread u).error = .eok := by
  unfold mpResumeFirst at hm
  split at hm
  next => cases hm
  next n ns hw =>
    obtain rfl := Option.some.inj hm
    refine ⟨⟨_, Function.update_self ..⟩, fun q hq => Function.update_of_ne hq .., rfl, rfl,
      fun u hu => ?_⟩
    show ((rtThreadResume (setError s.toThreads n .eok) n).thread u).error = .eok
    rw [rtThreadResume_error]
    by_cases hun : u = n
    · subst hun
      simp [setError]
    · simpa [setError, hun] using hu

/-- `rt_mp_free` puts the block in front of the free list of its pool. -/
theorem rtMpFree_spec {block : Nat} (hm : rtMpFree s block = some s')
    (hp : read32 s.mem (wordSub block 4) = p) :
    (∃ k, s'.pool p = { s.pool p with
      blockFreeCount := word ((s.pool p).blockFreeCount + 1),
      blockList := wordSub block 4,
      suspendThreadCount := k }) ∧
    (∀ q, q ≠ p → s'.pool q = s.pool q) ∧
    s'.mem = write32 s.mem (wordSub block 4) (s.pool p).blockList ∧ s'.frame = s.frame ∧
    ∀ u, (s.thread u).error = .eok → (s'.thread u).error = .eok := by
  simp only [rtMpFree, hp] at hm
  split at hm
  next =>
    obtain ⟨⟨k, hself⟩, hother, hmem, hframe, herror⟩ := mpResumeFirst_spec hm
    refine ⟨⟨k, hself.trans ?_⟩, fun q hq => (hother q hq).trans (Function.update_of_ne hq ..), hmem,
      hframe, herror⟩
    show ({ Function.update s.pool p _ p with suspendThreadCount := k } : MemPool) = _
    rw [Function.update_self]
  next =>
    obtain rfl := Option.some.inj hm
    exact ⟨⟨_, Function.update_self ..⟩, fun q hq => Function.update_of_ne hq .., rfl, rfl,
      fun u hu => hu⟩

theorem owned_filter : PoolUse.owned ⟨s, x.owners.filter fun o => o.block ≠ b⟩ q =
    (x.owned q).filter (· ≠ b) := by
  unfold PoolUse.owned
  rw [List.filter_map, List.filter_filter, List.filter_filter]
  congr 1
  refine List.filter_congr fun o _ => ?_
  show (_ && _) = (_ && _)
  exact Bool.and_comm _ _

/-- A block comes back from its owner. -/
theorem PoolBlocksInv.give (h : PoolBlocksInv pools x) (ho : o ∈ x.owners)
    (hm : rtMpFree x.state (o.block + 4) = some s') :
    PoolBlocksInv pools ⟨s', x.owners.filter fun u => u.block ≠ o.block⟩ := by
  obtain ⟨hp, hread⟩ := h.owners o ho
  obtain ⟨free, hf⟩ := h.free o.pool hp
  have hbp := h.owner_block ho
  have hinside := blocks_inside hbp
  obtain ⟨hstart, hstride, hroom⟩ := h.region o.pool hp
  have hptr : wordSub (o.block + 4) 4 = o.block := by
    unfold wordSub
    omega
  have hpool : read32 x.state.mem (wordSub (o.block + 4) 4) = o.pool := by rw [hptr, hread]
  obtain ⟨⟨k, hself⟩, hother, hmem, hframe, herror⟩ := rtMpFree_spec hm hpool
  rw [hptr] at hself hmem
  have hnodup : (free ++ x.owned o.pool).Nodup :=
    hf.blocks.nodup_iff.mpr (h.region o.pool hp).nodup
  obtain ⟨-, hnowned, hdisjoint⟩ := List.nodup_append.mp hnodup
  have hbowned := mem_owned ho
  have hbfree : o.block ∉ free := fun hb => hdisjoint _ hb _ hbowned rfl
  have hlist : (x.state.pool o.pool).blockList < 4294967296 := by
    rcases free with _ | ⟨c, free⟩
    · rw [nodeList_nil.mp hf.list]
      decide
    · rw [(nodeList_cons.mp hf.list).1]
      have hc := blocks_inside (hf.mem (Or.inl List.mem_cons_self))
      omega
  have hlink : read32 s'.mem o.block = (x.state.pool o.pool).blockList := by
    rw [hmem, read32_write32_same, word_of_lt hlist]
  refine h.relink hp hbp hself hother hmem (fun q hq => ?_) ⟨o.block :: free, ?_⟩ (fun u hu => ?_)
    (fun u q time beforeSleep hu => ?_) (fun u q time hu => ?_)
  · rw [owned_filter]
    refine List.filter_eq_self.mpr fun b hb => ?_
    obtain ⟨u, hu, rfl⟩ := List.mem_map.mp hb
    obtain ⟨huo, huq⟩ := List.mem_filter.mp hu
    have hupool : u.pool = q := by simpa using huq
    have hne := h.other_block hp (h.owners u huo).1 (hupool ▸ hq) hbp (h.owner_block huo)
    simpa using hne.symm
  · rw [owned_filter, hself]
    have hrest : NodeList (read32 s'.mem) 0 (x.state.pool o.pool).blockList free := by
      refine hf.list.congr fun c hc => ?_
      rw [hmem]
      exact h.link_kept hp hp hbp (hf.mem (Or.inl hc)) (fun he => hbfree (he ▸ hc))
        (write32_block hstride)
    refine ⟨nodeList_cons.mpr ⟨rfl, by omega, ?_⟩, ?_, ?_⟩
    · rw [hlink]
      exact hrest
    · show word ((x.state.pool o.pool).blockFreeCount + 1) = free.length + 1
      have hlen := hf.blocks.length_eq
      have hpos := List.length_pos_of_mem hbowned
      have htotal := (h.region o.pool hp).total_lt
      rw [List.length_append, MemPool.blocks, List.length_map, List.length_range] at hlen
      rw [hf.count, word_of_lt (by omega)]
    · have herase : (x.owned o.pool).filter (· ≠ o.block) = (x.owned o.pool).erase o.block := by
        rw [hnowned.erase_eq_filter]
        exact List.filter_congr fun u _ => by simp [bne, beq_eq_decide]
      rw [herase]
      refine List.Perm.trans ?_ hf.blocks
      exact (List.perm_middle.symm).trans ((List.perm_cons_erase hbowned).symm.append_left free)
  · obtain ⟨huo, hne⟩ := List.mem_filter.mp hu
    have hne' : o.block ≠ u.block := fun he => of_decide_eq_true hne he.symm
    rw [hmem]
    exact h.owner_kept hp hbp huo hne'
  · rw [hframe] at hu
    obtain ⟨hq, he⟩ := h.waiting u q time beforeSleep hu
    exact ⟨hq, herror u he⟩
  · rw [hframe] at hu
    exact h.again u q time hu

/-- An owner writes behind the link word of its block. -/
theorem PoolBlocksInv.store {a v : Nat} (h : PoolBlocksInv pools x) (ho : o ∈ x.owners)
    (hlo : o.block + 4 ≤ a) (hhi : a < o.block + 4 + (x.state.pool o.pool).blockSize) :
    PoolBlocksInv pools { x with state := { x.state with mem := write8 x.state.mem a v } } := by
  have hp := (h.owners o ho).1
  have hbp := h.owner_block ho
  have hstride := (h.region o.pool hp).stride
  have hkept : ∀ q ∈ pools, ∀ c ∈ (x.state.pool q).blocks,
      read32 (write8 x.state.mem a v) c = read32 x.state.mem c := by
    intro q hq c hc
    have hsq := (h.region q hq).stride
    refine read32_congr fun y _ _ => if_neg ?_
    by_cases hbc : o.block = c
    · omega
    · have happ := h.apart_block hp hq hbp hc hbc
      omega
  refine ⟨h.address, h.region, h.apart, fun q hq => ?_, fun u hu => ?_, h.waiting, h.again⟩
  · obtain ⟨free, hf⟩ := h.free q hq
    refine ⟨free, hf.list.congr fun c hc => ?_, hf.count, hf.blocks⟩
    exact hkept q hq c (hf.mem (Or.inl hc))
  · obtain ⟨hq, hread⟩ := h.owners u hu
    exact ⟨hq, (hkept u.pool hq u.block (h.owner_block hu)).trans hread⟩

theorem mpWait_spec (p : Nat) (time : Int) (hr : (s.thread t).stat = .ready) :
    (∀ q, ∃ n, (mpWait s p t time).pool q = { s.pool q with suspendThreadCount := n }) ∧
    (mpWait s p t time).mem = s.mem ∧
    (∃ b, (mpWait s p t time).frame = Function.update s.frame t (.waiting p time b)) ∧
    t ∈ (mpWait s p t time).waiters p ∧ ((mpWait s p t time).thread t).stat = .suspend ∧
    ((mpWait s p t time).thread t).error = .eok ∧
    ∀ u, u ≠ t → (mpWait s p t time).thread u = s.thread u := by
  have hr' : ((setError s.toThreads t .eok).thread t).stat = .ready := by
    simp [setError, hr]
  have htimer : ∀ th : Threads,
      (if 0 < time then startThreadTimer th t else th).waiters = th.waiters ∧
      ((if 0 < time then startThreadTimer th t else th).thread t).stat = (th.thread t).stat ∧
      ((if 0 < time then startThreadTimer th t else th).thread t).error = (th.thread t).error ∧
      ∀ u, u ≠ t → (if 0 < time then startThreadTimer th t else th).thread u = th.thread u := by
    intro th
    split
    · simp +contextual [startThreadTimer]
    · exact ⟨rfl, rfl, rfl, fun _ _ => rfl⟩
  obtain ⟨hw, hs, he, hu⟩ := htimer (suspendOnPool s.toThreads p t)
  refine ⟨fun q => ?_, rfl, ⟨_, rfl⟩, ?_, ?_, ?_, fun u hut => ?_⟩
  · by_cases hq : q = p
    · subst hq
      exact ⟨_, Function.update_self ..⟩
    · exact ⟨_, Function.update_of_ne hq ..⟩
  · show t ∈ (if 0 < time then startThreadTimer _ t else _ : Threads).waiters p
    rw [hw]
    simp [suspendOnPool]
  · refine hs.trans ?_
    show ((rtThreadSuspend (setError s.toThreads t .eok) t).thread t).stat = _
    rw [rtThreadSuspend_thread hr']
  · refine he.trans ?_
    show ((rtThreadSuspend (setError s.toThreads t .eok) t).thread t).error = _
    rw [rtThreadSuspend_thread hr']
    simp [setError]
  · refine (hu u hut).trans ?_
    show (rtThreadSuspend (setError s.toThreads t .eok) t).thread u = _
    rw [rtThreadSuspend_thread_ne hut, setError, Threads.set_ne hut]

/-- `rt_mp_alloc` up to its return or `rt_schedule()`. -/
theorem PoolBlocksInv.alloc (h : PoolBlocksInv pools x) (hp : p ∈ pools)
    (hr : (x.state.thread t).stat = .ready) (hm : mpAllocSection x.state p t time = some s') :
    PoolBlocksInv pools ⟨s', handedOut x.state t p ++ x.owners⟩ := by
  unfold mpAllocSection at hm
  unfold handedOut
  split at hm
  next hzero =>
    rw [if_pos hzero, List.nil_append]
    split at hm
    · obtain rfl := Option.some.inj hm
      refine h.congr (fun q => ⟨_, rfl⟩) rfl (fun u q time b hu => ?_) fun u q time hu => ?_
      · exact h.waiting u q time b (setFrame_outside hu fun he => AllocFrame.noConfusion he)
      · exact h.again u q time (setFrame_outside hu fun he => AllocFrame.noConfusion he)
    · obtain rfl := Option.some.inj hm
      obtain ⟨hpool, hmem, ⟨b, hframe⟩, -, -, herror, hother⟩ := mpWait_spec p time hr
      refine h.congr hpool hmem (fun u q time b hu => ?_) fun u q time hu => ?_
      · rw [hframe] at hu
        by_cases hut : u = t
        · subst hut
          rw [Function.update_self] at hu
          obtain ⟨rfl, -, -⟩ := AllocFrame.waiting.inj hu
          exact ⟨hp, herror⟩
        · rw [Function.update_of_ne hut] at hu
          rw [hother u hut]
          exact h.waiting u q time b hu
      · rw [hframe] at hu
        by_cases hut : u = t
        · subst hut
          rw [Function.update_self] at hu
          cases hu
        · rw [Function.update_of_ne hut] at hu
          exact h.again u q time hu
  next hcount =>
    rw [if_neg hcount]
    obtain ⟨s1, h1, rfl⟩ := Option.map_eq_some_iff.mp hm
    exact h.take hp hcount h1

/-- `rt_schedule()` has returned. -/
theorem PoolBlocksInv.wake (h : PoolBlocksInv pools x) (hm : mpWake x.state t = some s') :
    PoolBlocksInv pools ⟨s', x.owners⟩ := by
  unfold mpWake at hm
  split at hm
  next p time b hframe =>
    have hother : ∀ {f u}, u ≠ t → (x.state.setFrame t f).frame u = x.state.frame u :=
      fun hut => Function.update_of_ne hut ..
    split at hm
    · obtain rfl := Option.some.inj hm
      refine h.congr (fun q => ⟨_, rfl⟩) rfl (fun u q time b hu => ?_) fun u q time hu => ?_
      · exact h.waiting u q time b (setFrame_outside hu fun he => AllocFrame.noConfusion he)
      · exact h.again u q time (setFrame_outside hu fun he => AllocFrame.noConfusion he)
    · obtain rfl := Option.some.inj hm
      have hp := (h.waiting t p time b hframe).1
      refine h.congr (fun q => ⟨_, rfl⟩) rfl (fun u q time b hu => ?_) fun u q time hu => ?_
      · by_cases hut : u = t
        · subst hut
          cases (Function.update_self ..).symm.trans hu
        · exact h.waiting u q time b ((hother hut).symm.trans hu)
      · by_cases hut : u = t
        · subst hut
          obtain ⟨rfl, -⟩ := AllocFrame.again.inj ((Function.update_self ..).symm.trans hu)
          exact hp
        · exact h.again u q time ((hother hut).symm.trans hu)
  next => cases hm

theorem poolUseStep_inv {x' : PoolUse} {a : PoolUseAction} (h : PoolBlocksInv pools x)
    (hok : PoolUseFits pools x a) (hstep : poolUseStep x a = some x') : PoolBlocksInv pools x' := by
  cases a with
  | store a v =>
    obtain rfl := Option.some.inj hstep
    obtain ⟨o, ho, hlo, hhi⟩ := hok
    exact h.store ho hlo hhi
  | call a =>
    obtain ⟨s', hs, rfl⟩ := Option.map_eq_some_iff.mp hstep
    have hthread : ∀ {s' : PoolState}, s'.pool = x.state.pool → s'.mem = x.state.mem →
        s'.frame = x.state.frame → (∀ t p time b, x.state.frame t = .waiting p time b →
          (s'.thread t).error = (x.state.thread t).error) → PoolBlocksInv pools ⟨s', x.owners⟩ := by
      intro s' hpool hmem hframe herror
      refine h.congr (fun p => ⟨_, by rw [hpool]⟩) hmem (fun t p time b ht => ?_) fun t p time ht => ?_
      · rw [hframe] at ht
        rw [herror t p time b ht]
        exact h.waiting t p time b ht
      · rw [hframe] at ht
        exact h.again t p time ht
    cases a with
    | alloc t p time =>
      simp only [poolStep] at hs
      split at hs
      next hr => exact h.alloc hok hr.1 hs
      next => cases hs
    | wake t =>
      simp only [poolStep] at hs
      split at hs
      next =>
        exact h.wake hs
      next => cases hs
    | again t =>
      simp only [poolStep] at hs
      split at hs
      next p time hframe =>
        split at hs
        next hr =>
          have hafter : ownersAfter x.state x.owners (.again t) = handedOut x.state t p ++ x.owners := by
            simp only [ownersAfter, hframe]
          rw [hafter]
          exact h.alloc (h.again t p time hframe) hr hs
        next => cases hs
      next => cases hs
    | free block =>
      obtain ⟨o, ho, rfl⟩ := hok
      have hinside := blocks_inside (h.owner_block ho)
      have hregion := h.region o.pool (h.owners o ho).1
      have hptr : wordSub (o.block + 4) 4 = o.block := by
        have := hregion.room
        have := hregion.stride
        unfold wordSub
        omega
      have hafter : ownersAfter x.state x.owners (.free (o.block + 4)) =
          x.owners.filter fun u => u.block ≠ o.block := by
        simp only [ownersAfter, hptr]
      rw [hafter]
      exact h.give ho hs
    | timeout t =>
      obtain ⟨threads, ht, rfl⟩ := Option.map_eq_some_iff.mp hs
      obtain ⟨-, -, hother, -⟩ := rtThreadTimeout_spec ht
      refine hthread rfl rfl rfl fun u p time b hu => ?_
      show (threads.thread u).error = _
      rw [hother u]
      rintro rfl
      exact hok p time b hu
    | tick =>
      obtain rfl := Option.some.inj hs
      exact hthread rfl rfl rfl fun _ _ _ _ _ => rfl

theorem linkBlocks_read {k count : Nat} (hk : 4 ≤ k) (hroom : b + count * k ≤ 4294967296)
    (hi : i < count) : read32 (linkBlocks m b k count) (b + i * k) = word (b + (i + 1) * k) := by
  induction count with
  | zero => omega
  | succ count ih =>
    rw [Nat.add_mul, Nat.one_mul] at hroom
    rw [linkBlocks, word_of_lt (show b + count * k < 4294967296 by omega)]
    by_cases hlast : i = count
    · subst hlast
      rw [read32_write32_same, word_of_lt (word_lt _)]
    · have hstep : (i + 1) * k ≤ count * k := Nat.mul_le_mul_right k (by omega)
      rw [Nat.add_mul, Nat.one_mul] at hstep
      rw [read32_write32_disjoint _ (by omega)]
      exact ih (by omega) (by omega)

theorem initBlockList_read {k count : Nat} (hk : 4 ≤ k) (hroom : b + count * k ≤ 4294967296)
    (hcount : count < 4294967296) (hi : i < count) : read32 (initBlockList m b k count) (b + i * k) =
      if i + 1 = count then 0 else b + (i + 1) * k := by
  obtain ⟨n, rfl⟩ : ∃ n, count = n + 1 := ⟨count - 1, by omega⟩
  have hlast : wordSub (n + 1) 1 = n := by
    unfold wordSub
    omega
  rw [Nat.add_mul, Nat.one_mul] at hroom
  rw [initBlockList, hlast, word_of_lt (show b + n * k < 4294967296 by omega)]
  by_cases hin : i = n
  · subst hin
    rw [read32_write32_same, if_pos rfl]
    rfl
  · have hstep : (i + 1) * k ≤ n * k := Nat.mul_le_mul_right k (by omega)
    have hlt : b + (i + 1) * k < 4294967296 := by omega
    rw [if_neg (by omega), ← word_of_lt hlt]
    rw [Nat.add_mul, Nat.one_mul] at hstep
    have hroom' : b + (n + 1) * k ≤ 4294967296 := by
      rw [Nat.add_mul]
      omega
    rw [read32_write32_disjoint _ (by omega), linkBlocks_read hk hroom' hi]

/-- Blocks that each point to the next one, the last to null. -/
theorem nodeList_blocks {next : Nat → Nat} {k j count : Nat} (hb : 0 < b)
    (hnext : ∀ i, j ≤ i → i < j + count →
      next (b + i * k) = if i + 1 = j + count then 0 else b + (i + 1) * k) :
    NodeList next 0 (if count = 0 then 0 else b + j * k)
      ((List.range' j count).map fun i => b + i * k) := by
  induction count generalizing j with
  | zero => exact nodeList_nil.mpr rfl
  | succ count ih =>
    rw [List.range'_succ, List.map_cons, if_neg (by omega)]
    refine nodeList_cons.mpr ⟨rfl, by omega, ?_⟩
    have hrest := @ih (j + 1) fun i hlo hhi => by
      rw [hnext i (by omega) (by omega)]
      congr 1
      exact propext ⟨fun _ => by omega, fun _ => by omega⟩
    have hfirst := hnext j (Nat.le_refl j) (by omega)
    rw [hfirst]
    by_cases hzero : count = 0
    · subst hzero
      rw [if_pos rfl] at hrest ⊢
      exact hrest
    · rw [if_neg hzero] at hrest
      rw [if_neg (by omega)]
      exact hrest

/-- What `rt_mp_init` and `rt_mp_create` have in common. -/
theorem FreshPool.made (h : FreshPool A m y) : ∃ m0 blockSize,
    (∀ a, y.startAddress ≤ a → a < y.startAddress + y.blockTotalCount * y.stride →
      m.byte a = (initBlockList m0 y.startAddress y.stride y.blockTotalCount).byte a) ∧
    y.blockSize = rtAlign A blockSize ∧ y.blockList = y.startAddress ∧
    y.blockFreeCount = y.blockTotalCount ∧ y.stride ≠ 0 := by
  obtain ⟨-, hsize, htotal, -, m0, m1, size, blockSize, hmade | hmade, hsame⟩ := h
  · obtain ⟨rfl, hy⟩ := Prod.mk.inj hmade
    have hblock : y.blockSize = rtAlign A blockSize := congrArg MemPool.blockSize hy.symm
    have hcount : y.blockTotalCount = rtAlignDown A size / y.stride := by
      rw [MemPool.stride, hblock]
      exact congrArg MemPool.blockTotalCount hy.symm
    refine ⟨m0, blockSize, ?_, hblock, congrArg MemPool.blockList hy.symm, ?_, fun hzero => ?_⟩
    · rw [hcount, MemPool.stride, hblock] at hsame ⊢
      exact hsame
    · exact (congrArg MemPool.blockFreeCount hy.symm).trans (congrArg MemPool.blockTotalCount hy)
    · rw [hcount, hzero, Nat.div_zero] at htotal
      exact absurd htotal (Nat.lt_irrefl 0)
  · simp only [rtMpCreate] at hmade
    split at hmade
    next => cases hmade
    next =>
      obtain ⟨rfl, hy⟩ := Prod.mk.inj (Option.some.inj hmade)
      have hblock : y.blockSize = rtAlign A blockSize := congrArg MemPool.blockSize hy.symm
      have hcount : y.blockTotalCount = size := congrArg MemPool.blockTotalCount hy.symm
      refine ⟨m0, blockSize, ?_, hblock, congrArg MemPool.blockList hy.symm, ?_, fun hzero => ?_⟩
      · rw [hcount, MemPool.stride, hblock] at hsame ⊢
        exact hsame
      · exact (congrArg MemPool.blockFreeCount hy.symm).trans (congrArg MemPool.blockTotalCount hy)
      · have hwhole : y.size = word (y.stride * size) := by
          rw [MemPool.stride, hblock]
          exact congrArg MemPool.size hy.symm
        rw [hwhole, hzero, Nat.zero_mul] at hsize
        exact absurd hsize (by decide)

/-- A new pool has all its blocks on the free list. -/
theorem FreshPool.inv (h : FreshPool A m y) (hA : 2 ≤ A.log) :
    PoolRegion y ∧ FreeBlocks m y [] y.blocks := by
  obtain ⟨m0, blockSize, hsame, hblock, hlist, hfree, hne⟩ := h.made
  obtain ⟨hstart, -, htotal, hroom, -⟩ := h
  have hfour : 4 ∣ y.blockSize := by
    rw [hblock]
    exact dvd_trans (pow_dvd_pow 2 hA) (rtAlign_dvd A blockSize)
  have hlt : y.blockSize < 4294967296 := hblock ▸ rtAlign_lt A blockSize
  have hstride : y.stride = y.blockSize + 4 := by
    unfold MemPool.stride word at hne ⊢
    omega
  have hregion : PoolRegion y := ⟨hstart, hstride, hroom⟩
  refine ⟨hregion, ?_, ?_, by rw [List.append_nil]⟩
  · have hnodes : NodeList (read32 m) 0 (if y.blockTotalCount = 0 then 0 else y.startAddress + 0 * y.stride)
        ((List.range' 0 y.blockTotalCount).map fun i => y.startAddress + i * y.stride) := by
      refine nodeList_blocks hstart fun i _ hi => ?_
      have hin := blocks_inside (mem_blocks.mpr ⟨i, by omega, rfl⟩ : _ ∈ y.blocks)
      have hread := initBlockList_read (m := m0) (by omega : 4 ≤ y.stride) hroom hregion.total_lt
        (by omega : i < y.blockTotalCount)
      rw [Nat.zero_add, ← hread]
      exact read32_congr fun a _ _ => hsame a (by omega) (by omega)
    rw [if_neg (by omega), Nat.zero_mul, Nat.add_zero, ← List.range_eq_range'] at hnodes
    rw [hlist]
    exact hnodes
  · rw [hfree, MemPool.blocks, List.length_map, List.length_range]

theorem PoolsReady.inv (h : PoolsReady A pools x) (hA : 2 ≤ A.log) : PoolBlocksInv pools x := by
  refine ⟨h.address, fun p hp => ((h.fresh p hp).inv hA).1, h.apart, fun p hp => ?_, fun o ho => ?_,
    fun t p time b ht => ?_, fun t p time ht => ?_⟩
  · have howned : x.owned p = [] := by simp [PoolUse.owned, h.owners]
    rw [howned]
    exact ⟨_, ((h.fresh p hp).inv hA).2⟩
  · rw [h.owners] at ho
    cases ho
  · rw [h.frame t] at ht
    cases ht
  · rw [h.frame t] at ht
    cases ht

theorem filter_block_eq {os : List PoolOwner} (h : o ∈ os) (hn : (os.map PoolOwner.block).Nodup) :
    os.filter (fun u => u.block = o.block) = [o] := by
  induction os with
  | nil => cases h
  | cons u os ih =>
    rw [List.map_cons, List.nodup_cons] at hn
    rcases List.mem_cons.mp h with rfl | ho
    · have hnone : os.filter (fun u => u.block = o.block) = [] := by
        refine List.filter_eq_nil_iff.mpr fun u hu he => ?_
        exact hn.1 (of_decide_eq_true he ▸ List.mem_map_of_mem hu)
      rw [List.filter_cons_of_pos (by simp), hnone]
    · have hne : ¬u.block = o.block := fun he => hn.1 (he ▸ List.mem_map_of_mem ho)
      rw [List.filter_cons_of_neg (by simpa using hne), ih ho hn.2]

/-- What the invariant says of one pool. -/
theorem PoolBlocksInv.conserved (h : PoolBlocksInv pools x) (hp : p ∈ pools) : BlocksConserved x p := by
  obtain ⟨free, hf⟩ := h.free p hp
  have hnodup : (free ++ x.owned p).Nodup := hf.blocks.nodup_iff.mpr (h.region p hp).nodup
  obtain ⟨hnfree, hnowned, hdisjoint⟩ := List.nodup_append.mp hnodup
  refine ⟨free, hf.list, hnfree, hf.count.symm, fun b hb => hf.mem (Or.inl hb), fun b hb => ?_⟩
  rcases List.mem_append.mp (hf.blocks.mem_iff.mpr hb) with hfree | howned
  · exact Or.inl ⟨hfree, fun o ho => (h.free_not_owned hp hf hfree o ho).symm⟩
  · obtain ⟨o, ho, rfl⟩ := List.mem_map.mp howned
    obtain ⟨hox, hop⟩ := List.mem_filter.mp ho
    have hpool : o.pool = p := by simpa using hop
    refine Or.inr ⟨fun hfree => hdisjoint _ hfree _ howned rfl, ?_, o.thread, ?_⟩
    · rw [(h.owners o hox).2, hpool]
    · have hsame : x.owners.filter (fun u => u.block = o.block) =
          (x.owners.filter fun u => u.pool = p).filter fun u => u.block = o.block := by
        rw [List.filter_filter]
        refine List.filter_congr fun u hu => ?_
        by_cases hub : u.block = o.block
        · have hup : u.pool = p := by
            by_contra hup
            exact h.other_block hp (h.owners u hu).1 hup hb (h.owner_block hu) hub.symm
          simp [hub, hup]
        · simp [hub]
      rw [hsame, filter_block_eq ho hnowned, ← hpool]

/-- What the invariant says of a woken thread. -/
theorem PoolBlocksInv.woken (h : PoolBlocksInv pools x) (t : ThreadId) : WokenWaitsAgain x.state t := by
  intro hr
  refine ⟨fun p time b ht => ?_, fun p time ht hcount htime => ?_⟩
  · have he := (h.waiting t p time b ht).2
    refine ⟨x.state.setFrame t (.again p (remainingTime time x.state.tick b)), ?_,
      Function.update_self ..⟩
    simp only [poolStep, if_pos hr, mpWake, ht, he, ne_eq, not_true_eq_false, if_false]
  · obtain ⟨-, -, ⟨b, hframe⟩, hw, hs, -⟩ := mpWait_spec p time hr
    refine ⟨_, b, ?_, ?_, hw, hs⟩
    · simp only [poolStep, ht, if_pos hr, mpAllocSection, if_pos hcount, if_neg htime]
    · rw [hframe, Function.update_self]

/-- Runs of calls on the pools. -/
abbrev PoolUseReach (A : AlignSize) (pools : Set ObjectId) : PoolUse → Prop :=
  Reach poolUseStep (PoolUseFits pools) (PoolsReady A pools)

/-- No block of a pool is lost or handed out twice, and no woken thread leaves an empty pool while it
has time left. -/
theorem poolUseReach_conserves (hA : 2 ≤ A.log) (hr : PoolUseReach A pools x) (hp : p ∈ pools) :
    BlocksConserved x p ∧ ∀ t, WokenWaitsAgain x.state t := by
  have h : PoolBlocksInv pools x :=
    hr.invariant (fun _ hx => hx.inv hA) fun _ _ _ hx hok hs => poolUseStep_inv hx hok hs
  exact ⟨h.conserved hp, h.woken⟩

end

/-- A pool of two blocks at address 64. -/
def twoBlocks : PoolUse where
  state := { smallPools align4 with
    pool := fun _ => (rtMpInit align4 ⟨fun _ => 0⟩ 64 24 8).2
    mem := (rtMpInit align4 ⟨fun _ => 0⟩ 64 24 8).1 }
  owners := []

theorem twoBlocks_ready : PoolsReady align4 {1} twoBlocks := by
  refine ⟨rfl, fun _ => rfl, fun p hp => ?_, fun p hp => ?_, fun p hp q hq hne => ?_⟩
  · rw [Set.mem_singleton_iff.mp hp]
    decide
  · obtain rfl := Set.mem_singleton_iff.mp hp
    exact ⟨by decide, by decide +kernel, by decide +kernel, by decide +kernel, ⟨fun _ => 0⟩, _, 24, 8,
      Or.inl rfl, fun _ _ _ => rfl⟩
  · exact absurd ((Set.mem_singleton_iff.mp hp).trans (Set.mem_singleton_iff.mp hq).symm) hne

/-- Two threads take the blocks and a third one waits. -/
def bothTaken : PoolUse :=
  (runFrom poolUseStep [.call (.alloc 1 1 0), .call (.alloc 2 1 0), .call (.alloc 3 1 5)] twoBlocks).get
    (by decide +kernel)

theorem bothTaken_reach : PoolUseReach align4 {1} bothTaken := by
  refine Reach.runFrom (runMeets_of_forall fun _ a ha => ?_) (.start twoBlocks_ready)
    (Option.some_get _).symm
  simp only [List.mem_cons, List.not_mem_nil, or_false] at ha
  rcases ha with rfl | rfl | rfl <;> rfl

theorem poolUseReach_conserves_bothTaken :
    BlocksConserved bothTaken 1 ∧ ∀ t, WokenWaitsAgain bothTaken.state t :=
  poolUseReach_conserves (by decide) bothTaken_reach rfl

end RTThread
