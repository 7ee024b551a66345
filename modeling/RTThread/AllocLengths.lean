import RTThread.MemHeapAligned
import RTThread.ReallocShrinks

namespace RTThread

/-- `(n + 0x03) & ~0x03`. -/
def roundFour (n : Nat) : Nat := word (n + 3) &&& 0xfffffffc

/-- What `rt_malloc_align` asks `rt_malloc` for. -/
def mallocAlignSize (size align : Nat) : Nat := word (roundFour size + roundFour align)

/-- The address behind `ptr` that is handed out, for an `align` that is rounded already. -/
def alignPtr (ptr align : Nat) : Nat :=
  if ptr &&& wordSub align 1 = 0 then word (ptr + align)
  else word (ptr + wordSub align 1) &&& (4294967295 - wordSub align 1)

/-- `store s a v` puts the word `v` at the address `a`. -/
def rtMallocAlign {σ : Type} (rtMalloc : Nat → Option (σ × Nat)) (store : σ → Nat → Nat → σ)
    (size align : Nat) : Option (σ × Nat) :=
  (rtMalloc (mallocAlignSize size align)).map fun (s, ptr) =>
    if ptr ≠ 0 then
      let p := alignPtr ptr (roundFour align)
      (store s (wordSub p 4) ptr, p)
    else (s, 0)

/-- The pointer that `rt_free_align` hands to `rt_free`. -/
def rtFreeAlign (m : Memory) (ptr : Nat) : Nat := read32 m (wordSub ptr 4)

/-- A block of `len` bytes at `ptr` that `rt_malloc` may return for `n` bytes. A heap keeps an item
behind each block. -/
structure MallocBlock (n ptr len : Nat) : Prop where
  pos : 0 < ptr
  aligned : 4 ∣ ptr
  fits : ptr + len < 4294967296
  long : n ≤ len

/-- The address is aligned and has the user's bytes and the word in front of them in the block, and
whatever the user writes there `rt_free_align` finds the block again. -/
def AlignedRoundTrip (m : Memory) (ptr len size align : Nat) : Prop :=
  ∃ m' p, rtMallocAlign (fun _ => some (m, ptr)) write32 size align = some (m', p) ∧ align ∣ p ∧
    ptr + 4 ≤ p ∧ p + size ≤ ptr + len ∧
    ∀ m'', (∀ x, x < p ∨ p + size ≤ x → m''.byte x = m'.byte x) → rtFreeAlign m'' p = ptr

section
variable {m : Memory} {n k ptr len size align : Nat}

theorem roundFour_eq (n : Nat) : roundFour n = word (n + 3) / 4 * 4 := rtAlign_eq align4 n

theorem and_low_bits (hk : k < 32) : wordSub (2 ^ k) 1 = 2 ^ k - 1 := by
  have hlt : 2 ^ k < 2 ^ 32 := Nat.pow_lt_pow_right (by omega) hk
  exact wordSub_of_le (by omega) (Nat.two_pow_pos k)

/-- Both ways of moving up to the next multiple. -/
theorem alignPtr_eq (hk : k < 32) (hfits : ptr + 2 ^ k < 4294967296) :
    alignPtr ptr (2 ^ k) = (ptr / 2 ^ k + 1) * 2 ^ k := by
  have hpos := Nat.two_pow_pos k
  have hmod : ptr &&& (2 ^ k - 1) = ptr % 2 ^ k := Nat.and_two_pow_sub_one_eq_mod ptr k
  have hsplit := Nat.div_add_mod ptr (2 ^ k)
  rw [Nat.mul_comm] at hsplit
  unfold alignPtr
  rw [and_low_bits hk, hmod]
  by_cases hzero : ptr % 2 ^ k = 0
  · rw [if_pos hzero, word_of_lt hfits, Nat.add_mul, Nat.one_mul]
    omega
  · have hmask : 4294967295 - (2 ^ k - 1) = 4294967296 - 2 ^ k := by omega
    have hquot : (ptr + (2 ^ k - 1)) / 2 ^ k = ptr / 2 ^ k + 1 := by
      rw [Nat.div_eq_iff hpos]
      have hrem := Nat.mod_lt ptr hpos
      rw [Nat.add_mul, Nat.one_mul]
      omega
    rw [if_neg hzero, word_of_lt (by omega), hmask, and_high_bits (by omega) (by omega), hquot]

/-- The block has room for the bytes asked for behind the aligned address. -/
theorem alignedRoundTrip_of_fits (m : Memory) (hk : 2 ≤ k) (hk' : k < 32)
    (hsum : (size + 3) / 4 * 4 + 2 ^ k < 4294967296)
    (hb : MallocBlock (mallocAlignSize size (2 ^ k)) ptr len) :
    AlignedRoundTrip m ptr len size (2 ^ k) := by
  have hpos := Nat.two_pow_pos k
  have hfour : 4 ∣ 2 ^ k := pow_dvd_pow 2 hk
  obtain ⟨q, hq⟩ := hfour
  have halign : roundFour (2 ^ k) = 2 ^ k := by
    rw [roundFour_eq, word_of_lt (by omega)]
    omega
  have hround : roundFour size = (size + 3) / 4 * 4 := by
    rw [roundFour_eq, word_of_lt (by omega)]
  obtain ⟨hptr, ⟨r, hr⟩, hfits, hlong⟩ := hb
  rw [mallocAlignSize, halign, hround, word_of_lt hsum] at hlong
  have hp := alignPtr_eq hk' (show ptr + 2 ^ k < 4294967296 by omega)
  have hdvd : 2 ^ k ∣ alignPtr ptr (2 ^ k) := by
    rw [hp]
    exact Nat.dvd_mul_left _ _
  have hsplit := Nat.div_add_mod ptr (2 ^ k)
  have hrem := Nat.mod_lt ptr hpos
  rw [Nat.mul_comm] at hsplit
  rw [Nat.add_mul, Nat.one_mul] at hp
  -- both addresses are multiples of 4, so the word in front fits between them
  have hgap : ptr + 4 ≤ alignPtr ptr (2 ^ k) := by
    obtain ⟨t, ht⟩ : 4 ∣ alignPtr ptr (2 ^ k) := dvd_trans ⟨q, hq⟩ hdvd
    omega
  have hend : alignPtr ptr (2 ^ k) + size ≤ ptr + len := by omega
  refine ⟨write32 m (wordSub (alignPtr ptr (2 ^ k)) 4) ptr, alignPtr ptr (2 ^ k), ?_, hdvd, hgap, hend,
    fun m'' hsame => ?_⟩
  · simp only [rtMallocAlign, Option.map_some, halign]
    rw [if_pos (by omega)]
  · have hslot : wordSub (alignPtr ptr (2 ^ k)) 4 = alignPtr ptr (2 ^ k) - 4 :=
      wordSub_of_le (by omega) (by omega)
    rw [hslot] at hsame
    rw [rtFreeAlign, hslot, read32_congr fun x _ _ => hsame x (by omega), read32_write32_same]
    exact word_of_lt (by omega)

/-- The round trip holds of every block exactly where the sum of the two sizes does not wrap. -/
theorem mallocAlign_roundTrip_iff (hk : 2 ≤ k) (hk' : k < 32)
    (hsum : (size + 3) / 4 * 4 + 2 ^ k ≤ 4294967296) :
    (∀ m ptr len, MallocBlock (mallocAlignSize size (2 ^ k)) ptr len →
      AlignedRoundTrip m ptr len size (2 ^ k)) ↔ (size + 3) / 4 * 4 + 2 ^ k < 4294967296 := by
  constructor
  · intro hall
    by_contra hwraps
    have hhalf : 2 ^ k ≤ 2 ^ 31 := Nat.pow_le_pow_right (by omega) (by omega)
    have hpos := Nat.two_pow_pos k
    have hzero : mallocAlignSize size (2 ^ k) = 0 := by
      obtain ⟨q, hq⟩ : 4 ∣ 2 ^ k := pow_dvd_pow 2 hk
      have halign : roundFour (2 ^ k) = 2 ^ k := by
        rw [roundFour_eq, word_of_lt (by omega)]
        omega
      have hround : roundFour size = (size + 3) / 4 * 4 := by
        rw [roundFour_eq, word_of_lt (by omega)]
      rw [mallocAlignSize, halign, hround, show (size + 3) / 4 * 4 + 2 ^ k = 4294967296 by omega]
      rfl
    obtain ⟨m', p, -, -, hlo, hhi, -⟩ := hall ⟨fun _ => 0⟩ 4096 12
      ⟨by decide, by decide, by decide, by omega⟩
    omega
  · exact fun hfits m ptr len hb => alignedRoundTrip_of_fits m hk hk' hfits hb

end

/-- 100 bytes at a multiple of 16. -/
theorem mallocAlign_roundTrip_hundred : 2 ≤ 4 ∧ 4 < 32 ∧ (100 + 3) / 4 * 4 + 2 ^ 4 ≤ 4294967296 ∧
    ∀ m ptr len, MallocBlock (mallocAlignSize 100 (2 ^ 4)) ptr len →
      AlignedRoundTrip m ptr len 100 (2 ^ 4) :=
  ⟨by decide, by decide, by decide,
    (mallocAlign_roundTrip_iff (by decide) (by decide) (by decide)).mpr (by decide)⟩

/-- The sum wraps to 0, for which a memheap gives out its smallest block. -/
theorem wrapped_sum_overruns : (2147483648 + 3) / 4 * 4 + 2 ^ 31 ≤ 4294967296 ∧
    ∃ h', rtMemheapAlloc align4 9 wholePool.heap (mallocAlignSize 2147483648 (2 ^ 31)) =
        some (h', 4120) ∧ memitemSize align4 h'.mem 4096 = 12 ∧
      MallocBlock (mallocAlignSize 2147483648 (2 ^ 31)) 4120 12 ∧
      ¬AlignedRoundTrip h'.mem 4120 12 2147483648 (2 ^ 31) := by
  have hzero : mallocAlignSize 2147483648 (2 ^ 31) = 0 := by decide
  refine ⟨by decide, ?_⟩
  rw [hzero]
  have hnonnull : (rtMemheapAlloc align4 9 wholePool.heap 0).map
      (fun r => (r.2, memitemSize align4 r.1.mem 4096)) = some (4120, 12) := by decide +kernel
  obtain ⟨⟨h', p⟩, hm, hr⟩ := Option.map_eq_some_iff.mp hnonnull
  obtain ⟨hp, hlen⟩ := Prod.mk.inj hr
  dsimp only at hp hlen
  subst hp
  refine ⟨h', hm, hlen, ⟨by decide, by decide, by decide, by decide⟩, ?_⟩
  rintro ⟨m', p, -, -, hlo, hhi, -⟩
  omega

/-- `rt_malloc` where the memheaps serve it, `_heap` before the others of the object list. Each heap
stands with the memory of its own pool. -/
def rtMallocMemheaps (A : AlignSize) (fuel : Nat) : List MemHeap → Nat → Option (List MemHeap × Nat)
  | [], _ => some ([], 0)
  | h :: hs, size => do
    let (h, p) ← rtMemheapAlloc A fuel h size
    if p ≠ 0 then some (h :: hs, p)
    else (rtMallocMemheaps A fuel hs size).map fun (hs, p) => (h :: hs, p)

def rtCallocMemheaps (A : AlignSize) (fuel : Nat) (hs : List MemHeap) (count size : Nat) :
    Option (List MemHeap × Nat) := do
  let totalSize := word (count * size)
  let (hs, p) ← rtMallocMemheaps A fuel hs totalSize
  if p ≠ 0 then some (hs.map fun h => { h with mem := rtMemset h.mem p 0 totalSize }, p)
  else some (hs, p)

/-- The `size` bytes from `p` lie in the block of `p`, and that in the arena. -/
def HeapRegion (A : AlignSize) (size : Nat) (h : Heap) (p : Nat) : Prop :=
  h.heapPtr + A.sizeofStructMem ≤ p ∧ p + size ≤ usableEnd A h p ∧ usableEnd A h p ≤ h.heapPtr + h.heapEnd

/-- The `size` bytes from `p` lie in the block of `p`, and that in the pool. -/
def PoolBytes (A : AlignSize) (size : Nat) (h : MemHeap) (p : Nat) : Prop :=
  h.startAddr + A.memheapSize ≤ p ∧ size ≤ memitemSize A h.mem (wordSub p A.memheapSize) ∧
    p + memitemSize A h.mem (wordSub p A.memheapSize) + A.memheapSize ≤ h.startAddr + h.poolSize

/-- Every completed call that does not return null returns a region. -/
def GivesRegion {σ : Type} (call : Nat → Option (σ × Nat)) (region : σ → Nat → Prop) : Prop :=
  ∀ fuel s p, call fuel = some (s, p) → p ≠ 0 → region s p

/-- The block that a clearing call returns is the one it was given to clear. -/
def ClearsRegion {σ : Type} (malloc calloc : Nat → Option (σ × Nat)) (region : σ → Nat → Prop) : Prop :=
  ∀ fuel s p, calloc fuel = some (s, p) → p ≠ 0 → ∃ s1, malloc fuel = some (s1, p) ∧ region s1 p

/-- Behind the aligned address the block that `rt_malloc` returned still has `size` bytes. -/
def AlignsRegion {σ : Type} (malloc : Nat → Nat → Option (σ × Nat)) (store : σ → Nat → Nat → σ)
    (region : Nat → σ → Nat → Prop) (size align : Nat) : Prop :=
  ∀ fuel s p, rtMallocAlign (malloc fuel) store size align = some (s, p) → p ≠ 0 →
    ∃ s1 q, malloc fuel (mallocAlignSize size align) = some (s1, q) ∧ q ≤ p ∧ region (p - q + size) s1 q

def storeHeap (h : Heap) (a v : Nat) : Heap := { h with mem := write32 h.mem (wordSub a h.heapPtr) v }

def storeMemheaps (hs : List MemHeap) (a v : Nat) : List MemHeap :=
  hs.map fun h => { h with mem := write32 h.mem a v }

/-- Nothing wraps in `rt_malloc_align` and in the rounding of `rt_malloc`. -/
def AlignSumFits (A : AlignSize) (size align : Nat) : Prop :=
  size + 3 < 4294967296 ∧ AlignFits A (roundFour size + roundFour align)

/-- `rt_memheap_alloc` finds a block. -/
def MemheapFinds (A : AlignSize) (h : MemHeap) (size : Nat) : Prop :=
  memheapAlign A size < h.availableSize ∧ ∃ fs, FreeRing h.mem h.freeList fs ∧
    ∃ x ∈ fs, memheapAlign A size ≤ memitemSize A h.mem x

/-- A memheap between two calls. -/
def MemHeapReached (A : AlignSize) (h : MemHeap) : Prop :=
  ∃ m self freeHeader startAddr size live, 2 * A.memheapSize ≤ rtAlignDown A (UInt32.toNat size) ∧
    MemHeapReach A (MemCallFits A) m self freeHeader startAddr size ⟨h, live⟩

section
variable {A : AlignSize} {h h' : Heap} {bs : List Block} {offs : List Nat} {fuel size total p q : Nat}

theorem rtMalloc_region (hr : HeapRep A h bs) (hfit : AlignFits A size)
    (hm : rtMalloc A fuel h size = some (h', q)) (hq : q ≠ 0) : HeapRegion A size h' q := by
  rcases rtMalloc_spec hr hm with ⟨hz, -⟩ | ⟨bs', hr', -, -, -, k, hk, -, rfl, hroom⟩
  · exact absurd hz hq
  · have hs := hr'.toHeapShape
    have hle := le_rtAlign hfit
    have hkb := hs.bounds hk
    rw [HeapRegion, hs.usableEnd_eq hk, blockPtr]
    omega

/-- No block of an arena holds a size that wraps. -/
theorem rtMalloc_no_region (hr : HeapRep A h bs) (hwraps : ¬AlignFits A total)
    (hm : rtMalloc A fuel h size = some (h', q)) (hq : q ≠ 0) : ¬HeapRegion A total h' q := by
  rcases rtMalloc_spec hr hm with ⟨hz, -⟩ | ⟨bs', hr', -, -, -, k, hk, -, rfl, -⟩
  · exact absurd hz hq
  · rintro ⟨hlo, hhi, hend⟩
    have hs := hr'.toHeapShape
    have hfits := hs.fits
    have hdvd := Nat.le_of_dvd (by have := sizeofStructMem_ge A; omega) (sizeofStructMem_dvd A)
    unfold AlignFits at hwraps
    omega

theorem mallocFinds_iff (hr : HeapRep A h bs) (hc : HeapChain A h offs) : MallocFinds A h offs size ↔
    ∃ c ∈ bs, h.lfree ≤ c.off ∧ SearchTakes A h (mallocSize A size) c := by
  have hs := hr.toHeapShape
  obtain rfl := hs.chain_unique hc
  constructor
  · rintro ⟨o, ho, hfrom, hblock, hbound⟩
    obtain ⟨c, hcin, rfl⟩ := List.mem_map.mp ho
    obtain ⟨hfree, hroom⟩ := (hs.blockFits hcin).mp hblock
    exact ⟨c, hcin, hfrom, hbound, hfree, hroom⟩
  · rintro ⟨c, hcin, hfrom, hbound, hfree, hroom⟩
    exact ⟨c.off, List.mem_map_of_mem hcin, hfrom, (hs.blockFits hcin).mpr ⟨hfree, hroom⟩, hbound⟩

theorem rtMalloc_of_finds (hr : HeapRep A h bs) (hc : HeapChain A h offs) (hn : size ≠ 0)
    (hle : rtAlign A size ≤ h.memSizeAligned) (hf : MallocFinds A h offs size) :
    ∃ fuel h' q, rtMalloc A fuel h size = some (h', q) ∧ q ≠ 0 := by
  obtain ⟨c, hcin, hfrom, htakes⟩ := (mallocFinds_iff hr hc).mp hf
  have hmin : A.minSizeAligned ≤ h.memSizeAligned := by
    have hbound := htakes.1
    have hge : A.minSizeAligned ≤ mallocSize A size := by
      unfold mallocSize
      split <;> omega
    omega
  obtain ⟨n, hfinds⟩ := rtMalloc_finds hr hn hle hmin
  rcases hfinds (n + 1) (by omega) with ⟨k, -, -, -, -, h', hm⟩ | ⟨hnone, -⟩
  · exact ⟨n + 1, h', _, hm, blockPtr_pos A h k⟩
  · exact absurd htakes (hnone c hcin hfrom)

theorem rtMalloc_null (hr : HeapRep A h bs) (hc : HeapChain A h offs) (hf : ¬MallocFinds A h offs size)
    (hm : rtMalloc A fuel h size = some (h', q)) : q = 0 := by
  by_cases hn : size = 0
  · rw [rtMalloc, if_pos hn] at hm
    exact (Prod.mk.inj (Option.some.inj hm)).2.symm
  by_cases hle : rtAlign A size ≤ h.memSizeAligned
  · by_cases hmin : A.minSizeAligned ≤ h.memSizeAligned
    · obtain ⟨n, hfinds⟩ := rtMalloc_finds hr hn hle hmin
      have hlong := rtMalloc_mono (Nat.le_max_left fuel (n + 1)) hm
      rcases hfinds (max fuel (n + 1)) (by omega) with ⟨c, hcin, hfrom, htakes, -⟩ | ⟨-, hnull⟩
      · exact absurd ((mallocFinds_iff hr hc).mpr ⟨c, hcin, hfrom, htakes⟩) hf
      · rw [hnull] at hlong
        exact (Prod.mk.inj (Option.some.inj hlong)).2.symm
    · exact rtMalloc_tiny hr (by omega) hm
  · rw [rtMalloc, if_neg hn] at hm
    dsimp only at hm
    rw [if_pos (by omega)] at hm
    exact (Prod.mk.inj (Option.some.inj hm)).2.symm

/-- What `rt_malloc` returns for the low 32 bits of `total` holds `total` bytes. -/
theorem rtMalloc_region_iff (hr : HeapRep A h bs) (hc : HeapChain A h offs) (total : Nat) :
    GivesRegion (fun fuel => rtMalloc A fuel h (word total)) (HeapRegion A total) ↔
      AlignFits A total ∨ word total = 0 ∨ ¬MallocFinds A h offs (word total) := by
  have hpos := A.size_pos
  constructor
  · intro hall
    by_contra hnot
    obtain ⟨hwraps, hn, hf⟩ : ¬AlignFits A total ∧ word total ≠ 0 ∧ MallocFinds A h offs (word total) := by
      tauto
    have hle : rtAlign A (word total) ≤ h.memSizeAligned := by
      obtain ⟨c, hcin, -, htakes⟩ := (mallocFinds_iff hr hc).mp hf
      have hge := (mallocSize_ge A (word total)).2
      have hbound := htakes.1
      omega
    obtain ⟨fuel, h', q, hm, hq⟩ := rtMalloc_of_finds hr hc hn hle hf
    exact rtMalloc_no_region hr hwraps hm hq (hall fuel h' q hm hq)
  · rintro (hfit | hzero | hnone) fuel h' q hm hq
    · have hw : word total = total := word_of_lt (by unfold AlignFits at hfit; omega)
      rw [hw] at hm
      exact rtMalloc_region hr hfit hm hq
    · have hnull : rtMalloc A fuel h (word total) = some (h', q) := hm
      rw [hzero, rtMalloc, if_pos rfl] at hnull
      exact absurd (Prod.mk.inj (Option.some.inj hnull)).2.symm hq
    · exact absurd (rtMalloc_null hr hc hnone hm) hq

end

section
variable {A : AlignSize} {h h' : MemHeap} {hs hs' : List MemHeap} {bs : List MemBlock} {fs : List Nat}
  {fuel size total p q : Nat}

theorem rtMemheapAlloc_region (hr : MemHeapRep A h bs fs) (hfit : AlignFits A size)
    (hm : rtMemheapAlloc A fuel h size = some (h', q)) (hq : q ≠ 0) : PoolBytes A size h' q := by
  rcases rtMemheapAlloc_cases hr hm with ⟨hz, -⟩ | ⟨-, bs', k, rfl, htook, -⟩
  · exact absurd hz hq
  · obtain ⟨fs', hr'⟩ := htook.rep
    have hkb := hr'.layout.bounds htook.mem
    have htop := hr'.arena.tail_eq
    have hle := le_rtAlign hfit
    have hroom := htook.room
    have hround : rtAlign A size ≤ memheapAlign A size := by
      unfold memheapAlign
      split <;> omega
    obtain ⟨xs, ys, rfl⟩ := List.append_of_mem htook.mem
    have hsize := memitemSize_eq hr'.arena hr'.layout
    rw [PoolBytes, hr'.layout.header_eq hr'.arena htook.mem, hsize]
    unfold dataSize at hroom ⊢
    omega

/-- No pool holds a size that wraps. -/
theorem not_poolBytes (hr : MemHeapRep A h bs fs) (hwraps : ¬AlignFits A total) : ¬PoolBytes A total h p := by
  rintro ⟨hlo, hsize, hend⟩
  have hfits := hr.arena.fits
  have hdvd := Nat.le_of_dvd (by have := ptr_ne_zero A 0; omega) (memheapSize_dvd A)
  unfold AlignFits at hwraps
  have hstart := hr.arena.start
  omega

theorem memheapFinds_iff (hr : MemHeapRep A h bs fs) :
    MemheapFinds A h size ↔ ¬h.NoRoom A bs size := by
  have hsizes : ∀ k ∈ bs, memitemSize A h.mem k.off = dataSize A k := by
    intro k hk
    obtain ⟨xs, ys, rfl⟩ := List.append_of_mem hk
    exact memitemSize_eq hr.arena hr.layout
  have hring : FreeRing h.mem h.freeList fs := hr.sound.freeList
  unfold MemHeap.NoRoom MemheapFinds
  constructor
  · rintro ⟨hlt, gs, hgs, x, hx, hle⟩ (hfew | hnone)
    · omega
    · obtain rfl := Ring.unique hring hgs
      obtain ⟨k, hk, hfree, he⟩ := hr.free_size hx
      have := hnone k hk hfree
      omega
  · intro hroom
    obtain ⟨hlt, hfound⟩ := not_or.mp hroom
    push Not at hfound
    obtain ⟨k, hk, hfree, hle⟩ := hfound
    refine ⟨by omega, fs, hring, k.off, hr.listed.mem_iff.mpr ?_, by rw [hsizes k hk]; exact hle⟩
    exact List.mem_map_of_mem (List.mem_filter.mpr ⟨hk, hfree⟩)

/-- `rt_memheap_alloc` with enough fuel, by whether it finds a block. -/
theorem rtMemheapAlloc_finds (hr : MemHeapRep A h bs fs) (size : Nat) :
    ∃ n h' q, (∀ fuel, n ≤ fuel → rtMemheapAlloc A fuel h size = some (h', q)) ∧
      (q ≠ 0 ↔ MemheapFinds A h size) := by
  obtain ⟨h', q, hrun, hcases⟩ := rtMemheapAlloc_spec hr size
  refine ⟨fs.length + 2, h', q, fun fuel hfuel => hrun fuel (by omega), ?_⟩
  rw [memheapFinds_iff hr]
  rcases hcases with ⟨hq, -, hnone⟩ | ⟨hroom, bs', k, rfl, -⟩
  · exact iff_of_false (fun hne => hne hq) fun hroom => hroom hnone
  · exact iff_of_true (ptr_ne_zero A k.off) hroom

theorem rtMemheapAlloc_null (hr : MemHeapRep A h bs fs) (hf : ¬MemheapFinds A h size)
    (hm : rtMemheapAlloc A fuel h size = some (h', q)) : q = 0 := by
  rcases rtMemheapAlloc_cases hr hm with ⟨hq, -⟩ | ⟨hroom, -⟩
  · exact hq
  · exact absurd ((memheapFinds_iff hr).mpr hroom) hf

theorem rtMemheapAlloc_rep (hr : MemHeapRep A h bs fs) (hm : rtMemheapAlloc A fuel h size = some (h', q)) :
    ∃ bs' fs', MemHeapRep A h' bs' fs' := by
  rcases rtMemheapAlloc_cases hr hm with ⟨-, rfl, -⟩ | ⟨-, bs', k, -, htook, -⟩
  · exact ⟨bs, fs, hr⟩
  · exact ⟨bs', htook.rep⟩

theorem rtMemheapAlloc_region_iff (hr : MemHeapRep A h bs fs) (size : Nat) :
    GivesRegion (fun fuel => rtMemheapAlloc A fuel h size) (PoolBytes A size) ↔
      AlignFits A size ∨ ¬MemheapFinds A h size := by
  constructor
  · intro hall
    by_contra hnot
    obtain ⟨hwraps, hf⟩ := not_or.mp hnot
    obtain ⟨n, h', q, hrun, hq⟩ := rtMemheapAlloc_finds hr size
    obtain ⟨bs', fs', hr'⟩ := rtMemheapAlloc_rep hr (hrun n (Nat.le_refl n))
    exact not_poolBytes hr' hwraps (hall n h' q (hrun n (Nat.le_refl n)) (hq.mpr (not_not.mp hf)))
  · rintro (hfit | hnone) fuel h' q hm hq
    · exact rtMemheapAlloc_region hr hfit hm hq
    · exact absurd (rtMemheapAlloc_null hr hnone hm) hq

/-- Each of the heaps consists of blocks. -/
def AllReps (A : AlignSize) (hs : List MemHeap) : Prop := ∀ h ∈ hs, ∃ bs fs, MemHeapRep A h bs fs

theorem rtMallocMemheaps_cons {r : List MemHeap × Nat}
    (hm : rtMallocMemheaps A fuel (h :: hs) size = some r) :
    ∃ h' q, rtMemheapAlloc A fuel h size = some (h', q) ∧
      (q ≠ 0 ∧ r = (h' :: hs, q) ∨
        q = 0 ∧ ∃ hs' p, rtMallocMemheaps A fuel hs size = some (hs', p) ∧ r = (h' :: hs', p)) := by
  simp only [rtMallocMemheaps, Option.bind_eq_bind, Option.bind_eq_some_iff] at hm
  obtain ⟨⟨h', q⟩, halloc, hm⟩ := hm
  refine ⟨h', q, halloc, ?_⟩
  dsimp only at hm
  split at hm
  next hq => exact Or.inl ⟨hq, (Option.some.inj hm).symm⟩
  next hq =>
    obtain ⟨⟨hs', p⟩, hrest, he⟩ := Option.map_eq_some_iff.mp hm
    exact Or.inr ⟨not_not.mp hq, hs', p, hrest, he.symm⟩

/-- A completed call over the heaps: null where none finds a block, else a block of one of them. -/
theorem rtMallocMemheaps_spec (hr : AllReps A hs) (hm : rtMallocMemheaps A fuel hs size = some (hs', p)) :
    AllReps A hs' ∧ ((∀ h ∈ hs, ¬MemheapFinds A h size) → p = 0) ∧
      (AlignFits A size → p ≠ 0 → ∃ h' ∈ hs', PoolBytes A size h' p) := by
  induction hs generalizing hs' p with
  | nil =>
    obtain ⟨rfl, rfl⟩ := Prod.mk.inj (Option.some.inj hm)
    exact ⟨hr, fun _ => rfl, fun _ hz => absurd rfl hz⟩
  | cons h hs ih =>
    obtain ⟨bs, fs, hrep⟩ := hr h List.mem_cons_self
    have hrest : AllReps A hs := fun h hh => hr h (List.mem_cons_of_mem _ hh)
    obtain ⟨h', q, halloc, ⟨hq, he⟩ | ⟨hq, gs, p', hcall, he⟩⟩ := rtMallocMemheaps_cons hm
    · obtain ⟨rfl, rfl⟩ := Prod.mk.inj he
      refine ⟨fun g hg => ?_, fun hnone => ?_, fun hfit _ => ?_⟩
      · rcases List.mem_cons.mp hg with rfl | hg
        · exact rtMemheapAlloc_rep hrep halloc
        · exact hrest g hg
      · exact rtMemheapAlloc_null hrep (hnone h List.mem_cons_self) halloc
      · exact ⟨h', List.mem_cons_self, rtMemheapAlloc_region hrep hfit halloc hq⟩
    · obtain ⟨rfl, rfl⟩ := Prod.mk.inj he
      obtain ⟨hreps, hnull, hregion⟩ := ih hrest hcall
      refine ⟨fun g hg => ?_, fun hnone => ?_, fun hfit hp => ?_⟩
      · rcases List.mem_cons.mp hg with rfl | hg
        · exact rtMemheapAlloc_rep hrep halloc
        · exact hreps g hg
      · exact hnull fun g hg => hnone g (List.mem_cons_of_mem h hg)
      · obtain ⟨g, hg, hbytes⟩ := hregion hfit hp
        exact ⟨g, List.mem_cons_of_mem h' hg, hbytes⟩

theorem rtMallocMemheaps_finds (hr : AllReps A hs) (hf : ∃ h ∈ hs, MemheapFinds A h size) :
    ∃ n, ∀ fuel, n ≤ fuel → ∃ hs' p, rtMallocMemheaps A fuel hs size = some (hs', p) ∧ p ≠ 0 := by
  induction hs with
  | nil =>
    obtain ⟨h, hh, -⟩ := hf
    exact absurd hh List.not_mem_nil
  | cons h hs ih =>
    obtain ⟨bs, fs, hrep⟩ := hr h List.mem_cons_self
    obtain ⟨n, h', q, hrun, hq⟩ := rtMemheapAlloc_finds hrep size
    by_cases hfirst : MemheapFinds A h size
    · refine ⟨n, fun fuel hfuel => ⟨h' :: hs, q, ?_, hq.mpr hfirst⟩⟩
      simp only [rtMallocMemheaps, hrun fuel hfuel, Option.bind_eq_bind, Option.bind_some]
      rw [if_pos (hq.mpr hfirst)]
    · obtain ⟨g, hg, hgf⟩ := hf
      have hin : g ∈ hs := by
        rcases List.mem_cons.mp hg with rfl | hg
        · exact absurd hgf hfirst
        · exact hg
      obtain ⟨m, hrest⟩ := ih (fun h hh => hr h (List.mem_cons_of_mem _ hh)) ⟨g, hin, hgf⟩
      refine ⟨max n m, fun fuel hfuel => ?_⟩
      obtain ⟨hs', p, hcall, hp⟩ := hrest fuel (by omega)
      refine ⟨h' :: hs', p, ?_, hp⟩
      simp only [rtMallocMemheaps, hrun fuel (by omega), Option.bind_eq_bind, Option.bind_some]
      rw [if_neg fun hne => hfirst (hq.mp hne), hcall]
      rfl

theorem rtMallocMemheaps_region_iff (hr : AllReps A hs) (total : Nat) :
    GivesRegion (fun fuel => rtMallocMemheaps A fuel hs (word total))
        (fun hs' p => ∃ h' ∈ hs', PoolBytes A total h' p) ↔
      AlignFits A total ∨ ∀ h ∈ hs, ¬MemheapFinds A h (word total) := by
  have hpos := A.size_pos
  constructor
  · intro hall
    by_contra hnot
    obtain ⟨hwraps, hf⟩ := not_or.mp hnot
    push Not at hf
    obtain ⟨n, hfinds⟩ := rtMallocMemheaps_finds hr hf
    obtain ⟨hs', p, hm, hp⟩ := hfinds n (Nat.le_refl n)
    obtain ⟨h', hin, hbytes⟩ := hall n hs' p hm hp
    obtain ⟨bs, fs, hrep⟩ := (rtMallocMemheaps_spec hr hm).1 h' hin
    exact not_poolBytes hrep hwraps hbytes
  · rintro (hfit | hnone) fuel hs' p hm hp
    · have hw : word total = total := word_of_lt (by unfold AlignFits at hfit; omega)
      have hm' : rtMallocMemheaps A fuel hs (word total) = some (hs', p) := hm
      rw [hw] at hm'
      exact (rtMallocMemheaps_spec hr hm').2.2 hfit hp
    · exact absurd ((rtMallocMemheaps_spec hr hm).2.1 hnone) hp

end

section
variable {x y q p size align n : Nat}

/-- Masking with the complement takes off no more than the mask. -/
theorem le_add_of_masked (hx : x < 4294967296) (hy : y < 4294967296) :
    x ≤ (x &&& (4294967295 - y)) + y := by
  have hsum : (x &&& y) + (x &&& (4294967295 - y)) = x := by
    have hdisjoint : (BitVec.ofNat 32 x &&& BitVec.ofNat 32 y) &&&
        (BitVec.ofNat 32 x &&& ~~~BitVec.ofNat 32 y) = 0#32 := by
      ext i hi
      simp
      tauto
    have hunion : (BitVec.ofNat 32 x &&& BitVec.ofNat 32 y) |||
        (BitVec.ofNat 32 x &&& ~~~BitVec.ofNat 32 y) = BitVec.ofNat 32 x := by
      rw [← BitVec.and_or_distrib_left, BitVec.or_not_self, BitVec.and_allOnes]
    have hadd := BitVec.toNat_add_of_and_eq_zero hdisjoint
    rw [BitVec.add_eq_or_of_and_eq_zero _ _ hdisjoint, hunion] at hadd
    simp only [BitVec.toNat_and, BitVec.toNat_not, BitVec.toNat_ofNat] at hadd
    rw [Nat.mod_eq_of_lt hx, Nat.mod_eq_of_lt hy] at hadd
    exact hadd.symm
  have hle : x &&& y ≤ y := Nat.and_le_right
  omega

/-- Whatever the alignment, the address is at most that far behind the block's start. -/
theorem alignPtr_inside (hsize : size + 3 < 4294967296) (hq : q ≠ 0)
    (hlt : q < 4294967296) (hfits : q + (roundFour size + roundFour align) ≤ 4294967296)
    (hp : alignPtr q (roundFour align) ≠ 0) : q ≤ alignPtr q (roundFour align) ∧
      alignPtr q (roundFour align) - q + size ≤ roundFour size + roundFour align := by
  have hround : size ≤ roundFour size := by
    rw [roundFour_eq, word_of_lt hsize]
    omega
  unfold alignPtr at hp ⊢
  by_cases hzero : roundFour align = 0
  · rw [hzero] at hp
    have hmask : wordSub 0 1 = 2 ^ 32 - 1 := rfl
    rw [hmask, Nat.and_two_pow_sub_one_eq_mod, Nat.mod_eq_of_lt (by omega), if_neg hq] at hp
    exact absurd (Nat.and_zero _) hp
  · have hmask : wordSub (roundFour align) 1 = roundFour align - 1 := wordSub_of_le (by omega) (by omega)
    rw [hmask] at hp ⊢
    split
    next hlow =>
      rw [if_pos hlow] at hp
      have hne : q + roundFour align ≠ 4294967296 := by
        intro he
        rw [he] at hp
        exact hp rfl
      rw [word_of_lt (by omega)]
      omega
    next hlow =>
      rw [word_of_lt (show q + (roundFour align - 1) < 4294967296 by omega)]
      have hlo := le_add_of_masked (x := q + (roundFour align - 1)) (y := roundFour align - 1)
        (by omega) (by omega)
      have hhi : (q + (roundFour align - 1)) &&& (4294967295 - (roundFour align - 1)) ≤
          q + (roundFour align - 1) := Nat.and_le_left
      omega

end

section
variable {σ : Type} {malloc calloc : Nat → Option (σ × Nat)} {region : σ → Nat → Prop}

theorem clearsRegion_iff (clear : σ → Nat → σ)
    (hc : ∀ fuel, calloc fuel = (malloc fuel).map fun r => (clear r.1 r.2, r.2)) :
    ClearsRegion malloc calloc region ↔ GivesRegion malloc region := by
  constructor
  · intro hclears fuel s p hm hp
    obtain ⟨s1, hm1, hregion⟩ := hclears fuel (clear s p) p (by rw [hc, hm]; rfl) hp
    rw [hm] at hm1
    obtain ⟨rfl, -⟩ := Prod.mk.inj (Option.some.inj hm1)
    exact hregion
  · intro hgives fuel s p hcall hp
    rw [hc] at hcall
    obtain ⟨⟨s1, q⟩, hm, he⟩ := Option.map_eq_some_iff.mp hcall
    obtain ⟨-, rfl⟩ := Prod.mk.inj he
    exact ⟨s1, hm, hgives fuel s1 q hm hp⟩

theorem alignsRegion_of_gives {malloc : Nat → Nat → Option (σ × Nat)} {store : σ → Nat → Nat → σ}
    {region : Nat → σ → Nat → Prop} {size align : Nat} (hsize : size + 3 < 4294967296)
    (hgives : ∀ fuel s q, malloc fuel (mallocAlignSize size align) = some (s, q) → q ≠ 0 →
      q < 4294967296 ∧ q + (roundFour size + roundFour align) ≤ 4294967296 ∧
        ∀ n ≤ roundFour size + roundFour align, region n s q) :
    AlignsRegion malloc store region size align := by
  intro fuel s p hm hp
  obtain ⟨⟨s1, q⟩, hcall, he⟩ := Option.map_eq_some_iff.mp hm
  dsimp only at he
  split at he
  next hq =>
    obtain ⟨-, rfl⟩ := Prod.mk.inj he
    obtain ⟨hlt, hfits, hregion⟩ := hgives fuel s1 q hcall hq
    obtain ⟨hlo, hlong⟩ := alignPtr_inside hsize hq hlt hfits hp
    exact ⟨s1, q, hcall, hlo, hregion _ hlong⟩
  next =>
    obtain ⟨-, rfl⟩ := Prod.mk.inj he
    exact absurd rfl hp

theorem alignsRegion_of_null {malloc : Nat → Nat → Option (σ × Nat)} {store : σ → Nat → Nat → σ}
    {region : Nat → σ → Nat → Prop} {size align : Nat}
    (hnull : ∀ fuel s q, malloc fuel (mallocAlignSize size align) = some (s, q) → q = 0) :
    AlignsRegion malloc store region size align := by
  intro fuel s p hm hp
  obtain ⟨⟨s1, q⟩, hcall, he⟩ := Option.map_eq_some_iff.mp hm
  obtain rfl := hnull fuel s1 q hcall
  obtain ⟨-, rfl⟩ := Prod.mk.inj he
  exact absurd rfl hp

end

/-- The allocating functions return no block that is shorter than asked for, exactly where no size
wraps on the way or there is nothing to return; for `rt_malloc_align` this is enough. -/
structure AllocLengths (A : AlignSize) (h : Heap) (offs : List Nat) (heaps : List MemHeap) : Prop where
  malloc : ∀ n : UInt32, GivesRegion (fun fuel => rtMalloc A fuel h n.toNat) (HeapRegion A n.toNat) ↔
    AlignFits A n.toNat ∨ ¬MallocFinds A h offs n.toNat
  calloc : ∀ count size : UInt32, ClearsRegion
      (fun fuel => rtMalloc A fuel h (word (count.toNat * size.toNat)))
      (fun fuel => rtCalloc A fuel h count.toNat size.toNat) (HeapRegion A (count.toNat * size.toNat)) ↔
    AlignFits A (count.toNat * size.toNat) ∨ word (count.toNat * size.toNat) = 0 ∨
      ¬MallocFinds A h offs (word (count.toNat * size.toNat))
  memheapAlloc : ∀ g ∈ heaps, ∀ n : UInt32,
    GivesRegion (fun fuel => rtMemheapAlloc A fuel g n.toNat) (PoolBytes A n.toNat) ↔
      AlignFits A n.toNat ∨ ¬MemheapFinds A g n.toNat
  memheapMalloc : ∀ n : UInt32, GivesRegion (fun fuel => rtMallocMemheaps A fuel heaps n.toNat)
      (fun hs p => ∃ g ∈ hs, PoolBytes A n.toNat g p) ↔
    AlignFits A n.toNat ∨ ∀ g ∈ heaps, ¬MemheapFinds A g n.toNat
  memheapCalloc : ∀ count size : UInt32, ClearsRegion
      (fun fuel => rtMallocMemheaps A fuel heaps (word (count.toNat * size.toNat)))
      (fun fuel => rtCallocMemheaps A fuel heaps count.toNat size.toNat)
      (fun hs p => ∃ g ∈ hs, PoolBytes A (count.toNat * size.toNat) g p) ↔
    AlignFits A (count.toNat * size.toNat) ∨
      ∀ g ∈ heaps, ¬MemheapFinds A g (word (count.toNat * size.toNat))
  mallocAlign : ∀ size align : UInt32, AlignSumFits A size.toNat align.toNat ∨
      ¬MallocFinds A h offs (mallocAlignSize size.toNat align.toNat) →
    AlignsRegion (fun fuel => rtMalloc A fuel h) storeHeap (HeapRegion A) size.toNat align.toNat
  memheapMallocAlign : ∀ size align : UInt32, AlignSumFits A size.toNat align.toNat ∨
      (∀ g ∈ heaps, ¬MemheapFinds A g (mallocAlignSize size.toNat align.toNat)) →
    AlignsRegion (fun fuel => rtMallocMemheaps A fuel heaps) storeMemheaps
      (fun n hs p => ∃ g ∈ hs, PoolBytes A n g p) size.toNat align.toNat

theorem HeapRegion.mono {A : AlignSize} {h : Heap} {m n p : Nat} (hr : HeapRegion A n h p) (hle : m ≤ n) :
    HeapRegion A m h p := by
  obtain ⟨h1, h2, h3⟩ := hr
  exact ⟨h1, by omega, h3⟩

theorem PoolBytes.mono {A : AlignSize} {h : MemHeap} {m n p : Nat} (hr : PoolBytes A n h p) (hle : m ≤ n) :
    PoolBytes A m h p := by
  obtain ⟨h1, h2, h3⟩ := hr
  exact ⟨h1, by omega, h3⟩

/-- In every state that the calls reach. -/
theorem heapReach_lengths {A : AlignSize} {s : HeapState} {offs : List Nat} {heaps : List MemHeap}
    {m : Memory} {beginAddr endAddr : UInt32} (hs : HeapReach A (CallFits A) m beginAddr endAddr s)
    (hc : HeapChain A s.heap offs) (hheaps : ∀ g ∈ heaps, MemHeapReached A g) :
    AllocLengths A s.heap offs heaps := by
  obtain ⟨bs, ⟨hr, -⟩, -⟩ := heapReach_holds (fun _ _ _ hc => hc) hs
  have hreps : AllReps A heaps := by
    intro g hg
    obtain ⟨m, self, freeHeader, startAddr, size, live, hbig, hreach⟩ := hheaps g hg
    obtain ⟨gs, fs, hrep, -⟩ := memHeapReach_holds hbig hreach
    exact ⟨gs, fs, hrep⟩
  have hpos := A.size_pos
  refine ⟨fun n => ?_, fun count size => ?_, fun g hg n => ?_, fun n => ?_, fun count size => ?_,
    fun size align hok => ?_, fun size align hok => ?_⟩
  · have hiff := rtMalloc_region_iff hr hc n.toNat
    rw [word_of_lt n.toNat_lt] at hiff
    rw [hiff]
    constructor
    · rintro (hfit | hzero | hnone)
      · exact Or.inl hfit
      · have hA := A.size_le
        exact Or.inl (by unfold AlignFits; omega)
      · exact Or.inr hnone
    · exact fun hor => hor.imp_right Or.inr
  · rw [clearsRegion_iff fun h p => if p ≠ 0 then { h with
      mem := rtMemset h.mem (wordSub p h.heapPtr) 0 (word (count.toNat * size.toNat)) } else h]
    · exact rtMalloc_region_iff hr hc _
    · intro fuel
      rw [rtCalloc]
      cases rtMalloc A fuel s.heap (word (count.toNat * size.toNat)) with
      | none => rfl
      | some r =>
        simp only [Option.bind_eq_bind, Option.bind_some, Option.map_some]
        split <;> rfl
  · obtain ⟨gs, fs, hrep⟩ := hreps g hg
    exact rtMemheapAlloc_region_iff hrep n.toNat
  · have hiff := rtMallocMemheaps_region_iff hreps n.toNat
    rwa [word_of_lt n.toNat_lt] at hiff
  · rw [clearsRegion_iff fun hs p => if p ≠ 0 then hs.map fun g => { g with
      mem := rtMemset g.mem p 0 (word (count.toNat * size.toNat)) } else hs]
    · exact rtMallocMemheaps_region_iff hreps _
    · intro fuel
      rw [rtCallocMemheaps]
      cases rtMallocMemheaps A fuel heaps (word (count.toNat * size.toNat)) with
      | none => rfl
      | some r =>
        simp only [Option.bind_eq_bind, Option.bind_some, Option.map_some]
        split <;> rfl
  · rcases hok with ⟨hsize, hsum⟩ | hnone
    · unfold AlignFits at hsum
      have hword : mallocAlignSize size.toNat align.toNat =
          roundFour size.toNat + roundFour align.toNat := word_of_lt (by omega)
      refine alignsRegion_of_gives hsize fun fuel h' q hm hq => ?_
      rw [hword] at hm
      have hregion := rtMalloc_region hr hsum hm hq
      rcases rtMalloc_spec hr hm with ⟨hz, -⟩ | ⟨bs', hr', -⟩
      · exact absurd hz hq
      · have hfits := hr'.toHeapShape.fits
        obtain ⟨h1, h2, h3⟩ := hregion
        exact ⟨by omega, by omega, fun n hn => HeapRegion.mono ⟨h1, h2, h3⟩ hn⟩
    · exact alignsRegion_of_null fun fuel h' q hm => rtMalloc_null hr hc hnone hm
  · rcases hok with ⟨hsize, hsum⟩ | hnone
    · unfold AlignFits at hsum
      have hword : mallocAlignSize size.toNat align.toNat =
          roundFour size.toNat + roundFour align.toNat := word_of_lt (by omega)
      refine alignsRegion_of_gives hsize fun fuel hs' q hm hq => ?_
      rw [hword] at hm
      obtain ⟨hall, -, hregion⟩ := rtMallocMemheaps_spec hreps hm
      obtain ⟨g, hg, hbytes⟩ := hregion hsum hq
      obtain ⟨gs, fs, hrep⟩ := hall g hg
      have hfits := hrep.arena.fits
      have hstart := hrep.arena.start
      have hne := ptr_ne_zero A 0
      obtain ⟨h1, h2, h3⟩ := hbytes
      exact ⟨by omega, by omega, fun n hn => ⟨g, hg, PoolBytes.mono ⟨h1, h2, h3⟩ hn⟩⟩
    · exact alignsRegion_of_null fun fuel hs' q hm => (rtMallocMemheaps_spec hreps hm).2.1 hnone

theorem heapReach_lengths_fresh : AllocLengths align8 freshArena.heap [0] [oneHeld.heap] := by
  refine heapReach_lengths (freshArena_reach _) freshArena_chain fun g hg => ?_
  obtain rfl := List.mem_singleton.mp hg
  exact ⟨clearedMemory, 100, 200, 4096, 256, oneHeld.live, by decide +kernel, oneHeld_reach⟩

/-- `rt_malloc(0xFFFFFFFF)` returns a block of 16 bytes. -/
theorem malloc_all_is_short : ¬∀ (A : AlignSize) (m : Memory) (beginAddr endAddr : UInt32) (s : HeapState),
    HeapReach A (CallFits A) m beginAddr endAddr s →
    ∀ n : UInt32, GivesRegion (fun fuel => rtMalloc A fuel s.heap n.toNat) (HeapRegion A n.toNat) := by
  intro hall
  have hcall : (rtMalloc align8 9 freshArena.heap 4294967295).map
      (fun r => (r.2, usableEnd align8 r.1 r.2)) = some (4112, 4128) := by decide +kernel
  obtain ⟨⟨h', p⟩, hm, he⟩ := Option.map_eq_some_iff.mp hcall
  obtain ⟨rfl, hend⟩ := Prod.mk.inj he
  have hregion := hall align8 clearedMemory 4096 4608 freshArena (freshArena_reach _) 4294967295 9 h' 4112
    hm (by decide)
  have hlong : 4112 + (4294967295 : UInt32).toNat ≤ usableEnd align8 h' 4112 := hregion.2.1
  dsimp only at hend
  rw [hend] at hlong
  exact absurd hlong (by decide)

end RTThread
