import RTThread.HeapContents
import RTThread.MemHeapRuns

namespace RTThread

/-- The size rounded up to `RT_ALIGN_SIZE`, without overflow. -/
def alignedRequest (A : AlignSize) (size : Nat) : Nat := (size + A.size - 1) / A.size * A.size

/-- The search of `rt_malloc` starts at or below a free block that it takes for `size` bytes. -/
def MallocFinds (A : AlignSize) (h : Heap) (offs : List Nat) (size : Nat) : Prop :=
  ∃ o ∈ offs, h.lfree ≤ o ∧ BlockFits A h size o ∧ o < h.memSizeAligned - mallocSize A size

/-- `rt_realloc` needs no other block, or there is one to move to. -/
def ShrinkServed (A : AlignSize) (h : Heap) (offs : List Nat) (usable size : Nat) : Prop :=
  rtAlign A size = usable ∨ rtAlign A size + A.sizeofStructMem + minSize < usable ∨
    MallocFinds A h offs (rtAlign A size)

section
variable {A : AlignSize} {h h' : Heap} {s s' : HeapState} {bs xs ys : List Block} {k : Block}
  {offs : List Nat} {m : Memory} {beginAddr endAddr : UInt32} {fuel size p q : Nat}

theorem alignedRequest_fits {n : Nat} (hlt : n < 4294967296) (hle : alignedRequest A size ≤ n) :
    AlignFits A size ∧ rtAlign A size = alignedRequest A size := by
  have hfit : AlignFits A size := by
    by_contra hwrap
    have := roundUp_wraps A (show 4294967296 < size + A.size by unfold AlignFits at hwrap; omega)
    unfold alignedRequest at hle
    omega
  refine ⟨hfit, ?_⟩
  have hpos := A.size_pos
  unfold AlignFits at hfit
  unfold alignedRequest
  rw [rtAlign_eq, word_of_lt (by omega)]

/-- `rt_realloc` of a block in use to a size that is not zero and not beyond the arena. -/
theorem rtRealloc_eq (fuel : Nat) (hr : HeapRep A h (xs ++ k :: ys)) (hu : isFree k = false)
    (hle : rtAlign A size ≤ h.memSizeAligned) (hn : rtAlign A size ≠ 0) :
    rtRealloc A fuel h (blockPtr A h k) size =
      if k.next - k.off - A.sizeofStructMem = rtAlign A size then some (h, blockPtr A h k)
      else if rtAlign A size + A.sizeofStructMem + minSize < k.next - k.off - A.sizeofStructMem then
        (shrinkInPlace A h k.off (k.next - k.off - A.sizeofStructMem) (rtAlign A size)).bind
          fun h' => some (h', blockPtr A h k)
      else reallocMove A fuel h (blockPtr A h k) (k.next - k.off - A.sizeofStructMem)
        (rtAlign A size) := by
  have hs := hr.toHeapShape
  have hmem : k ∈ xs ++ k :: ys := by simp
  have hkb := hs.bounds hmem
  have hend := hs.end_lt
  have hW := sizeofStructMem_ge A
  have hin : ¬(blockPtr A h k < h.heapPtr ∨ h.heapPtr + h.heapEnd ≤ blockPtr A h k) := by
    have := hr.roomy k (by simp [hu])
    unfold blockPtr
    omega
  have hsize : wordSub (wordSub k.next k.off) A.sizeofStructMem =
      k.next - k.off - A.sizeofStructMem := by
    rw [wordSub_of_le (a := k.next) (by omega) (by omega), wordSub_of_le (by omega) (by omega)]
  unfold rtRealloc
  simp only [hs.wordSub_blockPtr hmem, hs.header_eq, hsize]
  rw [if_neg (by omega), if_neg hn, if_neg (blockPtr_pos A h k), if_neg hin]
  rfl

theorem reallocMove_nonnull (hr : HeapRep A h bs) (hp : p ∈ livePtrs A h bs)
    (hle : rtAlign A size ≤ h.memSizeAligned) (hmin : A.minSizeAligned ≤ h.memSizeAligned)
    (hn : rtAlign A size ≠ 0) (usable : Nat) :
    (∃ fuel h' q, reallocMove A fuel h p usable (rtAlign A size) = some (h', q) ∧ q ≠ 0) ↔
      ∃ c ∈ bs, h.lfree ≤ c.off ∧ SearchTakes A h (mallocSize A (rtAlign A size)) c := by
  have hidem := rtAlign_of_dvd (rtAlign_dvd A size) (rtAlign_lt A size)
  obtain ⟨n, hfinds⟩ := rtMalloc_finds hr hn (by rwa [hidem]) hmin
  constructor
  · rintro ⟨fuel, h', q, hm, hq⟩
    by_contra hnone
    simp only [reallocMove, Option.bind_eq_bind, Option.bind_eq_some_iff] at hm
    obtain ⟨⟨h1, r⟩, hmalloc, hm⟩ := hm
    have hlong := rtMalloc_mono (Nat.le_max_left fuel (n + 1)) hmalloc
    rcases hfinds (max fuel (n + 1)) (by omega) with ⟨c, hc, hfrom, htakes, -⟩ | ⟨-, hnull⟩
    · exact hnone ⟨c, hc, hfrom, htakes⟩
    · rw [hnull] at hlong
      obtain ⟨rfl, rfl⟩ := Prod.mk.inj (Option.some.inj hlong)
      simp only [ne_eq, not_true_eq_false, if_false] at hm
      exact hq (Prod.mk.inj (Option.some.inj hm)).2.symm
  · rintro ⟨c, hc, hfrom, htakes⟩
    rcases hfinds (n + 1) (by omega) with ⟨d, hd, -, -, -, h1, hmalloc⟩ | ⟨hnone, -⟩
    · obtain ⟨h2, -, hmoved, -⟩ := reallocMove_moves (p := p) hr hp (rtAlign_dvd A size)
        (rtAlign_lt A size) hmalloc (blockPtr_pos A h d)
      exact ⟨n + 1, h2, _, hmoved, blockPtr_pos A h d⟩
    · exact absurd htakes (hnone c hc hfrom)
theorem rtMalloc_tiny (hr : HeapRep A h bs) (htiny : h.memSizeAligned < A.minSizeAligned)
    (hm : rtMalloc A fuel h size = some (h', q)) : q = 0 := by
  have hs := hr.toHeapShape
  rcases rtMalloc_cases hs hm with ⟨hq, -⟩ | ⟨xs, k, ys, rfl, -, hfit, -⟩
  · exact hq
  · have hkb := hs.bounds (k := k) (by simp)
    have hend := hs.endOff
    have hge : A.minSizeAligned ≤ mallocSize A size := by
      unfold mallocSize
      split <;> omega
    omega

/-- No pointer is live in an arena below the least block size. -/
theorem heapReach_tiny (hr : HeapReach A (CallFits A) m beginAddr endAddr s)
    (htiny : s.heap.memSizeAligned < A.minSizeAligned) : s.live = [] := by
  have hinv : (∃ bs, HeapHolds A s bs) ∧
      (s.heap.memSizeAligned < A.minSizeAligned → s.live = []) := by
    refine Reach.invariant (I := fun s => (∃ bs, HeapHolds A s bs) ∧
      (s.heap.memSizeAligned < A.minSizeAligned → s.live = [])) ?_ ?_ hr
    · rintro s ⟨hi, hlive⟩
      obtain ⟨hrep, -⟩ := rtSystemHeapInit_spec endAddr.toNat_lt hi
      exact ⟨⟨_, hrep, List.Perm.of_eq hlive⟩, fun _ => hlive⟩
    · rintro s c s' ⟨⟨bs, hh⟩, hempty⟩ hc hs
      obtain ⟨bs', hh', ⟨-, -, hsize⟩, -⟩ := heapCall_holds hh hc hs
      refine ⟨⟨bs', hh'⟩, fun htiny => ?_⟩
      rw [hsize] at htiny
      have hnil := hempty htiny
      cases hcall : c.2 with
      | malloc size =>
        simp only [hcall, heapCall, Option.bind_eq_bind, Option.bind_eq_some_iff] at hs
        obtain ⟨⟨h', p⟩, hm, hs⟩ := hs
        obtain rfl := Option.some.inj hs
        dsimp only
        rw [if_pos (rtMalloc_tiny hh.1 htiny hm), hnil]
      | calloc count size =>
        simp only [hcall, heapCall, Option.bind_eq_bind, Option.bind_eq_some_iff] at hs
        obtain ⟨⟨h', p⟩, hm, hs⟩ := hs
        obtain rfl := Option.some.inj hs
        obtain ⟨⟨h1, r⟩, hmalloc, hrest⟩ := Option.bind_eq_some_iff.mp hm
        obtain rfl := rtMalloc_tiny hh.1 htiny hmalloc
        obtain ⟨-, rfl⟩ := Prod.mk.inj (Option.some.inj hrest)
        exact hnil
      | realloc rmem newsize =>
        simp only [hcall, heapCall, hnil, List.not_mem_nil, or_false] at hs
        split at hs
        next hz =>
          subst hz
          simp only [Option.bind_eq_bind, Option.bind_eq_some_iff] at hs
          obtain ⟨⟨h', p⟩, hm, hs⟩ := hs
          obtain rfl := Option.some.inj hs
          have hp : p = 0 := by
            rcases rtRealloc_null hm with ⟨hp, -⟩ | hmalloc
            · exact hp
            · exact rtMalloc_tiny hh.1 htiny hmalloc
          dsimp only
          rw [if_pos hp, List.erase_nil]
          split <;> rfl
        next => cases hs
      | free rmem =>
        simp only [hcall, heapCall, hnil, List.not_mem_nil, or_false] at hs
        split at hs
        next =>
          simp only [Option.bind_eq_bind, Option.bind_eq_some_iff] at hs
          obtain ⟨h', -, hs⟩ := hs
          obtain rfl := Option.some.inj hs
          exact List.erase_nil rmem
        next => cases hs
      | store rmem offset value =>
        simp only [hcall, heapCall, hnil, List.not_mem_nil, false_and, if_false] at hs
        cases hs
  exact hinv.2 htiny

/-- Where `rt_realloc` returns a block for a size that fits the old one. -/
theorem rtRealloc_shrink_iff (hr : HeapRep A h bs) (hc : HeapChain A h offs)
    (hp : p ∈ livePtrs A h bs) (hmin : A.minSizeAligned ≤ h.memSizeAligned)
    (hn : rtAlign A size ≠ 0) (hle : rtAlign A size ≤ usableEnd A h p - p) :
    (∃ fuel h' q, rtRealloc A fuel h p size = some (h', q) ∧ q ≠ 0) ↔
      ShrinkServed A h offs (usableEnd A h p - p) size := by
  have hs := hr.toHeapShape
  obtain ⟨xs, k, ys, rfl, hu, rfl⟩ := mem_livePtrs hp
  have hmem : k ∈ xs ++ k :: ys := by simp
  have hkb := hs.bounds hmem
  have hend := hs.endOff
  have hW := sizeofStructMem_ge A
  have husable : usableEnd A h (blockPtr A h k) - blockPtr A h k =
      k.next - k.off - A.sizeofStructMem := by
    unfold usableEnd
    rw [hs.wordSub_blockPtr hmem, hs.header_eq]
    unfold blockPtr
    dsimp only
    omega
  rw [husable] at hle ⊢
  have hfits : rtAlign A size ≤ h.memSizeAligned := by omega
  have heq := fun fuel => rtRealloc_eq fuel hr hu hfits hn
  have hz := blockPtr_pos A h k
  have hfinds : MallocFinds A h offs (rtAlign A size) ↔ ∃ c ∈ xs ++ k :: ys, h.lfree ≤ c.off ∧
      SearchTakes A h (mallocSize A (rtAlign A size)) c := by
    obtain rfl := hs.chain_unique hc
    constructor
    · rintro ⟨o, ho, hfrom, hblock, hbound⟩
      obtain ⟨c, hcin, rfl⟩ := List.mem_map.mp ho
      obtain ⟨hfree, hroom⟩ := (hs.blockFits hcin).mp hblock
      exact ⟨c, hcin, hfrom, hbound, hfree, hroom⟩
    · rintro ⟨c, hcin, hfrom, hbound, hfree, hroom⟩
      exact ⟨c.off, List.mem_map_of_mem hcin, hfrom, (hs.blockFits hcin).mpr ⟨hfree, hroom⟩, hbound⟩
  unfold ShrinkServed
  by_cases hsame : k.next - k.off - A.sizeofStructMem = rtAlign A size
  · refine iff_of_true ⟨0, h, _, ?_, hz⟩ (Or.inl hsame.symm)
    rw [heq, if_pos hsame]
  by_cases hroom : rtAlign A size + A.sizeofStructMem + minSize < k.next - k.off - A.sizeofStructMem
  · obtain ⟨h', -, hshrink, -⟩ := shrinkInPlace_spec hr hu (Nat.pos_of_ne_zero hn) (rtAlign_dvd A size)
      (by omega)
    refine iff_of_true ⟨0, h', _, ?_, hz⟩ (Or.inr (Or.inl hroom))
    rw [heq, if_neg hsame, if_pos hroom, hshrink]
    rfl
  · have hmoves := reallocMove_nonnull hr hp hfits hmin hn (k.next - k.off - A.sizeofStructMem)
    rw [← hfinds] at hmoves
    refine Iff.trans ?_ (hmoves.trans ?_)
    · refine exists_congr fun fuel => ?_
      rw [heq, if_neg hsame, if_neg hroom]
    · constructor
      · exact fun hf => Or.inr (Or.inr hf)
      · rintro (he | hlt | hf)
        · exact absurd he.symm hsame
        · exact absurd hlt hroom
        · exact hf

/-- `rt_memheap_realloc` to a size that fits the block stays in it. -/
theorem rtMemheapRealloc_stays (fuel : Nat) {h : MemHeap} {bs : List MemBlock} {fs : List Nat} {k : MemBlock}
    (hr : MemHeapRep A h bs fs) (hk : k ∈ bs) (hu : memBlockFree k = false) (hn : size ≠ 0)
    (hle : alignedRequest A size ≤ dataSize A k) :
    ∃ h', rtMemheapRealloc A fuel h (k.off + A.memheapSize) size = some (h', k.off + A.memheapSize) := by
  have hW := memheapSize_ge A
  have hitem : sizeofMemheapItem = 24 := rfl
  have hkb := hr.layout.bounds hk
  have htail := hr.arena.tail_lt
  have hroomy := hr.roomy k hk hu
  have hdata : dataSize A k = k.next - k.off - A.memheapSize := rfl
  obtain ⟨-, halign⟩ := alignedRequest_fits (by omega) hle
  have hfits : memheapAlign A size ≤ dataSize A k := by
    unfold memheapAlign
    split <;> omega
  have hheader : wordSub (k.off + A.memheapSize) A.memheapSize = k.off := by
    rw [wordSub_of_le (by omega) (by omega)]
    omega
  obtain ⟨xs, ys, rfl⟩ := List.append_of_mem hk
  unfold rtMemheapRealloc
  rw [if_neg hn]
  dsimp only
  rw [if_neg (ptr_ne_zero A k.off), hheader, memitemSize_eq hr.arena hr.layout, if_neg (by omega)]
  split
  · exact ⟨_, rfl⟩
  · exact ⟨_, rfl⟩

/-- To a size that fits the block, `rt_realloc` returns a block exactly where it is served, and
`rt_memheap_realloc` always. -/
theorem heapReach_shrink_iff {t : MemHeapState} {m' : Memory} {self freeHeader startAddr : Nat}
    {poolSize : UInt32} (hs : HeapReach A (CallFits A) m beginAddr endAddr s)
    (hc : HeapChain A s.heap offs) (hbig : 2 * A.memheapSize ≤ rtAlignDown A poolSize.toNat)
    (ht : MemHeapReach A (MemCallFits A) m' self freeHeader startAddr poolSize t) (newsize : UInt32)
    (hn : newsize.toNat ≠ 0) :
    (∀ p ∈ s.live, alignedRequest A newsize.toNat ≤ usableEnd A s.heap p - p →
      ((∃ fuel h' q, rtRealloc A fuel s.heap p newsize.toNat = some (h', q) ∧ q ≠ 0) ↔
        ShrinkServed A s.heap offs (usableEnd A s.heap p - p) newsize.toNat)) ∧
    ∀ p ∈ t.live, alignedRequest A newsize.toNat ≤
        memitemSize A t.heap.mem (wordSub p A.memheapSize) →
      ∃ fuel h' q, rtMemheapRealloc A fuel t.heap p newsize.toNat = some (h', q) ∧ q ≠ 0 := by
  constructor
  · intro p hp hle
    obtain ⟨bs, hh, -⟩ := heapReach_holds (fun _ _ _ hc => hc) hs
    have hlive := hh.2.mem_iff.mp hp
    have hmin : A.minSizeAligned ≤ s.heap.memSizeAligned := by
      by_contra htiny
      rw [heapReach_tiny hs (by omega)] at hp
      exact absurd hp List.not_mem_nil
    have hbelow : usableEnd A s.heap p - p < 4294967296 := by
      obtain ⟨xs, k, ys, rfl, -, rfl⟩ := mem_livePtrs hlive
      have hshape := hh.1.toHeapShape
      have hfits := hshape.fits
      have hkb := hshape.bounds (k := k) (by simp)
      unfold usableEnd
      rw [hshape.wordSub_blockPtr (by simp), hshape.header_eq]
      dsimp only
      omega
    obtain ⟨hfit, halign⟩ := alignedRequest_fits hbelow hle
    exact rtRealloc_shrink_iff hh.1 hc hlive hmin (rtAlign_pos hn hfit) (halign ▸ hle)
  · intro p hp hle
    obtain ⟨bs, fs, hrep, hlive⟩ := memHeapReach_holds hbig ht
    obtain ⟨k, hk, hu, rfl⟩ := liveItem hlive hp
    have hheader : wordSub (k.off + A.memheapSize) A.memheapSize = k.off := by
      have hkb := hrep.layout.bounds hk
      have htail := hrep.arena.tail_lt
      have hitem : sizeofMemheapItem = 24 := rfl
      rw [wordSub_of_le (by omega) (by omega)]
      omega
    have hsize : memitemSize A t.heap.mem k.off = dataSize A k := by
      obtain ⟨xs, ys, rfl⟩ := List.append_of_mem hk
      exact memitemSize_eq hrep.arena hrep.layout
    rw [hheader, hsize] at hle
    obtain ⟨h', hm⟩ := rtMemheapRealloc_stays 0 hrep hk hu hn hle
    exact ⟨0, h', _, hm, ptr_ne_zero A k.off⟩

end

/-- An arena of 480 usable bytes, all in one block that is in use. -/
def fullArena : HeapState :=
  (heapRun align8 clearedMemory 4096 4608 [(9, .malloc 464)]).get (by decide +kernel)

theorem fullArena_reach : HeapReach align8 (CallFits align8) clearedMemory 4096 4608 fullArena := by
  refine heapReach_run (fun _ c hc => ?_) (Option.some_get _).symm
  obtain rfl := List.mem_singleton.mp hc
  trivial

theorem fullArena_chain : HeapChain align8 fullArena.heap [0] where
  start := rfl
  follows := by
    have hend : fullArena.heap.heapEnd = 496 := by decide +kernel
    have hnext : (header fullArena.heap.mem 0).next = 496 := by decide +kernel
    have hW : align8.sizeofStructMem = 16 := by decide +kernel
    simp [hend, hnext, hW]

theorem fullArena_live : 4112 ∈ fullArena.live := by decide +kernel

/-- A memheap with one block handed out. -/
def oneHeld : MemHeapState :=
  (memHeapRun align8 clearedMemory 100 200 4096 256 [(9, .alloc 100)]).get (by decide +kernel)

theorem oneHeld_reach :
    MemHeapReach align8 (MemCallFits align8) clearedMemory 100 200 4096 256 oneHeld := by
  refine memHeapReach_run ⟨by decide, by decide, by decide, by decide, by decide⟩ (fun _ c hc => ?_)
    (Option.some_get _).symm
  obtain rfl := List.mem_singleton.mp hc
  trivial

theorem heapReach_shrink_iff_full :
    (∀ p ∈ fullArena.live, alignedRequest align8 (40 : UInt32).toNat ≤
        usableEnd align8 fullArena.heap p - p →
      ((∃ fuel h' q, rtRealloc align8 fuel fullArena.heap p (40 : UInt32).toNat = some (h', q) ∧
          q ≠ 0) ↔
        ShrinkServed align8 fullArena.heap [0] (usableEnd align8 fullArena.heap p - p)
          (40 : UInt32).toNat)) ∧
    ∀ p ∈ oneHeld.live, alignedRequest align8 (40 : UInt32).toNat ≤
        memitemSize align8 oneHeld.heap.mem (wordSub p align8.memheapSize) →
      ∃ fuel h' q, rtMemheapRealloc align8 fuel oneHeld.heap p (40 : UInt32).toNat = some (h', q) ∧
        q ≠ 0 :=
  heapReach_shrink_iff fullArena_reach fullArena_chain (by decide +kernel) oneHeld_reach 40 (by decide)

/-- All of the arena is one block in use, and `rt_realloc` to eight bytes less fails. -/
theorem realloc_shrink_fails : ¬∀ (A : AlignSize) (m : Memory) (b e : UInt32) (s : HeapState),
    HeapReach A (CallFits A) m b e s → ∀ p ∈ s.live, ∀ newsize : UInt32, newsize.toNat ≠ 0 →
    alignedRequest A newsize.toNat ≤ usableEnd A s.heap p - p →
    ∃ fuel h' q, rtRealloc A fuel s.heap p newsize.toNat = some (h', q) ∧ q ≠ 0 := by
  intro hall
  obtain ⟨fuel, h', q, hm, hq⟩ := hall align8 clearedMemory 4096 4608 fullArena fullArena_reach 4112
    fullArena_live 472 (by decide) (by decide +kernel)
  obtain ⟨bs, hh, -⟩ := heapReach_holds (fun _ _ _ hc => hc) fullArena_reach
  have hserved := (rtRealloc_shrink_iff hh.1 fullArena_chain (hh.2.mem_iff.mp fullArena_live)
    (by decide +kernel) (by decide +kernel) (by decide +kernel)).mp ⟨fuel, h', q, hm, hq⟩
  rcases hserved with he | hlt | ⟨o, ho, -, hfits, -⟩
  · exact absurd he (by decide +kernel)
  · exact absurd hlt (by decide +kernel)
  · obtain rfl := List.mem_singleton.mp ho
    exact absurd hfits.1 (by decide +kernel)

end RTThread
