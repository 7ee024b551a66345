import RTThread.HeapAlloc

namespace RTThread

section
variable {A : AlignSize} {h h' : Heap} {xs ys bs : List Block} {k : Block} {fuel p q : Nat}

/-- What `rt_realloc` does to shrink the block at `ptr` in place, `size` being its usable size. -/
def shrinkInPlace (A : AlignSize) (h : Heap) (ptr size newsize : Nat) : Option Heap :=
  let ptr2 := ptr + A.sizeofStructMem + newsize
  plugHoles
    { h with
      mem := relinkSuccessor A h (insertRemainder h.mem ptr ptr2) ptr2
      usedMem := wordSub h.usedMem (size - newsize) } ptr2

/-- The new remainder starts below every free block, or the lowest one is merged into it. -/
def ShrinkKeepsLowest (h : Heap) (ptr2 next : Nat) : Prop :=
  h.lfree < ptr2 ∨ h.lfree = next ∧ next ≠ h.heapEnd

theorem shrink_tiles (ptr2 : Nat) (hs : HeapShape A h (xs ++ k :: ys)) (hu : isFree k = false)
    (hlo : k.off + A.sizeofStructMem ≤ ptr2) (hhi : ptr2 + A.sizeofStructMem ≤ k.next) :
    Tiled A.sizeofStructMem (header (relinkSuccessor A h (insertRemainder h.mem k.off ptr2) ptr2)) 0 0
      (xs ++ ⟨k.off, ptr2, usedTag⟩ :: ⟨ptr2, k.next, freeTag⟩ :: ys) h.heapEnd ∧
    header (relinkSuccessor A h (insertRemainder h.mem k.off ptr2) ptr2) h.heapEnd =
      header h.mem h.heapEnd := by
  have hW := sizeofStructMem_ge A
  have hend := hs.end_lt
  have hkb := hs.bounds (k := k) (by simp)
  have hk2 : Apart k.off ptr2 := by unfold Apart; omega
  have htag := usedTag_of_not_isFree (hs.tags k (by simp)) hu
  refine relink_tiles hs hlo hhi ?_ ?_ fun x h1 h2 => header_insertRemainder_apart h1 h2
  · rw [header_insertRemainder_self hk2, word_of_lt (by omega), hs.header_eq, htag]
  · rw [header_insertRemainder_new hk2, hs.header_eq, word_of_lt (by omega)]
    rfl

/-- The heap with the remainder at `ptr2` cut off block `k`, before its holes are plugged. -/
def cutHeap (A : AlignSize) (h : Heap) (k : Block) (ptr2 u : Nat) : Heap :=
  { h with mem := relinkSuccessor A h (insertRemainder h.mem k.off ptr2) ptr2, usedMem := u }

theorem cutHeap_shape (ptr2 u : Nat) (hs : HeapShape A h (xs ++ k :: ys)) (hu : isFree k = false)
    (hlo : k.off + A.sizeofStructMem ≤ ptr2) (hhi : ptr2 + A.sizeofStructMem ≤ k.next)
    (hd : A.size ∣ ptr2) :
    HeapShape A (cutHeap A h k ptr2 u)
      ((xs ++ [⟨k.off, ptr2, usedTag⟩]) ++ ⟨ptr2, k.next, freeTag⟩ :: ys) := by
  have hmem : k ∈ xs ++ k :: ys := by simp
  obtain ⟨ht, he⟩ := shrink_tiles ptr2 hs hu hlo hhi
  rw [List.append_assoc]
  refine hs.rewrite ht (by simp [he]) ?_ ?_ ?_ _ h.maxMem
  · intro c hc
    simp only [List.mem_append, List.mem_cons] at hc
    rcases hc with hc | rfl | rfl | hc
    · exact hs.aligned c (by simp [hc])
    · exact hs.aligned k hmem
    · exact hd
    · exact hs.aligned c (by simp [hc])
  · intro c hc
    simp only [List.mem_append, List.mem_cons] at hc
    rcases hc with hc | rfl | rfl | hc
    · exact hs.tags c (by simp [hc])
    · exact Or.inl rfl
    · exact Or.inr rfl
    · exact hs.tags c (by simp [hc])
  · refine hs.lfreeAt.imp_right ?_
    rintro ⟨c, hc, hco, hcf⟩
    simp only [List.mem_append, List.mem_cons] at hc
    rcases hc with hc | rfl | hc
    · exact ⟨c, by simp [hc], hco, hcf⟩
    · simp [hu] at hcf
    · exact ⟨c, by simp [hc], hco, hcf⟩

/-- Shrinking a block in place completes, keeps every pointer and cuts that block only. -/
theorem shrinkInPlace_spec {newsize : Nat} (hr : HeapRep A h (xs ++ k :: ys)) (hu : isFree k = false)
    (hpos : 0 < newsize) (hd : A.size ∣ newsize)
    (hroom : k.off + A.sizeofStructMem + newsize + A.sizeofStructMem + minSize < k.next) :
    ∃ h' bs', shrinkInPlace A h k.off (k.next - k.off - A.sizeofStructMem) newsize = some h' ∧
      HeapRep A h' bs' ∧ SameBounds h h' ∧
      livePtrs A h' bs' = livePtrs A h (xs ++ k :: ys) ∧
      usedBlocks bs' = usedBlocks xs ++
        ⟨k.off, k.off + A.sizeofStructMem + newsize, usedTag⟩ :: usedBlocks ys ∧
      (ShrinkKeepsLowest h (k.off + A.sizeofStructMem + newsize) k.next →
        LowestKept h h' (xs ++ k :: ys) bs') := by
  have hs := hr.toHeapShape
  have hW := sizeofStructMem_ge A
  have hend := hs.end_lt
  have hmem : k ∈ xs ++ k :: ys := by simp
  have hkb := hs.bounds hmem
  obtain ⟨hxs, hys⟩ := noFreePair_split hr.noPair
  have hsum : h.usedMem = usedBytes (xs ++ ys) + (k.next - k.off) := by
    rw [hr.accounts, usedBytes_append, usedBytes_cons_used hu, usedBytes_append]
    omega
  have hused := hs.tiles.usedBytes_le
  rw [← hr.accounts] at hused
  have hd2 : A.size ∣ k.off + A.sizeofStructMem + newsize :=
    Nat.dvd_add (Nat.dvd_add (hs.aligned k hmem) (sizeofStructMem_dvd A)) hd
  generalize hp2 : k.off + A.sizeofStructMem + newsize = ptr2 at *
  let k1 : Block := ⟨k.off, ptr2, usedTag⟩
  have hu1 : isFree k1 = false := rfl
  have hs1 := cutHeap_shape ptr2 (wordSub h.usedMem (k.next - k.off - A.sizeofStructMem - newsize))
    hs hu (by omega) (by omega) hd2
  have hpair : NoFreePair (xs ++ [k1]) := by
    refine List.isChain_append.mpr ⟨hxs, List.isChain_singleton _, ?_⟩
    intro x _ y hy hb
    obtain rfl : k1 = y := by simpa using hy
    simp [hu1] at hb
  obtain ⟨h', bs', hp, hs', hsame, hn', hu', hlow, hl'⟩ := plugHoles_spec hs1 rfl hpair hys
  obtain ⟨e1, e2, e3, e4, _⟩ := hsame
  have hblocks : usedBlocks bs' = usedBlocks xs ++ k1 :: usedBlocks ys := by
    rw [hu']
    show usedBlocks ((xs ++ [k1]) ++ ys) = _
    simp [hu1]
  refine ⟨h', bs', ?_, ⟨hs', hn', ?_, ?_⟩, ⟨e1, e2, e3⟩, ?_, hblocks, ?_⟩
  · rw [← hp]
    simp only [shrinkInPlace, hp2, cutHeap]
  · rw [e4, usedBytes, hblocks]
    simp only [cutHeap]
    rw [wordSub_of_le (by omega) (by omega), hsum, usedBytes_append]
    simp only [usedBytes, List.map_append, List.map_cons, List.sum_append, List.sum_cons, k1]
    omega
  · intro c hc
    have hold := hr.roomy c
    rw [hblocks] at hc
    rw [usedBlocks_append, usedBlocks_cons_used hu] at hold
    simp only [List.mem_append, List.mem_cons] at hc hold
    rcases hc with hc | rfl | hc
    · exact hold (Or.inl hc)
    · show k.off + A.sizeofStructMem < ptr2
      omega
    · exact hold (Or.inr (Or.inr hc))
  · have hptr : blockPtr A h' = blockPtr A h := funext fun c => by simp only [blockPtr, e1, cutHeap]
    simp only [livePtrs, hblocks, usedBlocks_append, usedBlocks_cons_used hu, List.map_append,
      List.map_cons, hptr]
    rfl
  · intro hcond hl
    rw [lowestFree_append_used hu] at hl
    rw [hlow]
    apply hl'
    have hafter := hs.lowestFree_after
    show (if h.lfree = k.next ∧ k.next ≠ h.heapEnd then ptr2 else h.lfree) =
      lowestFree ptr2 (xs ++ [k1])
    rw [lowestFree_append_used hu1, List.append_nil]
    rcases lowestFree_prefix hs h.heapEnd ys with ⟨he, hlt⟩ | ⟨hnone, _, hrest⟩
    · rw [if_neg (by omega), hl, he]
      rcases lowestFree_spec k.off xs with
        ⟨hk, _⟩ | ⟨us, v, ws, rfl, hv, _, _⟩
      · omega
      · rw [lowestFree_append_free hv, lowestFree_append_free hv]
    · rw [if_pos (by unfold ShrinkKeepsLowest at hcond; omega)]
      exact (lowestFree_of_used hnone).symm

/-- Whether this `rt_realloc` shrinks in place, and if so where it puts the remainder. -/
def ReallocKeepsLowest (A : AlignSize) (h : Heap) (rmem newsize : Nat) : Prop :=
  let newsize := rtAlign A newsize
  let ptr := wordSub rmem (h.heapPtr + A.sizeofStructMem)
  let next := (header h.mem ptr).next
  rmem ≠ 0 → newsize ≠ 0 →
    newsize + A.sizeofStructMem + minSize < wordSub (wordSub next ptr) A.sizeofStructMem →
    ShrinkKeepsLowest h (ptr + A.sizeofStructMem + newsize) next

/-- The other way of `rt_realloc`: a new block, a copy, and the old block freed. -/
def reallocMove (A : AlignSize) (fuel : Nat) (h : Heap) (rmem size newsize : Nat) :
    Option (Heap × Nat) := do
  let (h', nmem) ← rtMalloc A fuel h newsize
  if nmem ≠ 0 then do
    let m := rtMemcpy h'.mem (wordSub nmem h'.heapPtr) (wordSub rmem h'.heapPtr)
      (if size < newsize then size else newsize)
    let h'' ← rtFree A { h' with mem := m } rmem
    some (h'', nmem)
  else some (h', nmem)

theorem rtFree_written {m : Memory} (hr : HeapRep A { h with mem := m } bs) (hp : p ∈ livePtrs A h bs) :
    ∃ h' bs', rtFree A { h with mem := m } p = some h' ∧ HeapRep A h' bs' ∧ SameBounds h h' ∧
      LowestKept h h' bs bs' ∧ (livePtrs A h bs).Perm (p :: livePtrs A h' bs') :=
  rtFree_live hr hp

/-- Where `rt_malloc` has a block for it, the move completes. -/
theorem reallocMove_moves {size newsize : Nat} {h1 : Heap} (hr : HeapRep A h bs)
    (hp : p ∈ livePtrs A h bs) (hd : A.size ∣ newsize) (hlt : newsize < 4294967296)
    (hmalloc : rtMalloc A fuel h newsize = some (h1, q)) (hq : q ≠ 0) :
    ∃ h' bs', reallocMove A fuel h p size newsize = some (h', q) ∧ HeapRep A h' bs' ∧
      SameBounds h h' ∧ LowestKept h h' bs bs' ∧
      (p :: livePtrs A h' bs').Perm (q :: livePtrs A h bs) := by
  rcases rtMalloc_spec hr hmalloc with ⟨he, -⟩ | ⟨bs1, hr1, hb1, hl1, hp1, k, hk, hu, hqk, hfit⟩
  · exact absurd he hq
  · rw [rtAlign_of_dvd hd hlt] at hfit
    generalize hn : (if size < newsize then size else newsize) = n
    have hnle : n ≤ newsize := by rw [← hn]; split <;> omega
    generalize hcopy : rtMemcpy h1.mem (wordSub q h1.heapPtr) (wordSub p h1.heapPtr) n = m
    have hr2 : HeapRep A { h1 with mem := m } bs1 := by
      refine hr1.fill (n := n) hk (by omega) fun x hx => ?_
      rw [← hcopy, rtMemcpy_outside]
      rwa [← hqk] at hx
    have hlive : p ∈ livePtrs A h1 bs1 := hp1.mem_iff.mpr (List.mem_cons_of_mem _ hp)
    obtain ⟨h2, bs', hf, hr', hb2, hl2, hp2⟩ := rtFree_written hr2 hlive
    refine ⟨h2, bs', ?_, hr', hb1.trans hb2, fun hl => hl2 (hl1 hl), hp2.symm.trans hp1⟩
    simp only [reallocMove, hmalloc, Option.bind_eq_bind, Option.bind_some, if_pos hq, hn, hcopy, hf]

theorem reallocMove_spec {size newsize : Nat} (hr : HeapRep A h bs) (hp : p ∈ livePtrs A h bs)
    (hd : A.size ∣ newsize) (hlt : newsize < 4294967296)
    (hm : reallocMove A fuel h p size newsize = some (h', q)) :
    q = 0 ∧ h' = h ∨
    ∃ bs', HeapRep A h' bs' ∧ SameBounds h h' ∧ LowestKept h h' bs bs' ∧ q ≠ 0 ∧
      (p :: livePtrs A h' bs').Perm (q :: livePtrs A h bs) := by
  obtain ⟨⟨h1, nmem⟩, hmalloc, hrest⟩ := Option.bind_eq_some_iff.mp hm
  by_cases hnz : nmem = 0
  · left
    subst hnz
    rcases rtMalloc_spec hr hmalloc with ⟨-, rfl⟩ | ⟨_, _, _, _, _, k, _, _, hq, _⟩
    · simpa [eq_comm, and_comm] using hrest
    · exact absurd hq.symm (blockPtr_pos A h1 k)
  · right
    obtain ⟨h2, bs', hmoved, hr', hb, hl, hperm⟩ := reallocMove_moves (p := p) hr hp hd hlt hmalloc hnz
    rw [hm] at hmoved
    obtain ⟨rfl, rfl⟩ := Prod.mk.inj (Option.some.inj hmoved)
    exact ⟨bs', hr', hb, hl, hnz, hperm⟩

/-- A completed `rt_realloc` of a block in use. -/
theorem rtRealloc_spec {newsize : Nat} (hr : HeapRep A h bs) (hp : p ∈ livePtrs A h bs)
    (hm : rtRealloc A fuel h p newsize = some (h', q)) :
    ∃ bs', HeapRep A h' bs' ∧ SameBounds h h' ∧
      (q = 0 ∧ rtAlign A newsize ≠ 0 ∧ h' = h ∧ bs' = bs ∨
        q = 0 ∧ rtAlign A newsize = 0 ∧ (livePtrs A h bs).Perm (p :: livePtrs A h' bs') ∨
        q ≠ 0 ∧ rtAlign A newsize ≠ 0 ∧ ∃ ps, (livePtrs A h bs).Perm (p :: ps) ∧
          (livePtrs A h' bs').Perm (q :: ps)) ∧
      (ReallocKeepsLowest A h p newsize → LowestKept h h' bs bs') := by
  have hs := hr.toHeapShape
  have hW := sizeofStructMem_ge A
  have hdvd := rtAlign_dvd A newsize
  have hidem := rtAlign_of_dvd hdvd (rtAlign_lt A newsize)
  have hend := hs.end_lt
  have hfits := hs.fits
  obtain ⟨xs, k, ys, rfl, hu, rfl⟩ := mem_livePtrs hp
  have hmem : k ∈ xs ++ k :: ys := by simp
  have hkb := hs.bounds hmem
  have hz := blockPtr_pos A h k
  have hmiddle : (livePtrs A h (xs ++ k :: ys)).Perm (blockPtr A h k :: livePtrs A h (xs ++ ys)) :=
    livePtrs_middle hu
  have hkeep : LowestKept h h (xs ++ k :: ys) (xs ++ k :: ys) := fun hl => hl
  simp only [rtRealloc] at hm
  split at hm
  next hbig =>
    obtain ⟨rfl, rfl⟩ : h = h' ∧ 0 = q := by simpa using hm
    exact ⟨_, hr, .refl h, Or.inl ⟨rfl, by omega, rfl, rfl⟩, fun _ => hkeep⟩
  split at hm
  next hzero =>
    obtain ⟨h1, bs', hf, hr', hb, hlow, hperm⟩ := rtFree_live hr hp
    simp only [hf, Option.bind_eq_bind, Option.bind_some, Option.some.injEq, Prod.mk.injEq] at hm
    obtain ⟨rfl, rfl⟩ := hm
    exact ⟨bs', hr', hb, Or.inr (Or.inl ⟨rfl, hzero, hperm⟩), fun _ => hlow⟩
  next hnz =>
  have hin : ¬(blockPtr A h k < h.heapPtr ∨ h.heapPtr + h.heapEnd ≤ blockPtr A h k) := by
    have := hr.roomy k (by simp [hu])
    unfold blockPtr
    omega
  simp only [if_neg hin, hs.wordSub_blockPtr hmem, hs.header_eq] at hm
  have hsize : wordSub (wordSub k.next k.off) A.sizeofStructMem =
      k.next - k.off - A.sizeofStructMem := by
    rw [wordSub_of_le (a := k.next) (by omega) (by omega), wordSub_of_le (by omega) (by omega)]
  simp only [hsize] at hm
  split at hm
  next =>
    obtain ⟨rfl, rfl⟩ : h = h' ∧ blockPtr A h k = q := by simpa using hm
    exact ⟨_, hr, .refl h, Or.inr (Or.inr ⟨hz, hnz, _, hmiddle, hmiddle⟩), fun _ => hkeep⟩
  split at hm
  next hroom =>
    obtain ⟨h1, bs', hf, hr', hb, hptrs, -, hlow⟩ :=
      shrinkInPlace_spec hr hu (Nat.pos_of_ne_zero hnz) hdvd (by omega)
    simp only [shrinkInPlace] at hf
    simp only [hf, Option.bind_eq_bind, Option.bind_some, Option.some.injEq, Prod.mk.injEq] at hm
    obtain ⟨rfl, rfl⟩ := hm
    refine ⟨bs', hr', hb, Or.inr (Or.inr ⟨hz, hnz, _, hmiddle, hptrs ▸ hmiddle⟩), fun hcond => ?_⟩
    have hc := hcond hz hnz
    simp only [hs.wordSub_blockPtr hmem, hs.header_eq, hsize] at hc
    exact hlow (hc hroom)
  next hroom =>
    have hmove : reallocMove A fuel h (blockPtr A h k) (k.next - k.off - A.sizeofStructMem)
        (rtAlign A newsize) = some (h', q) := hm
    rcases reallocMove_spec hr hp hdvd (rtAlign_lt A newsize) hmove with
      ⟨rfl, rfl⟩ | ⟨bs', hr', hb, hlow, hq, hperm⟩
    · exact ⟨_, hr, .refl h', Or.inl ⟨rfl, hnz, rfl, rfl⟩, fun _ => hkeep⟩
    · have hswap := (hperm.trans (hmiddle.cons q)).trans (List.Perm.swap _ _ _)
      exact ⟨bs', hr', hb, Or.inr (Or.inr ⟨hq, hnz, _, hmiddle, hswap.cons_inv⟩), fun _ => hlow⟩

/-- Rounding up to `RT_ALIGN_SIZE` stays within 32 bits. -/
def AlignFits (A : AlignSize) (size : Nat) : Prop := size + A.size ≤ 4294967296

theorem rtAlign_wraps {size : Nat} (hlt : size < 4294967296) (hw : ¬AlignFits A size) :
    rtAlign A size = 0 := by
  have hpos := A.size_pos
  have hsum : word (size + A.size - 1) < A.size := by
    unfold AlignFits at hw
    unfold word
    have := A.size_le
    omega
  rw [rtAlign_eq, Nat.div_eq_of_lt hsum, Nat.zero_mul]

/-- `rt_calloc` does not clear more than the block it gets: the size does not wrap when rounded,
or there is no block to get. -/
def CallocClears (A : AlignSize) (fuel : Nat) (h : Heap) (count size : Nat) : Prop :=
  AlignFits A (word (count * size)) ∨ mallocSearch A h A.minSizeAligned fuel h.lfree = some none

theorem rtMalloc_none {size : Nat} (hz : rtAlign A size = 0)
    (hs : mallocSearch A h A.minSizeAligned fuel h.lfree = some none) :
    rtMalloc A fuel h size = some (h, 0) := by
  have hm := minSizeAligned_eq A
  have hW := sizeofStructMem_ge A
  unfold rtMalloc
  split
  · rfl
  · simp [hz, show 0 < A.minSizeAligned by omega, hs]

/-- Only the blocks and the counters matter to what is live. -/
theorem written_same (m : Memory) (hb : SameBounds h h') (hl : LowestKept h h' xs bs) :
    SameBounds h { h' with mem := m } ∧ LowestKept h { h' with mem := m } xs bs ∧
      livePtrs A { h' with mem := m } bs = livePtrs A h' bs :=
  ⟨hb, hl, rfl⟩

theorem rtCalloc_spec {count size : Nat} (hr : HeapRep A h bs) (hc : CallocClears A fuel h count size)
    (hm : rtCalloc A fuel h count size = some (h', q)) :
    q = 0 ∧ h' = h ∨
    ∃ bs', HeapRep A h' bs' ∧ SameBounds h h' ∧ LowestKept h h' bs bs' ∧ q ≠ 0 ∧
      (livePtrs A h' bs').Perm (q :: livePtrs A h bs) := by
  simp only [rtCalloc, Option.bind_eq_bind, Option.bind_eq_some_iff] at hm
  obtain ⟨⟨h1, r⟩, hmalloc, hm⟩ := hm
  simp only at hm
  rcases rtMalloc_spec hr hmalloc with ⟨rfl, rfl⟩ | ⟨bs1, hr1, hb1, hl1, hp1, k, hk, hu, hq, hfit⟩
  · left
    rw [if_neg (by simp)] at hm
    simpa [eq_comm, and_comm] using hm
  · right
    have hnz : r ≠ 0 := by rw [hq]; exact blockPtr_pos A h1 k
    have hle : word (count * size) ≤ rtAlign A (word (count * size)) := by
      rcases hc with hf | hnone
      · exact le_rtAlign hf
      · by_cases hf : AlignFits A (word (count * size))
        · exact le_rtAlign hf
        · rw [rtMalloc_none (rtAlign_wraps (word_lt _) hf) hnone] at hmalloc
          exact absurd (Prod.mk.inj (Option.some.inj hmalloc)).2.symm hnz
    rw [if_pos hnz] at hm
    obtain ⟨rfl, rfl⟩ := Prod.mk.inj (Option.some.inj hm)
    have hr2 := hr1.fill (m := rtMemset h1.mem (wordSub r h1.heapPtr) 0 (word (count * size)))
      (n := word (count * size)) hk (by omega) fun x hx => rtMemset_outside (hq ▸ hx)
    obtain ⟨hb2, hl2, hp2⟩ := written_same (A := A)
      (rtMemset h1.mem (wordSub r h1.heapPtr) 0 (word (count * size))) hb1 hl1
    exact ⟨bs1, hr2, hb2, hl2, hnz, (List.Perm.of_eq hp2).trans hp1⟩

end

end RTThread
