import RTThread.HeapHoles

namespace RTThread

/-- What the heap is between calls: its blocks, no two free ones adjacent, and true accounts. -/
structure HeapRep (A : AlignSize) (h : Heap) (bs : List Block) : Prop extends HeapShape A h bs where
  noPair : NoFreePair bs
  accounts : h.usedMem = usedBytes bs
  roomy : ∀ k ∈ usedBlocks bs, k.off + A.sizeofStructMem < k.next

/-- The address `rt_malloc` returns for block `k`. -/
def blockPtr (A : AlignSize) (h : Heap) (k : Block) : Nat := h.heapPtr + k.off + A.sizeofStructMem

section
variable {A : AlignSize} {h : Heap} {xs ys zs bs bs' : List Block} {k n p : Block} {stop : Nat}

/-- Where the search for the lowest free block stands with respect to `k`. -/
theorem lowestFree_prefix (hs : HeapShape A h (xs ++ k :: ys)) (stop : Nat) (zs : List Block) :
    lowestFree stop (xs ++ zs) = lowestFree k.off xs ∧ lowestFree k.off xs < k.off ∨
      (∀ x ∈ xs, isFree x = false) ∧ lowestFree k.off xs = k.off ∧
        lowestFree stop (xs ++ zs) = lowestFree stop zs := by
  have hW := sizeofStructMem_ge A
  rcases lowestFree_spec k.off xs with ⟨he, hn⟩ | ⟨us, v, ws, rfl, hv, he, _⟩
  · exact Or.inr ⟨hn, he, lowestFree_append_nil hn⟩
  · left
    have hb := hs.before (n := v) (by simp)
    refine ⟨?_, by omega⟩
    rw [List.append_assoc, List.cons_append, lowestFree_append_free hv, lowestFree_append_free hv]

theorem HeapShape.lowestFree_after (hs : HeapShape A h (xs ++ k :: ys)) :
    k.next ≤ lowestFree h.heapEnd ys := by
  rcases lowestFree_spec h.heapEnd ys with ⟨he, _⟩ | ⟨us, v, ws, rfl, _, he, _⟩
  · have := hs.bounds (k := k) (by simp)
    omega
  · have := hs.after (n := v) (by simp)
    omega

theorem noFreePair_split (h : NoFreePair (xs ++ k :: ys)) : NoFreePair xs ∧ NoFreePair ys :=
  ⟨(List.isChain_append.mp h).1, (List.isChain_cons.mp (List.isChain_append.mp h).2.1).2⟩

/-- The offset the code computes back from a pointer it returned. -/
theorem HeapShape.wordSub_blockPtr (hs : HeapShape A h bs) (hk : k ∈ bs) :
    wordSub (blockPtr A h k) (h.heapPtr + A.sizeofStructMem) = k.off := by
  have hb := hs.bounds hk
  have hf := hs.fits
  rw [wordSub_of_le (by unfold blockPtr; omega) (by unfold blockPtr; omega)]
  unfold blockPtr
  omega

theorem HeapShape.blockPtr_aligned (hs : HeapShape A h bs) (hk : k ∈ bs) :
    blockPtr A h k % A.size = 0 :=
  Nat.mod_eq_zero_of_dvd
    (Nat.dvd_add (Nat.dvd_add hs.ptrAligned (hs.aligned k hk)) (sizeofStructMem_dvd A))

theorem markFree_tiles {m : Memory} {b : Nat}
    (ht : Tiled A.sizeofStructMem (header m) 0 0 (xs ++ k :: ys) b) :
    Tiled A.sizeofStructMem (header (setMagic (setUsed m k.off 0) k.off heapMagic)) 0 0
      (xs ++ { k with tag := freeTag } :: ys) b := by
  have hW := sizeofStructMem_ge A
  refine ht.retag ?_ ?_ (by omega)
  · simp [freeTag, heapMagic]
  · intro x hx
    have hap : Apart x k.off := by unfold Apart; omega
    rw [header_setMagic_apart hap, header_setUsed_apart hap]

/-- The heap that `rt_free` hands to `plug_holes`. -/
def freedHeap (h : Heap) (k : Block) : Heap :=
  { h with
    mem := setMagic (setUsed h.mem k.off 0) k.off heapMagic
    lfree := if k.off < h.lfree then k.off else h.lfree
    usedMem := wordSub h.usedMem (wordSub k.next k.off) }

theorem freedHeap_shape (hs : HeapShape A h (xs ++ k :: ys)) (hu : isFree k = false) :
    HeapShape A (freedHeap h k) (xs ++ { k with tag := freeTag } :: ys) := by
  have hW := sizeofStructMem_ge A
  have hmem : k ∈ xs ++ k :: ys := by simp
  have hkb := hs.bounds hmem
  refine hs.rewrite (markFree_tiles hs.tiles) ?_ ?_ ?_ ?_ _ h.maxMem
  · have hap : Apart h.heapEnd k.off := by unfold Apart; omega
    simp [header_setMagic_apart hap, header_setUsed_apart hap]
  · intro c hc
    simp only [List.mem_append, List.mem_cons] at hc
    rcases hc with hc | rfl | hc
    · exact hs.aligned c (by simp [hc])
    · exact hs.aligned k hmem
    · exact hs.aligned c (by simp [hc])
  · intro c hc
    simp only [List.mem_append, List.mem_cons] at hc
    rcases hc with hc | rfl | hc
    · exact hs.tags c (by simp [hc])
    · exact Or.inr rfl
    · exact hs.tags c (by simp [hc])
  · by_cases hl : k.off < h.lfree
    · exact Or.inr ⟨{ k with tag := freeTag }, by simp, by simp [hl], rfl⟩
    · simp only [if_neg hl]
      refine hs.lfreeAt.imp_right ?_
      rintro ⟨c, hc, hco, hcf⟩
      simp only [List.mem_append, List.mem_cons] at hc
      rcases hc with hc | rfl | hc
      · exact ⟨c, by simp [hc], hco, hcf⟩
      · simp [hu] at hcf
      · exact ⟨c, by simp [hc], hco, hcf⟩

/-- `rt_free` of a block in use passes its assertions. -/
theorem rtFree_plugs (hr : HeapRep A h (xs ++ k :: ys)) (hu : isFree k = false) :
    rtFree A h (blockPtr A h k) = plugHoles (freedHeap h k) k.off := by
  have hs := hr.toHeapShape
  have hW := sizeofStructMem_ge A
  have hmem : k ∈ xs ++ k :: ys := by simp
  have hroom := hr.roomy k (by simp [hu])
  have hkb := hs.bounds hmem
  have htag := usedTag_of_not_isFree (hs.tags k hmem) hu
  have hz : blockPtr A h k ≠ 0 := by unfold blockPtr; omega
  have ho := hs.wordSub_blockPtr hmem
  have hap1 : h.heapPtr ≤ blockPtr A h k ∧ blockPtr A h k < h.heapPtr + h.heapEnd := by
    unfold blockPtr
    omega
  have hh := hs.header_eq
  simp only [rtFree, hz, if_false, ho, rtAssert, hs.blockPtr_aligned hmem, hap1, and_self,
    if_true, hh, htag, Option.bind_eq_bind, Option.bind_some, usedTag, ne_eq, one_ne_zero,
    not_false_eq_true, header_setMagic, header_setUsed]
  rfl

/-- `rtFree` on a block in use: it completes, and only that block stops being in use. -/
theorem rtFree_spec (hr : HeapRep A h (xs ++ k :: ys)) (hu : isFree k = false) :
    ∃ h' bs', rtFree A h (blockPtr A h k) = some h' ∧ HeapRep A h' bs' ∧
      h'.heapPtr = h.heapPtr ∧ h'.heapEnd = h.heapEnd ∧ h'.memSizeAligned = h.memSizeAligned ∧
      usedBlocks bs' = usedBlocks (xs ++ ys) ∧
      (h.lfree = lowestFree h.heapEnd (xs ++ k :: ys) → h'.lfree = lowestFree h.heapEnd bs') := by
  have hs := hr.toHeapShape
  have hW := sizeofStructMem_ge A
  have hkb := hs.bounds (k := k) (by simp)
  have hend := hs.end_lt
  obtain ⟨hxs, hys⟩ := noFreePair_split hr.noPair
  have hsum : h.usedMem = usedBytes (xs ++ ys) + (k.next - k.off) := by
    rw [hr.accounts, usedBytes_append, usedBytes_cons_used hu, usedBytes_append]
    omega
  have hused := hs.tiles.usedBytes_le
  rw [← hr.accounts] at hused
  obtain ⟨h', bs', hp, hs', hsame, hn', hu', hlow, hl'⟩ :=
    plugHoles_spec (freedHeap_shape hs hu) rfl hxs hys
  obtain ⟨e1, e2, e3, e4, _⟩ := hsame
  refine ⟨h', bs', (rtFree_plugs hr hu).trans hp, ⟨hs', hn', ?_, ?_⟩, e1, e2, e3, hu', ?_⟩
  · rw [e4, usedBytes, hu', ← usedBytes]
    show wordSub h.usedMem (wordSub k.next k.off) = _
    rw [wordSub_of_le (a := k.next) (by omega) (by omega), wordSub_of_le (by omega) (by omega), hsum]
    omega
  · intro c hc
    rw [hu'] at hc
    refine hr.roomy c ?_
    simp only [usedBlocks_append, List.mem_append] at hc ⊢
    rw [usedBlocks_cons_used hu]
    exact hc.imp_right (List.mem_cons_of_mem k)
  · intro hl
    rw [hlow]
    apply hl'
    rw [lowestFree_append_used hu] at hl
    have hafter := hs.lowestFree_after
    show (if (freedHeap h k).lfree = k.next ∧ k.next ≠ h.heapEnd then k.off
      else (freedHeap h k).lfree) = lowestFree k.off xs
    rcases lowestFree_prefix hs h.heapEnd ys with ⟨he, hlt⟩ | ⟨_, he, hrest⟩
    · have hlk : (freedHeap h k).lfree = h.lfree := if_neg (by omega)
      rw [hlk, if_neg (by omega), hl, he]
    · have hlk : (freedHeap h k).lfree = k.off := if_pos (by omega)
      rw [hlk, if_neg (by omega), he]

end

end RTThread
