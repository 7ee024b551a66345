import RTThread.HeapMalloc

namespace RTThread

/-- The pointers the arena has given out: one for each block in use. -/
def livePtrs (A : AlignSize) (h : Heap) (bs : List Block) : List Nat :=
  (usedBlocks bs).map (blockPtr A h)

def SameBounds (h h' : Heap) : Prop :=
  h'.heapPtr = h.heapPtr ∧ h'.heapEnd = h.heapEnd ∧ h'.memSizeAligned = h.memSizeAligned

def LowestKept (h h' : Heap) (bs bs' : List Block) : Prop :=
  h.lfree = lowestFree h.heapEnd bs → h'.lfree = lowestFree h'.heapEnd bs'

section
variable {A : AlignSize} {h h' h'' : Heap} {xs ys bs bs' : List Block} {k : Block}
  {fuel size p q : Nat}

theorem SameBounds.refl (h : Heap) : SameBounds h h := ⟨rfl, rfl, rfl⟩

theorem SameBounds.trans (h1 : SameBounds h h') (h2 : SameBounds h' h'') : SameBounds h h'' :=
  ⟨h2.1.trans h1.1, h2.2.1.trans h1.2.1, h2.2.2.trans h1.2.2⟩

theorem livePtrs_congr (hb : SameBounds h h') (hu : usedBlocks bs' = usedBlocks bs) :
    livePtrs A h' bs' = livePtrs A h bs := by
  simp only [livePtrs, hu]
  refine List.map_congr_left fun k _ => ?_
  simp [blockPtr, hb.1]

theorem livePtrs_middle (hu : isFree k = false) :
    (livePtrs A h (xs ++ k :: ys)).Perm (blockPtr A h k :: livePtrs A h (xs ++ ys)) := by
  simp only [livePtrs, usedBlocks_append, usedBlocks_cons_used hu, List.map_append, List.map_cons]
  exact List.perm_middle

theorem mem_livePtrs (hp : p ∈ livePtrs A h bs) :
    ∃ xs k ys, bs = xs ++ k :: ys ∧ isFree k = false ∧ blockPtr A h k = p := by
  obtain ⟨k, hk, rfl⟩ := List.mem_map.mp hp
  obtain ⟨hk, hu⟩ := List.mem_filter.mp hk
  obtain ⟨xs, ys, rfl⟩ := List.append_of_mem hk
  exact ⟨xs, k, ys, rfl, by simpa using hu, rfl⟩

theorem blockPtr_pos (A : AlignSize) (h : Heap) (k : Block) : blockPtr A h k ≠ 0 := by
  have := sizeofStructMem_ge A
  unfold blockPtr
  omega

/-- The size `rt_malloc` searches for. -/
def mallocSize (A : AlignSize) (size : Nat) : Nat :=
  if rtAlign A size < A.minSizeAligned then A.minSizeAligned else rtAlign A size

theorem mallocSize_dvd (A : AlignSize) (size : Nat) : A.size ∣ mallocSize A size := by
  unfold mallocSize
  split
  · exact rtAlign_dvd A _
  · exact rtAlign_dvd A _

theorem mallocSize_ge (A : AlignSize) (size : Nat) :
    0 < mallocSize A size ∧ rtAlign A size ≤ mallocSize A size := by
  have hm := minSizeAligned_eq A
  have hW := sizeofStructMem_ge A
  unfold mallocSize
  split <;> omega

theorem HeapShape.lfree_start (hs : HeapShape A h bs) :
    h.lfree = h.heapEnd ∨ ∃ k ∈ bs, k.off = h.lfree := by
  rcases hs.lfreeAt with he | ⟨k, hk, ho, -⟩
  · exact Or.inl he
  · exact Or.inr ⟨k, hk, ho⟩

/-- `rt_malloc` returns NULL, or takes a free block that is long enough. -/
theorem rtMalloc_cases (hs : HeapShape A h bs) (hm : rtMalloc A fuel h size = some (h', q)) :
    q = 0 ∧ h' = h ∨
    ∃ xs k ys, bs = xs ++ k :: ys ∧ isFree k = true ∧
      k.off + A.sizeofStructMem + mallocSize A size ≤ k.next ∧
      mallocTake A fuel h k.off (mallocSize A size) = some (h', q) := by
  simp only [rtMalloc] at hm
  split at hm
  · left
    simpa [eq_comm, and_comm] using hm
  split at hm
  · left
    simpa [eq_comm, and_comm] using hm
  rw [← mallocSize, Option.bind_eq_some_iff] at hm
  obtain ⟨found, hf, hm⟩ := hm
  cases found with
  | none =>
    left
    simpa [eq_comm, and_comm] using hm
  | some ptr =>
    right
    obtain ⟨xs, k, ys, rfl, rfl, hk, hfit⟩ := mallocSearch_found hs hs.lfree_start hf
    exact ⟨xs, k, ys, rfl, hk, hfit, hm⟩

/-- A completed `rt_malloc`: nothing happened, or one more block is in use. -/
theorem rtMalloc_spec (hr : HeapRep A h bs) (hm : rtMalloc A fuel h size = some (h', q)) :
    q = 0 ∧ h' = h ∨
    ∃ bs', HeapRep A h' bs' ∧ SameBounds h h' ∧ LowestKept h h' bs bs' ∧
      (livePtrs A h' bs').Perm (q :: livePtrs A h bs) ∧
      ∃ k ∈ bs', isFree k = false ∧ q = blockPtr A h' k ∧
        k.off + A.sizeofStructMem + rtAlign A size ≤ k.next := by
  have hs := hr.toHeapShape
  rcases rtMalloc_cases hs hm with hnone | ⟨xs, k, ys, rfl, hk, hfit, hm⟩
  · exact Or.inl hnone
  right
  obtain ⟨hpos, hge⟩ := mallocSize_ge A size
  obtain ⟨k', zs, hr', hu, hq, hfit', e1, e2, e3, hz, hlow⟩ :=
    mallocTake_spec hr hk (mallocSize_dvd A size) hpos hfit hm
  refine ⟨xs ++ k' :: zs, hr', ⟨e1, e2, e3⟩, ?_, ?_, k', by simp, hu, hq, by omega⟩
  · intro hl
    rw [e2]
    exact hlow hl
  · rw [hq]
    refine (livePtrs_middle hu).trans (List.Perm.of_eq ?_)
    have hused : usedBlocks (xs ++ zs) = usedBlocks (xs ++ k :: ys) := by
      rw [usedBlocks_append, usedBlocks_append, usedBlocks_cons_free hk, hz]
    rw [livePtrs_congr ⟨e1, e2, e3⟩ hused]

/-- A completed `rt_free` of a block in use takes exactly that block out of use. -/
theorem rtFree_live (hr : HeapRep A h bs) (hp : p ∈ livePtrs A h bs) :
    ∃ h' bs', rtFree A h p = some h' ∧ HeapRep A h' bs' ∧ SameBounds h h' ∧
      LowestKept h h' bs bs' ∧ (livePtrs A h bs).Perm (p :: livePtrs A h' bs') := by
  obtain ⟨xs, k, ys, rfl, hu, rfl⟩ := mem_livePtrs hp
  obtain ⟨h', bs', hf, hr', e1, e2, e3, hu', hl⟩ := rtFree_spec hr hu
  refine ⟨h', bs', hf, hr', ⟨e1, e2, e3⟩, ?_, ?_⟩
  · intro hlow
    rw [e2]
    exact hl hlow
  · rw [livePtrs_congr ⟨e1, e2, e3⟩ hu']
    exact livePtrs_middle hu

/-- Writing inside the usable region of a block leaves the heap as it is. -/
theorem HeapRep.write {m : Memory} (hr : HeapRep A h bs) (hk : k ∈ bs)
    (hout : ∀ x < 4294967296, x < k.off + A.sizeofStructMem ∨ k.next ≤ x →
      m.byte x = h.mem.byte x) : HeapRep A { h with mem := m } bs := by
  have hs := hr.toHeapShape
  have hW := sizeofStructMem_ge A
  have hf := hs.fits
  have hkb := hs.bounds hk
  have hkeep : ∀ o, o + 12 ≤ k.off + A.sizeofStructMem ∨ k.next ≤ o →
      o + 12 ≤ 4294967296 → header m o = header h.mem o := by
    intro o ho hlt
    have hread : ∀ x, o ≤ x → x < o + 12 → m.byte x = h.mem.byte x := fun x _ _ =>
      hout x (by omega) (by omega)
    unfold header
    rw [read16_congr fun x _ _ => hread x (by omega) (by omega),
      read16_congr fun x _ _ => hread x (by omega) (by omega),
      read32_congr fun x _ _ => hread x (by omega) (by omega),
      read32_congr fun x _ _ => hread x (by omega) (by omega)]
  obtain ⟨xs, ys, rfl⟩ := List.append_of_mem hk
  refine ⟨⟨hs.tiles.congr ?_, ?_, ?_, hs.endOff, hs.fits, hs.ptrAligned, hs.aligned, hs.tags,
    hs.lfreeAt⟩, hr.noPair, hr.accounts, hr.roomy⟩
  · intro c hc
    have hcb := hs.bounds hc
    refine hkeep c.off ?_ (by omega)
    simp only [List.mem_append, List.mem_cons] at hc
    rcases hc with hc | rfl | hc
    · have := hs.before hc
      omega
    · omega
    · have := hs.after hc
      omega
  · show (header m h.heapEnd).tag.used ≠ 0
    rw [hkeep h.heapEnd (Or.inr hkb.2) (by omega)]
    exact hs.endUsed
  · show (header m h.heapEnd).next = h.heapEnd
    rw [hkeep h.heapEnd (Or.inr hkb.2) (by omega)]
    exact hs.endNext

/-- Filling `n` bytes from a block's pointer stays inside the block when they fit it. -/
theorem HeapRep.fill {m : Memory} {n : Nat} (hr : HeapRep A h bs) (hk : k ∈ bs)
    (hn : k.off + A.sizeofStructMem + n ≤ k.next)
    (hm : ∀ x, ¬InRange (wordSub (blockPtr A h k) h.heapPtr) n x → m.byte x = h.mem.byte x) :
    HeapRep A { h with mem := m } bs := by
  have hs := hr.toHeapShape
  have hkb := hs.bounds hk
  have hf := hs.fits
  have ho : wordSub (blockPtr A h k) h.heapPtr = k.off + A.sizeofStructMem := by
    rw [wordSub_of_le (by unfold blockPtr; omega) (by unfold blockPtr; omega)]
    unfold blockPtr
    omega
  rw [ho] at hm
  exact hr.write hk fun x hx hout => hm x (not_inRange hx (by omega) (by omega))

end

end RTThread
