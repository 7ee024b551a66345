import RTThread.HeapFree

namespace RTThread

section
variable {A : AlignSize} {h : Heap} {xs ys bs bs' : List Block} {k n : Block} {stop size : Nat}

theorem header_relink_apart {m : Memory} {ptr2 x : Nat} (hx : Apart x (header m ptr2).next) :
    header (relinkSuccessor A h m ptr2) x = header m x := by
  unfold relinkSuccessor
  split
  · exact header_setPrev_apart hx
  · rfl

theorem header_relink_next {m : Memory} {ptr2 : Nat}
    (hn : (header m ptr2).next ≠ h.memSizeAligned + A.sizeofStructMem) :
    header (relinkSuccessor A h m ptr2) (header m ptr2).next =
      { header m (header m ptr2).next with prev := word ptr2 } := by
  unfold relinkSuccessor
  rw [if_pos hn, header_setPrev]

theorem relink_end {m : Memory} {ptr2 : Nat} (he : h.heapEnd = h.memSizeAligned + A.sizeofStructMem)
    (hn : h.heapEnd = (header m ptr2).next ∨ Apart h.heapEnd (header m ptr2).next) :
    header (relinkSuccessor A h m ptr2) h.heapEnd = header m h.heapEnd := by
  rcases hn with hn | hn
  · unfold relinkSuccessor
    rw [if_neg]
    rw [← hn, he]
    simp
  · exact header_relink_apart hn

/-- The split shared by `rt_malloc` and `rt_realloc`: `m` holds the two new headers, and the
block after them is still to be linked back. -/
theorem relink_tiles {m : Memory} {t : HeapTag} {ptr2 : Nat} (hs : HeapShape A h (xs ++ k :: ys))
    (hlo : k.off + A.sizeofStructMem ≤ ptr2) (hhi : ptr2 + A.sizeofStructMem ≤ k.next)
    (hk : header m k.off = { header h.mem k.off with tag := t, next := ptr2 })
    (h2 : header m ptr2 = ⟨freeTag, k.next, k.off⟩)
    (hm : ∀ x, Apart x k.off → Apart x ptr2 → header m x = header h.mem x) :
    Tiled A.sizeofStructMem (header (relinkSuccessor A h m ptr2)) 0 0
      (xs ++ ⟨k.off, ptr2, t⟩ :: ⟨ptr2, k.next, freeTag⟩ :: ys) h.heapEnd ∧
    header (relinkSuccessor A h m ptr2) h.heapEnd = header h.mem h.heapEnd := by
  have hW := sizeofStructMem_ge A
  have hend := hs.end_lt
  have hkb := hs.bounds (k := k) (by simp)
  have hkn : Apart k.off k.next := by unfold Apart; omega
  have h2n : Apart ptr2 k.next := by unfold Apart; omega
  constructor
  · refine hs.tiles.split (by omega) hlo hhi ?_ ?_ ?_ ?_
    · rw [header_relink_apart (by rw [h2]; exact hkn), hk]
    · rw [header_relink_apart (by rw [h2]; exact h2n), h2]
    · intro hlt
      have hne : (header m ptr2).next ≠ h.memSizeAligned + A.sizeofStructMem := by
        rw [h2, ← hs.endOff]
        exact Nat.ne_of_lt hlt
      have hrel := header_relink_next hne
      rw [h2] at hrel
      rw [hrel, word_of_lt (by omega), hm _ (Or.symm hkn) (Or.symm h2n)]
    · intro x hx
      have hxn : Apart x k.next := by unfold Apart; omega
      rw [header_relink_apart (by rw [h2]; exact hxn),
        hm x (by unfold Apart; omega) (by unfold Apart; omega)]
  · rw [relink_end hs.endOff, hm _ (by unfold Apart; omega) (by unfold Apart; omega)]
    rw [h2]
    show h.heapEnd = k.next ∨ Apart h.heapEnd k.next
    exact hs.next_eq_or_lt.imp_right fun he => by unfold Apart; omega

theorem stampMagic_tiles {m : Memory} {b : Nat} (hb : k.off + A.sizeofStructMem ≤ b)
    (hk : k.tag.magic = heapMagic)
    (ht : Tiled A.sizeofStructMem (header m) 0 0 (xs ++ k :: ys) b) :
    Tiled A.sizeofStructMem (header (setMagic m k.off heapMagic)) 0 0 (xs ++ k :: ys) b ∧
      header (setMagic m k.off heapMagic) b = header m b := by
  have hW := sizeofStructMem_ge A
  have hother : ∀ x, Apart x k.off → header (setMagic m k.off heapMagic) x = header m x :=
    fun x hx => header_setMagic_apart hx
  have htag : (header m k.off).tag = k.tag := (ht.reads (c := k) (by simp)).1
  refine ⟨ht.retag (t := k.tag) ?_ (fun x hx => hother x (by unfold Apart; omega)) (by omega),
    hother b (by unfold Apart; omega)⟩
  rw [header_setMagic, htag, show heapMagic % 65536 = k.tag.magic by rw [hk]; rfl]

/-- The memory `rt_malloc` leaves when it splits the block at `ptr`. -/
def splitMemory (A : AlignSize) (h : Heap) (ptr ptr2 : Nat) : Memory :=
  setMagic (relinkSuccessor A h (setUsed (insertRemainder h.mem ptr ptr2) ptr 1) ptr2) ptr heapMagic

theorem splitMemory_tiles {ptr2 : Nat} (hs : HeapShape A h (xs ++ k :: ys)) (hf : isFree k)
    (hlo : k.off + A.sizeofStructMem ≤ ptr2) (hhi : ptr2 + A.sizeofStructMem ≤ k.next) :
    Tiled A.sizeofStructMem (header (splitMemory A h k.off ptr2)) 0 0
      (xs ++ ⟨k.off, ptr2, usedTag⟩ :: ⟨ptr2, k.next, freeTag⟩ :: ys) h.heapEnd ∧
    header (splitMemory A h k.off ptr2) h.heapEnd = header h.mem h.heapEnd := by
  have hW := sizeofStructMem_ge A
  have hend := hs.end_lt
  have hkb := hs.bounds (k := k) (by simp)
  have hk2 : Apart k.off ptr2 := by unfold Apart; omega
  have htag := freeTag_of_isFree (hs.tags k (by simp)) hf
  obtain ⟨ht, he⟩ := relink_tiles (m := setUsed (insertRemainder h.mem k.off ptr2) k.off 1)
    (t := usedTag) hs hlo hhi
    (by
      rw [header_setUsed, header_insertRemainder_self hk2, word_of_lt (by omega), hs.header_eq, htag]
      rfl)
    (by
      rw [header_setUsed_apart (Or.symm hk2), header_insertRemainder_new hk2, hs.header_eq,
        word_of_lt (by omega)]
      rfl)
    (fun x h1 h2 => by rw [header_setUsed_apart h1, header_insertRemainder_apart h1 h2])
  obtain ⟨ht', he'⟩ := stampMagic_tiles (by show k.off + _ ≤ _; omega) rfl ht
  exact ⟨ht', he'.trans he⟩

/-- The memory when the block at `ptr` is taken whole. -/
def wholeMemory (h : Heap) (ptr : Nat) : Memory := setMagic (setUsed h.mem ptr 1) ptr heapMagic

theorem wholeMemory_tiles (hs : HeapShape A h (xs ++ k :: ys)) :
    Tiled A.sizeofStructMem (header (wholeMemory h k.off)) 0 0
      (xs ++ { k with tag := usedTag } :: ys) h.heapEnd ∧
    header (wholeMemory h k.off) h.heapEnd = header h.mem h.heapEnd := by
  have hW := sizeofStructMem_ge A
  have hkb := hs.bounds (k := k) (by simp)
  have hother : ∀ x, Apart x k.off → header (wholeMemory h k.off) x = header h.mem x := by
    intro x hx
    rw [wholeMemory, header_setMagic_apart hx, header_setUsed_apart hx]
  constructor
  · refine hs.tiles.retag ?_ (fun x hx => hother x (by unfold Apart; omega)) (by omega)
    simp [wholeMemory, usedTag, heapMagic]
  · exact hother _ (by unfold Apart; omega)

/-- The loop that looks for the next lowest free block finds the first one from where it starts. -/
theorem advanceLfree_eq {fuel p a l : Nat} (ht : Tiled A.sizeofStructMem (header h.mem) p a bs h.heapEnd)
    (hl : advanceLfree h fuel a = some l) : l = lowestFree h.heapEnd bs := by
  induction fuel generalizing p a bs with
  | zero => simp [advanceLfree] at hl
  | succ fuel ih =>
    have hW := sizeofStructMem_ge A
    simp only [advanceLfree] at hl
    cases bs with
    | nil =>
      have he : a = h.heapEnd := ht
      rw [if_neg (by simp [he])] at hl
      rw [← Option.some.inj hl, he]
      rfl
    | cons k bs =>
      obtain ⟨ho, hr, hw, ht'⟩ := ht
      have hle := ht'.le
      cases hk : isFree k with
      | true =>
        have hz : k.tag.used = 0 := by simpa [isFree] using hk
        rw [if_neg (by simp [hr, hz])] at hl
        rw [← Option.some.inj hl, ← ho]
        exact (lowestFree_cons_free hk).symm
      | false =>
        have hz : k.tag.used ≠ 0 := by simpa [isFree] using hk
        rw [if_pos ⟨by simp [hr, hz], by omega⟩, hr] at hl
        rw [ih ht' hl]
        exact (lowestFree_cons_used hk).symm

/-- What the search of `rt_malloc` stops at: a free block that is big enough. -/
theorem mallocSearch_found {fuel ptr found : Nat} (hs : HeapShape A h bs)
    (hp : ptr = h.heapEnd ∨ ∃ k ∈ bs, k.off = ptr)
    (hf : mallocSearch A h size fuel ptr = some (some found)) :
    ∃ xs k ys, bs = xs ++ k :: ys ∧ k.off = found ∧ isFree k ∧
      k.off + A.sizeofStructMem + size ≤ k.next := by
  induction fuel generalizing ptr with
  | zero => simp [mallocSearch] at hf
  | succ fuel ih =>
    simp only [mallocSearch] at hf
    split at hf
    next hlt =>
      rcases hp with rfl | ⟨k, hk, rfl⟩
      · rw [if_neg (by simp [hs.endUsed]), hs.endNext] at hf
        exact ih (Or.inl rfl) hf
      · obtain ⟨xs, ys, rfl⟩ := List.append_of_mem hk
        have hb := hs.bounds hk
        have hend := hs.end_lt
        simp only [hs.header_eq] at hf
        split at hf
        next hfit =>
          obtain rfl : k.off = found := by simpa using hf
          obtain ⟨hz, hroom⟩ := hfit
          rw [wordSub_of_le (by omega) (by omega)] at hroom
          exact ⟨xs, k, ys, rfl, rfl, by simpa [isFree] using hz, by omega⟩
        next =>
          refine ih ?_ hf
          rcases ys with _ | ⟨n, ys⟩
          · exact Or.inl hs.last_next
          · exact Or.inr ⟨n, by simp, hs.next_off⟩
    next => simp at hf

/-- Both ways of taking a free block: a used block in its place, and perhaps the remainder. -/
theorem mallocCarve_spec (hr : HeapRep A h (xs ++ k :: ys)) (hf : isFree k) (hsize : A.size ∣ size)
    (hfit : k.off + A.sizeofStructMem + size ≤ k.next) :
    ∃ m w k' zs,
      stampMagic (mallocCarve A h k.off size) k.off =
        { h with mem := m, usedMem := h.usedMem + (k'.next - k'.off), maxMem := w } ∧
      Tiled A.sizeofStructMem (header m) 0 0 (xs ++ k' :: zs) h.heapEnd ∧
      header m h.heapEnd = header h.mem h.heapEnd ∧
      k'.off = k.off ∧ k'.tag = usedTag ∧ k'.off + A.sizeofStructMem + size ≤ k'.next ∧
      usedBlocks zs = usedBlocks ys ∧ NoFreePair zs ∧ (∀ c ∈ ys, c ∈ zs) ∧
      (∀ c ∈ zs, A.size ∣ c.off ∧ (c.tag = usedTag ∨ c.tag = freeTag)) := by
  have hs := hr.toHeapShape
  have hW := sizeofStructMem_ge A
  have hmem : k ∈ xs ++ k :: ys := by simp
  have hkb := hs.bounds hmem
  have hend := hs.end_lt
  have hrest := (noFreePair_split hr.noPair).2
  have hhead := noFreePair_head hf (List.isChain_append.mp hr.noPair).2.1
  have hold : ∀ c ∈ ys, A.size ∣ c.off ∧ (c.tag = usedTag ∨ c.tag = freeTag) := fun c hc =>
    ⟨hs.aligned c (by simp [hc]), hs.tags c (by simp [hc])⟩
  have hbytes := hs.tiles.usedBytes_le
  rw [usedBytes_append, usedBytes_cons_free hf] at hbytes
  have hused : h.usedMem = usedBytes xs + usedBytes ys := by
    rw [hr.accounts, usedBytes_append, usedBytes_cons_free hf]
  have hsum : h.usedMem + (k.next - k.off) ≤ h.heapEnd := by
    obtain ⟨a, hxs, ho, _, _, hys⟩ := tiled_append.mp hs.tiles
    have h1 := hxs.usedBytes_le
    have h2 := hys.usedBytes_le
    omega
  by_cases hroom : wordSub (header h.mem k.off).next (k.off + A.sizeofStructMem) ≥
      size + A.sizeofStructMem + A.minSizeAligned
  · have hlarge := hroom
    simp only [hs.header_eq, minSizeAligned_eq] at hlarge
    rw [wordSub_of_le (by omega) (by omega)] at hlarge
    have hlo : k.off + A.sizeofStructMem ≤ k.off + A.sizeofStructMem + size := by omega
    obtain ⟨ht, he⟩ := splitMemory_tiles hs hf hlo (by omega)
    refine ⟨_, (mallocCarve A h k.off size).maxMem, ⟨k.off, _, usedTag⟩, ⟨_, k.next, freeTag⟩ :: ys,
      ?_, ht, he, rfl, rfl, by simp, by simp [isFree, freeTag], ?_, ?_, ?_⟩
    · rw [show k.off + A.sizeofStructMem + size - k.off = size + A.sizeofStructMem by omega]
      simp only [stampMagic, mallocCarve, hroom, if_true, chargeUsed, splitMemory]
      rw [word_of_lt (by omega)]
    · exact noFreePair_cons_skip hrest hhead
    · exact fun c hc => List.mem_cons_of_mem _ hc
    · intro c hc
      rcases List.mem_cons.mp hc with rfl | hc
      · exact ⟨Nat.dvd_add (Nat.dvd_add (hs.aligned k hmem) (sizeofStructMem_dvd A)) hsize,
          Or.inr rfl⟩
      · exact hold c hc
  · obtain ⟨ht, he⟩ := wholeMemory_tiles hs
    refine ⟨_, (mallocCarve A h k.off size).maxMem, { k with tag := usedTag }, ys,
      ?_, ht, he, rfl, rfl, hfit, rfl, hrest, fun c hc => hc, hold⟩
    have hsub : wordSub (header (setUsed h.mem k.off 1) k.off).next k.off = k.next - k.off := by
      simp only [header_setUsed, hs.header_eq]
      exact wordSub_of_le (by omega) (by omega)
    simp only [stampMagic, mallocCarve, hroom, if_false, chargeUsed, wholeMemory, hsub]
    rw [word_of_lt (by omega)]

/-- What `rt_malloc` does with the block it found. -/
theorem mallocTake_spec {fuel q : Nat} {h' : Heap} (hr : HeapRep A h (xs ++ k :: ys)) (hf : isFree k)
    (hsize : A.size ∣ size) (hpos : 0 < size) (hfit : k.off + A.sizeofStructMem + size ≤ k.next)
    (ht : mallocTake A fuel h k.off size = some (h', q)) :
    ∃ k' zs, HeapRep A h' (xs ++ k' :: zs) ∧ isFree k' = false ∧ q = blockPtr A h' k' ∧
      k'.off + A.sizeofStructMem + size ≤ k'.next ∧
      h'.heapPtr = h.heapPtr ∧ h'.heapEnd = h.heapEnd ∧ h'.memSizeAligned = h.memSizeAligned ∧
      usedBlocks zs = usedBlocks ys ∧
      (h.lfree = lowestFree h.heapEnd (xs ++ k :: ys) →
        h'.lfree = lowestFree h.heapEnd (xs ++ k' :: zs)) := by
  have hs := hr.toHeapShape
  obtain ⟨m, w, k', zs, heq, htiles, hending, hko, hkt, hkn, huz, hnz, hkeep, hnew⟩ :=
    mallocCarve_spec hr hf hsize hfit
  have hu' : isFree k' = false := by simp [isFree, hkt, usedTag]
  simp only [mallocTake, heq, mallocFinish, nextLfree, Option.bind_eq_bind,
    Option.bind_eq_some_iff] at ht
  obtain ⟨l, hl, _, _, _, _, _, _, _, _, hout⟩ := ht
  obtain ⟨rfl, rfl⟩ := Prod.mk.inj (Option.some.inj hout)
  obtain ⟨a, _, hsuffix⟩ := tiled_append.mp htiles
  obtain rfl : k'.off = a := hsuffix.1
  have hlow : k.off = h.lfree → l = lowestFree h.heapEnd zs := by
    intro hkl
    rw [if_pos hkl, ← hkl, ← hko] at hl
    rw [advanceLfree_eq hsuffix hl]
    exact lowestFree_cons_used hu'
  have hshape := hs.rewrite (l := l) htiles (by simp [hending])
    (by
      intro c hc
      simp only [List.mem_append, List.mem_cons] at hc
      rcases hc with hc | rfl | hc
      · exact hs.aligned c (by simp [hc])
      · exact hko ▸ hs.aligned k (by simp)
      · exact (hnew c hc).1)
    (by
      intro c hc
      simp only [List.mem_append, List.mem_cons] at hc
      rcases hc with hc | rfl | hc
      · exact hs.tags c (by simp [hc])
      · exact Or.inl hkt
      · exact (hnew c hc).2)
    (by
      by_cases hkl : k.off = h.lfree
      · rw [hlow hkl]
        rcases lowestFree_spec h.heapEnd zs with
          ⟨he, _⟩ | ⟨us, v, ws, rfl, hv, he, _⟩
        · exact Or.inl he
        · exact Or.inr ⟨v, by simp, he.symm, hv⟩
      · rw [if_neg hkl] at hl
        rw [← Option.some.inj hl]
        refine hs.lfreeAt.imp_right ?_
        rintro ⟨c, hc, hco, hcf⟩
        simp only [List.mem_append, List.mem_cons] at hc
        rcases hc with hc | rfl | hc
        · exact ⟨c, by simp [hc], hco, hcf⟩
        · exact absurd hco hkl
        · exact ⟨c, by simp [hkeep c hc], hco, hcf⟩)
    (h.usedMem + (k'.next - k'.off)) w
  refine ⟨k', zs, ⟨hshape, ?_, ?_, ?_⟩, hu', ?_, hkn, rfl, rfl, rfl, huz, ?_⟩
  · refine List.isChain_append.mpr ⟨(noFreePair_split hr.noPair).1, ?_, ?_⟩
    · exact List.isChain_cons.mpr ⟨fun _ _ hb => by simp [hu'] at hb, hnz⟩
    · intro p _ c hc hb
      obtain rfl : k' = c := by simpa using hc
      simp [hu'] at hb
  · have hz : usedBytes zs = usedBytes ys := by rw [usedBytes, huz, ← usedBytes]
    show h.usedMem + (k'.next - k'.off) = _
    rw [hr.accounts, usedBytes_append, usedBytes_append, usedBytes_cons_free hf,
      usedBytes_cons_used hu', hz]
    omega
  · intro c hc
    have hold := hr.roomy c
    rw [usedBlocks_append, usedBlocks_cons_used hu', huz] at hc
    rw [usedBlocks_append, usedBlocks_cons_free hf] at hold
    simp only [List.mem_append, List.mem_cons] at hc hold
    rcases hc with hc | rfl | hc
    · exact hold (Or.inl hc)
    · omega
    · exact hold (Or.inr hc)
  · simp [blockPtr, hko]
  · intro hlf
    rw [lowestFree_append_free hf] at hlf
    rcases lowestFree_prefix hs h.heapEnd (k' :: zs) with ⟨he, hlt⟩ | ⟨_, he, hrest⟩
    · rw [if_neg (by omega)] at hl
      rw [he, ← hlf, ← Option.some.inj hl]
    · rw [hrest]
      exact (hlow (by omega)).trans (lowestFree_cons_used hu').symm

end

end RTThread
