import RTThread.MemHeapFree

namespace RTThread

section
variable {A : AlignSize} {h h' : MemHeap} {m m' : Memory} {bs xs ys : List MemBlock} {k n : MemBlock}
  {fs us vs : List Nat} {c x p newsize fuel : Nat}

theorem getItem_congr (hb : ∀ y, x ≤ y → y < x + sizeofMemheapItem → m'.byte y = m.byte y)
    (f : ItemField) : getItem m' f x = getItem m f x := by
  have hf := offset_le f
  exact read32_congr fun y hlo hhi => hb y (by omega) (by omega)

/-- Writes to the data of one block. -/
theorem MemLayout.payload (ha : MemArena A h) (hl : MemLayout A h m bs fs) (hk : k ∈ bs)
    (hfs : ∀ x ∈ fs, x ∈ bs.map Cell.off)
    (hb : ∀ y < 4294967296, y < k.off + A.memheapSize ∨ k.next ≤ y → m'.byte y = m.byte y) :
    MemLayout A h m' bs fs := by
  have hW := memheapSize_ge A
  have hkb := hl.bounds hk
  have htail := ha.tail_lt
  have hheader := ha.header
  have hfits := ha.headerFits
  have htop := ha.tail_eq
  have hoff : ∀ x ∈ bs.map Cell.off, x + sizeofMemheapItem ≤ 4294967296 ∧
      (x + sizeofMemheapItem ≤ k.off + A.memheapSize ∨ k.next ≤ x) := by
    intro x hx
    obtain ⟨n, hn, rfl⟩ := List.mem_map.mp hx
    have hnb := hl.bounds hn
    obtain ⟨xs, ys, rfl⟩ := List.append_of_mem hk
    rcases List.mem_append.mp hn with hn | hn
    · have := hl.before hn
      omega
    · rcases List.mem_cons.mp hn with rfl | hn
      · omega
      · have := hl.after hn
        omega
  have hkept : ∀ x, x + sizeofMemheapItem ≤ 4294967296 →
      x + sizeofMemheapItem ≤ k.off + A.memheapSize ∨ k.next ≤ x → ∀ f, getItem m' f x = getItem m f x := by
    intro x hlt hx f
    exact getItem_congr (fun y hlo hhi => hb y (by omega) (by omega)) f
  refine hl.congr (fun x hx => ?_) fun x hx => ?_
  · have hget : ∀ f, getItem m' f x = getItem m f x := by
      rcases List.mem_cons.mp hx with rfl | hx
      · exact hkept _ htail (Or.inr hkb.2.2)
      · exact hkept x (hoff x hx).1 (hoff x hx).2
    unfold SameLinks blockLinks
    rw [hget, hget, hget, hget]
  · have hget : ∀ f, getItem m' f x = getItem m f x := by
      rcases List.mem_cons.mp hx with rfl | hx
      · exact hkept _ hfits (by omega)
      · exact hkept x (hoff x (hfs x hx)).1 (hoff x (hfs x hx)).2
    exact ⟨hget _, hget _⟩

theorem MemHeapRep.payload (hr : MemHeapRep A h bs fs) (hk : k ∈ bs)
    (hb : ∀ y < 4294967296, y < k.off + A.memheapSize ∨ k.next ≤ y → m'.byte y = h.mem.byte y) :
    MemHeapRep A { h with mem := m' } bs fs := by
  have hsame := withMem_same h m'
  refine ⟨hr.arena.rebase hsame, MemLayout.rebase ?_ hsame, hr.listed, hr.noPair, hr.accounts, hr.roomy⟩
  exact hr.layout.payload hr.arena hk (fun x hx => hr.in_list hx) hb

/-- The same blocks are in use. -/
structure KeptBlocks (A : AlignSize) (h h' : MemHeap) (bs bs' : List MemBlock) : Prop where
  rep : ∃ fs', MemHeapRep A h' bs' fs'
  same : SameMemPool h h'
  offs : usedOffs bs' = usedOffs bs

/-- A block in use is cut in two. -/
theorem MemHeapRep.cut (hr : MemHeapRep A h (xs ++ k :: ys) fs) (hk : memBlockFree k = false)
    (hlo : k.off + A.memheapSize ≤ c) (hhi : c + A.memheapSize ≤ k.next) :
    FreeBetween A h (insertBlock (newItem h.mem h.self c) k.off c) (xs ++ [⟨k.off, c, k.tag⟩])
      ⟨c, k.next, memTag h.self false⟩ ys fs true := by
  have hl := hr.layout.split hr.arena (fun x hx => hr.in_list hx) hlo hhi
  have hk' : memBlockFree ⟨k.off, c, k.tag⟩ = false := hk
  have hfree : memBlockFree ⟨c, k.next, memTag h.self false⟩ = true := memBlockFree_tag
  have hlisted := hr.listed
  obtain ⟨hbefore, hafter⟩ := (noFree_used hk).mp hr.noPair
  rw [freeOffs_append, freeOffs_used hk] at hlisted
  refine ⟨by simpa using hl, hfree, ?_, by simpa using hk', ?_, hafter⟩
  · rw [freeOffs_append, freeOffs_free hfree, freeOffs_append, freeOffs_used hk']
    have hnil : freeOffs [] = [] := rfl
    rw [hnil, List.append_nil]
    exact (hlisted.cons c).trans List.perm_middle.symm
  · exact (noFree_used hk').mpr ⟨hbefore, List.isChain_nil⟩

theorem shrink_same (h : MemHeap) (x newsize : Nat) : SameMemPool h (memheapShrink A h x newsize) := by
  unfold memheapShrink
  dsimp only
  split
  · exact ⟨rfl, rfl, rfl, rfl, rfl⟩
  · exact ⟨rfl, rfl, rfl, rfl, rfl⟩

/-- `rt_memheap_realloc` to a size that leaves enough for another block. -/
theorem memheapShrink_spec (hr : MemHeapRep A h (xs ++ k :: ys) fs) (hk : memBlockFree k = false)
    (hmin : memheapMinialloc ≤ newsize)
    (hfit : newsize + A.memheapSize + memheapMinialloc < dataSize A k) :
    ∃ bs', KeptBlocks A h (memheapShrink A h k.off newsize) (xs ++ k :: ys) bs' ∧
      bs'.map Cell.off ⊆ (k.off + newsize + A.memheapSize) :: (xs ++ k :: ys).map Cell.off := by
  have ha := hr.arena
  have hW := memheapSize_ge A
  have hsize : sizeofMemheapItem = 24 := rfl
  have hpos : memheapMinialloc = 12 := rfl
  have htail := ha.tail_lt
  have hkb := hr.layout.bounds (k := k) (by simp)
  have hdata : dataSize A k = k.next - k.off - A.memheapSize := rfl
  have hsame := shrink_same (A := A) h k.off newsize
  have haccounts := hr.accounts
  have hlt := hr.free_lt
  rw [freeBytes_append, freeBytes_used hk] at haccounts hlt
  have hnew : word (k.off + newsize + A.memheapSize) = k.off + newsize + A.memheapSize :=
    word_of_lt (by omega)
  generalize hc : k.off + newsize + A.memheapSize = c at hnew
  have hf := hr.cut (c := c) hk (by omega) (by omega)
  generalize hm : insertBlock (newItem h.mem h.self c) k.off c = m at hf
  have hk' : memBlockFree ⟨k.off, c, k.tag⟩ = false := hk
  have hnext : getItem m .next c = k.next := hf.layout.next_eq
  have hroomy : ∀ e zs, zs ⊆ ys → ∀ b ∈ (xs ++ [⟨k.off, c, k.tag⟩]) ++
      (⟨c, e, memTag h.self false⟩ : MemBlock) :: zs, memBlockFree b = false →
      b.off + A.memheapSize + memheapMinialloc ≤ b.next := by
    intro e zs hsub b hb hbu
    simp only [List.mem_append, List.mem_cons, List.not_mem_nil, or_false] at hb
    rcases hb with (hb | rfl) | rfl | hb
    · exact hr.roomy b (by simp [hb]) hbu
    · show k.off + A.memheapSize + memheapMinialloc ≤ c
      omega
    · rw [memBlockFree_tag] at hbu
      cases hbu
    · exact hr.roomy b (by simp [hsub hb]) hbu
  have hoffs : ∀ e zs, usedOffs zs = usedOffs ys → usedOffs ((xs ++ [⟨k.off, c, k.tag⟩]) ++
      (⟨c, e, memTag h.self false⟩ : MemBlock) :: zs) = usedOffs (xs ++ k :: ys) := by
    intro e zs hzs
    rw [usedOffs_append, usedOffs_append, usedOffs_append, usedOffs_used hk', usedOffs_used hk,
      usedOffs_free memBlockFree_tag, hzs]
    simp [usedOffs]
  have hbytes : ∀ e zs, freeBytes A ((xs ++ [⟨k.off, c, k.tag⟩]) ++
      (⟨c, e, memTag h.self false⟩ : MemBlock) :: zs) =
      freeBytes A xs + (e - c - A.memheapSize) + freeBytes A zs := by
    intro e zs
    have hnil : freeBytes A [] = 0 := rfl
    have hC : dataSize A ⟨c, e, memTag h.self false⟩ = e - c - A.memheapSize := rfl
    rw [freeBytes_append, freeBytes_append, freeBytes_used hk', freeBytes_free memBlockFree_tag, hnil, hC]
    omega
  -- what is over goes on the list, and its size to the free bytes
  have hfinish : ∀ {m1 a e zs fs1}, FreeBetween A h m1 (xs ++ [⟨k.off, c, k.tag⟩])
      ⟨c, e, memTag h.self false⟩ zs fs1 true → (∀ y ∈ zs.head?, memBlockFree y = false) →
      zs ⊆ ys → usedOffs zs = usedOffs ys → a = freeBytes A xs + freeBytes A zs →
      (memheapShrink A h k.off newsize).mem = insertFree m1 h.freeList c →
      (memheapShrink A h k.off newsize).availableSize =
        word (a + memitemSize A (insertFree m1 h.freeList c) c) →
      ∃ bs', KeptBlocks A h (memheapShrink A h k.off newsize) (xs ++ k :: ys) bs' ∧
        bs'.map Cell.off ⊆ c :: (xs ++ k :: ys).map Cell.off := by
    intro m1 a e zs fs1 hf1 hright hsub hused ha1 hmem havailable
    have hnot : c ∉ fs1 := by
      have hnodup : (freeOffs ((xs ++ [⟨k.off, c, k.tag⟩]) ++
          (⟨c, e, memTag h.self false⟩ : MemBlock) :: zs)).Nodup :=
        hf1.layout.off_nodup.sublist (List.filter_sublist.map Cell.off)
      exact (List.nodup_cons.mp (hf1.listed.nodup_iff.mpr hnodup)).1
    have hl1 := hf1.layout.onList ha (x := c) (by simp) hnot
    have hitem : memitemSize A (insertFree m1 h.freeList c) c = e - c - A.memheapSize := by
      have heq := memitemSize_eq ha hl1
      exact heq
    refine ⟨_, ⟨hf1.settle ha hright hsame hmem ?_ (hroomy e zs hsub), hsame, hoffs e zs hused⟩, ?_⟩
    · have hle := hf1.layout.tiles.freeBytes_le
      rw [hbytes] at hle
      rw [havailable, hitem, hbytes, word_of_lt (by omega)]
      omega
    · intro x hx
      have hrest := List.map_subset Cell.off hsub
      simp only [List.map_append, List.map_cons, List.map_nil, List.mem_append, List.mem_cons,
        List.not_mem_nil, or_false] at hx ⊢
      tauto
  rcases hf.layout.next_cases with ⟨hused, hright⟩ | ⟨n, zs, rfl, hn, hnf, hused⟩
  · refine hfinish hf hright (fun _ hy => hy) rfl haccounts ?_ ?_
    · unfold memheapShrink
      dsimp only
      rw [hc, hnew, hm, hnext, if_pos hused]
    · unfold memheapShrink
      dsimp only
      rw [hc, hnew, hm, hnext, if_pos hused]
  · obtain ⟨fs', hf'⟩ := hf.joinNext ha hnf
    have hright : ∀ y ∈ zs.head?, memBlockFree y = false := by
      intro y hy
      have hpair := (List.isChain_cons.mp hf.after).1 y hy
      rw [hnf] at hpair
      exact hpair.resolve_left (by decide)
    have hl2 : MemLayout A h m ((xs ++ [⟨k.off, c, k.tag⟩] ++ [⟨c, k.next, memTag h.self false⟩]) ++
        n :: zs) fs := by simpa using hf.layout
    have hsizen : memitemSize A m n.off = dataSize A n := memitemSize_eq ha hl2
    have hcond : ¬memheapIsUsed m n.off = true := by
      rw [hn, hused]
      decide
    refine hfinish hf' hright (fun _ hy => List.mem_cons_of_mem n hy) (usedOffs_free hnf).symm
      (a := wordSub h.availableSize (dataSize A n)) ?_ ?_ ?_
    · rw [freeBytes_free hnf] at haccounts hlt
      rw [wordSub_of_le (by omega) (by omega)]
      omega
    · unfold memheapShrink
      dsimp only
      rw [hc, hnew, hm, hnext, ← hn, if_neg hcond]
    · unfold memheapShrink
      dsimp only
      rw [hc, hnew, hm, hnext, ← hn, if_neg hcond, hsizen]

/-- A block that leaves the free list and then the block list. -/
theorem MemLayout.swallow (ha : MemArena A h)
    (hl : MemLayout A h m (xs ++ k :: n :: ys) (us ++ n.off :: vs))
    (hm : m' = setItem (removeFree m n.off) .prev (getItem (removeFree m n.off) .next n.off)
      (getItem (removeFree m n.off) .prev n.off)) :
    MemLayout A h (setItem m' .next (getItem m' .prev n.off) (getItem m' .next n.off))
      (xs ++ ⟨k.off, n.next, k.tag⟩ :: ys) (us ++ vs) := by
  have hl1 := hl.offList
  have hl2 : MemLayout A h (removeFree m n.off) ((xs ++ [k]) ++ n :: ys) (us ++ vs) := by
    simpa using hl1
  have hkb := hl.bounds (k := k) (by simp)
  have hnb := hl.bounds (k := n) (by simp)
  have hkn := hl.after (n := n) List.mem_cons_self
  have hW := memheapSize_ge A
  have hsize : sizeofMemheapItem = 24 := rfl
  have htail := ha.tail_lt
  have hnext := hl2.next_eq
  have hprev : getItem (removeFree m n.off) .prev n.off = k.off := by
    have hlinks := congrArg Links.prev hl2.links_eq
    rwa [lastOff_concat] at hlinks
  have happart : Beside n.next n.off := (placed_of_le (by omega)).symm
  rw [hnext, hprev] at hm
  have hprev' : getItem m' .prev n.off = k.off := by
    rw [hm, getItem_setItem_item happart (by omega), hprev]
  have hnext' : getItem m' .next n.off = n.next := by
    rw [hm, getItem_setItem_item happart (by omega), hnext]
  rw [hprev', hnext', hm]
  exact hl1.merge (joined_prev_next (placed_of_le (by omega)) (by omega) (by omega) (by omega))

theorem grow_same (h : MemHeap) (x p v newsize : Nat) : SameMemPool h (growInPlace h x p v newsize) :=
  (withMem_same _ _).trans (take_same _ _)

/-- `rt_memheap_realloc` into the free block behind. -/
theorem growInPlace_spec (hr : MemHeapRep A h (xs ++ k :: n :: ys) fs) (hk : memBlockFree k = false)
    (hn : memBlockFree n = true) (hgrow : dataSize A k < newsize)
    (hmin : memheapMinialloc ≤ newsize)
    (hfit : newsize + memheapMinialloc < dataSize A n + dataSize A k) :
    ∃ bs', KeptBlocks A h (growInPlace h k.off (k.off + A.memheapSize) (dataSize A k) newsize)
      (xs ++ k :: n :: ys) bs' ∧
      bs'.map Cell.off ⊆ (k.off + A.memheapSize + newsize) :: (xs ++ k :: n :: ys).map Cell.off := by
  have ha := hr.arena
  have hl := hr.layout
  have hW := memheapSize_ge A
  have hsize : sizeofMemheapItem = 24 := rfl
  have hpos : memheapMinialloc = 12 := rfl
  have htail := ha.tail_lt
  have hkb := hl.bounds (k := k) (by simp)
  have hnb := hl.bounds (k := n) (by simp)
  have hkn : k.next = n.off := by
    rcases hl.next_item with ⟨he, -⟩ | ⟨n', zs, he, hn'⟩
    · cases he
    · obtain ⟨rfl, -⟩ := List.cons.inj he
      exact hn'.symm
  have hdatak : dataSize A k = k.next - k.off - A.memheapSize := rfl
  have hdatan : dataSize A n = n.next - n.off - A.memheapSize := rfl
  have hlt := hr.free_lt
  have haccounts := hr.accounts
  rw [freeBytes_append, freeBytes_used hk, freeBytes_free hn] at haccounts hlt
  have hsame := grow_same h k.off (k.off + A.memheapSize) (dataSize A k) newsize
  have hnew : word (k.off + A.memheapSize + newsize) = k.off + A.memheapSize + newsize :=
    word_of_lt (by omega)
  generalize hc : k.off + A.memheapSize + newsize = c at hnew
  have hsplit : xs ++ k :: n :: ys = (xs ++ [k]) ++ n :: ys := by simp
  have hnopair : NoFreeNeighbours ((xs ++ [k]) ++ n :: ys) := hsplit ▸ hr.noPair
  obtain ⟨hbefore, -, hafter, hright⟩ := (noFree_free hn).mp hnopair
  have hlisted := hr.listed
  rw [hsplit] at hlisted
  obtain ⟨us, vs, rfl, hrest⟩ := listed_remove hlisted hn
  obtain ⟨m, hm⟩ : ∃ m, m = setItem (removeFree h.mem n.off) .prev
    (getItem (removeFree h.mem n.off) .next n.off) (getItem (removeFree h.mem n.off) .prev n.off) :=
    ⟨_, rfl⟩
  have hl1 := hl.swallow ha hm
  generalize hm1 : setItem m .next (getItem m .prev n.off) (getItem m .next n.off) = m1 at hl1
  -- the two blocks as one, of which the first part stays in use
  have hk' : memBlockFree ⟨k.off, c, k.tag⟩ = false := hk
  have hfree : memBlockFree ⟨c, n.next, memTag h.self false⟩ = true := memBlockFree_tag
  have hnil : freeOffs [k] = [] := by
    rw [freeOffs_used hk]
    rfl
  rw [freeOffs_append, freeOffs_append, hnil, List.append_nil] at hrest
  have hin : ∀ x ∈ us ++ vs, x ∈ (xs ++ (⟨k.off, n.next, k.tag⟩ : MemBlock) :: ys).map Cell.off := by
    intro x hx
    have hmem := hrest.mem_iff.mp hx
    rw [← freeOffs_append] at hmem
    have hoff := mem_freeOffs hmem
    simp only [List.map_append, List.map_cons, List.mem_append, List.mem_cons] at hoff ⊢
    tauto
  have hl2 := hl1.split (c := c) ha hin (by dsimp only; omega) (by dsimp only; omega)
  have hf : FreeBetween A h (insertBlock (newItem m1 h.self c) k.off c) (xs ++ [⟨k.off, c, k.tag⟩])
      ⟨c, n.next, memTag h.self false⟩ ys (us ++ vs) true := by
    refine ⟨by simpa using hl2, hfree, ?_, by simpa using hk', ?_, hafter⟩
    · rw [freeOffs_append, freeOffs_free hfree, freeOffs_append, freeOffs_used hk']
      have hnil' : freeOffs [] = [] := rfl
      rw [hnil', List.append_nil]
      exact (hrest.cons c).trans List.perm_middle.symm
    · exact (noFree_used hk').mpr ⟨((noFree_used hk).mp hbefore).1, List.isChain_nil⟩
  have hmem : (growInPlace h k.off (k.off + A.memheapSize) (dataSize A k) newsize).mem =
      insertFree (insertBlock (newItem m1 h.self c) k.off c) h.freeList c := by
    unfold growInPlace MemHeap.take
    dsimp only
    rw [hl.next_eq, hkn, hc, hnew, ← hm, hm1]
  have havailable : (growInPlace h k.off (k.off + A.memheapSize) (dataSize A k) newsize).availableSize =
      wordSub h.availableSize (wordSub newsize (dataSize A k)) := by
    unfold growInPlace MemHeap.take
    dsimp only
  refine ⟨_, ⟨hf.settle ha hright hsame hmem ?_ ?_, hsame, ?_⟩, ?_⟩
  · have hnil' : freeBytes A [] = 0 := rfl
    have hC : dataSize A ⟨c, n.next, memTag h.self false⟩ = n.next - c - A.memheapSize := rfl
    have h1 : wordSub newsize (dataSize A k) = newsize - dataSize A k := wordSub_of_le (by omega) (by omega)
    rw [havailable, h1, wordSub_of_le (by omega) (by omega), freeBytes_append, freeBytes_append,
      freeBytes_used hk', freeBytes_free hfree, hnil', hC]
    omega
  · intro b hb hbu
    simp only [List.mem_append, List.mem_cons, List.not_mem_nil, or_false] at hb
    rcases hb with (hb | rfl) | rfl | hb
    · exact hr.roomy b (by simp [hb]) hbu
    · show k.off + A.memheapSize + memheapMinialloc ≤ c
      omega
    · rw [hfree] at hbu
      cases hbu
    · exact hr.roomy b (by simp [hb]) hbu
  · rw [usedOffs_append, usedOffs_append, usedOffs_append, usedOffs_used hk', usedOffs_used hk,
      usedOffs_free hfree, usedOffs_free hn]
    simp [usedOffs]
  · intro x hx
    simp only [List.map_append, List.map_cons, List.map_nil, List.mem_append, List.mem_cons,
      List.not_mem_nil, or_false] at hx ⊢
    tauto

theorem memheapAlign_twice (A : AlignSize) (size : Nat) :
    memheapAlign A size ≤ memheapAlign A (memheapAlign A size) := by
  by_cases hsmall : rtAlign A size < memheapMinialloc
  · have hv : memheapAlign A size = memheapMinialloc := if_pos hsmall
    rw [hv]
    exact memheapAlign_ge A _
  · have hv : memheapAlign A size = rtAlign A size := if_neg hsmall
    have hagain : rtAlign A (rtAlign A size) = rtAlign A size :=
      rtAlign_of_dvd (rtAlign_dvd A size) (rtAlign_lt A size)
    rw [hv, memheapAlign, hagain, if_neg hsmall]

/-- The data of a block go to a new block, and the old one is freed. -/
theorem memheapMove_cases (hr : MemHeapRep A h bs fs) (hk : k ∈ bs) (hu : memBlockFree k = false)
    (hgrow : dataSize A k < newsize) (hround : newsize ≤ memheapAlign A newsize)
    (hm : memheapMove A fuel h (k.off + A.memheapSize) (dataSize A k) newsize = some (h', p)) :
    p = 0 ∧ h' = h ∨ ∃ bs' fs', ∃ k' : MemBlock, MemHeapRep A h' bs' fs' ∧ SameMemPool h h' ∧
      p = k'.off + A.memheapSize ∧ (k.off :: usedOffs bs').Perm (k'.off :: usedOffs bs) ∧
      bs'.map Cell.off ⊆ (k'.off + memheapAlign A newsize + A.memheapSize) :: bs.map Cell.off := by
  have hW := memheapSize_ge A
  have hsize : sizeofMemheapItem = 24 := rfl
  unfold memheapMove at hm
  obtain ⟨⟨h1, q⟩, halloc, hrest⟩ := Option.bind_eq_some_iff.mp hm
  dsimp only at hrest
  rcases rtMemheapAlloc_cases hr halloc with ⟨rfl, rfl, -⟩ | ⟨-, bs1, k1, rfl, htook, hcut⟩
  · left
    rw [if_neg (by simp)] at hrest
    obtain ⟨rfl, rfl⟩ := Prod.mk.inj (Option.some.inj hrest)
    exact ⟨rfl, rfl⟩
  · right
    rw [if_pos (by omega), if_pos hgrow] at hrest
    obtain ⟨h2, hfree, hlast⟩ := Option.bind_eq_some_iff.mp hrest
    obtain ⟨rfl, rfl⟩ := Prod.mk.inj (Option.some.inj hlast)
    obtain ⟨fs1, hr1⟩ := htook.rep
    have hk1 := hr1.layout.bounds htook.mem
    have htail := hr1.arena.tail_lt
    have hroom := htook.room
    have hdata : dataSize A k1 = k1.next - k1.off - A.memheapSize := rfl
    generalize hcopied : rtMemcpy h1.mem (k1.off + A.memheapSize) (k.off + A.memheapSize)
      (dataSize A k) = m at hfree
    have hr2 : MemHeapRep A { h1 with mem := m } bs1 fs1 := by
      refine hr1.payload htook.mem fun y hy hout => ?_
      rw [← hcopied]
      exact rtMemcpy_outside (not_inRange hy (by omega) (by omega))
    obtain ⟨us, vs, rfl⟩ := List.append_of_mem (htook.others k hk hu)
    obtain ⟨bs', hgave, hsub⟩ := memheapRelease_spec hr2 hu
    rw [rtMemheapFree_eq hr2 hu] at hfree
    obtain rfl := Option.some.inj hfree
    obtain ⟨fs', hr'⟩ := hgave.rep
    exact ⟨bs', fs', k1, hr', (htook.same.trans (withMem_same _ _)).trans hgave.same, rfl,
      hgave.offs.symm.trans htook.offs, List.Subset.trans hsub hcut⟩

/-- The rounded size leaves the sum of `rt_memheap_realloc` below 2^32, unless the block behind is
in use. -/
def GrowFits (A : AlignSize) (h : MemHeap) (ptr size : Nat) : Prop :=
  memheapIsUsed h.mem (getItem h.mem .next (wordSub ptr A.memheapSize)) = true ∨
    memheapAlign A size + memheapMinialloc < 4294967296

/-- The block `k` has been freed, is still there, or has given way to the one with the data at `p`. -/
def Reallocated (A : AlignSize) (h h' : MemHeap) (bs : List MemBlock) (k : MemBlock) (size p : Nat) :
    Prop :=
  ∃ bs' fs', MemHeapRep A h' bs' fs' ∧ SameMemPool h h' ∧
    (size = 0 ∧ p = 0 ∧ (usedOffs bs).Perm (k.off :: usedOffs bs') ∨
      size ≠ 0 ∧ p = 0 ∧ usedOffs bs' = usedOffs bs ∨
      size ≠ 0 ∧ ∃ o, p = o + A.memheapSize ∧ (k.off :: usedOffs bs').Perm (o :: usedOffs bs))

/-- The branch of `rt_memheap_realloc` that a call on the block `k` takes, where `size` is not 0. -/
inductive ReallocBranch (A : AlignSize) (fuel : Nat) (h h' : MemHeap) (k : MemBlock) (ys : List MemBlock)
    (size p : Nat) : Prop where
  | move (hgrow : dataSize A k < memheapAlign A size)
    (hm : memheapMove A fuel h (k.off + A.memheapSize) (dataSize A k) (memheapAlign A size) = some (h', p))
  | same (hh : h' = h) (hp : p = k.off + A.memheapSize)
  | grow {n zs} (hys : ys = n :: zs) (hn : memBlockFree n = true) (hgrow : dataSize A k < memheapAlign A size)
    (hfit : memheapAlign A size + memheapMinialloc < dataSize A n + dataSize A k)
    (hh : h' = growInPlace h k.off (k.off + A.memheapSize) (dataSize A k) (memheapAlign A size))
    (hp : p = k.off + A.memheapSize)
  | shrink (hfit : memheapAlign A size + A.memheapSize + memheapMinialloc < dataSize A k)
    (hh : h' = memheapShrink A h k.off (memheapAlign A size)) (hp : p = k.off + A.memheapSize)

theorem MemLayout.header_eq (ha : MemArena A h) (hl : MemLayout A h m bs fs) (hk : k ∈ bs) :
    wordSub (k.off + A.memheapSize) A.memheapSize = k.off := by
  have hW := memheapSize_ge A
  have hitem : sizeofMemheapItem = 24 := rfl
  have hkb := hl.bounds hk
  have htail := ha.tail_lt
  rw [wordSub_of_le (by omega) (by omega)]
  omega

theorem rtMemheapRealloc_branch {size : Nat} (hr : MemHeapRep A h (xs ++ k :: ys) fs)
    (hfits : GrowFits A h (k.off + A.memheapSize) size) (hzero : size ≠ 0)
    (hm : rtMemheapRealloc A fuel h (k.off + A.memheapSize) size = some (h', p)) :
    ReallocBranch A fuel h h' k ys size p := by
  have hW := memheapSize_ge A
  have hitem : sizeofMemheapItem = 24 := rfl
  have hkb := hr.layout.bounds (k := k) (by simp)
  have htail := hr.arena.tail_lt
  have hheader := hr.layout.header_eq hr.arena (k := k) (by simp)
  have hold := memitemSize_eq hr.arena hr.layout
  have hnext := hr.layout.next_eq
  have hdatak : dataSize A k = k.next - k.off - A.memheapSize := rfl
  unfold rtMemheapRealloc at hm
  rw [if_neg hzero] at hm
  dsimp only at hm
  unfold GrowFits at hfits
  rw [hheader, hnext] at hfits
  rw [if_neg (by omega), hheader, hold, hnext] at hm
  by_cases hgrow : memheapAlign A size > dataSize A k
  · rw [if_pos hgrow, rtAssert, if_pos (by omega)] at hm
    rcases hr.layout.next_cases with ⟨hused, -⟩ | ⟨n, zs, rfl, hn, hnf, hused⟩
    · have hrest : memheapMove A fuel h (k.off + A.memheapSize) (dataSize A k) (memheapAlign A size) =
          some (h', p) := by
        rw [hused] at hm
        exact hm
      exact .move hgrow hrest
    · have hl2 : MemLayout A h h.mem ((xs ++ [k]) ++ n :: zs) fs := by simpa using hr.layout
      have hnsize := memitemSize_eq hr.arena hl2
      have hnb := hr.layout.bounds (k := n) (by simp)
      have hdatan : dataSize A n = n.next - n.off - A.memheapSize := rfl
      rw [hused] at hfits
      have hlt := hfits.resolve_left (by decide)
      rw [hn] at hnsize
      have hrest : (if word (dataSize A n + dataSize A k) > word (memheapAlign A size + memheapMinialloc) then
            some (growInPlace h k.off (k.off + A.memheapSize) (dataSize A k) (memheapAlign A size),
              k.off + A.memheapSize)
          else memheapMove A fuel h (k.off + A.memheapSize) (dataSize A k) (memheapAlign A size)) =
          some (h', p) := by
        rw [hused, if_neg (by decide), rtAssert, if_pos (by omega), hnsize] at hm
        exact hm
      rw [word_of_lt (show dataSize A n + dataSize A k < 4294967296 by omega),
        word_of_lt hlt] at hrest
      by_cases hroom : dataSize A n + dataSize A k > memheapAlign A size + memheapMinialloc
      · rw [if_pos hroom] at hrest
        obtain ⟨rfl, rfl⟩ := Prod.mk.inj (Option.some.inj hrest)
        exact .grow rfl hnf hgrow hroom rfl rfl
      · rw [if_neg hroom] at hrest
        exact .move hgrow hrest
  · have hsum : memheapAlign A size + A.memheapSize + memheapMinialloc < 4294967296 := by
      have := memheapSize_le A
      have hpos : memheapMinialloc = 12 := rfl
      omega
    rw [if_neg hgrow, word_of_lt hsum] at hm
    by_cases hroom : memheapAlign A size + A.memheapSize + memheapMinialloc ≥ dataSize A k
    · rw [if_pos hroom] at hm
      obtain ⟨rfl, rfl⟩ := Prod.mk.inj (Option.some.inj hm)
      exact .same rfl rfl
    · rw [if_neg hroom] at hm
      obtain ⟨rfl, rfl⟩ := Prod.mk.inj (Option.some.inj hm)
      exact .shrink (by omega) rfl rfl

/-- What `rt_memheap_realloc` does with a block in use. -/
theorem rtMemheapRealloc_cases {size : Nat} (hr : MemHeapRep A h bs fs) (hk : k ∈ bs)
    (hu : memBlockFree k = false) (hfits : GrowFits A h (k.off + A.memheapSize) size)
    (hm : rtMemheapRealloc A fuel h (k.off + A.memheapSize) size = some (h', p)) :
    Reallocated A h h' bs k size p := by
  by_cases hzero : size = 0
  · unfold rtMemheapRealloc at hm
    rw [if_pos hzero] at hm
    obtain ⟨h1, hfree, he⟩ := Option.map_eq_some_iff.mp hm
    obtain ⟨rfl, rfl⟩ := Prod.mk.inj he
    obtain ⟨h2, bs', he, hgave⟩ := rtMemheapFree_spec hr hk hu
    rw [hfree] at he
    obtain rfl := Option.some.inj he
    obtain ⟨fs', hr'⟩ := hgave.rep
    exact ⟨bs', fs', hr', hgave.same, Or.inl ⟨hzero, rfl, hgave.offs⟩⟩
  obtain ⟨xs, ys, rfl⟩ := List.append_of_mem hk
  have hmin := memheapAlign_ge A size
  have hkept : ∀ h1, (∃ bs', KeptBlocks A h h1 (xs ++ k :: ys) bs') →
      Reallocated A h h1 (xs ++ k :: ys) k size (k.off + A.memheapSize) := by
    rintro h1 ⟨bs', hkept⟩
    obtain ⟨fs', hr'⟩ := hkept.rep
    exact ⟨bs', fs', hr', hkept.same, Or.inr (Or.inr ⟨hzero, k.off, rfl,
      (List.Perm.of_eq hkept.offs).cons k.off⟩)⟩
  cases rtMemheapRealloc_branch hr hfits hzero hm with
  | move hgrow hmoved =>
    rcases memheapMove_cases hr hk hu hgrow (memheapAlign_twice A size) hmoved with
      ⟨rfl, rfl⟩ | ⟨bs', fs', k', hr', hsame, rfl, hoffs, -⟩
    · exact ⟨_, fs, hr, .refl _, Or.inr (Or.inl ⟨hzero, rfl, rfl⟩)⟩
    · exact ⟨bs', fs', hr', hsame, Or.inr (Or.inr ⟨hzero, k'.off, rfl, hoffs⟩)⟩
  | same hh hp =>
    subst hh hp
    exact hkept _ ⟨_, ⟨fs, hr⟩, .refl _, rfl⟩
  | grow hys hn hgrow hfit hh hp =>
    subst hys hh hp
    obtain ⟨bs', hgrown, -⟩ := growInPlace_spec hr hu hn hgrow hmin hfit
    exact hkept _ ⟨bs', hgrown⟩
  | shrink hfit hh hp =>
    subst hh hp
    obtain ⟨bs', hshrunk, -⟩ := memheapShrink_spec hr hu hmin hfit
    exact hkept _ ⟨bs', hshrunk⟩

end

end RTThread
