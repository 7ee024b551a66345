import RTThread.MemHeapLayout

namespace RTThread

/-- Where the free blocks lie. -/
def freeOffs (bs : List MemBlock) : List Nat := (bs.filter memBlockFree).map Cell.off

def usedOffs (bs : List MemBlock) : List Nat := (bs.filter (!memBlockFree ·)).map Cell.off

/-- The data size of a block. -/
def dataSize (A : AlignSize) (k : MemBlock) : Nat := k.next - k.off - A.memheapSize

def freeBytes (A : AlignSize) (bs : List MemBlock) : Nat :=
  ((bs.filter memBlockFree).map (dataSize A)).sum

/-- No two neighbours are both free. -/
def NoFreeNeighbours (bs : List MemBlock) : Prop :=
  bs.IsChain fun x y => memBlockFree x = false ∨ memBlockFree y = false

/-- The heap consists of the blocks `bs`, the free ones listed in `fs`. -/
structure MemHeapRep (A : AlignSize) (h : MemHeap) (bs : List MemBlock) (fs : List Nat) : Prop where
  arena : MemArena A h
  layout : MemLayout A h h.mem bs fs
  listed : fs.Perm (freeOffs bs)
  noPair : NoFreeNeighbours bs
  accounts : h.availableSize = freeBytes A bs
  roomy : ∀ k ∈ bs, memBlockFree k = false → k.off + A.memheapSize + memheapMinialloc ≤ k.next

/-- The two heaps have the same pool and free list header. -/
structure SameMemPool (h h' : MemHeap) : Prop where
  self : h'.self = h.self
  freeHeader : h'.freeHeader = h.freeHeader
  startAddr : h'.startAddr = h.startAddr
  poolSize : h'.poolSize = h.poolSize
  freeList : h'.freeList = h.freeList

section
variable {A : AlignSize} {h h' h'' : MemHeap} {m m' : Memory} {bs xs ys : List MemBlock} {k n : MemBlock}
  {fs us vs : List Nat} {x c size fuel : Nat}

theorem SameMemPool.refl (h : MemHeap) : SameMemPool h h := ⟨rfl, rfl, rfl, rfl, rfl⟩

theorem SameMemPool.trans (h1 : SameMemPool h h') (h2 : SameMemPool h' h'') : SameMemPool h h'' :=
  ⟨h2.self.trans h1.self, h2.freeHeader.trans h1.freeHeader, h2.startAddr.trans h1.startAddr,
    h2.poolSize.trans h1.poolSize, h2.freeList.trans h1.freeList⟩

theorem SameMemPool.tail (hs : SameMemPool h h') : h'.tail A = h.tail A := by
  unfold MemHeap.tail
  rw [hs.startAddr, hs.poolSize]

theorem MemArena.rebase (ha : MemArena A h) (hs : SameMemPool h h') : MemArena A h' := by
  obtain ⟨h1, h2, h3, h4, h5, h6, h7⟩ := ha
  refine ⟨?_, ?_, ?_, ?_, ?_, ?_, ?_⟩
  · rwa [hs.startAddr]
  · rwa [hs.poolSize]
  · rwa [hs.startAddr, hs.poolSize]
  · rwa [hs.freeHeader, hs.startAddr, hs.poolSize]
  · rwa [hs.freeHeader]
  · rwa [hs.self]
  · rwa [hs.freeList, hs.freeHeader]

theorem MemLayout.rebase (hl : MemLayout A h m bs fs) (hs : SameMemPool h h') : MemLayout A h' m bs fs := by
  obtain ⟨h1, h2, h3, h4, h5⟩ := hl
  refine ⟨?_, ?_, ?_, ?_, ?_⟩
  · rwa [hs.tail, hs.startAddr]
  · rwa [hs.tail, hs.self, hs.startAddr]
  · rwa [hs.self]
  · rwa [hs.freeHeader]
  · rwa [hs.freeHeader, hs.tail]

@[simp] theorem memBlockFree_tag {self o e : Nat} {used : Bool} :
    memBlockFree ⟨o, e, memTag self used⟩ = !used := by
  cases used
  · exact (by decide : (memheapMagic &&& memheapUsed == 0) = true)
  · exact (by decide : ((memheapMagic ||| memheapUsed) &&& memheapUsed == 0) = false)

theorem freeOffs_append : freeOffs (xs ++ ys) = freeOffs xs ++ freeOffs ys := by
  simp [freeOffs]

theorem freeOffs_free (hk : memBlockFree k = true) : freeOffs (k :: ys) = k.off :: freeOffs ys := by
  simp [freeOffs, hk]

theorem freeOffs_used (hk : memBlockFree k = false) : freeOffs (k :: ys) = freeOffs ys := by
  simp [freeOffs, hk]

theorem usedOffs_append : usedOffs (xs ++ ys) = usedOffs xs ++ usedOffs ys := by
  simp [usedOffs]

theorem usedOffs_free (hk : memBlockFree k = true) : usedOffs (k :: ys) = usedOffs ys := by
  simp [usedOffs, hk]

theorem usedOffs_used (hk : memBlockFree k = false) : usedOffs (k :: ys) = k.off :: usedOffs ys := by
  simp [usedOffs, hk]

theorem freeBytes_append : freeBytes A (xs ++ ys) = freeBytes A xs + freeBytes A ys := by
  simp [freeBytes]

theorem freeBytes_free (hk : memBlockFree k = true) :
    freeBytes A (k :: ys) = dataSize A k + freeBytes A ys := by
  simp [freeBytes, hk]

theorem freeBytes_used (hk : memBlockFree k = false) : freeBytes A (k :: ys) = freeBytes A ys := by
  simp [freeBytes, hk]

theorem Tiled.freeBytes_le {p a b : Nat} {rd : Nat → Links MemTag}
    (ht : Tiled A.memheapSize rd p a bs b) : freeBytes A bs + a ≤ b := by
  induction bs generalizing p a with
  | nil =>
    have he : a = b := ht
    simp [freeBytes, he]
  | cons k bs ih =>
    obtain ⟨ho, -, hw, ht⟩ := ht
    have hrest := ih ht
    cases hk : memBlockFree k with
    | true =>
      rw [freeBytes_free hk, dataSize]
      omega
    | false =>
      rw [freeBytes_used hk]
      omega

theorem noFree_used (hk : memBlockFree k = false) :
    NoFreeNeighbours (xs ++ k :: ys) ↔ NoFreeNeighbours xs ∧ NoFreeNeighbours ys := by
  unfold NoFreeNeighbours
  rw [List.isChain_append, List.isChain_cons]
  simp [hk]

theorem noFree_free (hk : memBlockFree k = true) : NoFreeNeighbours (xs ++ k :: ys) ↔
    NoFreeNeighbours xs ∧ (∀ x ∈ xs.getLast?, memBlockFree x = false) ∧
      NoFreeNeighbours ys ∧ ∀ y ∈ ys.head?, memBlockFree y = false := by
  unfold NoFreeNeighbours
  rw [List.isChain_append, List.isChain_cons]
  simp only [hk, Bool.true_eq_false, false_or, or_false, List.head?_cons, Option.mem_def,
    Option.some.injEq, forall_eq']
  tauto

theorem mem_freeOffs (hx : x ∈ freeOffs bs) : x ∈ bs.map Cell.off := by
  obtain ⟨k, hk, rfl⟩ := List.mem_map.mp hx
  exact List.mem_map_of_mem (List.mem_filter.mp hk).1

/-- The free list without the block `k`. -/
theorem listed_remove (hl : fs.Perm (freeOffs (xs ++ k :: ys))) (hk : memBlockFree k = true) :
    ∃ us vs, fs = us ++ k.off :: vs ∧ (us ++ vs).Perm (freeOffs (xs ++ ys)) := by
  rw [freeOffs_append, freeOffs_free hk] at hl
  have hin : k.off ∈ fs := hl.mem_iff.mpr (by simp)
  obtain ⟨us, vs, rfl⟩ := List.append_of_mem hin
  refine ⟨us, vs, rfl, ?_⟩
  rw [freeOffs_append]
  exact (List.perm_cons k.off).mp (List.perm_middle.symm.trans (hl.trans List.perm_middle))

theorem MemLayout.off_nodup (hl : MemLayout A h m bs fs) : (bs.map Cell.off).Nodup := by
  have hW := memheapSize_ge A
  have hsize : sizeofMemheapItem = 24 := rfl
  refine (List.pairwise_map.mpr ?_ : (bs.map Cell.off).Pairwise (· ≠ ·))
  have hpair := hl.tiles.pairwise
  refine hpair.imp_of_mem fun {c d} hc hd hcd => ?_
  have := hl.bounds hc
  omega

theorem memheapIsUsed_eq (hl : MemLayout A h m (xs ++ k :: ys) fs) :
    memheapIsUsed m k.off = !memBlockFree k := by
  have htag : getItem m .magic k.off = k.tag.magic := congrArg (fun l => l.tag.magic) hl.links_eq
  unfold memheapIsUsed memBlockFree
  rw [htag]
  rfl

theorem memitemSize_eq (ha : MemArena A h) (hl : MemLayout A h m (xs ++ k :: ys) fs) :
    memitemSize A m k.off = dataSize A k := by
  have hb := hl.bounds (k := k) (by simp)
  have htail := ha.tail_lt
  have hsize : sizeofMemheapItem = 24 := rfl
  have hwhole : wordSub k.next k.off = k.next - k.off := wordSub_of_le (by omega) (by omega)
  unfold memitemSize dataSize
  rw [hl.next_eq, hwhole, wordSub_of_le (by omega) (by omega)]

theorem MemHeapRep.in_list (hr : MemHeapRep A h bs fs) (hx : x ∈ fs) : x ∈ bs.map Cell.off :=
  mem_freeOffs (hr.listed.mem_iff.mp hx)

theorem MemArena.header_ne (ha : MemArena A h) (hl : MemLayout A h m bs fs) (hx : x ∈ bs.map Cell.off) :
    x ≠ h.freeHeader := by
  obtain ⟨k, hk, rfl⟩ := List.mem_map.mp hx
  have hb := hl.bounds hk
  have := ha.header
  have := ha.tail_eq
  have := memheapSize_ge A
  have hsize : sizeofMemheapItem = 24 := rfl
  omega

theorem take_same (h : MemHeap) (v : Nat) : SameMemPool h (h.take v) := ⟨rfl, rfl, rfl, rfl, rfl⟩

theorem MemLayout.tag_eq (hl : MemLayout A h m bs fs) (hk : k ∈ bs) :
    k.tag = memTag h.self (!memBlockFree k) := by
  rcases hl.tags k hk with he | he
  · have hused : memBlockFree ⟨k.off, k.next, k.tag⟩ = false := by rw [he, memBlockFree_tag]; rfl
    rw [show memBlockFree k = false from hused, he]
    rfl
  · have hfree : memBlockFree ⟨k.off, k.next, k.tag⟩ = true := by rw [he, memBlockFree_tag]; rfl
    rw [show memBlockFree k = true from hfree, he]
    rfl

theorem MemLayout.magic_eq (hl : MemLayout A h m (xs ++ k :: ys) fs) :
    getItem m .magic k.off = (memTag h.self (!memBlockFree k)).magic := by
  have htag : getItem m .magic k.off = k.tag.magic := congrArg (fun l => l.tag.magic) hl.links_eq
  rw [htag, hl.tag_eq (by simp)]

/-- Marking a free block as used. -/
theorem MemLayout.markUsed (hl : MemLayout A h m (xs ++ k :: ys) fs) (hk : memBlockFree k = true) :
    MemLayout A h (setItem m .magic k.off (getItem m .magic k.off ||| memheapUsed))
      (xs ++ ⟨k.off, k.next, memTag h.self true⟩ :: ys) fs := by
  refine hl.retag ?_
  rw [hl.magic_eq, hk]
  rfl

/-- Taking the block off the free list. -/
theorem MemLayout.takeOff (ha : MemArena A h) (hl : MemLayout A h m bs (us ++ x :: vs))
    (hx : x ∈ bs.map Cell.off) : MemLayout A h
      (setItem (setItem (removeFree m x) .nextFree x 0) .prevFree x 0) bs (us ++ vs) := by
  have hnot : x ∉ h.freeHeader :: (us ++ vs) := by
    rw [List.mem_cons, not_or]
    refine ⟨ha.header_ne hl hx, ?_⟩
    have hnodup := (List.nodup_cons.mp hl.ring.nodup).2
    exact (List.nodup_cons.mp (List.perm_middle.nodup_iff.mp hnodup)).1
  exact (hl.offList.clearFree hx hnot (Or.inl rfl)).clearFree hx hnot (Or.inr rfl)

theorem MemLayout.inner_not_off (hl : MemLayout A h m (xs ++ k :: ys) fs) (hlo : k.off < c)
    (hhi : c < k.next) : c ∉ (xs ++ k :: ys).map Cell.off := by
  intro hc
  obtain ⟨n, hn, rfl⟩ := List.mem_map.mp hc
  have hnb := hl.bounds hn
  rcases List.mem_append.mp hn with hn | hn
  · have := hl.before hn
    omega
  · rcases List.mem_cons.mp hn with rfl | hn
    · omega
    · have := hl.after hn
      omega

theorem MemHeapRep.free_lt (hr : MemHeapRep A h bs fs) : freeBytes A bs < 4294967296 := by
  have hle := hr.layout.tiles.freeBytes_le
  have := hr.arena.tail_lt
  have hsize : sizeofMemheapItem = 24 := rfl
  omega

theorem withMem_same (h : MemHeap) (m : Memory) : SameMemPool h { h with mem := m } :=
  ⟨rfl, rfl, rfl, rfl, rfl⟩

theorem carveBlock_same (h : MemHeap) (x v size : Nat) : SameMemPool h (carveBlock A h x v size) := by
  unfold carveBlock
  refine SameMemPool.trans ?_ (withMem_same _ _)
  split
  · exact (withMem_same _ _).trans (take_same _ _)
  · exact (withMem_same _ _).trans (take_same _ _)

/-- The block found is cut in two. -/
theorem carveBlock_split (hr : MemHeapRep A h (xs ++ k :: ys) fs) (hk : memBlockFree k = true)
    (hsize : memheapMinialloc ≤ size) (hfit : size + A.memheapSize + memheapMinialloc ≤ dataSize A k) :
    ∃ fs', MemHeapRep A (carveBlock A h k.off (dataSize A k) size)
      (xs ++ ⟨k.off, k.off + size + A.memheapSize, memTag h.self true⟩ ::
        ⟨k.off + size + A.memheapSize, k.next, memTag h.self false⟩ :: ys) fs' := by
  have ha := hr.arena
  have hl := hr.layout
  have hlt := hr.free_lt
  have hkb := hl.bounds (k := k) (by simp)
  have htail := ha.tail_lt
  have hitem : sizeofMemheapItem = 24 := rfl
  have hmin : memheapMinialloc = 12 := rfl
  have hW := memheapSize_ge A
  have hdata : dataSize A k = k.next - k.off - A.memheapSize := rfl
  have hfree := hr.accounts
  rw [freeBytes_append, freeBytes_free hk] at hfree hlt
  obtain ⟨us, vs, rfl, hlisted⟩ := listed_remove hr.listed hk
  have hword : word (size + A.memheapSize + memheapMinialloc) =
      size + A.memheapSize + memheapMinialloc := word_of_lt (by omega)
  have hnew : word (k.off + size + A.memheapSize) = k.off + size + A.memheapSize :=
    word_of_lt (by omega)
  generalize hcut : k.off + size + A.memheapSize = c at *
  let K : MemBlock := ⟨k.off, c, k.tag⟩
  let C : MemBlock := ⟨c, k.next, memTag h.self false⟩
  have hK : memBlockFree K = true := hk
  have hC : memBlockFree C = true := memBlockFree_tag
  -- the stores of the code, one group after the other
  have hl1 : MemLayout A h _ (xs ++ K :: C :: ys) _ :=
    hl.split ha (fun x hx => hr.in_list hx) (by omega) (by omega)
  have hl2 := MemLayout.takeOff ha hl1 (show k.off ∈ (xs ++ K :: C :: ys).map Cell.off by simp [K])
  have hout : c ∉ us ++ vs := by
    intro hc
    have hmem : c ∈ us ++ k.off :: vs := by
      simp only [List.mem_append, List.mem_cons] at hc ⊢
      tauto
    exact hl.inner_not_off (by omega) (by omega) (hr.in_list hmem)
  have hl3 := MemLayout.onList ha hl2 (show c ∈ (xs ++ K :: C :: ys).map Cell.off by simp [C]) hout
  have hl4 := hl3.markUsed hK
  have hcond : dataSize A k ≥ word (size + A.memheapSize + memheapMinialloc) := by omega
  have hsame := carveBlock_same (A := A) h k.off (dataSize A k) size
  have havailable : (carveBlock A h k.off (dataSize A k) size).availableSize =
      wordSub (wordSub h.availableSize size) A.memheapSize := by
    rw [carveBlock, if_pos hcond]
    rfl
  have hl5 : MemLayout A h (carveBlock A h k.off (dataSize A k) size).mem
      (xs ++ ⟨k.off, c, memTag h.self true⟩ :: C :: ys) (c :: (us ++ vs)) := by
    rw [carveBlock, if_pos hcond, hcut, hnew]
    exact hl4
  refine ⟨c :: (us ++ vs), ha.rebase hsame, hl5.rebase hsame, ?_, ?_, ?_, ?_⟩
  · rw [freeOffs_append, freeOffs_used memBlockFree_tag, freeOffs_free hC]
    rw [freeOffs_append] at hlisted
    exact (hlisted.cons c).trans List.perm_middle.symm
  · obtain ⟨h1, -, h3, h4⟩ := (noFree_free hk).mp hr.noPair
    refine (noFree_used memBlockFree_tag).mpr ⟨h1, ?_⟩
    have hfirst : NoFreeNeighbours ([] ++ C :: ys) :=
      (noFree_free hC).mpr ⟨List.isChain_nil, by simp, h3, h4⟩
    exact hfirst
  · rw [freeBytes_append, freeBytes_used memBlockFree_tag, freeBytes_free hC]
    have hC' : dataSize A C = k.next - c - A.memheapSize := rfl
    have h1 : wordSub h.availableSize size = h.availableSize - size := wordSub_of_le (by omega) (by omega)
    rw [havailable, h1, wordSub_of_le (by omega) (by omega)]
    omega
  · intro n hn hused
    simp only [List.mem_append, List.mem_cons] at hn
    rcases hn with hn | rfl | rfl | hn
    · exact hr.roomy n (by simp [hn]) hused
    · show k.off + A.memheapSize + memheapMinialloc ≤ c
      omega
    · rw [hC] at hused
      cases hused
    · exact hr.roomy n (by simp [hn]) hused

/-- The block found is handed out whole. -/
theorem carveBlock_whole (hr : MemHeapRep A h (xs ++ k :: ys) fs) (hk : memBlockFree k = true)
    (hsize : memheapMinialloc ≤ size) (hle : size ≤ dataSize A k)
    (hfit : dataSize A k < size + A.memheapSize + memheapMinialloc) :
    ∃ fs', MemHeapRep A (carveBlock A h k.off (dataSize A k) size)
      (xs ++ ⟨k.off, k.next, memTag h.self true⟩ :: ys) fs' := by
  have ha := hr.arena
  have hl := hr.layout
  have hlt := hr.free_lt
  have hkb := hl.bounds (k := k) (by simp)
  have htail := ha.tail_lt
  have hitem : sizeofMemheapItem = 24 := rfl
  have hmin : memheapMinialloc = 12 := rfl
  have hW := memheapSize_ge A
  have hdata : dataSize A k = k.next - k.off - A.memheapSize := rfl
  have hfree := hr.accounts
  have htop := ha.tail_eq
  have hfits := ha.fits
  rw [freeBytes_append, freeBytes_free hk] at hfree hlt
  obtain ⟨us, vs, rfl, hlisted⟩ := listed_remove hr.listed hk
  have hword : word (size + A.memheapSize + memheapMinialloc) =
      size + A.memheapSize + memheapMinialloc := word_of_lt (by omega)
  have hl1 := MemLayout.takeOff ha hl (show k.off ∈ (xs ++ k :: ys).map Cell.off by simp)
  have hl2 := hl1.markUsed hk
  have hcond : ¬dataSize A k ≥ word (size + A.memheapSize + memheapMinialloc) := by omega
  have hsame := carveBlock_same (A := A) h k.off (dataSize A k) size
  have havailable : (carveBlock A h k.off (dataSize A k) size).availableSize =
      wordSub h.availableSize (dataSize A k) := by
    rw [carveBlock, if_neg hcond]
    rfl
  have hl3 : MemLayout A h (carveBlock A h k.off (dataSize A k) size).mem
      (xs ++ ⟨k.off, k.next, memTag h.self true⟩ :: ys) (us ++ vs) := by
    rw [carveBlock, if_neg hcond]
    exact hl2
  refine ⟨us ++ vs, ha.rebase hsame, hl3.rebase hsame, ?_, ?_, ?_, ?_⟩
  · rwa [freeOffs_append, freeOffs_used memBlockFree_tag, ← freeOffs_append]
  · obtain ⟨h1, -, h3, -⟩ := (noFree_free hk).mp hr.noPair
    exact (noFree_used memBlockFree_tag).mpr ⟨h1, h3⟩
  · rw [freeBytes_append, freeBytes_used memBlockFree_tag, havailable,
      wordSub_of_le (by omega) (by omega)]
    omega
  · intro n hn hused
    simp only [List.mem_append, List.mem_cons] at hn
    rcases hn with hn | rfl | hn
    · exact hr.roomy n (by simp [hn]) hused
    · show k.off + A.memheapSize + memheapMinialloc ≤ k.next
      omega
    · exact hr.roomy n (by simp [hn]) hused

/-- The walk goes to the first block that is long enough, or around to the header. -/
theorem searchFree_spec {m : Memory} {fh a n freeSize : Nat}
    (hc : LinkedPath (getItem m .nextFree) (getItem m .prevFree) a fs fh) (hfh : fh ∉ fs)
    (hs : freeSize < size) (hn : fs.length + 1 < n) :
    (∃ us x vs, fs = us ++ x :: vs ∧ (∀ y ∈ us, memitemSize A m y < size) ∧ size ≤ memitemSize A m x ∧
      searchFree A m fh size n (getItem m .nextFree a) freeSize = some (x, memitemSize A m x)) ∨
    (∀ y ∈ fs, memitemSize A m y < size) ∧ ∃ v < size,
      searchFree A m fh size n (getItem m .nextFree a) freeSize = some (fh, v) := by
  induction fs generalizing a n freeSize with
  | nil =>
    obtain ⟨n, rfl⟩ : ∃ j, n = j + 1 := ⟨n - 1, by omega⟩
    refine Or.inr ⟨by simp, freeSize, hs, ?_⟩
    rw [hc.1, searchFree, if_neg (by simp)]
  | cons x fs ih =>
    obtain ⟨hax, -, hrest⟩ := hc
    obtain ⟨n, rfl⟩ : ∃ j, n = j + 1 := ⟨n - 1, by omega⟩
    rw [List.length_cons] at hn
    have hne : x ≠ fh := fun he => hfh (he ▸ List.mem_cons_self)
    rw [hax, searchFree, if_pos ⟨hne, hs⟩]
    by_cases hlong : memitemSize A m x < size
    · dsimp only
      rw [if_pos hlong]
      have hstep := ih hrest (fun hmem => hfh (List.mem_cons_of_mem x hmem)) hlong
        (by omega : fs.length + 1 < n)
      rcases hstep with ⟨us, y, vs, rfl, hus, hy, hfound⟩ | ⟨hall, hnone⟩
      · refine Or.inl ⟨x :: us, y, vs, rfl, fun z hz => ?_, hy, hfound⟩
        rcases List.mem_cons.mp hz with rfl | hz
        · exact hlong
        · exact hus z hz
      · refine Or.inr ⟨fun z hz => ?_, hnone⟩
        rcases List.mem_cons.mp hz with rfl | hz
        · exact hlong
        · exact hall z hz
    · dsimp only
      rw [if_neg hlong]
      refine Or.inl ⟨[], x, fs, rfl, by simp, by omega, ?_⟩
      obtain ⟨n, rfl⟩ : ∃ j, n = j + 1 := ⟨n - 1, by omega⟩
      rw [searchFree, if_neg fun hand => hlong hand.2]

theorem searchFree_mono {m : Memory} {fh n j x v : Nat} {r : Nat × Nat}
    (hm : searchFree A m fh size n x v = some r) (hle : n ≤ j) :
    searchFree A m fh size j x v = some r := by
  induction n generalizing x v j with
  | zero => cases hm
  | succ n ih =>
    obtain ⟨j, rfl⟩ : ∃ i, j = i + 1 := ⟨j - 1, by omega⟩
    rw [searchFree] at hm ⊢
    split at hm
    next hc =>
      rw [if_pos hc]
      dsimp only at hm ⊢
      split at hm
      next hshort =>
        rw [if_pos hshort]
        exact ih hm (by omega)
      next hlong =>
        rw [if_neg hlong]
        exact ih hm (by omega)
    next hc => rwa [if_neg hc]

theorem memheapAlign_ge (A : AlignSize) (size : Nat) : memheapMinialloc ≤ memheapAlign A size := by
  unfold memheapAlign
  split <;> omega

/-- The blocks found by the walk of `rt_memheap_alloc`, when it ends. -/
theorem MemHeapRep.search (hr : MemHeapRep A h bs fs) (hsize : 0 < size) :
    ∃ r : Nat × Nat, (∀ n, fs.length + 1 < n →
      searchFree A h.mem h.freeList size n (getItem h.mem .nextFree h.freeList) 0 = some r) ∧
    ((∃ xs k ys, bs = xs ++ k :: ys ∧ memBlockFree k = true ∧ size ≤ dataSize A k ∧
        r = (k.off, dataSize A k)) ∨
      (∀ k ∈ bs, memBlockFree k = true → dataSize A k < size) ∧ r.2 < size) := by
  have hfreeList := hr.arena.freeList
  have hfh : h.freeHeader ∉ fs := (List.nodup_cons.mp hr.layout.ring.nodup).1
  have hdata : ∀ k ∈ bs, memitemSize A h.mem k.off = dataSize A k := by
    intro k hk
    obtain ⟨xs, ys, rfl⟩ := List.append_of_mem hk
    exact memitemSize_eq hr.arena hr.layout
  have hmem : ∀ x, x ∈ fs ↔ ∃ k ∈ bs, memBlockFree k = true ∧ k.off = x := by
    intro x
    rw [hr.listed.mem_iff]
    simp [freeOffs, and_assoc]
  have hmono : ∀ {r n}, searchFree A h.mem h.freeHeader size (fs.length + 2)
      (getItem h.mem .nextFree h.freeHeader) 0 = some r → fs.length + 1 < n →
      searchFree A h.mem h.freeHeader size n (getItem h.mem .nextFree h.freeHeader) 0 = some r :=
    fun hm hn => searchFree_mono hm (by omega)
  rw [hfreeList]
  rcases searchFree_spec (A := A) (n := fs.length + 2) hr.layout.ring.path hfh hsize
    (by omega) with ⟨us, x, vs, he, -, hx, hfound⟩ | ⟨hall, v, hv, hfound⟩
  · obtain ⟨k, hk, hkf, rfl⟩ := (hmem x).mp (by rw [he]; simp)
    rw [hdata k hk] at hx hfound
    obtain ⟨xs, ys, rfl⟩ := List.append_of_mem hk
    exact ⟨_, fun n hn => hmono hfound hn, Or.inl ⟨xs, k, ys, rfl, hkf, hx, rfl⟩⟩
  · refine ⟨_, fun n hn => hmono hfound hn, Or.inr ⟨fun k hk hkf => ?_, hv⟩⟩
    rw [← hdata k hk]
    exact hall k.off ((hmem k.off).mpr ⟨k, hk, hkf, rfl⟩)

/-- Nothing is long enough, or the early test on the free bytes fails. -/
def MemHeap.NoRoom (A : AlignSize) (h : MemHeap) (bs : List MemBlock) (size : Nat) : Prop :=
  h.availableSize ≤ memheapAlign A size ∨
    ∀ k ∈ bs, memBlockFree k = true → dataSize A k < memheapAlign A size

/-- One more block `k` is in use. -/
structure TookBlock (A : AlignSize) (h h' : MemHeap) (bs bs' : List MemBlock) (size : Nat) (k : MemBlock) :
    Prop where
  rep : ∃ fs', MemHeapRep A h' bs' fs'
  same : SameMemPool h h'
  mem : k ∈ bs'
  used : memBlockFree k = false
  room : memheapAlign A size ≤ dataSize A k
  offs : (usedOffs bs').Perm (k.off :: usedOffs bs)
  others : ∀ b ∈ bs, memBlockFree b = false → b ∈ bs'

theorem MemHeapRep.carve (hr : MemHeapRep A h (xs ++ k :: ys) fs) (hk : memBlockFree k = true)
    (hfit : memheapAlign A size ≤ dataSize A k) :
    ∃ bs' k', k'.off = k.off ∧ TookBlock A h
        (carveBlock A h k.off (dataSize A k) (memheapAlign A size)) (xs ++ k :: ys) bs' size k' ∧
      bs'.map Cell.off ⊆
        (k'.off + memheapAlign A size + A.memheapSize) :: (xs ++ k :: ys).map Cell.off := by
  have hmin := memheapAlign_ge A size
  have hsame := carveBlock_same (A := A) h k.off (dataSize A k) (memheapAlign A size)
  by_cases hsplit : memheapAlign A size + A.memheapSize + memheapMinialloc ≤ dataSize A k
  · refine ⟨_, ⟨k.off, k.off + memheapAlign A size + A.memheapSize, memTag h.self true⟩, rfl,
      ⟨carveBlock_split hr hk hmin hsplit, hsame, by simp, memBlockFree_tag, ?_, ?_, ?_⟩, ?_⟩
    · unfold dataSize
      dsimp only
      omega
    · rw [usedOffs_append, usedOffs_append, usedOffs_used memBlockFree_tag,
        usedOffs_free memBlockFree_tag, usedOffs_free hk]
      exact List.perm_middle
    · intro b hb hu
      simp only [List.mem_append, List.mem_cons] at hb ⊢
      rcases hb with hb | rfl | hb
      · exact Or.inl hb
      · rw [hk] at hu
        cases hu
      · exact Or.inr (Or.inr (Or.inr hb))
    · intro x hx
      simp only [List.map_append, List.map_cons, List.mem_append, List.mem_cons] at hx ⊢
      tauto
  · refine ⟨_, ⟨k.off, k.next, memTag h.self true⟩, rfl,
      ⟨carveBlock_whole hr hk hmin hfit (by omega), hsame, by simp, memBlockFree_tag, hfit, ?_, ?_⟩, ?_⟩
    · rw [usedOffs_append, usedOffs_append, usedOffs_used memBlockFree_tag, usedOffs_free hk]
      exact List.perm_middle
    · intro b hb hu
      simp only [List.mem_append, List.mem_cons] at hb ⊢
      rcases hb with hb | rfl | hb
      · exact Or.inl hb
      · rw [hk] at hu
        cases hu
      · exact Or.inr (Or.inr hb)
    · intro x hx
      simp only [List.map_append, List.map_cons, List.mem_append, List.mem_cons] at hx ⊢
      tauto

/-- `rt_memheap_alloc` with enough fuel. -/
theorem rtMemheapAlloc_spec (hr : MemHeapRep A h bs fs) (size : Nat) :
    ∃ h' p, (∀ fuel, fs.length + 1 < fuel → rtMemheapAlloc A fuel h size = some (h', p)) ∧
      (p = 0 ∧ h' = h ∧ h.NoRoom A bs size ∨
        ¬h.NoRoom A bs size ∧ ∃ bs' k, p = k.off + A.memheapSize ∧ TookBlock A h h' bs bs' size k ∧
          bs'.map Cell.off ⊆ (k.off + memheapAlign A size + A.memheapSize) :: bs.map Cell.off) := by
  have hmin := memheapAlign_ge A size
  have hpos : memheapMinialloc = 12 := rfl
  by_cases htest : memheapAlign A size < h.availableSize
  · obtain ⟨r, hsearch, hcases⟩ := hr.search (by omega : 0 < memheapAlign A size)
    have hrun : ∀ fuel, fs.length + 1 < fuel → rtMemheapAlloc A fuel h size =
        some (if r.2 ≥ memheapAlign A size then
          (carveBlock A h r.1 r.2 (memheapAlign A size), word (r.1 + A.memheapSize)) else (h, 0)) := by
      intro fuel hfuel
      rw [rtMemheapAlloc]
      dsimp only
      rw [if_pos htest, hsearch fuel hfuel]
      rfl
    rcases hcases with ⟨xs, k, ys, rfl, hk, hfit, rfl⟩ | ⟨hall, hshort⟩
    · rw [if_pos hfit] at hrun
      have hkb := hr.layout.bounds (k := k) (by simp)
      have htail := hr.arena.tail_lt
      have hitem : sizeofMemheapItem = 24 := rfl
      have hptr : word (k.off + A.memheapSize) = k.off + A.memheapSize := word_of_lt (by omega)
      obtain ⟨bs', k', hoff, htook, hsub⟩ := hr.carve hk hfit
      refine ⟨_, _, hrun, Or.inr ⟨?_, bs', k', ?_, htook, hsub⟩⟩
      · rintro (hle | hnone)
        · omega
        · have := hnone k (by simp) hk
          omega
      · rw [hptr, hoff]
    · rw [if_neg (by omega)] at hrun
      exact ⟨_, _, hrun, Or.inl ⟨rfl, rfl, Or.inr hall⟩⟩
  · refine ⟨h, 0, fun fuel _ => ?_, Or.inl ⟨rfl, rfl, Or.inl (by omega)⟩⟩
    rw [rtMemheapAlloc]
    dsimp only
    rw [if_neg htest]

theorem rtMemheapAlloc_mono {r : MemHeap × Nat} {fuel' : Nat}
    (hm : rtMemheapAlloc A fuel h size = some r) (hle : fuel ≤ fuel') :
    rtMemheapAlloc A fuel' h size = some r := by
  unfold rtMemheapAlloc at hm ⊢
  dsimp only at hm ⊢
  split at hm
  next htest =>
    obtain ⟨q, hs, hq⟩ := Option.map_eq_some_iff.mp hm
    rw [if_pos htest, searchFree_mono hs hle]
    exact congrArg some hq
  next htest => rwa [if_neg htest]

/-- A completed `rt_memheap_alloc`, whatever the fuel was. -/
theorem rtMemheapAlloc_cases {p : Nat} (hr : MemHeapRep A h bs fs)
    (hm : rtMemheapAlloc A fuel h size = some (h', p)) :
    p = 0 ∧ h' = h ∧ h.NoRoom A bs size ∨
      ¬h.NoRoom A bs size ∧ ∃ bs' k, p = k.off + A.memheapSize ∧ TookBlock A h h' bs bs' size k ∧
        bs'.map Cell.off ⊆ (k.off + memheapAlign A size + A.memheapSize) :: bs.map Cell.off := by
  obtain ⟨h1, p1, hrun, hcases⟩ := rtMemheapAlloc_spec hr size
  have hlong := rtMemheapAlloc_mono hm (Nat.le_max_left fuel (fs.length + 2))
  rw [hrun _ (Nat.le_max_right fuel (fs.length + 2))] at hlong
  obtain ⟨rfl, rfl⟩ := Prod.mk.inj (Option.some.inj hlong)
  exact hcases

end

end RTThread
