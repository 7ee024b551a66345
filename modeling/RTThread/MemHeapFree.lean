import RTThread.MemHeapAlloc

namespace RTThread

/-- The block `k` between `xs` and `ys` is free; it is on the list `fs` unless `insert`. -/
structure FreeBetween (A : AlignSize) (h : MemHeap) (m : Memory) (xs : List MemBlock) (k : MemBlock)
    (ys : List MemBlock) (fs : List Nat) (insert : Bool) : Prop where
  layout : MemLayout A h m (xs ++ k :: ys) fs
  free : memBlockFree k = true
  listed : (if insert then k.off :: fs else fs).Perm (freeOffs (xs ++ k :: ys))
  left : ∀ x ∈ xs.getLast?, memBlockFree x = false
  before : NoFreeNeighbours xs
  after : NoFreeNeighbours ys

section
variable {A : AlignSize} {h h' : MemHeap} {m m' : Memory} {bs xs ys : List MemBlock} {k n q : MemBlock}
  {fs us vs : List Nat} {insert : Bool} {x p : Nat}

theorem MemLayout.tail_used (hl : MemLayout A h m bs fs) : memheapIsUsed m (h.tail A) = true := by
  have htag : getItem m .magic (h.tail A) = (memTag h.self true).magic :=
    congrArg (fun l => l.tag.magic) hl.tail
  unfold memheapIsUsed
  rw [htag]
  exact (by decide : ((memheapMagic ||| memheapUsed) &&& memheapUsed != 0) = true)

/-- What stands behind a block. -/
theorem MemLayout.next_cases (hl : MemLayout A h m (xs ++ k :: ys) fs) :
    (memheapIsUsed m k.next = true ∧ ∀ y ∈ ys.head?, memBlockFree y = false) ∨
    ∃ n zs, ys = n :: zs ∧ n.off = k.next ∧ memBlockFree n = true ∧ memheapIsUsed m k.next = false := by
  rcases hl.next_item with ⟨rfl, hend⟩ | ⟨n, zs, rfl, hn⟩
  · rw [hend]
    exact Or.inl ⟨hl.tail_used, by simp⟩
  · have hl2 : MemLayout A h m ((xs ++ [k]) ++ n :: zs) fs := by simpa using hl
    have hused := memheapIsUsed_eq hl2
    rw [hn] at hused
    cases hf : memBlockFree n with
    | true => exact Or.inr ⟨n, zs, rfl, hn, hf, by rw [hused, hf]; rfl⟩
    | false => exact Or.inl ⟨by rw [hused, hf]; rfl, by simpa using hf⟩

/-- A block takes in the free one behind it, which leaves the free list. -/
theorem MemLayout.joinNext (ha : MemArena A h)
    (hl : MemLayout A h m (xs ++ k :: n :: ys) (us ++ n.off :: vs)) :
    MemLayout A h (removeFree (mergeNext m k.off) n.off)
      (xs ++ ⟨k.off, n.next, k.tag⟩ :: ys) (us ++ vs) := by
  have hl2 : MemLayout A h m ((xs ++ [k]) ++ n :: ys) (us ++ n.off :: vs) := by simpa using hl
  have hkn : k.next = n.off := by
    rcases hl.next_item with ⟨he, -⟩ | ⟨n', zs, he, hn⟩
    · cases he
    · obtain ⟨rfl, -⟩ := List.cons.inj he
      exact hn.symm
  have hkb := hl.bounds (k := k) (by simp)
  have hnb := hl.bounds (k := n) (by simp)
  have hW := memheapSize_ge A
  have hsize : sizeofMemheapItem = 24 := rfl
  have htail := ha.tail_lt
  have hj : Joined m (mergeNext m k.off) k.off n.next := by
    refine mergeNext_joined (hl.next_eq.trans hkn) hl2.next_eq (placed_of_le (by omega))
      (placed_of_le (by omega)) ⟨by omega, by omega⟩ (by omega)
  exact (hl.merge hj).offList

theorem usedOffs_middle (hk : memBlockFree k = true) :
    usedOffs (xs ++ k :: ys) = usedOffs xs ++ usedOffs ys := by
  rw [usedOffs_append, usedOffs_free hk]

/-- The free block takes in the one behind it. -/
theorem FreeBetween.joinNext (ha : MemArena A h) (hf : FreeBetween A h m xs k (n :: ys) fs insert)
    (hn : memBlockFree n = true) :
    ∃ fs', FreeBetween A h (removeFree (mergeNext m k.off) n.off) xs
      ⟨k.off, n.next, k.tag⟩ ys fs' insert := by
  have hnk : n.off ≠ k.off := by
    have hkb := hf.layout.bounds (k := k) (by simp)
    have := hf.layout.after (n := n) List.mem_cons_self
    have := memheapSize_ge A
    have hsize : sizeofMemheapItem = 24 := rfl
    omega
  have hfree : memBlockFree ⟨k.off, n.next, k.tag⟩ = true := hf.free
  have hoffs : freeOffs (xs ++ k :: n :: ys) = freeOffs xs ++ k.off :: n.off :: freeOffs ys := by
    rw [freeOffs_append, freeOffs_free hf.free, freeOffs_free hn]
  have hlisted := hf.listed
  rw [hoffs] at hlisted
  have hin : n.off ∈ fs := by
    have hmem : n.off ∈ if insert then k.off :: fs else fs := hlisted.mem_iff.mpr (by simp)
    cases insert with
    | true => exact (List.mem_cons.mp hmem).resolve_left hnk
    | false => exact hmem
  obtain ⟨us, vs, rfl⟩ := List.append_of_mem hin
  refine ⟨us ++ vs, hf.layout.joinNext ha, hfree, ?_, hf.left, hf.before,
    (List.isChain_cons.mp hf.after).2⟩
  have hmiddle : (freeOffs xs ++ k.off :: n.off :: freeOffs ys).Perm
      (n.off :: (freeOffs xs ++ k.off :: freeOffs ys)) := by
    rw [List.append_cons]
    exact List.perm_middle.trans (by simp)
  rw [freeOffs_append, freeOffs_free hfree]
  refine (List.perm_cons n.off).mp (List.Perm.trans ?_ (hlisted.trans hmiddle))
  cases insert with
  | true => exact (List.Perm.swap _ _ _).trans (List.perm_middle.symm.cons k.off)
  | false => exact List.perm_middle.symm

/-- What remains to be done is to put the block on the free list. -/
theorem FreeBetween.settle (ha : MemArena A h) (hf : FreeBetween A h m xs k ys fs insert)
    (hright : ∀ y ∈ ys.head?, memBlockFree y = false) (hsame : SameMemPool h h')
    (hmem : h'.mem = if insert then insertFree m h.freeList k.off else m)
    (havailable : h'.availableSize = freeBytes A (xs ++ k :: ys))
    (hroomy : ∀ b ∈ xs ++ k :: ys, memBlockFree b = false →
      b.off + A.memheapSize + memheapMinialloc ≤ b.next) :
    ∃ fs', MemHeapRep A h' (xs ++ k :: ys) fs' := by
  have hpair : NoFreeNeighbours (xs ++ k :: ys) :=
    (noFree_free hf.free).mpr ⟨hf.before, hf.left, hf.after, hright⟩
  have hlisted := hf.listed
  cases insert with
  | true =>
    have hnot : k.off ∉ fs := by
      have hnodup : (freeOffs (xs ++ k :: ys)).Nodup :=
        hf.layout.off_nodup.sublist (List.filter_sublist.map Cell.off)
      exact (List.nodup_cons.mp (hlisted.nodup_iff.mpr hnodup)).1
    have hl := hf.layout.onList ha (x := k.off) (by simp) hnot
    refine ⟨k.off :: fs, ha.rebase hsame, ?_, hlisted, hpair, havailable, hroomy⟩
    rw [hmem]
    exact hl.rebase hsame
  | false =>
    refine ⟨fs, ha.rebase hsame, ?_, hlisted, hpair, havailable, hroomy⟩
    rw [hmem]
    exact hf.layout.rebase hsame

end
section
variable {A : AlignSize} {h h' : MemHeap} {m m' : Memory} {bs xs ys : List MemBlock} {k n q : MemBlock}
  {fs us vs : List Nat} {x p : Nat}

theorem mergePrev_joined {o c e : Nat} (hp : getItem m .prev c = o) (he : getItem m .next c = e)
    (hoc : Beside o c) (hoe : Beside o e) (hne : o ≠ c ∧ o ≠ e) (ho : o < 4294967296) :
    Joined m (mergePrev m c) o e := by
  have hnext : getItem (setItem m .next o e) .next c = e :=
    (getItem_setItem_item hoc hne.1).trans he
  have hprev : getItem (setItem m .next o e) .prev c = o :=
    (getItem_setItem_item hoc hne.1).trans hp
  have hall : mergePrev m c = setItem (setItem m .next o e) .prev e o := by
    unfold mergePrev
    simp only
    rw [hp, he, hnext, hprev]
  rw [hall]
  exact joined_next_prev hoe hne.2 ho (he ▸ getItem_lt m .next c)

theorem MemHeapRep.unmark_layout (hr : MemHeapRep A h (xs ++ k :: ys) fs) (hk : memBlockFree k = false)
    (hm : m = setItem h.mem .magic k.off (getItem h.mem .magic k.off &&& memheapMask)) :
    MemLayout A h m (xs ++ ⟨k.off, k.next, memTag h.self false⟩ :: ys) fs := by
  rw [hm]
  refine hr.layout.retag ?_
  rw [hr.layout.magic_eq, hk]
  exact (by decide : (memheapMagic ||| memheapUsed) &&& memheapMask = memheapMagic)

/-- A block that is freed, with the block before it where that is free. -/
theorem MemHeapRep.unmark (hr : MemHeapRep A h (xs ++ k :: ys) fs) (hk : memBlockFree k = false)
    (hm : m = setItem h.mem .magic k.off (getItem h.mem .magic k.off &&& memheapMask)) :
    (memheapIsUsed m (getItem m .prev k.off) = true ∧
      FreeBetween A h m xs ⟨k.off, k.next, memTag h.self false⟩ ys fs true) ∨
    ∃ zs q, xs = zs ++ [q] ∧ memBlockFree q = true ∧ q.next = k.off ∧ getItem m .prev k.off = q.off ∧
      memheapIsUsed m (getItem m .prev k.off) = false ∧
      FreeBetween A h (mergePrev m k.off) zs ⟨q.off, k.next, q.tag⟩ ys fs false := by
  have hl := hr.unmark_layout hk hm
  have hfree : memBlockFree ⟨k.off, k.next, memTag h.self false⟩ = true := memBlockFree_tag
  obtain ⟨hbefore, hafter⟩ := (noFree_used hk).mp hr.noPair
  have hlisted := hr.listed
  rw [freeOffs_append, freeOffs_used hk] at hlisted
  have hprev : getItem m .prev k.off = lastOff (h.tail A) xs := congrArg Links.prev hl.links_eq
  have hwhole : (∀ x ∈ xs.getLast?, memBlockFree x = false) →
      FreeBetween A h m xs ⟨k.off, k.next, memTag h.self false⟩ ys fs true := by
    refine fun hleft => ⟨hl, hfree, ?_, hleft, hbefore, hafter⟩
    rw [freeOffs_append, freeOffs_free hfree]
    exact (hlisted.cons k.off).trans List.perm_middle.symm
  rcases List.eq_nil_or_concat' xs with rfl | ⟨zs, q, rfl⟩
  · left
    refine ⟨?_, hwhole (by simp)⟩
    rw [hprev]
    exact hl.tail_used
  · rw [lastOff_concat] at hprev
    have hl2 : MemLayout A h m (zs ++ q :: ⟨k.off, k.next, memTag h.self false⟩ :: ys) fs := by
      simpa using hl
    have hused := memheapIsUsed_eq hl2
    rw [← hprev] at hused
    cases hq : memBlockFree q with
    | false => exact Or.inl ⟨by rw [hused, hq]; rfl, hwhole (by simpa using hq)⟩
    | true =>
      right
      have hqk : q.next = k.off := by
        rcases hl2.next_item with ⟨he, -⟩ | ⟨n', zs', he, hn⟩
        · cases he
        · obtain ⟨rfl, -⟩ := List.cons.inj he
          exact hn.symm
      have hqb := hl2.bounds (k := q) (by simp)
      have hkb := hr.layout.bounds (k := k) (by simp)
      have hW := memheapSize_ge A
      have hsize : sizeofMemheapItem = 24 := rfl
      have htail := hr.arena.tail_lt
      have hj : Joined m (mergePrev m k.off) q.off k.next :=
        mergePrev_joined hprev hl.next_eq (placed_of_le (by omega)) (placed_of_le (by omega))
          ⟨by omega, by omega⟩ (by omega)
      have hq' : memBlockFree ⟨q.off, k.next, q.tag⟩ = true := hq
      have hfirst : NoFreeNeighbours (zs ++ q :: []) := by simpa using hbefore
      obtain ⟨hzs, hleft, -, -⟩ := (noFree_free hq).mp hfirst
      refine ⟨zs, q, rfl, hq, hqk, hprev, by rw [hused, hq]; rfl, hl2.merge hj, hq', ?_, hleft, hzs,
        hafter⟩
      rw [freeOffs_append, freeOffs_free hq']
      rwa [freeOffs_append, freeOffs_free hq, List.append_assoc] at hlisted

/-- The step to the right: nothing behind the block is free afterwards. -/
theorem mergeRight_spec {insert : Bool} {v : Nat} (ha : MemArena A h)
    (hf : FreeBetween A h m xs k ys fs insert) (hv : v = freeBytes A (xs ++ k :: ys)) :
    ∃ e zs fs', FreeBetween A h (mergeRight A m k.off v).1 xs ⟨k.off, e, k.tag⟩ zs fs' insert ∧
      (mergeRight A m k.off v).2 = freeBytes A (xs ++ ⟨k.off, e, k.tag⟩ :: zs) ∧
      (∀ y ∈ zs.head?, memBlockFree y = false) ∧ usedOffs zs = usedOffs ys ∧ (zs ⊆ ys) := by
  have hl := hf.layout
  have hnext := hl.next_eq
  rcases hl.next_cases with ⟨hused, hright⟩ | ⟨n, zs, rfl, hn, hnf, hused⟩
  · have he : mergeRight A m k.off v = (m, v) := by
      unfold mergeRight
      simp only
      rw [hnext, if_pos hused]
    rw [he]
    exact ⟨k.next, ys, fs, hf, hv, hright, rfl, fun _ hy => hy⟩
  · have he : mergeRight A m k.off v =
        (removeFree (mergeNext m k.off) n.off, word (v + A.memheapSize)) := by
      unfold mergeRight
      simp only
      rw [hnext, hused, ← hn]
      rfl
    have hright : ∀ y ∈ zs.head?, memBlockFree y = false := by
      intro y hy
      have hpair := (List.isChain_cons.mp hf.after).1 y hy
      rw [hnf] at hpair
      exact hpair.resolve_left (by decide)
    obtain ⟨fs', hf'⟩ := hf.joinNext ha hnf
    refine ⟨n.next, zs, fs', by rw [he]; exact hf', ?_, hright, (usedOffs_free hnf).symm,
      fun _ hy => List.mem_cons_of_mem n hy⟩
    have hle := hf'.layout.tiles.freeBytes_le
    have htail := ha.tail_lt
    have hkb := hl.bounds (k := k) (by simp)
    have hnb := hl.bounds (k := n) (by simp)
    have hsize : sizeofMemheapItem = 24 := rfl
    have hfree : memBlockFree ⟨k.off, n.next, k.tag⟩ = true := hf.free
    rw [freeBytes_append, freeBytes_free hfree] at hle
    rw [he, hv, freeBytes_append, freeBytes_append, freeBytes_free hf.free, freeBytes_free hnf,
      freeBytes_free hfree]
    unfold dataSize at *
    dsimp only at *
    rw [word_of_lt (by omega)]
    omega

/-- One block less is in use. -/
structure GaveBlock (A : AlignSize) (h h' : MemHeap) (bs bs' : List MemBlock) (k : MemBlock) : Prop where
  rep : ∃ fs', MemHeapRep A h' bs' fs'
  same : SameMemPool h h'
  offs : (usedOffs bs).Perm (k.off :: usedOffs bs')

theorem release_same (h : MemHeap) (x : Nat) : SameMemPool h (memheapRelease A h x) :=
  ⟨rfl, rfl, rfl, rfl, rfl⟩

/-- `rt_memheap_free` of a block in use, behind its assertions. -/
theorem memheapRelease_spec (hr : MemHeapRep A h (xs ++ k :: ys) fs) (hk : memBlockFree k = false) :
    ∃ bs', GaveBlock A h (memheapRelease A h k.off) (xs ++ k :: ys) bs' k ∧
      bs'.map Cell.off ⊆ (xs ++ k :: ys).map Cell.off := by
  have ha := hr.arena
  have htail := ha.tail_lt
  have hsize : sizeofMemheapItem = 24 := rfl
  have hsame := release_same (A := A) h k.off
  obtain ⟨m, hm⟩ : ∃ m, m = setItem h.mem .magic k.off
    (getItem h.mem .magic k.off &&& memheapMask) := ⟨_, rfl⟩
  have hroomy := hr.roomy
  have haccounts := hr.accounts
  rw [freeBytes_append, freeBytes_used hk] at haccounts
  have hitem : memitemSize A m k.off = k.next - k.off - A.memheapSize := by
    have heq := memitemSize_eq ha (hr.unmark_layout hk hm)
    exact heq
  have hsized : dataSize A ⟨k.off, k.next, memTag h.self false⟩ = k.next - k.off - A.memheapSize := rfl
  generalize hv : h.availableSize + memitemSize A m k.off = v
  rcases hr.unmark hk hm with ⟨hused, hf⟩ | ⟨zs, q, rfl, hq, hqk, hprev, hused, hf⟩
  · -- the block before it is in use
    have hbytes : word v = freeBytes A (xs ++ ⟨k.off, k.next, memTag h.self false⟩ :: ys) := by
      have hle := hf.layout.tiles.freeBytes_le
      rw [freeBytes_append, freeBytes_free hf.free] at hle ⊢
      rw [word_of_lt (by omega)]
      omega
    obtain ⟨e, zs, fs', hf', hv', hright, hoffs, hsub⟩ := mergeRight_spec ha hf hbytes
    have hmem : (memheapRelease A h k.off).mem =
        insertFree (mergeRight A m k.off (word v)).1 h.freeList k.off := by
      unfold memheapRelease
      dsimp only
      rw [← hm, hused, if_pos rfl, if_pos rfl, hv]
    have havailable : (memheapRelease A h k.off).availableSize = (mergeRight A m k.off (word v)).2 := by
      unfold memheapRelease
      dsimp only
      rw [← hm, hused, if_pos rfl, hv]
    refine ⟨_, ⟨hf'.settle ha hright hsame hmem (havailable.trans hv') ?_, hsame, ?_⟩, ?_⟩
    · intro b hb hbu
      simp only [List.mem_append, List.mem_cons] at hb
      rcases hb with hb | rfl | hb
      · exact hroomy b (by simp [hb]) hbu
      · rw [hf'.free] at hbu
        cases hbu
      · exact hroomy b (by simp [hsub hb]) hbu
    · rw [usedOffs_middle hf'.free, hoffs, usedOffs_append, usedOffs_used hk]
      exact List.perm_middle
    · rw [List.map_append, List.map_append]
      exact List.append_subset.mpr ⟨List.subset_append_left _ _, fun x hx => List.mem_append_right _
        (List.cons_subset_cons _ (List.map_subset Cell.off hsub) hx)⟩
  · -- the block goes into the one before it
    have hqb := hr.layout.bounds (k := q) (by simp)
    have hkb := hr.layout.bounds (k := k) (by simp)
    have hbytes : word (word v + A.memheapSize) =
        freeBytes A (zs ++ ⟨q.off, k.next, q.tag⟩ :: ys) := by
      have hle := hf.layout.tiles.freeBytes_le
      rw [freeBytes_append, freeBytes_free hq] at haccounts
      rw [freeBytes_append, freeBytes_free hf.free] at hle ⊢
      have hjoined : dataSize A ⟨q.off, k.next, q.tag⟩ = k.next - q.off - A.memheapSize := rfl
      have hleft : dataSize A q = q.next - q.off - A.memheapSize := rfl
      have hnil : freeBytes A [] = 0 := rfl
      rw [word_of_lt (show v < 4294967296 by omega), word_of_lt (by omega)]
      omega
    obtain ⟨e, ws, fs', hf', hv', hright, hoffs, hsub⟩ := mergeRight_spec ha hf hbytes
    have hmem : (memheapRelease A h k.off).mem =
        (mergeRight A (mergePrev m k.off) q.off (word (word v + A.memheapSize))).1 := by
      unfold memheapRelease
      dsimp only
      rw [← hm, hused, hprev, hv]
      rfl
    have havailable : (memheapRelease A h k.off).availableSize =
        (mergeRight A (mergePrev m k.off) q.off (word (word v + A.memheapSize))).2 := by
      unfold memheapRelease
      dsimp only
      rw [← hm, hused, hprev, hv]
      rfl
    refine ⟨_, ⟨hf'.settle ha hright hsame hmem (havailable.trans hv') ?_, hsame, ?_⟩, ?_⟩
    · intro b hb hbu
      simp only [List.mem_append, List.mem_cons] at hb
      rcases hb with hb | rfl | hb
      · exact hroomy b (by simp [hb]) hbu
      · rw [hf'.free] at hbu
        cases hbu
      · exact hroomy b (by simp [hsub hb]) hbu
    · rw [usedOffs_middle hf'.free, hoffs, usedOffs_append, usedOffs_append, usedOffs_free hq,
        usedOffs_used hk]
      simp [usedOffs]
    · simp only [List.map_append, List.map_cons]
      intro x hx
      simp only [List.mem_append, List.mem_cons, List.append_assoc, List.cons_append] at hx ⊢
      have hrest := List.map_subset Cell.off hsub
      tauto

theorem memTag_masked (self : Nat) (used : Bool) :
    (memTag self used).magic &&& memheapMask = memheapMagic := by
  cases used
  · exact (by decide : memheapMagic &&& memheapMask = memheapMagic)
  · exact (by decide : (memheapMagic ||| memheapUsed) &&& memheapMask = memheapMagic)

/-- The assertions of `rt_memheap_free` hold for every block in use. -/
theorem rtMemheapFree_eq (hr : MemHeapRep A h (xs ++ k :: ys) fs) (hk : memBlockFree k = false) :
    rtMemheapFree A h (k.off + A.memheapSize) = some (memheapRelease A h k.off) := by
  have hl := hr.layout
  have hW := memheapSize_ge A
  have hsize : sizeofMemheapItem = 24 := rfl
  have hkb := hl.bounds (k := k) (by simp)
  have htail := hr.arena.tail_lt
  have hheader : wordSub (k.off + A.memheapSize) A.memheapSize = k.off := by
    rw [wordSub_of_le (by omega) (by omega)]
    omega
  have hmagic : getItem h.mem .magic k.off &&& memheapMask = memheapMagic := by
    rw [hl.magic_eq]
    exact memTag_masked _ _
  have hused : memheapIsUsed h.mem k.off = true := by
    rw [memheapIsUsed_eq hl, hk]
    rfl
  have hnext : getItem h.mem .magic (getItem h.mem .next k.off) &&& memheapMask = memheapMagic := by
    rw [hl.next_eq]
    rcases hl.next_item with ⟨rfl, hend⟩ | ⟨n, zs, rfl, hn⟩
    · have htag : getItem h.mem .magic (h.tail A) = (memTag h.self true).magic :=
        congrArg (fun l => l.tag.magic) hl.tail
      rw [hend, htag]
      exact memTag_masked _ _
    · have hl2 : MemLayout A h h.mem ((xs ++ [k]) ++ n :: zs) fs := by simpa using hl
      rw [← hn, hl2.magic_eq]
      exact memTag_masked _ _
  have hpool : getItem h.mem .poolPtr k.off = h.self := by
    have htag : getItem h.mem .poolPtr k.off = k.tag.poolPtr :=
      congrArg (fun l => l.tag.poolPtr) hl.links_eq
    rw [htag, hl.tag_eq (by simp)]
    rfl
  unfold rtMemheapFree
  rw [if_neg (by omega)]
  dsimp only
  rw [hheader, rtAssert, if_pos hmagic, rtAssert, if_pos hused, rtAssert, if_pos hnext, rtAssert,
    if_pos hpool]
  rfl

/-- `rt_memheap_free` of a block in use. -/
theorem rtMemheapFree_spec (hr : MemHeapRep A h bs fs) (hk : k ∈ bs) (hu : memBlockFree k = false) :
    ∃ h' bs', rtMemheapFree A h (k.off + A.memheapSize) = some h' ∧ GaveBlock A h h' bs bs' k := by
  obtain ⟨xs, ys, rfl⟩ := List.append_of_mem hk
  obtain ⟨bs', hgave, -⟩ := memheapRelease_spec hr hu
  exact ⟨_, bs', rtMemheapFree_eq hr hu, hgave⟩

end

end RTThread
