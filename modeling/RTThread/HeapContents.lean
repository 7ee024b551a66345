import RTThread.HeapSearch

namespace RTThread

/-- The data bytes of block `k` are those they were. -/
def KeepsBytes (A : AlignSize) (k : Block) (m m' : Memory) : Prop :=
  ∀ x, k.off + A.sizeofStructMem ≤ x → x < k.next → m'.byte x = m.byte x

/-- A header stands at `o`. -/
def HeaderPlace (h : Heap) (bs : List Block) (o : Nat) : Prop :=
  o = h.heapEnd ∨ ∃ c ∈ bs, c.off = o

section
variable {A : AlignSize} {h h' : Heap} {xs ys bs : List Block} {k b n : Block}
  {m m' m'' : Memory} {o v x fuel size q : Nat}

theorem KeepsBytes.trans (h1 : KeepsBytes A k m m') (h2 : KeepsBytes A k m' m'') :
    KeepsBytes A k m m'' :=
  fun x hlo hhi => (h2 x hlo hhi).trans (h1 x hlo hhi)

theorem setMagic_outside (h : x < o ∨ o + 12 ≤ x) : (setMagic m o v).byte x = m.byte x :=
  write16_outside (by omega)

theorem setUsed_outside (h : x < o ∨ o + 12 ≤ x) : (setUsed m o v).byte x = m.byte x :=
  write16_outside (by omega)

theorem setNext_outside (h : x < o ∨ o + 12 ≤ x) : (setNext m o v).byte x = m.byte x :=
  write32_outside (by omega)

theorem setPrev_outside (h : x < o ∨ o + 12 ≤ x) : (setPrev m o v).byte x = m.byte x :=
  write32_outside (by omega)

theorem insertRemainder_outside {ptr2 : Nat} (h : x < o ∨ o + 12 ≤ x)
    (h2 : x < ptr2 ∨ ptr2 + 12 ≤ x) : (insertRemainder m o ptr2).byte x = m.byte x := by
  unfold insertRemainder
  rw [setNext_outside h, setPrev_outside h2, setNext_outside h2, setUsed_outside h2,
    setMagic_outside h2]

theorem relinkSuccessor_outside (h1 : x < (header m o).next ∨ (header m o).next + 12 ≤ x) :
    (relinkSuccessor A h m o).byte x = m.byte x := by
  unfold relinkSuccessor
  split
  · exact setPrev_outside h1
  · rfl

/-- No header stands in the data of a block. -/
theorem HeapShape.data_apart (hs : HeapShape A h bs) (hb : b ∈ bs) (ho : HeaderPlace h bs o)
    (hlo : b.off + A.sizeofStructMem ≤ x) (hhi : x < b.next) : x < o ∨ o + 12 ≤ x := by
  have hW := sizeofStructMem_ge A
  have hbb := hs.bounds hb
  rcases ho with rfl | ⟨c, hc, rfl⟩
  · omega
  · obtain ⟨xs, ys, rfl⟩ := List.append_of_mem hb
    have hcb := hs.bounds hc
    rcases List.mem_append.mp hc with hc | hc
    · have := hs.before hc
      omega
    · rcases List.mem_cons.mp hc with rfl | hc
      · omega
      · have := hs.after hc
        omega

theorem HeapShape.place_next (hs : HeapShape A h (xs ++ k :: ys)) :
    HeaderPlace h (xs ++ k :: ys) k.next := by
  cases ys with
  | nil => exact Or.inl hs.last_next
  | cons n ys => exact Or.inr ⟨n, by simp, hs.next_off⟩

theorem joinBlocks_keeps {next : Nat} (hs : HeapShape A h bs) (hb : b ∈ bs)
    (ho : HeaderPlace h bs o) (hn : HeaderPlace h bs next) :
    KeepsBytes A b h.mem (joinBlocks h.mem o next) := by
  intro x hlo hhi
  rw [joinBlocks, setPrev_outside (hs.data_apart hb hn hlo hhi),
    setNext_outside (hs.data_apart hb ho hlo hhi)]

theorem plugForward_keeps (hs : HeapShape A h (xs ++ k :: ys)) (hb : b ∈ xs ++ k :: ys) :
    KeepsBytes A b h.mem (plugForward h k.off).mem := by
  by_cases hy : ∀ n ∈ ys.head?, isFree n = false
  · rw [plugForward_skip hs hy]
    exact fun _ _ _ => rfl
  · obtain ⟨n, hn, hf⟩ : ∃ n ∈ ys.head?, isFree n = true := by simpa using hy
    obtain ⟨ys, rfl⟩ := List.head?_eq_some_iff.mp hn
    rw [plugForward_join hs hf]
    have hs' : HeapShape A h ((xs ++ [k]) ++ n :: ys) := by simpa using hs
    have hnext : HeaderPlace h (xs ++ k :: n :: ys) n.next := by simpa using hs'.place_next
    exact joinBlocks_keeps hs hb (Or.inr ⟨k, by simp, rfl⟩) hnext

theorem plugBackward_keeps (hs : HeapShape A h (xs ++ k :: ys)) (hb : b ∈ xs ++ k :: ys) :
    KeepsBytes A b h.mem (plugBackward h k.off).mem := by
  by_cases hx : ∀ p ∈ xs.getLast?, isFree p = false
  · rw [plugBackward_skip hs hx]
    exact fun _ _ _ => rfl
  · obtain ⟨p, hp, hf⟩ : ∃ p ∈ xs.getLast?, isFree p = true := by simpa using hx
    obtain ⟨xs, rfl⟩ := List.getLast?_eq_some_iff.mp hp
    have hs' : HeapShape A h (xs ++ p :: k :: ys) := by simpa using hs
    rw [plugBackward_join hs' hf]
    exact joinBlocks_keeps hs hb (Or.inr ⟨p, by simp, rfl⟩) hs.place_next

/-- Plugging holes leaves the data of every block in use. -/
theorem plugHoles_keeps (hs : HeapShape A h (xs ++ k :: ys)) (hk : isFree k) (hys : NoFreePair ys)
    (hp : plugHoles h k.off = some h') (hb : b ∈ usedBlocks (xs ++ ys)) :
    KeepsBytes A b h.mem h'.mem := by
  have hmem : b ∈ xs ++ k :: ys := by
    have hb' := (List.mem_filter.mp hb).1
    simp only [List.mem_append, List.mem_cons] at hb' ⊢
    exact hb'.imp_right Or.inr
  obtain ⟨k', ys', hs1, hko, hk', -, hu1, -⟩ := plugForward_spec hs hk hys
  have hmem' : b ∈ xs ++ k' :: ys' := by
    rw [usedBlocks_append, ← hu1] at hb
    simp only [List.mem_append, List.mem_cons]
    rcases List.mem_append.mp hb with hb | hb
    · exact Or.inl (List.mem_filter.mp hb).1
    · exact Or.inr (Or.inr (List.mem_filter.mp hb).1)
  simp only [plugHoles, rtAssert, Option.bind_eq_bind, Option.bind_eq_some_iff] at hp
  obtain ⟨-, -, -, -, hp⟩ := hp
  obtain rfl := Option.some.inj hp
  rw [← hko] at hs1 ⊢
  exact (hko ▸ plugForward_keeps hs hmem).trans (plugBackward_keeps hs1 hmem')

/-- Freeing a block leaves the data of every other one in use. -/
theorem rtFree_keeps (hr : HeapRep A h (xs ++ k :: ys)) (hu : isFree k = false)
    (hf : rtFree A h (blockPtr A h k) = some h') (hb : b ∈ usedBlocks (xs ++ ys)) :
    KeepsBytes A b h.mem h'.mem := by
  have hs := hr.toHeapShape
  have hmem : b ∈ xs ++ k :: ys := by
    have hb' := (List.mem_filter.mp hb).1
    simp only [List.mem_append, List.mem_cons] at hb' ⊢
    exact hb'.imp_right Or.inr
  have hmark : KeepsBytes A b h.mem (freedHeap h k).mem := by
    intro x hlo hhi
    have hap := hs.data_apart hmem (Or.inr ⟨k, by simp, rfl⟩) hlo hhi
    rw [freedHeap, setMagic_outside hap, setUsed_outside hap]
  rw [rtFree_plugs hr hu] at hf
  exact hmark.trans (plugHoles_keeps (freedHeap_shape hs hu) rfl (noFreePair_split hr.noPair).2 hf hb)

/-- Carving a free block leaves the data of every other block. -/
theorem mallocCarve_keeps (hs : HeapShape A h (xs ++ k :: ys)) (hb : b ∈ xs ++ ys)
    (hfit : k.off + A.sizeofStructMem + size ≤ k.next) :
    KeepsBytes A b h.mem (stampMagic (mallocCarve A h k.off size) k.off).mem := by
  have hW := sizeofStructMem_ge A
  have hkb := hs.bounds (k := k) (by simp)
  have hend := hs.end_lt
  have hmem : b ∈ xs ++ k :: ys := by
    simp only [List.mem_append, List.mem_cons] at hb ⊢
    exact hb.imp_right Or.inr
  intro x hlo hhi
  have hk := hs.data_apart hmem (Or.inr ⟨k, by simp, rfl⟩) hlo hhi
  have hnext := hs.data_apart hmem hs.place_next hlo hhi
  have hsep : x < k.off ∨ k.next ≤ x := by
    rcases List.mem_append.mp hb with hb | hb
    · have := (List.pairwise_append.mp hs.tiles.pairwise).2.2 b hb k List.mem_cons_self
      omega
    · have := hs.after hb
      omega
  simp only [stampMagic]
  rw [setMagic_outside hk]
  unfold mallocCarve
  split
  next hroom =>
    simp only [hs.header_eq] at hroom
    rw [wordSub_of_le (by omega) (by omega)] at hroom
    have h2 : x < k.off + A.sizeofStructMem + size ∨ k.off + A.sizeofStructMem + size + 12 ≤ x := by
      omega
    have hap : Apart k.off (k.off + A.sizeofStructMem + size) := by unfold Apart; omega
    simp only [chargeUsed]
    rw [relinkSuccessor_outside, setUsed_outside hk, insertRemainder_outside hk h2]
    rw [header_setUsed_apart (Or.symm hap), header_insertRemainder_new hap, hs.header_eq]
    exact hnext
  next => exact setUsed_outside hk

/-- A completed `rt_malloc` that returns a block leaves the data of every block that was in use. -/
theorem rtMalloc_keeps (hr : HeapRep A h bs) (hm : rtMalloc A fuel h size = some (h', q)) :
    q = 0 ∧ h' = h ∨
    ∃ bs' k, HeapRep A h' bs' ∧ SameBounds h h' ∧ q = blockPtr A h' k ∧
      k.off + A.sizeofStructMem + rtAlign A size ≤ k.next ∧
      (usedBlocks bs').Perm (k :: usedBlocks bs) ∧
      ∀ b ∈ usedBlocks bs, KeepsBytes A b h.mem h'.mem := by
  have hs := hr.toHeapShape
  rcases rtMalloc_cases hs hm with hnone | ⟨xs, k, ys, rfl, hk, hfit, hm⟩
  · exact Or.inl hnone
  right
  obtain ⟨hpos, hge⟩ := mallocSize_ge A size
  obtain ⟨k', zs, hr', hu, hq, hfit', e1, e2, e3, hz, -⟩ :=
    mallocTake_spec hr hk (mallocSize_dvd A size) hpos hfit hm
  refine ⟨_, k', hr', ⟨e1, e2, e3⟩, hq, by omega, ?_, fun b hb => ?_⟩
  · rw [usedBlocks_append, usedBlocks_append, usedBlocks_cons_used hu, usedBlocks_cons_free hk, hz]
    exact List.perm_middle
  · have hmem : b ∈ xs ++ ys := by
      rw [usedBlocks_append, usedBlocks_cons_free hk, ← usedBlocks_append] at hb
      exact (List.mem_filter.mp hb).1
    have hcarve := mallocCarve_keeps hs hmem hfit
    simp only [mallocTake, mallocFinish, Option.bind_eq_bind, Option.bind_eq_some_iff] at hm
    obtain ⟨l, -, -, -, -, -, -, -, -, -, hout⟩ := hm
    obtain ⟨rfl, -⟩ := Prod.mk.inj (Option.some.inj hout)
    exact hcarve

/-- A completed `rt_free` of a block in use, told by blocks. -/
theorem rtFree_blocks (hr : HeapRep A h bs) (hk : k ∈ usedBlocks bs) :
    ∃ h' bs', rtFree A h (blockPtr A h k) = some h' ∧ HeapRep A h' bs' ∧ SameBounds h h' ∧
      (usedBlocks bs).Perm (k :: usedBlocks bs') ∧
      ∀ b ∈ usedBlocks bs', KeepsBytes A b h.mem h'.mem := by
  obtain ⟨hk, hu⟩ := List.mem_filter.mp hk
  have hu : isFree k = false := by simpa using hu
  obtain ⟨xs, ys, rfl⟩ := List.append_of_mem hk
  obtain ⟨h', bs', hf, hr', e1, e2, e3, hused, -⟩ := rtFree_spec hr hu
  refine ⟨h', bs', hf, hr', ⟨e1, e2, e3⟩, ?_, fun b hb => ?_⟩
  · rw [hused, usedBlocks_append, usedBlocks_append, usedBlocks_cons_used hu]
    exact List.perm_middle
  · exact rtFree_keeps hr hu hf (hused ▸ hb)

/-- Shrinking in place leaves the data of every other block in use, and what is left of its own. -/
theorem shrinkInPlace_keeps {newsize : Nat} (hr : HeapRep A h (xs ++ k :: ys)) (hu : isFree k = false)
    (hpos : 0 < newsize) (hd : A.size ∣ newsize)
    (hroom : k.off + A.sizeofStructMem + newsize + A.sizeofStructMem + minSize < k.next) :
    ∃ h' bs', shrinkInPlace A h k.off (k.next - k.off - A.sizeofStructMem) newsize = some h' ∧
      HeapRep A h' bs' ∧ SameBounds h h' ∧
      usedBlocks bs' = usedBlocks xs ++
        ⟨k.off, k.off + A.sizeofStructMem + newsize, usedTag⟩ :: usedBlocks ys ∧
      ∀ b ∈ usedBlocks bs', KeepsBytes A b h.mem h'.mem := by
  have hs := hr.toHeapShape
  have hW := sizeofStructMem_ge A
  have hend := hs.end_lt
  have hkb := hs.bounds (k := k) (by simp)
  obtain ⟨h', bs', hp, hr', hb, -, hblocks, -⟩ := shrinkInPlace_spec hr hu hpos hd hroom
  refine ⟨h', bs', hp, hr', hb, hblocks, fun b hbu => ?_⟩
  have hd2 : A.size ∣ k.off + A.sizeofStructMem + newsize :=
    Nat.dvd_add (Nat.dvd_add (hs.aligned k (by simp)) (sizeofStructMem_dvd A)) hd
  simp only [shrinkInPlace] at hp
  generalize hp2 : k.off + A.sizeofStructMem + newsize = ptr2 at *
  generalize wordSub h.usedMem (k.next - k.off - A.sizeofStructMem - newsize) = u at hp
  have hs1 := cutHeap_shape ptr2 u hs hu (by omega) (by omega) hd2
  have hused : b ∈ usedBlocks ((xs ++ [⟨k.off, ptr2, usedTag⟩]) ++ ys) := by
    rw [List.append_assoc, usedBlocks_append]
    exact hblocks ▸ hbu
  have hplug := plugHoles_keeps hs1 rfl (noFreePair_split hr.noPair).2 hp hused
  refine KeepsBytes.trans (fun x hlo hhi => ?_) hplug
  have hap : Apart k.off ptr2 := by unfold Apart; omega
  have hout : (x < k.off ∨ k.off + 12 ≤ x) ∧ (x < ptr2 ∨ ptr2 + 12 ≤ x) ∧
      (x < k.next ∨ k.next + 12 ≤ x) := by
    have hx : ∀ {o}, HeaderPlace (cutHeap A h k ptr2 u) ((xs ++ [⟨k.off, ptr2, usedTag⟩]) ++
        ⟨ptr2, k.next, freeTag⟩ :: ys) o → x < o ∨ o + 12 ≤ x := by
      intro o ho
      refine hs1.data_apart (b := b) ?_ ho hlo hhi
      have := (List.mem_filter.mp hused).1
      simp only [List.mem_append, List.mem_cons] at this ⊢
      exact this.imp_right Or.inr
    refine ⟨hx (Or.inr ⟨⟨k.off, ptr2, usedTag⟩, by simp, rfl⟩),
      hx (Or.inr ⟨⟨ptr2, k.next, freeTag⟩, by simp, rfl⟩), hx ?_⟩
    exact hs1.place_next
  obtain ⟨h1, h2, h3⟩ := hout
  show (relinkSuccessor A h (insertRemainder h.mem k.off ptr2) ptr2).byte x = h.mem.byte x
  rw [relinkSuccessor_outside, insertRemainder_outside h1 h2]
  rw [header_insertRemainder_new hap, hs.header_eq]
  exact h3

end

/-- A block of the arena that is in use has its data at `p`. -/
def OwnedAt (A : AlignSize) (h : Heap) (p : Nat) : Prop :=
  ∃ offs o, HeapChain A h offs ∧ o ∈ offs ∧ p = h.heapPtr + o + A.sizeofStructMem ∧
    (header h.mem o).tag.used ≠ 0

/-- The block at `p` is still in use, as large as it was and with the bytes it had. -/
structure SameBlock (A : AlignSize) (h h' : Heap) (p : Nat) : Prop where
  owned : OwnedAt A h' p
  sameEnd : usableEnd A h' p = usableEnd A h p
  bytes : ∀ i, p + i < usableEnd A h p →
    h'.mem.byte (p + i - h'.heapPtr) = h.mem.byte (p + i - h.heapPtr)

/-- `rt_realloc` of `p` to `newsize` bytes returned `q`: the bytes are at `q`, or nothing has
changed, and every other live block is as it was. -/
structure ReallocKeeps (A : AlignSize) (s : HeapState) (p newsize : Nat) (h' : Heap) (q : Nat) :
    Prop where
  owned : q ≠ 0 → OwnedAt A h' q
  copied : q ≠ 0 → ∀ i < min (usableEnd A s.heap p - p) (rtAlign A newsize),
    h'.mem.byte (q + i - h'.heapPtr) = s.heap.mem.byte (p + i - s.heap.heapPtr)
  others : q ≠ 0 → ∀ r ∈ s.live.erase p, r ≠ q ∧ SameBlock A s.heap h' r
  failed : q = 0 → ∀ r ∈ s.live, SameBlock A s.heap h' r

section
variable {A : AlignSize} {h h' : Heap} {s : HeapState} {xs ys bs bs' : List Block} {k b : Block}
  {m : Memory} {beginAddr endAddr : UInt32} {fuel p q newsize : Nat}

theorem HeapShape.owned (hs : HeapShape A h bs) (hk : k ∈ usedBlocks bs) :
    OwnedAt A h (blockPtr A h k) := by
  obtain ⟨hk, hu⟩ := List.mem_filter.mp hk
  refine ⟨_, k.off, hs.chain, List.mem_map_of_mem hk, rfl, ?_⟩
  rw [ne_eq, hs.read_used hk]
  simpa using hu

theorem HeapShape.owned_iff (hs : HeapShape A h bs) :
    OwnedAt A h p ↔ ∃ k ∈ usedBlocks bs, p = blockPtr A h k := by
  constructor
  · rintro ⟨offs, o, hc, ho, rfl, hu⟩
    obtain rfl := hs.chain_unique hc
    obtain ⟨k, hk, rfl⟩ := List.mem_map.mp ho
    refine ⟨k, List.mem_filter.mpr ⟨hk, ?_⟩, rfl⟩
    rw [ne_eq, hs.read_used hk] at hu
    simpa using hu
  · rintro ⟨k, hk, rfl⟩
    exact hs.owned hk

theorem HeapShape.eq_of_off (hs : HeapShape A h bs) (hk : k ∈ bs) (hb : b ∈ bs)
    (ho : b.off = k.off) : b = k := by
  have hW := sizeofStructMem_ge A
  obtain ⟨xs, ys, rfl⟩ := List.append_of_mem hk
  have hkb := hs.bounds hk
  rcases List.mem_append.mp hb with hb' | hb'
  · have := hs.before hb'
    omega
  · rcases List.mem_cons.mp hb' with rfl | hb'
    · rfl
    · have := hs.after hb'
      omega

theorem sameBlock_of_keeps (hs : HeapShape A h bs) (hs' : HeapShape A h' bs') (hb : SameBounds h h')
    (hk : k ∈ usedBlocks bs) (hk' : k ∈ usedBlocks bs') (hkeeps : KeepsBytes A k h.mem h'.mem) :
    SameBlock A h h' (blockPtr A h k) := by
  have hptr : blockPtr A h k = blockPtr A h' k := by simp only [blockPtr, hb.1]
  have hend := hs.usableEnd_eq (List.mem_filter.mp hk).1
  refine ⟨hptr ▸ hs'.owned hk', ?_, fun i hi => ?_⟩
  · rw [hend, hptr, hs'.usableEnd_eq (List.mem_filter.mp hk').1, hb.1]
  · rw [hend] at hi
    rw [hb.1]
    unfold blockPtr at hi ⊢
    exact hkeeps _ (by omega) (by omega)

/-- What the live pointers other than `p` are: the blocks in use other than its own. -/
theorem HeapHolds.erase_live (hh : HeapHolds A s (xs ++ k :: ys)) (hu : isFree k = false) :
    (s.live.erase (blockPtr A s.heap k)).Perm ((usedBlocks (xs ++ ys)).map (blockPtr A s.heap)) := by
  have hperm := hh.2.trans (livePtrs_middle hu)
  have herase := hperm.erase (blockPtr A s.heap k)
  rwa [List.erase_cons_head] at herase

theorem rtMemcpy_inside {m : Memory} {dst src n i : Nat} (hi : i < n) (hdst : dst + n ≤ 4294967296)
    (hsrc : src + n ≤ 4294967296) : (rtMemcpy m dst src n).byte (dst + i) = m.byte (src + i) := by
  have hsub : wordSub (dst + i) dst = i := by unfold wordSub; omega
  have hin : InRange dst n (dst + i) := by
    unfold InRange
    omega
  simp only [rtMemcpy, if_pos hin, hsub, word_of_lt (show src + i < 4294967296 by omega)]

/-- Distinct blocks have their data apart. -/
theorem HeapShape.data_disjoint {x n : Nat} (hs : HeapShape A h bs) (hk : k ∈ bs) (hb : b ∈ bs)
    (hne : b ≠ k) (hn : k.off + A.sizeofStructMem + n ≤ k.next)
    (hlo : b.off + A.sizeofStructMem ≤ x) (hhi : x < b.next) :
    ¬InRange (k.off + A.sizeofStructMem) n x := by
  have hW := sizeofStructMem_ge A
  have hend := hs.end_lt
  have hkb := hs.bounds hk
  have hbb := hs.bounds hb
  refine not_inRange (by omega) (by omega) ?_
  obtain ⟨xs, ys, rfl⟩ := List.append_of_mem hk
  rcases List.mem_append.mp hb with hb' | hb'
  · have := (List.pairwise_append.mp hs.tiles.pairwise).2.2 b hb' k List.mem_cons_self
    omega
  · rcases List.mem_cons.mp hb' with rfl | hb'
    · exact absurd rfl hne
    · have := hs.after hb'
      omega

theorem HeapShape.usedBlocks_nodup (hs : HeapShape A h bs) : (usedBlocks bs).Nodup := by
  have hW := sizeofStructMem_ge A
  refine List.Pairwise.imp_of_mem ?_ (hs.tiles.pairwise.sublist List.filter_sublist)
  rintro x y hx - hxy rfl
  have hxb := hs.bounds (List.mem_filter.mp hx).1
  omega

/-- `rtFree_blocks` where the data of some block has been written. -/
theorem rtFree_blocks_written {m : Memory} (hr : HeapRep A { h with mem := m } bs)
    (hk : k ∈ usedBlocks bs) :
    ∃ h' bs', rtFree A { h with mem := m } (blockPtr A h k) = some h' ∧ HeapRep A h' bs' ∧
      SameBounds h h' ∧ (usedBlocks bs).Perm (k :: usedBlocks bs') ∧
      ∀ b ∈ usedBlocks bs', KeepsBytes A b m h'.mem :=
  rtFree_blocks hr hk

/-- A completed move leaves the other blocks in use and copies the bytes. -/
theorem reallocMove_keeps {size : Nat} (hr : HeapRep A h (xs ++ k :: ys)) (hu : isFree k = false)
    (hsize : size = k.next - k.off - A.sizeofStructMem) (hd : A.size ∣ newsize)
    (hlt : newsize < 4294967296)
    (hm : reallocMove A fuel h (blockPtr A h k) size newsize = some (h', q)) :
    q = 0 ∧ h' = h ∨
    ∃ bs' k', HeapRep A h' bs' ∧ SameBounds h h' ∧ q = blockPtr A h' k' ∧
      (usedBlocks bs').Perm (k' :: usedBlocks (xs ++ ys)) ∧
      (∀ b ∈ usedBlocks (xs ++ ys), KeepsBytes A b h.mem h'.mem) ∧
      ∀ i < min size newsize, h'.mem.byte (k'.off + A.sizeofStructMem + i) =
        h.mem.byte (k.off + A.sizeofStructMem + i) := by
  have hs := hr.toHeapShape
  have hW := sizeofStructMem_ge A
  have hend := hs.end_lt
  have hkb := hs.bounds (k := k) (by simp)
  have hkused : k ∈ usedBlocks (xs ++ k :: ys) := List.mem_filter.mpr ⟨by simp, by simp [hu]⟩
  have hold : (usedBlocks (xs ++ k :: ys)).Perm (k :: usedBlocks (xs ++ ys)) := by
    rw [usedBlocks_append, usedBlocks_append, usedBlocks_cons_used hu]
    exact List.perm_middle
  simp only [reallocMove, Option.bind_eq_bind, Option.bind_eq_some_iff] at hm
  obtain ⟨⟨h1, nmem⟩, hmalloc, hm⟩ := hm
  rcases rtMalloc_keeps hr hmalloc with ⟨rfl, rfl⟩ | ⟨bs1, k', hr1, hb1, hq, hfit, hperm1, hkeep1⟩
  · left
    simpa [eq_comm, and_comm] using hm
  right
  have hs1 := hr1.toHeapShape
  have hend1 := hs1.end_lt
  have hfits := hs.fits
  have hfits1 := hs1.fits
  have hnz : nmem ≠ 0 := hq ▸ blockPtr_pos A h1 k'
  rw [rtAlign_of_dvd hd hlt] at hfit
  generalize hn : (if size < newsize then size else newsize) = n at hm
  have hmin : n = min size newsize := by rw [← hn]; split <;> omega
  have hk1 : k' ∈ usedBlocks bs1 := hperm1.mem_iff.mpr List.mem_cons_self
  have hkb1 := hs1.bounds (List.mem_filter.mp hk1).1
  have hdst : wordSub nmem h1.heapPtr = k'.off + A.sizeofStructMem := by
    rw [hq, wordSub_of_le (by unfold blockPtr; omega) (by unfold blockPtr; omega)]
    unfold blockPtr
    omega
  have hsrc : wordSub (blockPtr A h k) h1.heapPtr = k.off + A.sizeofStructMem := by
    rw [hb1.1, wordSub_of_le (by unfold blockPtr; omega) (by unfold blockPtr; omega)]
    unfold blockPtr
    omega
  rw [hdst, hsrc] at hm
  generalize hcopied : rtMemcpy h1.mem (k'.off + A.sizeofStructMem) (k.off + A.sizeofStructMem) n =
    m at hm
  have hr2 : HeapRep A { h1 with mem := m } bs1 := by
    refine hr1.fill (n := n) (List.mem_filter.mp hk1).1 (by omega) fun x hx => ?_
    rw [← hq, hdst] at hx
    rw [← hcopied]
    exact rtMemcpy_outside hx
  have hkin : k ∈ usedBlocks bs1 := hperm1.mem_iff.mpr (List.mem_cons_of_mem _ hkused)
  obtain ⟨h2, bs2, hf, hr', hb2, hperm2, hkeep2⟩ := rtFree_blocks_written hr2 hkin
  have hptr : blockPtr A h1 k = blockPtr A h k := by simp only [blockPtr, hb1.1]
  rw [hptr] at hf
  simp only [if_pos hnz, hf, Option.bind_some, Option.some.injEq, Prod.mk.injEq] at hm
  obtain ⟨rfl, rfl⟩ := hm
  have hperm : (usedBlocks bs2).Perm (k' :: usedBlocks (xs ++ ys)) := by
    have hall := (hperm2.symm.trans hperm1).trans (hold.cons k')
    exact (hall.trans (List.Perm.swap k k' _)).cons_inv
  refine ⟨bs2, k', hr', hb1.trans hb2, ?_, hperm, fun b hb => ?_, fun i hi => ?_⟩
  · rw [hq]
    simp only [blockPtr, hb2.1]
  · have hbold : b ∈ usedBlocks (xs ++ k :: ys) := hold.mem_iff.mpr (List.mem_cons_of_mem _ hb)
    have hbin : b ∈ usedBlocks bs1 := hperm1.mem_iff.mpr (List.mem_cons_of_mem _ hbold)
    have hne : b ≠ k' := by
      rintro rfl
      have hnodup := hperm1.nodup_iff.mp hs1.usedBlocks_nodup
      exact (List.nodup_cons.mp hnodup).1 hbold
    have hcopy : KeepsBytes A b h1.mem m := by
      intro x hlo hhi
      rw [← hcopied]
      exact rtMemcpy_outside (hs1.data_disjoint (List.mem_filter.mp hk1).1 (List.mem_filter.mp hbin).1
        hne (by omega) hlo hhi)
    exact ((hkeep1 b hbold).trans hcopy).trans
      (hkeep2 b (hperm.mem_iff.mpr (List.mem_cons_of_mem _ hb)))
  · have hafter := hkeep2 k' (hperm.mem_iff.mpr List.mem_cons_self)
      (k'.off + A.sizeofStructMem + i) (by omega) (by omega)
    have hbefore := hkeep1 k hkused (k.off + A.sizeofStructMem + i) (by omega) (by omega)
    have hinside : (rtMemcpy h1.mem (k'.off + A.sizeofStructMem) (k.off + A.sizeofStructMem) n).byte
        (k'.off + A.sizeofStructMem + i) = h1.mem.byte (k.off + A.sizeofStructMem + i) :=
      rtMemcpy_inside (by omega) (by omega) (by omega)
    rw [hcopied] at hinside
    exact hafter.trans (hinside.trans hbefore)

/-- A completed `rt_realloc` of a live pointer keeps the data where its size does not wrap. -/
theorem rtRealloc_keeps (hh : HeapHolds A s bs) (hp : p ∈ s.live) (hn : newsize ≠ 0)
    (hfit : AlignFits A newsize) (hm : rtRealloc A fuel s.heap p newsize = some (h', q)) :
    ReallocKeeps A s p newsize h' q := by
  have hr := hh.1
  have hs := hr.toHeapShape
  have hW := sizeofStructMem_ge A
  have hdvd := rtAlign_dvd A newsize
  have hend := hs.end_lt
  have hfits := hs.fits
  have hpos := rtAlign_pos hn hfit
  obtain ⟨xs, k, ys, rfl, hu, rfl⟩ := mem_livePtrs (hh.2.mem_iff.mp hp)
  have hmem : k ∈ xs ++ k :: ys := by simp
  have hkused : k ∈ usedBlocks (xs ++ k :: ys) := List.mem_filter.mpr ⟨hmem, by simp [hu]⟩
  have hkb := hs.bounds hmem
  have hz := blockPtr_pos A s.heap k
  have hunchanged : ∀ r ∈ s.live, SameBlock A s.heap s.heap r := by
    intro r hr'
    obtain ⟨b, hb, rfl⟩ := List.mem_map.mp (hh.2.mem_iff.mp hr')
    exact sameBlock_of_keeps hs hs (.refl _) hb hb fun _ _ _ => rfl
  have hothers : ∀ {bs' h' q}, HeapShape A h' bs' → SameBounds s.heap h' →
      (∃ k', q = blockPtr A s.heap k' ∧ (usedBlocks bs').Perm (k' :: usedBlocks (xs ++ ys))) →
      (∀ b ∈ usedBlocks (xs ++ ys), KeepsBytes A b s.heap.mem h'.mem) →
      ∀ r ∈ s.live.erase (blockPtr A s.heap k), r ≠ q ∧ SameBlock A s.heap h' r := by
    rintro bs' h' q hs' hb ⟨k', rfl, hperm⟩ hkeeps r hr'
    obtain ⟨b, hbu, rfl⟩ := List.mem_map.mp ((hh.erase_live hu).mem_iff.mp hr')
    have hbold : b ∈ usedBlocks (xs ++ k :: ys) := by
      rw [usedBlocks_append] at hbu ⊢
      rw [usedBlocks_cons_used hu]
      rcases List.mem_append.mp hbu with hbu | hbu
      · exact List.mem_append_left _ hbu
      · exact List.mem_append_right _ (List.mem_cons_of_mem _ hbu)
    have hbnew : b ∈ usedBlocks bs' := hperm.mem_iff.mpr (List.mem_cons_of_mem _ hbu)
    refine ⟨fun he => ?_, sameBlock_of_keeps hs hs' hb hbold hbnew (hkeeps b hbu)⟩
    have hk' : k' ∈ usedBlocks bs' := hperm.mem_iff.mpr List.mem_cons_self
    have hoff : b.off = k'.off := by
      unfold blockPtr at he
      omega
    obtain rfl := hs'.eq_of_off (List.mem_filter.mp hk').1 (List.mem_filter.mp hbnew).1 hoff
    exact (List.nodup_cons.mp (hperm.nodup_iff.mp hs'.usedBlocks_nodup)).1 hbu
  have husable : usableEnd A s.heap (blockPtr A s.heap k) - blockPtr A s.heap k =
      k.next - k.off - A.sizeofStructMem := by
    rw [hs.usableEnd_eq hmem]
    unfold blockPtr
    omega
  have hold : (usedBlocks (xs ++ k :: ys)).Perm (k :: usedBlocks (xs ++ ys)) := by
    rw [usedBlocks_append, usedBlocks_append, usedBlocks_cons_used hu]
    exact List.perm_middle
  have hin : ¬(blockPtr A s.heap k < s.heap.heapPtr ∨
      s.heap.heapPtr + s.heap.heapEnd ≤ blockPtr A s.heap k) := by
    have := hr.roomy k hkused
    unfold blockPtr
    omega
  have hsize : wordSub (wordSub k.next k.off) A.sizeofStructMem =
      k.next - k.off - A.sizeofStructMem := by
    rw [wordSub_of_le (a := k.next) (by omega) (by omega), wordSub_of_le (by omega) (by omega)]
  simp only [rtRealloc] at hm
  split at hm
  next hbig =>
    obtain ⟨rfl, rfl⟩ := Prod.mk.inj (Option.some.inj hm)
    exact ⟨fun hq => absurd rfl hq, fun hq => absurd rfl hq, fun hq => absurd rfl hq,
      fun _ => hunchanged⟩
  -- the tests for a zero size and for a pointer outside the arena are settled by now
  simp only [hs.wordSub_blockPtr hmem, hs.header_eq, hsize] at hm
  split at hm
  next =>
    obtain ⟨rfl, rfl⟩ := Prod.mk.inj (Option.some.inj hm)
    exact ⟨fun _ => hs.owned hkused, fun _ i _ => rfl,
      fun _ => hothers hs (.refl _) ⟨k, rfl, hold⟩ fun _ _ _ _ _ => rfl, fun hq => absurd hq hz⟩
  split at hm
  next hroom =>
    obtain ⟨h1, bs', hf, hr', hb, hblocks, hkeeps⟩ :=
      shrinkInPlace_keeps hr hu (Nat.pos_of_ne_zero hpos) hdvd (by omega)
    simp only [shrinkInPlace] at hf
    simp only [hf, Option.bind_eq_bind, Option.bind_some, Option.some.injEq, Prod.mk.injEq] at hm
    obtain ⟨rfl, rfl⟩ := hm
    generalize hk1 : (⟨k.off, k.off + A.sizeofStructMem + rtAlign A newsize, usedTag⟩ : Block) = k1
      at hblocks
    have hoff : k1.off = k.off := by rw [← hk1]
    have hnext : k1.next = k.off + A.sizeofStructMem + rtAlign A newsize := by rw [← hk1]
    have hperm : (usedBlocks bs').Perm (k1 :: usedBlocks (xs ++ ys)) := by
      rw [hblocks, usedBlocks_append]
      exact List.perm_middle
    have hkin : k1 ∈ usedBlocks bs' := hperm.mem_iff.mpr List.mem_cons_self
    have hptr : blockPtr A h1 k1 = blockPtr A s.heap k := by simp only [blockPtr, hb.1, hoff]
    have hptr' : blockPtr A s.heap k = blockPtr A s.heap k1 := by simp only [blockPtr, hoff]
    refine ⟨fun _ => hptr ▸ hr'.toHeapShape.owned hkin, fun _ i hi => ?_,
      fun _ => hothers hr'.toHeapShape hb ⟨k1, hptr', hperm⟩
        fun b hb' => hkeeps b (hperm.mem_iff.mpr (List.mem_cons_of_mem _ hb')),
      fun hq => absurd hq hz⟩
    rw [husable] at hi
    rw [hb.1]
    unfold blockPtr
    exact hkeeps k1 hkin _ (by omega) (by omega)
  next hroom =>
    have hmove : reallocMove A fuel s.heap (blockPtr A s.heap k)
        (k.next - k.off - A.sizeofStructMem) (rtAlign A newsize) = some (h', q) := hm
    rcases reallocMove_keeps hr hu rfl hdvd (rtAlign_lt A newsize) hmove with
      ⟨rfl, rfl⟩ | ⟨bs', k', hr', hb, rfl, hperm, hkeeps, hcopy⟩
    · exact ⟨fun hq => absurd rfl hq, fun hq => absurd rfl hq, fun hq => absurd rfl hq,
        fun _ => hunchanged⟩
    · have hkin : k' ∈ usedBlocks bs' := hperm.mem_iff.mpr List.mem_cons_self
      have hptr : blockPtr A h' k' = blockPtr A s.heap k' := by simp only [blockPtr, hb.1]
      refine ⟨fun _ => hr'.toHeapShape.owned hkin, fun _ i hi => ?_,
        fun _ => hothers hr'.toHeapShape hb ⟨k', hptr, hperm⟩ hkeeps,
        fun hq => absurd hq (blockPtr_pos A h' k')⟩
      rw [husable] at hi
      have hbyte := hcopy i hi
      have hto : blockPtr A h' k' + i - h'.heapPtr = k'.off + A.sizeofStructMem + i := by
        unfold blockPtr
        omega
      have hfrom : blockPtr A s.heap k + i - s.heap.heapPtr = k.off + A.sizeofStructMem + i := by
        unfold blockPtr
        omega
      rw [hto, hfrom]
      exact hbyte

/-- A size that wraps when it is rounded frees the block, and the old pointer owns nothing. -/
theorem rtRealloc_wraps (fuel : Nat) (hh : HeapHolds A s bs) (hp : p ∈ s.live) (hlt : newsize < 4294967296)
    (hwrap : ¬AlignFits A newsize) :
    ∃ h', rtRealloc A fuel s.heap p newsize = some (h', 0) ∧ ¬OwnedAt A h' p := by
  obtain ⟨k, hk, rfl⟩ := List.mem_map.mp (hh.2.mem_iff.mp hp)
  obtain ⟨h', bs', hf, hr', hb, hperm, -⟩ := rtFree_blocks hh.1 hk
  refine ⟨h', ?_, fun howned => ?_⟩
  · simp [rtRealloc, rtAlign_wraps hlt hwrap, hf]
  · obtain ⟨b, hbu, he⟩ := hr'.toHeapShape.owned_iff.mp howned
    have hbold : b ∈ usedBlocks bs := hperm.mem_iff.mpr (List.mem_cons_of_mem _ hbu)
    have hoff : b.off = k.off := by
      unfold blockPtr at he
      rw [hb.1] at he
      omega
    have hs := hh.1.toHeapShape
    obtain rfl := hs.eq_of_off (List.mem_filter.mp hk).1 (List.mem_filter.mp hbold).1 hoff
    exact (List.nodup_cons.mp (hperm.nodup_iff.mp hs.usedBlocks_nodup)).1 hbu

/-- A completed `rt_realloc` of a live pointer to a size that is not zero keeps every byte it should
keep, exactly where the size does not wrap when it is rounded. -/
theorem heapReach_realloc_keeps_iff (hr : HeapReach A (CallFits A) m beginAddr endAddr s)
    (hp : p ∈ s.live) (newsize : UInt32) (hn : newsize.toNat ≠ 0) :
    (∀ fuel h' q, rtRealloc A fuel s.heap p newsize.toNat = some (h', q) →
      ReallocKeeps A s p newsize.toNat h' q) ↔ AlignFits A newsize.toNat := by
  obtain ⟨bs, hh, -⟩ := heapReach_holds (fun _ _ _ hc => hc) hr
  constructor
  · intro hkeeps
    by_contra hwrap
    obtain ⟨h', hm, hlost⟩ := rtRealloc_wraps 0 hh hp newsize.toNat_lt hwrap
    exact hlost ((hkeeps 0 h' 0 hm).failed rfl p hp).owned
  · intro hfit fuel h' q hm
    exact rtRealloc_keeps hh hp hn hfit hm

end

theorem oneBlock_reach : HeapReach align8 (CallFits align8) clearedMemory 4096 4608 oneBlock :=
  heapReach_run (fun _ c hc => by
    obtain rfl := List.mem_singleton.mp hc
    trivial) (Option.some_get _).symm

theorem oneBlock_live : 4112 ∈ oneBlock.live := by decide +kernel

theorem heapReach_realloc_keeps_iff_oneBlock :
    (∀ fuel h' q, rtRealloc align8 fuel oneBlock.heap 4112 200 = some (h', q) →
      ReallocKeeps align8 oneBlock 4112 200 h' q) ↔ AlignFits align8 200 :=
  heapReach_realloc_keeps_iff oneBlock_reach oneBlock_live 200 (by decide)

/-- `rt_realloc(p, 0xFFFFFFFF)` returns NULL and has freed `p`. -/
theorem realloc_frees_on_failure : ¬∀ (A : AlignSize) (m : Memory) (b e : UInt32) (s : HeapState),
    HeapReach A (CallFits A) m b e s → ∀ p ∈ s.live, ∀ newsize : UInt32, newsize.toNat ≠ 0 →
    ∀ fuel h' q, rtRealloc A fuel s.heap p newsize.toNat = some (h', q) →
      ReallocKeeps A s p newsize.toNat h' q := by
  intro hall
  obtain ⟨bs, hh, -⟩ := heapReach_holds (fun _ _ _ hc => hc) oneBlock_reach
  have hwrap : ¬AlignFits align8 (0xFFFFFFFF : UInt32).toNat := by
    unfold AlignFits
    decide
  obtain ⟨h', hm, hlost⟩ := rtRealloc_wraps 0 hh oneBlock_live
    (0xFFFFFFFF : UInt32).toNat_lt hwrap
  have hkeeps := hall align8 clearedMemory 4096 4608 oneBlock oneBlock_reach 4112 oneBlock_live
    0xFFFFFFFF (by decide) 0 h' 0 hm
  exact hlost (hkeeps.failed rfl 4112 oneBlock_live).owned

end RTThread
