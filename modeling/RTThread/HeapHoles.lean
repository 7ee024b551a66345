import RTThread.HeapLayout

namespace RTThread

section
variable {A : AlignSize} {h : Heap} {xs ys bs bs' : List Block} {k n p : Block}

/-- The arena and the accounts are those of `h`; `mem` and `lfree` may differ. -/
def SameArena (h h' : Heap) : Prop :=
  h'.heapPtr = h.heapPtr ∧ h'.heapEnd = h.heapEnd ∧ h'.memSizeAligned = h.memSizeAligned ∧
    h'.usedMem = h.usedMem ∧ h'.maxMem = h.maxMem

theorem plugForward_sameArena (h : Heap) (mem : Nat) : SameArena h (plugForward h mem) := by
  unfold plugForward
  dsimp only
  split <;> exact ⟨rfl, rfl, rfl, rfl, rfl⟩

theorem plugBackward_sameArena (h : Heap) (mem : Nat) : SameArena h (plugBackward h mem) := by
  unfold plugBackward
  dsimp only
  split <;> exact ⟨rfl, rfl, rfl, rfl, rfl⟩

theorem HeapShape.rewrite {m : Memory} {l : Nat} (hs : HeapShape A h bs)
    (tiles : Tiled A.sizeofStructMem (header m) 0 0 bs' h.heapEnd)
    (ending : (header m h.heapEnd).tag = (header h.mem h.heapEnd).tag ∧
      (header m h.heapEnd).next = (header h.mem h.heapEnd).next)
    (aligned : ∀ k ∈ bs', A.size ∣ k.off) (tags : ∀ k ∈ bs', k.tag = usedTag ∨ k.tag = freeTag)
    (lfreeAt : l = h.heapEnd ∨ ∃ k ∈ bs', k.off = l ∧ isFree k) (u w : Nat) :
    HeapShape A { h with mem := m, lfree := l, usedMem := u, maxMem := w } bs' where
  tiles := tiles
  endUsed := by rw [ending.1]; exact hs.endUsed
  endNext := ending.2.trans hs.endNext
  endOff := hs.endOff
  fits := hs.fits
  ptrAligned := hs.ptrAligned
  aligned := aligned
  tags := tags
  lfreeAt := lfreeAt

/-- The memory after one of the two merges of `plugHoles`. -/
def joinBlocks (m : Memory) (o next : Nat) : Memory := setPrev (setNext m o next) next o

theorem joinBlocks_tiles {b : Nat} {m : Memory} (hb : b < 4294967296)
    (ht : Tiled A.sizeofStructMem (header m) 0 0 (xs ++ k :: n :: ys) b) :
    Tiled A.sizeofStructMem (header (joinBlocks m k.off n.next)) 0 0
      (xs ++ ⟨k.off, n.next, k.tag⟩ :: ys) b := by
  have hW := sizeofStructMem_ge A
  have hk := ht.bounds (c := k) (by simp)
  have hn := ht.bounds (c := n) (by simp)
  have hkn := (List.pairwise_cons.mp (List.pairwise_append.mp ht.pairwise).2.1).1 n (by simp)
  have hap : Apart k.off n.next := by unfold Apart; omega
  refine ht.merge (by omega) ?_ ?_ ?_
  · rw [joinBlocks, header_setPrev_apart hap, header_setNext, word_of_lt (by omega)]
  · intro _
    rw [joinBlocks, header_setPrev, header_setNext_apart (Or.symm hap), word_of_lt (by omega)]
  · intro x hx
    have h1 : Apart x k.off := by unfold Apart; omega
    have h2 : Apart x n.next := by unfold Apart; omega
    rw [joinBlocks, header_setPrev_apart h2, header_setNext_apart h1]

theorem joinBlocks_end {o next e : Nat} {m : Memory} (h1 : Apart e o) (h2 : e = next ∨ Apart e next) :
    (header (joinBlocks m o next) e).tag = (header m e).tag ∧
      (header (joinBlocks m o next) e).next = (header m e).next := by
  rcases h2 with rfl | h2
  · simp [joinBlocks, header_setNext_apart h1]
  · simp [joinBlocks, header_setPrev_apart h2, header_setNext_apart h1]

/-- Either merge turns two free neighbours into one block and moves `lfree` off the second. -/
theorem HeapShape.join (hs : HeapShape A h (xs ++ k :: n :: ys)) (hk : isFree k) :
    HeapShape A
      { h with
        lfree := if h.lfree = n.off then k.off else h.lfree
        mem := joinBlocks h.mem k.off n.next } (xs ++ ⟨k.off, n.next, k.tag⟩ :: ys) := by
  have hW := sizeofStructMem_ge A
  have hkb := hs.bounds (k := k) (by simp)
  have hnb := hs.bounds (k := n) (by simp)
  have hno := hs.next_off
  refine hs.rewrite (joinBlocks_tiles hs.end_lt hs.tiles) ?_ ?_ ?_ ?_ h.usedMem h.maxMem
  · apply joinBlocks_end
    · unfold Apart; omega
    · have he := (show HeapShape A h ((xs ++ [k]) ++ n :: ys) by simpa using hs).next_eq_or_lt
      exact he.imp_right fun he => by unfold Apart; omega
  · intro c hc
    simp only [List.mem_append, List.mem_cons] at hc
    rcases hc with hc | rfl | hc
    · exact hs.aligned c (by simp [hc])
    · exact hs.aligned k (by simp)
    · exact hs.aligned c (by simp [hc])
  · intro c hc
    simp only [List.mem_append, List.mem_cons] at hc
    rcases hc with hc | rfl | hc
    · exact hs.tags c (by simp [hc])
    · exact hs.tags k (by simp)
    · exact hs.tags c (by simp [hc])
  · by_cases hl : h.lfree = n.off
    · rw [if_pos hl]
      exact Or.inr ⟨⟨k.off, n.next, k.tag⟩, by simp, rfl, hk⟩
    · rw [if_neg hl]
      refine hs.lfreeAt.imp_right ?_
      rintro ⟨c, hc, hco, hcf⟩
      simp only [List.mem_append, List.mem_cons] at hc
      rcases hc with hc | rfl | rfl | hc
      · exact ⟨c, by simp [hc], hco, hcf⟩
      · exact ⟨⟨c.off, n.next, c.tag⟩, by simp, hco, hcf⟩
      · exact absurd hco.symm hl
      · exact ⟨c, by simp [hc], hco, hcf⟩

theorem plugForward_join (hs : HeapShape A h (xs ++ k :: n :: ys)) (hn : isFree n) :
    plugForward h k.off =
      { h with
        lfree := if h.lfree = n.off then k.off else h.lfree
        mem := joinBlocks h.mem k.off n.next } := by
  have hW := sizeofStructMem_ge A
  have hkb := hs.bounds (k := k) (by simp)
  have hnb := hs.bounds (k := n) (by simp)
  have hno := hs.next_off
  have hhn := (show HeapShape A h ((xs ++ [k]) ++ n :: ys) by simpa using hs).header_eq
  have hap : Apart n.off k.off := by unfold Apart; omega
  have hfree : n.tag.used = 0 := by simpa [isFree] using hn
  unfold plugForward
  simp only [hs.header_eq, ← hno, hhn, header_setNext_apart hap, hfree]
  rw [if_pos ⟨by omega, trivial, by omega⟩]
  rfl

theorem plugForward_skip (hs : HeapShape A h (xs ++ k :: ys))
    (hy : ∀ n ∈ ys.head?, isFree n = false) : plugForward h k.off = h := by
  unfold plugForward
  simp only [hs.header_eq]
  apply if_neg
  rintro ⟨_, hu, he⟩
  cases ys with
  | nil => exact he hs.last_next
  | cons n ys =>
    have hhn := (show HeapShape A h ((xs ++ [k]) ++ n :: ys) by simpa using hs).header_eq
    have hf : n.tag.used ≠ 0 := by simpa [isFree] using hy n (by simp)
    rw [← hs.next_off, hhn] at hu
    exact hf hu

theorem plugBackward_join (hs : HeapShape A h (xs ++ p :: k :: ys)) (hp : isFree p) :
    plugBackward h k.off =
      { h with
        lfree := if h.lfree = k.off then p.off else h.lfree
        mem := joinBlocks h.mem p.off k.next } := by
  have hW := sizeofStructMem_ge A
  have hpb := hs.bounds (k := p) (by simp)
  have hko := hs.next_off
  have hhk := (show HeapShape A h ((xs ++ [p]) ++ k :: ys) by simpa using hs).header_eq
  have hap : Apart k.off p.off := by unfold Apart; omega
  have hfree : p.tag.used = 0 := by simpa [isFree] using hp
  unfold plugBackward
  simp only [hhk, lastOff_concat, hs.header_eq, header_setNext_apart hap, hfree]
  rw [if_pos ⟨by omega, trivial⟩]
  rfl

theorem plugBackward_skip (hs : HeapShape A h (xs ++ k :: ys))
    (hx : ∀ p ∈ xs.getLast?, isFree p = false) : plugBackward h k.off = h := by
  unfold plugBackward
  simp only [hs.header_eq]
  apply if_neg
  rintro ⟨hne, hu⟩
  cases xs using List.reverseRecOn with
  | nil =>
    obtain ⟨_, hm, ho, _⟩ := tiled_append.mp hs.tiles
    have hz : 0 = k.off := (show (0 : Nat) = _ from hm).trans ho.symm
    exact hne (by rw [← hz]; rfl)
  | append_singleton xs p =>
    have hhp := (show HeapShape A h (xs ++ p :: k :: ys) by simpa using hs).header_eq
    have hf : p.tag.used ≠ 0 := by simpa [isFree] using hx p (by simp)
    rw [lastOff_concat, hhp] at hu
    exact hf hu

theorem noFreePair_cons_skip (hys : NoFreePair ys) (hy : ∀ n ∈ ys.head?, isFree n = false) :
    NoFreePair (k :: ys) :=
  List.isChain_cons.mpr ⟨fun n hn hb => by simp [hy n hn] at hb, hys⟩

theorem noFreePair_head (hn : isFree n) (h : NoFreePair (n :: ys)) :
    ∀ y ∈ ys.head?, isFree y = false := by
  intro y hy
  have := (List.isChain_cons.mp h).1 y hy
  simpa [hn] using this

/-- The forward half: the block after `k` is absorbed when it is free. -/
theorem plugForward_spec (hs : HeapShape A h (xs ++ k :: ys)) (hk : isFree k)
    (hys : NoFreePair ys) :
    ∃ k' ys', HeapShape A (plugForward h k.off) (xs ++ k' :: ys') ∧ k'.off = k.off ∧
      isFree k' ∧ NoFreePair (k' :: ys') ∧ usedBlocks ys' = usedBlocks ys ∧
      (plugForward h k.off).lfree =
        if h.lfree = k.next ∧ k.next ≠ h.heapEnd then k.off else h.lfree := by
  by_cases hy : ∀ n ∈ ys.head?, isFree n = false
  · rw [plugForward_skip hs hy]
    refine ⟨k, ys, hs, rfl, hk, noFreePair_cons_skip hys hy, rfl, ?_⟩
    split
    next hl =>
      -- a free block at `k.next` would be the head of `ys`
      exfalso
      cases ys with
      | nil => exact hl.2 hs.last_next
      | cons n ys =>
        have hno := hs.next_off
        have hkb := hs.bounds (k := k) (by simp)
        have hW := sizeofStructMem_ge A
        rcases hs.lfreeAt with he | ⟨c, hc, hco, hcf⟩
        · exact hl.2 (hl.1.symm.trans he)
        · simp only [List.mem_append, List.mem_cons] at hc
          rcases hc with hc | rfl | rfl | hc
          · have := hs.before hc; omega
          · omega
          · simp [hy c (by simp)] at hcf
          · have hca := (show HeapShape A h ((xs ++ [k]) ++ n :: ys) by simpa using hs).after hc
            have hnb := hs.bounds (k := n) (by simp)
            omega
    next => rfl
  · obtain ⟨n, hn, hf⟩ : ∃ n ∈ ys.head?, isFree n = true := by simpa using hy
    obtain ⟨ys, rfl⟩ := List.head?_eq_some_iff.mp hn
    have hno := hs.next_off
    have hnb := hs.bounds (k := n) (by simp)
    have hW := sizeofStructMem_ge A
    rw [plugForward_join hs hf]
    refine ⟨_, ys, hs.join hk, rfl, hk, ?_, by simp [hf], ?_⟩
    · exact noFreePair_cons_skip (List.isChain_cons.mp hys).2 (noFreePair_head hf hys)
    · simp only [hno, show k.next ≠ h.heapEnd by omega, ne_eq, not_false_eq_true, and_true]

/-- The backward half: `k` is absorbed by the block before it when that is free. -/
theorem plugBackward_spec (hs : HeapShape A h (xs ++ k :: ys)) (hk : isFree k)
    (hxs : NoFreePair xs) (hkys : NoFreePair (k :: ys)) :
    ∃ bs', HeapShape A (plugBackward h k.off) bs' ∧ NoFreePair bs' ∧
      usedBlocks bs' = usedBlocks (xs ++ ys) ∧
      (∀ stop, lowestFree stop bs' = lowestFree k.off xs) ∧
      (h.lfree = lowestFree k.off xs → (plugBackward h k.off).lfree = h.lfree) := by
  by_cases hx : ∀ p ∈ xs.getLast?, isFree p = false
  · rw [plugBackward_skip hs hx]
    refine ⟨xs ++ k :: ys, hs, ?_, by simp [hk], fun _ => lowestFree_append_free hk, fun _ => rfl⟩
    refine List.isChain_append.mpr ⟨hxs, hkys, ?_⟩
    intro p hp q hq hb
    simp [hx p hp] at hb
  · obtain ⟨p, hp, hf⟩ : ∃ p ∈ xs.getLast?, isFree p = true := by simpa using hx
    obtain ⟨xs, rfl⟩ := List.getLast?_eq_some_iff.mp hp
    have hs' : HeapShape A h (xs ++ p :: k :: ys) := by simpa using hs
    have hxp := List.isChain_append.mp hxs
    rw [plugBackward_join hs' hf]
    refine ⟨_, hs'.join hf, ?_, ?_, ?_, ?_⟩
    · refine List.isChain_append.mpr ⟨hxp.1, ?_, ?_⟩
      · exact noFreePair_cons_skip (List.isChain_cons.mp hkys).2 (noFreePair_head hk hkys)
      · intro x hx q hq hb
        obtain rfl : (⟨p.off, k.next, p.tag⟩ : Block) = q := by simpa using hq
        exact hxp.2.2 x hx p (by simp) hb
    · have hf' : isFree ⟨p.off, k.next, p.tag⟩ = true := hf
      simp [hf, hf']
    · intro stop
      rw [lowestFree_append_free (k := ⟨p.off, k.next, p.tag⟩) hf,
        lowestFree_append_free hf]
    · intro hl
      rw [lowestFree_append_free hf] at hl
      have hle : h.lfree < k.off := by
        have hpb := hs'.bounds (k := p) (by simp)
        have hpk := hs'.next_off
        have hW := sizeofStructMem_ge A
        rcases lowestFree_spec p.off xs with ⟨he, _⟩ | ⟨us, v, ws, rfl, _, he, _⟩
        · omega
        · have := hs'.before (n := v) (by simp)
          omega
      simp only [show h.lfree ≠ k.off by omega, if_false]

/-- Freeing a block leaves no two free blocks next to each other, and moves `lfree` only off a
block that was absorbed. -/
theorem plugHoles_spec (hs : HeapShape A h (xs ++ k :: ys)) (hk : isFree k)
    (hxs : NoFreePair xs) (hys : NoFreePair ys) :
    ∃ h' bs', plugHoles h k.off = some h' ∧ HeapShape A h' bs' ∧ SameArena h h' ∧
      NoFreePair bs' ∧ usedBlocks bs' = usedBlocks (xs ++ ys) ∧
      (∀ stop, lowestFree stop bs' = lowestFree k.off xs) ∧
      ((if h.lfree = k.next ∧ k.next ≠ h.heapEnd then k.off else h.lfree) = lowestFree k.off xs →
        h'.lfree = lowestFree k.off xs) := by
  have hkb := hs.bounds (k := k) (by simp)
  have hW := sizeofStructMem_ge A
  have hused : (header h.mem k.off).tag.used = 0 := by
    rw [hs.header_eq]
    simpa [isFree] using hk
  obtain ⟨k', ys', hs1, hko, hk', hn1, hu1, hl1⟩ := plugForward_spec hs hk hys
  obtain ⟨bs', hs2, hn2, hu2, hlow, hl2⟩ := plugBackward_spec hs1 hk' hxs hn1
  rw [hko] at hs2 hlow hl2
  refine ⟨_, bs', ?_, hs2, ?_, hn2, ?_, hlow, ?_⟩
  · simp [plugHoles, rtAssert, hused, show k.off < h.heapEnd by omega]
  · obtain ⟨a1, a2, a3, a4, a5⟩ := plugForward_sameArena h k.off
    obtain ⟨b1, b2, b3, b4, b5⟩ := plugBackward_sameArena (plugForward h k.off) k.off
    exact ⟨b1.trans a1, b2.trans a2, b3.trans a3, b4.trans a4, b5.trans a5⟩
  · rw [hu2, usedBlocks_append, hu1, usedBlocks_append]
  · intro hl
    rw [hl2 (hl1.trans hl), hl1, hl]

end

end RTThread
