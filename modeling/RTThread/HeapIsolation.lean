import RTThread.HeapContents

namespace RTThread

section
variable {A : AlignSize} {h h' : Heap} {s s' : HeapState} {bs bs' : List Block} {k : Block}
  {m : Memory} {beginAddr endAddr : UInt32} {fuel p q i : Nat}

/-- With nothing allocated the arena is one free block. -/
theorem HeapHolds.blocks_none (hh : HeapHolds A s bs) (hnone : s.live = []) :
    bs = [initialBlock s.heap] := by
  have hs := hh.1.toHeapShape
  have hW := sizeofStructMem_ge A
  have hfree : ∀ k ∈ bs, isFree k := by
    intro k hk
    by_contra hu
    have hlive : blockPtr A s.heap k ∈ s.live :=
      hh.2.mem_iff.mpr (List.mem_map_of_mem (List.mem_filter.mpr ⟨hk, by simpa using hu⟩))
    rw [hnone] at hlive
    cases hlive
  rcases bs with _ | ⟨k, _ | ⟨n, bs⟩⟩
  · have hend : 0 = s.heap.heapEnd := hs.tiles
    have hoff := hs.endOff
    omega
  · have hlast : HeapShape A s.heap ([] ++ [k]) := hs
    have hk := hs.tiles.1
    have hnext := hlast.last_next
    have htag := freeTag_of_isFree (hs.tags k (by simp)) (hfree k (by simp))
    cases k
    simp only at hk hnext htag
    subst hk hnext htag
    rfl
  · have hpair := hh.1.noPair
    rw [NoFreePair, List.isChain_cons_cons] at hpair
    exact absurd ⟨hfree k (by simp), hfree n (by simp)⟩ hpair.1

/-- A call that neither gives back the block at `p` nor writes its byte `i`. -/
def LeavesByte (p i : Nat) : HeapCall → Prop
  | .realloc rmem _ | .free rmem => rmem ≠ p
  | .store rmem offset _ => rmem = p → offset ≠ i
  | _ => True

/-- The holder of `p` finds the byte `i` of its block as it was. -/
structure ByteKept (A : AlignSize) (s s' : HeapState) (p i : Nat) : Prop where
  live : p ∈ s'.live
  sameEnd : usableEnd A s'.heap p = usableEnd A s.heap p
  byte : s'.heap.mem.byte (p + i - s'.heap.heapPtr) = s.heap.mem.byte (p + i - s.heap.heapPtr)

theorem SameBlock.byteKept (h : SameBlock A s.heap s'.heap p) (hi : p + i < usableEnd A s.heap p)
    (hlive : p ∈ s'.live) : ByteKept A s s' p i :=
  ⟨hlive, h.sameEnd, h.bytes i hi⟩

/-- A new block beside those in use, whose data is kept. -/
theorem HeapHolds.same_beside (hh : HeapHolds A s bs) (hr : HeapRep A h' bs') (hb : SameBounds s.heap h')
    (hperm : (usedBlocks bs').Perm (k :: usedBlocks bs))
    (hkeeps : ∀ b ∈ usedBlocks bs, KeepsBytes A b s.heap.mem h'.mem) (hp : p ∈ s.live) :
    SameBlock A s.heap h' p := by
  obtain ⟨b, hbu, rfl⟩ := List.mem_map.mp (hh.2.mem_iff.mp hp)
  exact sameBlock_of_keeps hh.1.toHeapShape hr.toHeapShape hb hbu
    (hperm.mem_iff.mpr (List.mem_cons_of_mem _ hbu)) (hkeeps b hbu)

theorem HeapHolds.same_self (hh : HeapHolds A s bs) (hp : p ∈ s.live) : SameBlock A s.heap s.heap p := by
  obtain ⟨b, hbu, rfl⟩ := List.mem_map.mp (hh.2.mem_iff.mp hp)
  exact sameBlock_of_keeps hh.1.toHeapShape hh.1.toHeapShape (.refl _) hbu hbu fun _ _ _ => rfl

theorem HeapHolds.malloc_same {size : Nat} (hh : HeapHolds A s bs)
    (hm : rtMalloc A fuel s.heap size = some (h', q)) (hp : p ∈ s.live) : SameBlock A s.heap h' p := by
  rcases rtMalloc_keeps hh.1 hm with ⟨-, rfl⟩ | ⟨bs', k, hr', hb, -, -, hperm, hkeeps⟩
  · exact hh.same_self hp
  · exact hh.same_beside hr' hb hperm hkeeps hp

/-- What `rt_calloc` clears is in its own block. -/
theorem HeapHolds.calloc_same {count size : Nat} (hh : HeapHolds A s bs)
    (hc : CallocClears A fuel s.heap count size)
    (hm : rtCalloc A fuel s.heap count size = some (h', q)) (hp : p ∈ s.live) :
    SameBlock A s.heap h' p := by
  simp only [rtCalloc, Option.bind_eq_bind, Option.bind_eq_some_iff] at hm
  obtain ⟨⟨h1, r⟩, hmalloc, hm⟩ := hm
  simp only at hm
  rcases rtMalloc_keeps hh.1 hmalloc with ⟨rfl, rfl⟩ | ⟨bs1, k, hr1, hb1, hq, hfit, hperm, hkeeps⟩
  · rw [if_neg (by simp)] at hm
    obtain ⟨rfl, -⟩ := Prod.mk.inj (Option.some.inj hm)
    exact hh.same_self hp
  · have hnz : r ≠ 0 := by
      rw [hq]
      exact blockPtr_pos A h1 k
    have hle : word (count * size) ≤ rtAlign A (word (count * size)) := by
      by_cases hf : AlignFits A (word (count * size))
      · exact le_rtAlign hf
      · rw [rtMalloc_none (rtAlign_wraps (word_lt _) hf) (hc.resolve_left hf)] at hmalloc
        exact absurd (Prod.mk.inj (Option.some.inj hmalloc)).2.symm hnz
    rw [if_pos hnz] at hm
    obtain ⟨rfl, -⟩ := Prod.mk.inj (Option.some.inj hm)
    have hs1 := hr1.toHeapShape
    have hk : k ∈ bs1 := (List.mem_filter.mp (hperm.mem_iff.mpr List.mem_cons_self)).1
    have hkb := hs1.bounds hk
    have hplace : wordSub r h1.heapPtr = k.off + A.sizeofStructMem := by
      have hfits := hs1.fits
      rw [hq, wordSub_of_le (by unfold blockPtr; omega) (by unfold blockPtr; omega)]
      unfold blockPtr
      omega
    have hr2 := hr1.fill (m := rtMemset h1.mem (wordSub r h1.heapPtr) 0 (word (count * size)))
      (n := word (count * size)) hk (by omega) fun x hx => rtMemset_outside (hq ▸ hx)
    have hb2 : SameBounds s.heap
        { h1 with mem := rtMemset h1.mem (wordSub r h1.heapPtr) 0 (word (count * size)) } :=
      ⟨hb1.1, hb1.2.1, hb1.2.2⟩
    refine hh.same_beside hr2 hb2 hperm (fun b hbu x hlo hhi => ?_) hp
    have hbnew : b ∈ usedBlocks bs1 := hperm.mem_iff.mpr (List.mem_cons_of_mem _ hbu)
    have hne : b ≠ k := by
      rintro rfl
      exact (List.nodup_cons.mp (hperm.nodup_iff.mp hs1.usedBlocks_nodup)).1 hbu
    have hout : ¬InRange (wordSub r h1.heapPtr) (word (count * size)) x := by
      rw [hplace]
      exact hs1.data_disjoint hk (List.mem_filter.mp hbnew).1 hne (by omega) hlo hhi
    exact (rtMemset_outside hout).trans (hkeeps b hbu x hlo hhi)

theorem HeapHolds.free_same (hh : HeapHolds A s bs) (hq : q ∈ s.live) (hf : rtFree A s.heap q = some h')
    (hp : p ∈ s.live) (hne : q ≠ p) : SameBlock A s.heap h' p := by
  obtain ⟨k, hk, rfl⟩ := List.mem_map.mp (hh.2.mem_iff.mp hq)
  obtain ⟨b, hbu, rfl⟩ := List.mem_map.mp (hh.2.mem_iff.mp hp)
  obtain ⟨h1, bs', hf1, hr', hb, hperm, hkeeps⟩ := rtFree_blocks hh.1 hk
  obtain rfl := Option.some.inj (hf1.symm.trans hf)
  have hbnew : b ∈ usedBlocks bs' := by
    refine (List.mem_cons.mp (hperm.mem_iff.mp hbu)).resolve_left ?_
    rintro rfl
    exact hne rfl
  exact sameBlock_of_keeps hh.1.toHeapShape hr'.toHeapShape hb hbu hbnew (hkeeps b hbnew)

/-- A holder's own write reaches no other byte of any block. -/
theorem HeapHolds.store_keeps {offset value : Nat} (hh : HeapHolds A s bs) (hq : q ∈ s.live)
    (hin : q + offset < usableEnd A s.heap q) (hp : p ∈ s.live) (hi : p + i < usableEnd A s.heap p)
    (hother : q = p → offset ≠ i)
    (hs' : s' = { s with heap := { s.heap with
      mem := write8 s.heap.mem (q + offset - s.heap.heapPtr) value } }) : ByteKept A s s' p i := by
  obtain ⟨k, hk, rfl⟩ := List.mem_map.mp (hh.2.mem_iff.mp hq)
  obtain ⟨b, hb, rfl⟩ := List.mem_map.mp (hh.2.mem_iff.mp hp)
  have hs := hh.1.toHeapShape
  have hkin := (List.mem_filter.mp hk).1
  have hbin := (List.mem_filter.mp hb).1
  rw [hs.usableEnd_eq hkin] at hin
  rw [hs.usableEnd_eq hbin] at hi
  have hkb := hs.bounds hkin
  have hbb := hs.bounds hbin
  unfold blockPtr at hin hi
  have hplace : blockPtr A s.heap k + offset - s.heap.heapPtr = k.off + A.sizeofStructMem + offset := by
    unfold blockPtr
    omega
  have hwrite : HeapRep A { s.heap with
      mem := write8 s.heap.mem (blockPtr A s.heap k + offset - s.heap.heapPtr) value } bs := by
    rw [hplace]
    refine hh.1.write hkin fun x _ hout => if_neg ?_
    omega
  subst hs'
  refine ⟨hp, ?_, if_neg ?_⟩
  · rw [hs.usableEnd_eq hbin]
    exact hwrite.toHeapShape.usableEnd_eq hbin
  · rw [hplace]
    show blockPtr A s.heap b + i - s.heap.heapPtr ≠ _
    have hat : blockPtr A s.heap b + i - s.heap.heapPtr = b.off + A.sizeofStructMem + i := by
      unfold blockPtr
      omega
    rw [hat]
    by_cases hsame : b = k
    · subst hsame
      have := hother rfl
      omega
    · intro heq
      have hout := hs.data_disjoint hkin hbin hsame (n := offset + 1) (by omega)
        (x := b.off + A.sizeofStructMem + i) (by omega) (by omega)
      rw [heq] at hout
      refine hout ?_
      unfold InRange
      rw [wordSub_of_le (by have := hs.fits; omega) (by omega)]
      omega

theorem HeapHolds.realloc_same {newsize : Nat} (hh : HeapHolds A s bs) (hlive : q = 0 ∨ q ∈ s.live)
    (hfits : q = 0 ∨ newsize = 0 ∨ AlignFits A newsize) {r : Nat}
    (hm : rtRealloc A fuel s.heap q newsize = some (h', r)) (hp : p ∈ s.live) (hne : q ≠ p) :
    SameBlock A s.heap h' p := by
  by_cases hz : q = 0
  · subst hz
    rcases rtRealloc_null hm with ⟨-, rfl⟩ | hmalloc
    · exact hh.same_self hp
    · exact hh.malloc_same hmalloc hp
  · have hq := hlive.resolve_left hz
    by_cases hzero : newsize = 0
    · rw [hzero, rtRealloc, rtAlign_zero] at hm
      dsimp only at hm
      rw [if_neg (Nat.not_lt_zero _), if_pos rfl] at hm
      obtain ⟨h1, hf, hm⟩ := Option.bind_eq_some_iff.mp hm
      obtain ⟨rfl, -⟩ := Prod.mk.inj (Option.some.inj hm)
      exact hh.free_same hq hf hp hne
    · have hkeeps := rtRealloc_keeps hh hq hzero ((hfits.resolve_left hz).resolve_left hzero) hm
      by_cases hr : r = 0
      · exact hkeeps.failed hr p hp
      · exact (hkeeps.others hr p ((List.mem_erase_of_ne (Ne.symm hne)).mpr hp)).2

/-- One call leaves a byte that it is not about. -/
theorem heapCall_keeps {c : HeapCall} (hh : HeapHolds A s bs) (hc : CallFits A fuel s.heap c)
    (hs : heapCall A fuel s c = some s') (hp : p ∈ s.live) (hi : p + i < usableEnd A s.heap p)
    (hother : LeavesByte p i c) : ByteKept A s s' p i := by
  have hgain : ∀ (l : List Nat) (q : Nat), p ∈ l → p ∈ if q = 0 then l else q :: l := by
    intro l q hl
    split
    · exact hl
    · exact List.mem_cons_of_mem q hl
  cases c with
  | malloc size =>
    obtain ⟨⟨h1, q⟩, hm, hs⟩ := Option.bind_eq_some_iff.mp hs
    obtain rfl := Option.some.inj hs
    exact SameBlock.byteKept (hh.malloc_same hm hp) hi (hgain _ q hp)
  | calloc count size =>
    obtain ⟨⟨h1, q⟩, hm, hs⟩ := Option.bind_eq_some_iff.mp hs
    obtain rfl := Option.some.inj hs
    exact SameBlock.byteKept (hh.calloc_same hc hm hp) hi (hgain _ q hp)
  | free rmem =>
    obtain ⟨hlive, hs⟩ := Option.ite_none_right_eq_some.mp hs
    obtain ⟨h1, hf, hs⟩ := Option.bind_eq_some_iff.mp hs
    obtain rfl := Option.some.inj hs
    have hstays : p ∈ s.live.erase rmem := (List.mem_erase_of_ne (Ne.symm hother)).mpr hp
    by_cases hz : rmem = 0
    · subst hz
      obtain rfl : s.heap = h1 := by simpa [rtFree] using hf
      exact SameBlock.byteKept (hh.same_self hp) hi hstays
    · exact SameBlock.byteKept (hh.free_same (hlive.resolve_left hz) hf hp hother) hi hstays
  | realloc rmem newsize =>
    obtain ⟨hlive, hs⟩ := Option.ite_none_right_eq_some.mp hs
    obtain ⟨⟨h1, q⟩, hm, hs⟩ := Option.bind_eq_some_iff.mp hs
    obtain rfl := Option.some.inj hs
    have hstays : p ∈ s.live.erase rmem := (List.mem_erase_of_ne (Ne.symm hother)).mpr hp
    refine SameBlock.byteKept (hh.realloc_same hlive hc hm hp hother) hi ?_
    show p ∈ if newsize.toNat = 0 then _ else _
    split
    · exact hstays
    · split
      · exact hp
      · exact List.mem_cons_of_mem q hstays
  | store rmem offset value =>
    obtain ⟨hin, hs⟩ := Option.ite_none_right_eq_some.mp hs
    exact hh.store_keeps hin.1 hin.2 hp hi hother (Option.some.inj hs).symm

end

/-- Two blocks and both given back, the lower one first. -/
def twoBlocksFreed : HeapState :=
  (heapRun align8 clearedMemory 4096 4608
    [(8, .malloc 100), (8, .malloc 40), (8, .free 4112), (8, .free 4232)]).get (by decide +kernel)

end RTThread
