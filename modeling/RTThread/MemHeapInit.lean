import RTThread.MemHeapRealloc
import RTThread.Runs

namespace RTThread

section
variable {A : AlignSize} {m m' : Memory} {self fh a size : Nat}

theorem blockLinks_fill {x mg pp e p : Nat} (h1 : mg < 4294967296) (h2 : pp < 4294967296)
    (h3 : e < 4294967296) (h4 : p < 4294967296) :
    blockLinks (setItem (setItem (setItem (setItem m .magic x mg) .poolPtr x pp) .next x e) .prev x p) x =
      ⟨⟨mg, pp⟩, e, p⟩ := by
  rw [blockLinks_setPrev h4, blockLinks_setNext h3, blockLinks_setPoolPtr h2, blockLinks_setMagic h1]

/-- Four fields of an item are written. -/
theorem fill_item {x y mg pp e p : Nat} (hxy : Beside x y) (hne : x ≠ y) :
    SameLinks m (setItem (setItem (setItem (setItem m .magic x mg) .poolPtr x pp) .next x e) .prev x p) y :=
  (((sameLinks_item hxy hne).trans (sameLinks_item hxy hne)).trans (sameLinks_item hxy hne)).trans
    (sameLinks_item hxy hne)

theorem fill_free {x y mg pp e p : Nat} (hxy : Beside x y) :
    SameFree m (setItem (setItem (setItem (setItem m .magic x mg) .poolPtr x pp) .next x e) .prev x p) y :=
  (((sameFree_field hxy (by decide) (by decide)).trans (sameFree_field hxy (by decide) (by decide))).trans
    (sameFree_field hxy (by decide) (by decide))).trans (sameFree_field hxy (by decide) (by decide))

theorem initBlocks_spec {T available : Nat} (hfa : Beside fh a) (hft : Beside fh T) (hat : Beside a T)
    (hne : fh ≠ a ∧ fh ≠ T ∧ a ≠ T) (hfh : fh < 4294967296) (ha : a < 4294967296)
    (hself : self < 4294967296) (hT : T < 4294967296) (hend : word (a + available + A.memheapSize) = T) :
    blockLinks (initBlocks A m self fh a available) a = ⟨memTag self false, T, T⟩ ∧
    blockLinks (initBlocks A m self fh a available) T = ⟨memTag self true, a, a⟩ ∧
    FreeRing (initBlocks A m self fh a available) fh [a] := by
  obtain ⟨h1, h2, h3⟩ := hne
  have hmagic : memheapMagic < 4294967296 := by decide
  have hused : memheapMagic ||| memheapUsed < 4294967296 := by decide
  have hzero : 0 < 4294967296 := by decide
  -- the header of the free list
  obtain ⟨mA, hA⟩ : ∃ mA, mA = setItem (setItem (setItem (setItem m .magic fh memheapMagic)
    .poolPtr fh self) .next fh 0) .prev fh 0 := ⟨_, rfl⟩
  obtain ⟨mB, hB⟩ : ∃ mB, mB = setItem (setItem mA .nextFree fh fh) .prevFree fh fh := ⟨_, rfl⟩
  have hringB : getItem mB .nextFree fh = fh ∧ getItem mB .prevFree fh = fh := by
    rw [hB]
    exact ⟨(getItem_setItem_field (Or.inl rfl) (by decide)).trans (getItem_setItem_self hfh),
      getItem_setItem_self hfh⟩
  -- the first block
  obtain ⟨mC, hC⟩ : ∃ mC, mC = setItem (setItem (setItem (setItem mB .magic a memheapMagic)
    .poolPtr a self) .next a 0) .prev a 0 := ⟨_, rfl⟩
  have hlinksC : blockLinks mC a = ⟨⟨memheapMagic, self⟩, 0, 0⟩ := by
    rw [hC]
    exact blockLinks_fill hmagic hself hzero hzero
  obtain ⟨mD, hD⟩ : ∃ mD, mD = setItem (setItem mC .nextFree a a) .prevFree a a := ⟨_, rfl⟩
  have hlinksD : blockLinks mD a = ⟨⟨memheapMagic, self⟩, 0, 0⟩ := by
    have hsame : SameLinks mC mD a := by
      rw [hD]
      exact (sameLinks_free (Or.inl rfl) (Or.inl rfl)).trans
        (sameLinks_free (Or.inl rfl) (Or.inr rfl))
    exact Eq.trans hsame hlinksC
  obtain ⟨mF, hF⟩ : ∃ mF, mF = setItem (setItem mD .next a T) .prev a T := ⟨_, rfl⟩
  have hlinksF : blockLinks mF a = ⟨⟨memheapMagic, self⟩, T, T⟩ := by
    rw [hF, blockLinks_setPrev hT, blockLinks_setNext hT, hlinksD]
  have hringF : FreeRing mF fh [] := by
    have hsame : SameFree mB mF fh := by
      have hCs : SameFree mB mC fh := by
        rw [hC]
        exact fill_free hfa.symm
      have hDs : SameFree mC mD fh := by
        rw [hD]
        exact (sameFree_item hfa.symm (Ne.symm h1)).trans (sameFree_item hfa.symm (Ne.symm h1))
      have hFs : SameFree mD mF fh := by
        rw [hF]
        exact (sameFree_field hfa.symm (by decide) (by decide)).trans
          (sameFree_field hfa.symm (by decide) (by decide))
      exact (hCs.trans hDs).trans hFs
    exact ⟨⟨hsame.1.trans hringB.1, hsame.2.trans hringB.2⟩, by simp⟩
  have hplaced : AllPlaced (fh :: a :: []) := by
    intro x hx y hy
    simp only [List.mem_cons, List.not_mem_nil, or_false] at hx hy
    rcases hx with rfl | rfl <;> rcases hy with rfl | rfl
    · exact Or.inl rfl
    · exact hfa
    · exact hfa.symm
    · exact Or.inl rfl
  obtain ⟨hringG, hkeptG⟩ := insertFree_spec hringF hplaced (by simpa using Ne.symm h1) ha hfh
  have hlinksG : blockLinks (insertFree mF fh a) a = ⟨⟨memheapMagic, self⟩, T, T⟩ := by
    refine Eq.trans (hkeptG a fun y hy => ?_) hlinksF
    exact hplaced y hy a (by simp)
  generalize hG : insertFree mF fh a = mG at hringG hlinksG
  have hnextG : getItem mG .next a = T := congrArg Links.next hlinksG
  -- the tail
  obtain ⟨mH, hH⟩ : ∃ mH, mH = setItem (setItem (setItem (setItem mG .magic T
    (memheapMagic ||| memheapUsed)) .poolPtr T self) .next T a) .prev T a := ⟨_, rfl⟩
  have hall : initBlocks A m self fh a available = setItem (setItem mH .prevFree T 0) .nextFree T 0 := by
    have hnextF : getItem (setItem mD .next a T) .next a = T := getItem_setItem_self hT
    unfold initBlocks
    simp only
    rw [← hA, ← hB, ← hC, ← hD, hend, hnextF, ← hF, hG, hnextG, ← hH]
  rw [hall]
  refine ⟨?_, ?_, hringG.congr fun x hx => ?_⟩
  · have hsame : SameLinks mG mH a := by
      rw [hH]
      exact fill_item hat.symm (Ne.symm h3)
    have hlast : SameLinks mH (setItem (setItem mH .prevFree T 0) .nextFree T 0) a :=
      (sameLinks_item hat.symm (Ne.symm h3)).trans (sameLinks_item hat.symm (Ne.symm h3))
    exact (Eq.trans (hsame.trans hlast) hlinksG)
  · have hlast : SameLinks mH (setItem (setItem mH .prevFree T 0) .nextFree T 0) T :=
      (sameLinks_free (Or.inl rfl) (Or.inr rfl)).trans (sameLinks_free (Or.inl rfl) (Or.inl rfl))
    refine Eq.trans hlast ?_
    rw [hH]
    exact blockLinks_fill hused hself ha ha
  · have hTx : Beside T x ∧ T ≠ x := by
      simp only [List.mem_cons, List.not_mem_nil, or_false] at hx
      rcases hx with rfl | rfl
      · exact ⟨hft.symm, Ne.symm h2⟩
      · exact ⟨hat.symm, Ne.symm h3⟩
    have hfill : SameFree mG mH x := by
      rw [hH]
      exact fill_free hTx.1
    exact hfill.trans ((sameFree_item hTx.1 hTx.2).trans (sameFree_item hTx.1 hTx.2))

/-- The pool and the header of the free list are different pieces of the memory. -/
structure PoolPlaced (memheap freeHeader startAddr size : Nat) : Prop where
  start : 0 < startAddr
  fits : startAddr + size ≤ 4294967296
  header : freeHeader + sizeofMemheapItem ≤ startAddr ∨ startAddr + size ≤ freeHeader
  headerFits : freeHeader + sizeofMemheapItem ≤ 4294967296
  address : memheap < 4294967296

/-- A pool that holds two items begins as one free block. -/
theorem rtMemheapInit_spec (hp : PoolPlaced self fh a size)
    (hbig : 2 * A.memheapSize ≤ rtAlignDown A size) :
    ∃ k, memBlockFree k = true ∧
      MemHeapRep A (rtMemheapInit A m self fh a size) [k] [k.off] := by
  have hW := memheapSize_ge A
  have hitem : sizeofMemheapItem = 24 := rfl
  have hsize : size < 4294967296 := by
    have := hp.fits
    have := hp.start
    omega
  have hdown : rtAlignDown A size ≤ size := by
    rw [rtAlignDown_eq A hsize]
    exact Nat.div_mul_le_self _ _
  obtain ⟨hstart, hfits, hheader, hheaderFits, hself⟩ := hp
  generalize hh : rtMemheapInit A m self fh a size = h
  have hpool : h.poolSize = rtAlignDown A size := by
    rw [← hh]
    rfl
  have havailable : h.availableSize = rtAlignDown A size - 2 * A.memheapSize := by
    have he : h.availableSize = wordSub (rtAlignDown A size) (2 * A.memheapSize) := by
      rw [← hh]
      rfl
    rw [he, wordSub_of_le (by omega) hbig]
  have hfields : h.self = self ∧ h.freeHeader = fh ∧ h.startAddr = a ∧ h.freeList = fh := by
    rw [← hh]
    exact ⟨rfl, rfl, rfl, rfl⟩
  obtain ⟨e1, e2, e3, e4⟩ := hfields
  have harena : MemArena A h := by
    refine ⟨?_, ?_, ?_, ?_, ?_, ?_, ?_⟩ <;> omega
  have htail : h.tail A = a + (rtAlignDown A size - 2 * A.memheapSize) + A.memheapSize := by
    unfold MemHeap.tail
    omega
  have hmem : h.mem = initBlocks A m self fh a (rtAlignDown A size - 2 * A.memheapSize) := by
    have he : h.mem = initBlocks A m self fh a (wordSub (rtAlignDown A size) (2 * A.memheapSize)) := by
      rw [← hh]
      rfl
    rw [he, wordSub_of_le (by omega) hbig]
  have hft : Beside fh (h.tail A) := by unfold Beside; omega
  have hfa : Beside fh a := by unfold Beside; omega
  have hat : Beside a (h.tail A) := placed_of_le (by omega)
  obtain ⟨hfirst, hlast, hring⟩ := initBlocks_spec (A := A) (m := m)
    hfa hft hat ⟨by omega, by omega, by omega⟩ (by omega) (by omega) hself (by omega)
    ((word_of_lt (by omega)).trans htail.symm)
  rw [← hmem] at hfirst hlast hring
  let k : MemBlock := ⟨a, h.tail A, memTag self false⟩
  have hk : memBlockFree k = true := memBlockFree_tag
  refine ⟨k, hk, harena, ⟨⟨e3.symm, ?_, ?_, rfl⟩, ?_, ?_, ?_, ?_⟩, ?_, List.isChain_singleton k, ?_, ?_⟩
  · rw [e3]
    exact hfirst
  · rw [e3]
    show a + A.memheapSize ≤ h.tail A
    omega
  · rw [hlast, e1, e3]
    rfl
  · intro n hn
    obtain rfl := List.mem_singleton.mp hn
    rw [e1]
    exact Or.inr rfl
  · rw [e2]
    exact hring
  · intro x hx y hy
    simp only [List.map_cons, List.map_nil, List.cons_append, List.nil_append, List.mem_cons,
      List.not_mem_nil, or_false, e2] at hx hy
    have hin : ∀ x, x = fh ∨ x = h.tail A ∨ x = k.off ∨ x = k.off →
        x = fh ∨ x = h.tail A ∨ x = a := by
      intro x hx
      tauto
    have hsym := hft.symm
    rcases hin x hx with rfl | rfl | rfl <;> rcases hin y hy with rfl | rfl | rfl
    · exact Or.inl rfl
    · exact hft
    · exact hfa
    · exact hft.symm
    · exact Or.inl rfl
    · exact hat.symm
    · exact hfa.symm
    · exact hat
    · exact Or.inl rfl
  · rw [freeOffs_free hk]
    exact List.Perm.refl _
  · rw [freeBytes_free hk, havailable]
    show _ = h.tail A - a - A.memheapSize + 0
    omega
  · intro n hn hused
    obtain rfl := List.mem_singleton.mp hn
    rw [hk] at hused
    cases hused

end

end RTThread
