import RTThread.FinshHeapFree

namespace RTThread

section
variable {P : FinshPlace} {s s' : FinshHeap} {bs ls rs : List FinshBlock} {b : FinshBlock}
  {vars : FinshVars} {size x : Nat}

theorem FinshHeapRep.gc (h : FinshHeapRep P s bs) (vars : FinshVars) :
    ∃ s' bs', finshHeapGc s vars = some s' ∧ FinshHeapRep P s' bs' ∧
      blocksUsed bs' = (blocksUsed bs).filter fun b => heldByVariable vars b.addr := by
  have hhead : s.allocateList = (addrs (blocksUsed bs)).headD 0 := by
    have hused := h.used
    cases hl : addrs (blocksUsed bs) with
    | nil =>
      rw [hl] at hused
      exact nodeList_nil.mp hused
    | cons x xs =>
      rw [hl] at hused
      exact (nodeList_cons.mp hused).1
  have hturns : (blocksUsed bs).length < walkTurns := by
    simpa [addrs] using h.used_lt_walkTurns
  unfold finshHeapGc
  rw [hhead]
  have hall : blocksUsed bs = [] ++ blocksUsed bs := rfl
  exact h.gcFrom hall hturns

/-- A search of the free list ends, at a free block that is long enough or at null. -/
theorem FinshHeapShape.search (h : FinshHeapShape P s bs) (stop : Nat → Bool) :
    walkBlocks s.mem stop s.freeList = some 0 ∨
      ∃ ls b rs, bs = ls ++ b :: rs ∧ b.free = true ∧ stop b.addr = true ∧
        walkBlocks s.mem stop s.freeList = some b.addr := by
  unfold walkBlocks
  rw [h.free.scan_eq h.free_lt_walkTurns]
  cases hfind : (addrs (blocksFree bs)).find? stop with
  | none => exact Or.inl rfl
  | some x =>
    right
    obtain ⟨b, hb, rfl⟩ := List.mem_map.mp (List.mem_of_find?_eq_some hfind)
    obtain ⟨hbs, hbf⟩ := mem_blocksFree.mp hb
    obtain ⟨ls, rs, rfl⟩ := List.append_of_mem hbs
    exact ⟨ls, b, rs, rfl, hbf, List.find?_some hfind, rfl⟩

theorem FinshHeapRep.findFit (h : FinshHeapRep P s bs) (vars : FinshVars)
    (hsize : size + blockHeader < 4294967296) :
    ∃ x s' bs', findFit s vars size = some (x, s') ∧ FinshHeapRep P s' bs' ∧
      blocksUsed bs' = (if firstFit s size = some 0 then
        (blocksUsed bs).filter fun b => heldByVariable vars b.addr else blocksUsed bs) ∧
      (x = 0 ∨ ∃ ls b rs, bs' = ls ++ b :: rs ∧ b.free = true ∧ b.addr = x ∧
        size + blockHeader ≤ b.len) := by
  have hword := word_of_lt hsize
  unfold RTThread.findFit
  rcases h.search (fun x => ¬blockLength s.mem x ≤ word (size + blockHeader)) with
    hnone | ⟨ls, b, rs, rfl, hbf, hstop, hsome⟩
  · have hfirst : firstFit s size = some 0 := hnone
    rw [hfirst]
    obtain ⟨s', bs', hgc, hrep, hused⟩ := h.gc vars
    simp only [Option.bind_eq_bind, Option.bind_some, ne_eq, not_true_eq_false, if_false, hgc,
      if_true]
    rcases hrep.search (fun x => ¬blockLength s'.mem x < word (size + blockHeader)) with
      hnone | ⟨ls, b, rs, rfl, hbf, hstop, hsome⟩
    · exact ⟨0, s', bs', by rw [hnone]; rfl, hrep, hused, Or.inl rfl⟩
    · refine ⟨b.addr, s', _, by rw [hsome]; rfl, hrep, hused, Or.inr ⟨ls, b, rs, rfl, hbf, rfl, ?_⟩⟩
      rw [hrep.lengths b (by simp), hword] at hstop
      simpa using hstop
  · have hfirst : firstFit s size = some b.addr := hsome
    have hb0 : b.addr ≠ 0 := h.tiles.headers.pos _ (isHeader_append_cons.mpr (by simp))
    rw [hfirst]
    simp only [Option.bind_eq_bind, Option.bind_some, ne_eq, hb0, not_false_eq_true, if_true,
      Option.some.injEq, if_false]
    refine ⟨b.addr, s, _, rfl, h, rfl, Or.inr ⟨ls, b, rs, rfl, hbf, rfl, ?_⟩⟩
    rw [h.lengths b (by simp), hword] at hstop
    have : size + blockHeader < b.len := by simpa using hstop
    omega

/-- The two blocks a block is cut into. -/
def frontBlock (b : FinshBlock) (size : Nat) (f : Bool) : FinshBlock := ⟨b.addr, size, f⟩

def backBlock (b : FinshBlock) (size : Nat) : FinshBlock :=
  ⟨b.addr + blockHeader + size, b.len - blockHeader - size, true⟩

/-- Both parts of a block that is cut are on the free list. -/
theorem FinshHeapShape.split (h : FinshHeapShape P s (ls ++ b :: rs)) (hb : b.free = true)
    (hsize : size + blockHeader ≤ b.len) :
    FinshHeapShape P ⟨finshBlockSplit s.mem b.addr size, s.freeList, s.allocateList⟩
      (ls ++ frontBlock b size true :: backBlock b size :: rs) := by
  have ht : BlockTiles P.addr (ls ++ frontBlock b size true :: backBlock b size :: rs)
      (P.addr + finshHeapMax) := h.tiles.split hsize
  have H := ht.headers
  have hfits := P.fits
  have hstop := (h.tiles.bounds (List.mem_append_right ls List.mem_cons_self)).2
  have hlen := h.lengths b (by simp)
  have hblt := blockLength_lt s.mem b.addr
  have hb0 := h.tiles.headers.pos b.addr (isHeader_append_cons.mpr (by simp))
  simp only [FinshBlock.stop] at hstop
  have hq : word (b.addr + blockHeader + size) = (backBlock b size).addr := by
    apply word_of_lt
    omega
  have hrest : wordSub (wordSub (blockLength s.mem b.addr) blockHeader) size =
      (backBlock b size).len := by
    rw [wordSub_of_le hblt (by omega), wordSub_of_le (by omega) (by omega), hlen]
    rfl
  have hqlt : (backBlock b size).addr < 4294967296 := hq ▸ word_lt _
  have hlenlt : (backBlock b size).len < 4294967296 := by
    have : (backBlock b size).len ≤ b.len := by
      unfold backBlock
      simp only
      omega
    omega
  have hbh : IsHeader (ls ++ frontBlock b size true :: backBlock b size :: rs) b.addr :=
    isHeader_append_cons.mpr (Or.inr (Or.inl rfl))
  have hqh : IsHeader (ls ++ frontBlock b size true :: backBlock b size :: rs)
      (backBlock b size).addr := by
    unfold IsHeader
    simp
  have hne : (backBlock b size).addr ≠ b.addr := by
    unfold backBlock blockHeader
    simp only
    omega
  have hlinks : ∀ x, IsHeader (ls ++ frontBlock b size true :: backBlock b size :: rs) x →
      blockNext (finshBlockSplit s.mem b.addr size) x = if x = b.addr then (backBlock b size).addr
        else if x = (backBlock b size).addr then blockNext s.mem b.addr else blockNext s.mem x := by
    intro x hx
    unfold finshBlockSplit
    simp only [hq, hrest]
    rw [blockNext_setBlockNext (H.sep _ _ hx hbh), word_of_lt hqlt,
      blockNext_setBlockNext (H.sep _ _ hx hqh), word_of_lt (blockNext_lt _ _)]
    rw [blockNext_setLength (H.sep _ _ hbh hbh), blockNext_setLength (H.sep _ _ hbh hqh),
      blockNext_setLength (H.sep _ _ hx hbh), blockNext_setLength (H.sep _ _ hx hqh)]
  have hlengths : ∀ x, IsHeader (ls ++ frontBlock b size true :: backBlock b size :: rs) x →
      blockLength (finshBlockSplit s.mem b.addr size) x = if x = b.addr then size
        else if x = (backBlock b size).addr then (backBlock b size).len
        else blockLength s.mem x := by
    intro x hx
    unfold finshBlockSplit
    simp only [hq, hrest]
    rw [blockLength_setBlockNext (H.sep _ _ hx hbh), blockLength_setBlockNext (H.sep _ _ hx hqh),
      blockLength_setLength (H.sep _ _ hx hbh), blockLength_setLength (H.sep _ _ hx hqh),
      word_of_lt (show size < 4294967296 by omega), word_of_lt hlenlt]
  refine ⟨ht, fun c hc => ?_, ?_, ?_⟩
  · rw [hlengths c.addr (List.mem_map_of_mem hc)]
    split
    next heq => rw [ht.eq_of_addr hc (by simp) heq (c := frontBlock b size true)]; rfl
    next hnb =>
      split
      next heq => rw [ht.eq_of_addr hc (by simp) heq (c := backBlock b size)]
      next hnq =>
        apply h.lengths
        simp only [List.mem_append, List.mem_cons] at hc ⊢
        rcases hc with hc | rfl | rfl | hc
        · exact Or.inl hc
        · exact absurd rfl hnb
        · exact absurd rfl hnq
        · exact Or.inr (Or.inr hc)
  · have hfree := h.free
    simp only [blocksFree_append, blocksFree_cons, hb, if_true, addrs_append, addrs_cons] at hfree
    have hnext := hfree.next_eq
    have hascend := ht.ascending
    have hqnot : (backBlock b size).addr ∉ addrs (blocksFree ls) ++
        b.addr :: addrs (blocksFree rs) := by
      intro hmem
      have ht' : BlockTiles P.addr ((ls ++ [frontBlock b size true]) ++ backBlock b size :: rs)
          (P.addr + finshHeapMax) := by simpa using ht
      obtain ⟨hbelow, habove⟩ := ht'.around
      rcases List.mem_append.mp hmem with hmem | hmem
      · exact lt_irrefl _ (hbelow _ (by simp [addrs_free_sub hmem]))
      · rcases List.mem_cons.mp hmem with heq | hmem
        · exact hne heq
        · exact lt_irrefl _ (habove _ (addrs_free_sub hmem))
    have hfree' : NodeList (Function.update (blockNext s.mem) (backBlock b size).addr
        (blockNext s.mem b.addr)) 0 s.freeList
        (addrs (blocksFree ls) ++ b.addr :: addrs (blocksFree rs)) :=
      hfree.congr fun x hx => Function.update_of_ne (ne_of_mem_of_not_mem hx hqnot) ..
    have hins := hfree'.insert (H.pos _ hqh) hqnot (by rw [Function.update_self, hnext])
    have hgoal : addrs (blocksFree (ls ++ frontBlock b size true :: backBlock b size :: rs)) =
        addrs (blocksFree ls) ++ b.addr :: (backBlock b size).addr :: addrs (blocksFree rs) := by
      simp [blocksFree_cons, frontBlock, backBlock]
    rw [hgoal]
    apply hins.congr
    intro x hx
    rw [hlinks x (isHeader_of_free (hgoal ▸ hx))]
    by_cases hxb : x = b.addr
    · simp [hxb]
    · rw [if_neg hxb, Function.update_of_ne hxb]
      by_cases hxq : x = (backBlock b size).addr
      · simp [hxq]
      · rw [if_neg hxq, Function.update_of_ne hxq]
  · have hused := h.used
    have hgoal : addrs (blocksUsed (ls ++ frontBlock b size true :: backBlock b size :: rs)) =
        addrs (blocksUsed (ls ++ b :: rs)) := by
      simp [blocksUsed_cons, frontBlock, backBlock, hb]
    rw [hgoal]
    apply hused.congr
    intro x hx
    have hxu : x ∈ addrs (blocksUsed (ls ++ frontBlock b size true :: backBlock b size :: rs)) :=
      hgoal ▸ hx
    have hnotfree := used_not_free ht hxu
    rw [hlinks x (isHeader_of_used hxu), if_neg, if_neg]
    · rintro rfl
      exact hnotfree (by simp [blocksFree_cons, frontBlock, backBlock])
    · rintro rfl
      exact hnotfree (by simp [blocksFree_cons, frontBlock, backBlock])

/-- What is written into the data of a block does not reach a header. -/
theorem FinshHeapShape.data_written {m : Memory} (h : FinshHeapShape P s bs) (hb : b ∈ bs)
    (hm : ∀ i < 4294967296, i < b.addr + blockHeader ∨ b.stop ≤ i → m.byte i = s.mem.byte i) :
    FinshHeapShape P ⟨m, s.freeList, s.allocateList⟩ bs := by
  have hfits := P.fits
  have hout : ∀ x, IsHeader bs x → ∀ i, x ≤ i → i < x + blockHeader → m.byte i = s.mem.byte i := by
    intro x hx i hi hix
    obtain ⟨c, hc, rfl⟩ := List.mem_map.mp hx
    have hcstop := (h.tiles.bounds hc).2
    have hsep : c.addr = b.addr ∨ c.stop ≤ b.addr ∨ b.stop ≤ c.addr := by
      obtain ⟨as, cs, rfl⟩ := List.append_of_mem hb
      obtain ⟨-, hcons, hcross⟩ := List.pairwise_append.mp h.tiles.pairwise
      simp only [List.mem_append, List.mem_cons] at hc
      rcases hc with hc | rfl | hc
      · exact Or.inr (Or.inl (hcross c hc b List.mem_cons_self))
      · exact Or.inl rfl
      · exact Or.inr (Or.inr ((List.pairwise_cons.mp hcons).1 c hc))
    simp only [FinshBlock.stop] at hsep hcstop hm
    apply hm i (by omega)
    omega
  have hnext : ∀ x, IsHeader bs x → blockNext m x = blockNext s.mem x := fun x hx =>
    read32_congr fun i hi hix => hout x hx i (by omega) (by unfold blockHeader; omega)
  refine ⟨h.tiles, fun c hc => ?_, ?_, ?_⟩
  · have hlen := h.lengths c hc
    rw [← hlen]
    exact read32_congr fun i hi hix =>
      hout c.addr (List.mem_map_of_mem hc) i hi (by unfold blockHeader; omega)
  · exact h.free.congr fun x hx => hnext x (isHeader_of_free hx)
  · exact h.used.congr fun x hx => hnext x (isHeader_of_used hx)

theorem FinshHeapShape.memset (h : FinshHeapShape P s bs) (hb : b ∈ bs) (hsize : size ≤ b.len) :
    FinshHeapShape P ⟨rtMemset s.mem (blockGetData b.addr) 0 size, s.freeList, s.allocateList⟩ bs := by
  have hfits := P.fits
  have hstop := (h.tiles.bounds hb).2
  simp only [FinshBlock.stop] at hstop
  have hdata : blockGetData b.addr = b.addr + blockHeader := word_of_lt (by omega)
  apply h.data_written hb
  intro i hi hout
  simp only [FinshBlock.stop] at hout
  apply rtMemset_outside
  rw [hdata]
  exact not_inRange hi (by omega) (by omega)

/-- A free block is taken from the free list and linked into the allocate list. -/
theorem FinshHeapShape.take (h : FinshHeapShape P s (ls ++ b :: rs)) (hb : b.free = true) :
    ∃ freeList m1 allocateList m2, finshBlockRemove s.mem s.freeList b.addr = some (freeList, m1) ∧
      finshBlockInsert (setBlockNext m1 b.addr 0) s.allocateList b.addr = some (allocateList, m2) ∧
      FinshHeapShape P ⟨m2, freeList, allocateList⟩ (ls ++ { b with free := false } :: rs) := by
  have H := h.tiles.headers
  have hbh : IsHeader (ls ++ b :: rs) b.addr := isHeader_append_cons.mpr (by simp)
  obtain ⟨hbelow, habove⟩ := h.tiles.around
  have hfree := h.free
  have hused := h.used
  have hfreelen := h.free_lt_walkTurns
  have husedlen := h.used_lt_walkTurns
  have hfreein : ∀ x ∈ addrs (blocksFree (ls ++ b :: rs)), IsHeader (ls ++ b :: rs) x :=
    fun x hx => isHeader_of_free hx
  have husedin : ∀ x ∈ addrs (blocksUsed (ls ++ b :: rs)), IsHeader (ls ++ b :: rs) x :=
    fun x hx => isHeader_of_used hx
  have hdisj : ∀ x ∈ addrs (blocksUsed (ls ++ b :: rs)), x ∉ addrs (blocksFree (ls ++ b :: rs)) :=
    fun x hx => used_not_free h.tiles hx
  simp only [blocksFree_append, blocksFree_cons, hb, if_true, addrs_append, addrs_cons]
    at hfree hfreelen hfreein
  simp only [blocksUsed_append, blocksUsed_cons, hb, if_true, addrs_append]
    at hused husedlen husedin
  simp only [blocksUsed_append, blocksUsed_cons, blocksFree_append, blocksFree_cons, hb, if_true,
    addrs_append, addrs_cons] at hdisj
  obtain ⟨freeList, m1, hremove, hfree1, hk1⟩ := finshBlockRemove_spec H hfree hfreein hfreelen
  have hk1' := hk1.trans (H.set hbh (m := m1) (v := 0))
  have hbnot : b.addr ∉ addrs (blocksFree ls) ++ addrs (blocksFree rs) := by
    intro hmem
    rcases List.mem_append.mp hmem with hmem | hmem
    · exact lt_irrefl _ (hbelow _ (addrs_free_sub hmem))
    · exact lt_irrefl _ (habove _ (addrs_free_sub hmem))
  have hsub : ∀ x ∈ addrs (blocksFree ls) ++ addrs (blocksFree rs), IsHeader (ls ++ b :: rs) x := by
    intro x hx
    apply hfreein
    simp only [List.mem_append, List.mem_cons] at hx ⊢
    tauto
  have hfree2 : NodeList (blockNext (setBlockNext m1 b.addr 0)) 0 freeList
      (addrs (blocksFree ls) ++ addrs (blocksFree rs)) :=
    (H.set hbh).nodeList hsub (fun x hx hxb => hbnot (List.mem_singleton.mp hxb ▸ hx)) hfree1
  have hused1 : NodeList (blockNext (setBlockNext m1 b.addr 0)) 0 s.allocateList
      (addrs (blocksUsed ls) ++ addrs (blocksUsed rs)) := by
    refine hk1'.nodeList husedin (fun x hx hch => hdisj x hx ?_) hused
    simp only [List.mem_append, List.mem_cons, List.not_mem_nil, or_false] at hch ⊢
    tauto
  have hnull : blockNext (setBlockNext m1 b.addr 0) b.addr = 0 := by
    rw [blockNext_setBlockNext (Or.inl rfl), if_pos rfl]
    rfl
  obtain ⟨allocateList, m2, hinsert, hused2, hk2⟩ := finshBlockInsert_spec H hused1 husedin hbh
    (fun x hx => hbelow x (addrs_used_sub hx)) (fun x hx => habove x (addrs_used_sub hx))
    (Or.inr hnull) husedlen
  refine ⟨freeList, m1, allocateList, m2, hremove, hinsert, h.tiles.retag, fun c hc => ?_, ?_, ?_⟩
  · obtain ⟨d, hd, hda, hdl⟩ : ∃ d ∈ ls ++ b :: rs, d.addr = c.addr ∧ d.len = c.len := by
      simp only [List.mem_append, List.mem_cons] at hc
      rcases hc with hc | rfl | hc
      · exact ⟨c, by simp [hc], rfl, rfl⟩
      · exact ⟨b, by simp, rfl, rfl⟩
      · exact ⟨c, by simp [hc], rfl, rfl⟩
    have hdh : IsHeader (ls ++ b :: rs) d.addr := List.mem_map_of_mem hd
    rw [← hda, ← hdl]
    exact ((hk2 _ hdh).1.trans (hk1' _ hdh).1).trans (h.lengths d hd)
  · have hfree3 : NodeList (blockNext m2) 0 freeList
        (addrs (blocksFree ls) ++ addrs (blocksFree rs)) := by
      refine hk2.nodeList hsub (fun x hx hch => ?_) hfree2
      rcases List.mem_append.mp hch with hch | hch
      · refine hdisj x (List.mem_append_left _ hch) ?_
        simp only [List.mem_append, List.mem_cons] at hx ⊢
        tauto
      · exact hbnot (List.mem_singleton.mp hch ▸ hx)
    simpa [blocksFree_cons] using hfree3
  · simpa [blocksUsed_cons] using hused2

/-- An allocation keeps the invariant. It answers null or the data of a block that was not in use;
the blocks in use before, less those collected, stay in use. -/
theorem FinshHeapRep.allocate (h : FinshHeapRep P s bs) (vars : FinshVars)
    (hsize : heapAlignSize size + blockHeader < 4294967296) :
    ∃ ptr s' bs' us, finshHeapAllocate s vars size = some (ptr, s') ∧ FinshHeapRep P s' bs' ∧
      us = (if firstFit s (heapAlignSize size) = some 0 then
        (blocksUsed bs).filter fun b => heldByVariable vars b.addr else blocksUsed bs) ∧
      ((ptr = 0 ∧ blocksUsed bs' = us) ∨ ∃ ls rs x, us = ls ++ rs ∧
        blocksUsed bs' = ls ++ ⟨x, heapAlignSize size, false⟩ :: rs ∧ ptr = blockGetData x) := by
  obtain ⟨x, s1, bs1, hfind, hrep, hused, hx⟩ := h.findFit vars hsize
  unfold finshHeapAllocate
  simp only [Option.bind_eq_bind, hfind, Option.bind_some]
  rcases hx with rfl | ⟨ls, b, rs, rfl, hb, rfl, hlen⟩
  · exact ⟨0, s1, bs1, _, rfl, hrep, rfl, Or.inl ⟨rfl, hused⟩⟩
  · generalize heapAlignSize size = n at *
    have hb0 : b.addr ≠ 0 := hrep.tiles.headers.pos _ (isHeader_append_cons.mpr (by simp))
    obtain ⟨hl, hr, hsides⟩ := freeApart_around.mp hrep.apart
    rw [if_neg hb0]
    obtain ⟨freeList, m1, allocateList, m2, hremove, hinsert, htaken⟩ :=
      (hrep.split hb hlen).take (b := frontBlock b n true) rfl
    have hremove' : finshBlockRemove (finshBlockSplit s1.mem b.addr n) s1.freeList b.addr =
        some (freeList, m1) := hremove
    have hinsert' : finshBlockInsert (setBlockNext m1 b.addr 0) s1.allocateList b.addr =
        some (allocateList, m2) := hinsert
    rw [hremove']
    simp only [Option.bind_some, hinsert']
    have hshape := htaken.memset (b := frontBlock b n false) (by simp [frontBlock]) le_rfl
    refine ⟨_, _, _, _, rfl, ⟨hshape, ?_, ?_⟩, rfl, Or.inr ⟨blocksUsed ls, blocksUsed rs, b.addr,
      ?_, ?_, rfl⟩⟩
    · refine freeApart_around.mpr ⟨hl, List.isChain_cons.mpr ⟨fun q hq hcon => ?_, hr⟩,
        fun hcon => absurd hcon Bool.false_ne_true⟩
      rw [(hsides hb).2 q hq] at hcon
      exact Bool.false_ne_true hcon.2
    · apply lastFree_append_cons.mpr
      right
      apply lastFree_cons.mpr
      rcases lastFree_append_cons.mp hrep.last with ⟨hnil, -⟩ | hlast
      · exact Or.inl ⟨hnil, rfl⟩
      · exact Or.inr hlast
    · rw [← hused]
      simp [blocksUsed_cons, hb]
    · simp [blocksUsed_cons, frontBlock, backBlock]

end

end RTThread
