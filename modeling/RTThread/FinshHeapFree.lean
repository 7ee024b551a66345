import RTThread.FinshHeapInvariant

namespace RTThread

section
variable {P : FinshPlace} {s s' : FinshHeap} {as bs cs ks ls rs : List FinshBlock}
  {b c : FinshBlock} {x : Nat}

theorem blocksFree_of_all (h : ∀ k ∈ ks, k.free = true) : blocksFree ks = ks :=
  List.filter_eq_self.mpr h

theorem blocksUsed_of_all (h : ∀ k ∈ ks, k.free = true) : blocksUsed ks = [] :=
  List.filter_eq_nil_iff.mpr fun k hk => by simp [h k hk]

theorem isHeader_append_cons :
    IsHeader (as ++ b :: bs) x ↔ IsHeader as x ∨ x = b.addr ∨ IsHeader bs x := by
  unfold IsHeader
  simp

/-- Swallowing the free blocks `ks` behind a free block, whose length becomes `total`. -/
theorem FinshHeapShape.swallow {total : Nat}
    (h : FinshHeapShape P s (as ++ b :: (ks ++ cs))) (hb : b.free = true)
    (hks : ∀ k ∈ ks, k.free = true)
    (ht : BlockTiles P.addr (as ++ ⟨b.addr, total, true⟩ :: cs) (P.addr + finshHeapMax)) :
    FinshHeapShape P
      ⟨setBlockNext (setLength s.mem b.addr total) b.addr ((addrs (blocksFree cs)).headD 0),
        s.freeList, s.allocateList⟩
      (as ++ ⟨b.addr, total, true⟩ :: cs) := by
  have H := h.tiles.headers
  have hbh : IsHeader (as ++ b :: (ks ++ cs)) b.addr := isHeader_append_cons.mpr (by simp)
  have hin : ∀ x, IsHeader (as ++ ⟨b.addr, total, true⟩ :: cs) x →
      IsHeader (as ++ b :: (ks ++ cs)) x := by
    intro x hx
    have := isHeader_append_cons.mp hx
    unfold IsHeader at this ⊢
    simp only [addrs_append, addrs_cons, List.mem_append, List.mem_cons]
    tauto
  have htotal : word total = total := by
    apply word_of_lt
    have hstop := (ht.bounds (List.mem_append_right as List.mem_cons_self)).2
    have := P.fits
    simp only [FinshBlock.stop] at hstop
    omega
  have hnext : (addrs (blocksFree cs)).headD 0 < 4294967296 := by
    cases hfree : addrs (blocksFree cs) with
    | nil => exact Nat.zero_lt_succ _
    | cons y ys =>
      apply H.lt y
      have hy : IsHeader cs y := isHeader_of_free (hfree ▸ List.mem_cons_self)
      unfold IsHeader at hy ⊢
      simp only [addrs_append, addrs_cons, List.mem_append, List.mem_cons]
      tauto
  have hlinks : ∀ x, IsHeader (as ++ b :: (ks ++ cs)) x →
      blockNext (setLength s.mem b.addr total) x = blockNext s.mem x := fun x hx =>
    blockNext_setLength (H.sep _ _ hx hbh)
  refine ⟨ht, fun d hd => ?_, ?_, ?_⟩
  · have hdh : IsHeader (as ++ b :: (ks ++ cs)) d.addr := hin _ (List.mem_map_of_mem hd)
    have hsep := H.sep _ _ hdh hbh
    rw [blockLength_setBlockNext hsep, blockLength_setLength hsep]
    by_cases heq : d.addr = b.addr
    · rw [if_pos heq, htotal]
      have : d = ⟨b.addr, total, true⟩ := ht.eq_of_addr hd (by simp) heq
      rw [this]
    · rw [if_neg heq]
      apply h.lengths
      have hd' : d ∈ as ∨ d ∈ cs := by
        simp only [List.mem_append, List.mem_cons] at hd
        rcases hd with hd | rfl | hd
        · exact Or.inl hd
        · exact absurd rfl heq
        · exact Or.inr hd
      simp only [List.mem_append, List.mem_cons]
      tauto
  · have hfree := h.free
    simp only [blocksFree_append, blocksFree_cons, hb, if_true, blocksFree_of_all hks, addrs_append,
      addrs_cons] at hfree
    have hcut := hfree.cut
    have hmem : ∀ x ∈ addrs (blocksFree as) ++ b.addr :: addrs (blocksFree cs),
        IsHeader (as ++ b :: (ks ++ cs)) x := by
      intro x hx
      apply hin
      apply isHeader_of_free
      simpa [blocksFree_cons] using hx
    have hcut' : NodeList (Function.update (blockNext (setLength s.mem b.addr total)) b.addr
        ((addrs (blocksFree cs)).headD 0)) 0 s.freeList
        (addrs (blocksFree as) ++ b.addr :: addrs (blocksFree cs)) := by
      apply hcut.congr
      intro x hx
      by_cases heq : x = b.addr
      · simp [heq]
      · rw [Function.update_of_ne heq, Function.update_of_ne heq, hlinks x (hmem x hx)]
    have hset := H.nodeList_set hbh hnext hmem hcut'
    simpa [blocksFree_cons] using hset
  · have hused := h.used
    simp only [blocksUsed_append, blocksUsed_cons, hb, if_true, blocksUsed_of_all hks,
      List.nil_append] at hused
    have hgoal : blocksUsed (as ++ ⟨b.addr, total, true⟩ :: cs) = blocksUsed as ++ blocksUsed cs := by
      simp [blocksUsed_cons]
    rw [hgoal]
    apply hused.congr
    intro x hx
    have hxh : IsHeader (as ++ b :: (ks ++ cs)) x := by
      apply hin
      apply isHeader_of_used
      rwa [hgoal]
    have hne : x ≠ b.addr := by
      rintro rfl
      have hxf : b.addr ∉ addrs (blocksFree (as ++ ⟨b.addr, total, true⟩ :: cs)) :=
        used_not_free ht (hgoal ▸ hx)
      exact hxf (by simp [blocksFree_cons])
    rw [blockNext_setBlockNext (H.sep _ _ hxh hbh), if_neg hne, hlinks x hxh]

/-- What `finsh_block_merge` finds before a free block: the free block before it, or null. -/
theorem FinshHeapShape.prev_eq (h : FinshHeapShape P s (ls ++ b :: rs)) (hb : b.free = true) :
    prevBlock s.mem s.freeList b.addr = some ((addrs (blocksFree ls)).getLast?.getD 0) := by
  unfold prevBlock
  have hfree := h.free
  simp only [blocksFree_append, blocksFree_cons, hb, if_true, addrs_append, addrs_cons] at hfree
  have hlen := h.free_lt_walkTurns
  simp only [blocksFree_append, blocksFree_cons, hb, if_true, addrs_append, addrs_cons] at hlen
  rcases List.eq_nil_or_concat (addrs (blocksFree ls)) with hnil | ⟨fs, p, hfs⟩
  · rw [hnil] at hfree ⊢
    obtain ⟨hlist, -, -⟩ := nodeList_cons.mp hfree
    rw [if_pos hlist]
    rfl
  · have hfs' : addrs (blocksFree ls) ++ b.addr :: addrs (blocksFree rs) =
        fs ++ p :: b.addr :: addrs (blocksFree rs) := by
      rw [hfs]
      simp
    rw [hfs'] at hfree hlen
    have hnodup := hfree.nodup
    have hdisj := (List.nodup_append.mp hnodup).2.2
    have hpb : p ≠ b.addr := by
      have hcons := (List.nodup_append.mp hnodup).2.1
      intro heq
      exact (List.nodup_cons.mp hcons).1 (heq ▸ List.mem_cons_self)
    have hlist : s.freeList ≠ b.addr := by
      obtain ⟨hseg, -⟩ := hfree
      cases fs with
      | nil => exact fun heq => hpb (hseg.1 ▸ heq)
      | cons a fs => exact fun heq => hdisj a (by simp) b.addr (by simp) (hseg.1 ▸ heq)
    rw [if_neg hlist, hfs]
    unfold walkBlocks
    rw [hfree.scan_eq hlen]
    have hfind : (fs ++ p :: b.addr :: addrs (blocksFree rs)).find?
        (fun node => blockNext s.mem node = b.addr) = some p := by
      refine List.find?_eq_some_iff_append.mpr ⟨by simpa using hfree.next_eq, fs,
        b.addr :: addrs (blocksFree rs), rfl, fun a ha => ?_⟩
      have hne : blockNext s.mem a ≠ b.addr := by
        rcases hfree.next_mem ha with hmem | heq
        · exact hdisj _ hmem b.addr (by simp)
        · exact heq ▸ hpb
      simp [hne]
    simp [hfind]

/-- The free block before `b` in the free list touches `b` only if it is its neighbour. -/
theorem FinshHeapShape.touches_prev (h : FinshHeapShape P s (ls ++ b :: rs)) {prev : Nat}
    (hprev : prev = (addrs (blocksFree ls)).getLast?.getD 0) :
    (∃ as p, ls = as ++ [p] ∧ p.free = true ∧ prev = p.addr ∧ prev ≠ 0 ∧
        blockEnd s.mem prev = b.addr) ∨
      ((∀ p ∈ ls.getLast?, p.free = false) ∧ ¬(prev ≠ 0 ∧ blockEnd s.mem prev = b.addr)) := by
  have H := h.tiles.headers
  by_cases hlast : ∃ as p, ls = as ++ [p] ∧ p.free = true
  · left
    obtain ⟨as, p, rfl, hp⟩ := hlast
    have hpr : prev = p.addr := by
      rw [hprev]
      simp [blocksFree_cons, hp]
    have hp0 : p.addr ≠ 0 := H.pos _ (isHeader_append_cons.mpr (by simp [IsHeader]))
    have htiles : BlockTiles P.addr (as ++ p :: b :: rs) (P.addr + finshHeapMax) := by
      simpa using h.tiles
    have hend := h.blockEnd_eq (b := p) (by simp)
    exact ⟨as, p, rfl, hp, hpr, hpr ▸ hp0, by rw [hpr, hend, htiles.neighbours]⟩
  · right
    have hnone : ∀ p ∈ ls.getLast?, p.free = false := by
      intro p hp
      by_contra hpf
      obtain ⟨as, rfl⟩ := List.getLast?_eq_some_iff.mp hp
      exact hlast ⟨as, p, rfl, by simpa using hpf⟩
    refine ⟨hnone, fun ⟨hp0, htouch⟩ => ?_⟩
    obtain ⟨p, hp, rfl⟩ : ∃ p ∈ blocksFree ls, p.addr = prev := by
      cases hget : (addrs (blocksFree ls)).getLast? with
      | none => exact absurd (by rw [hprev, hget]; rfl) hp0
      | some q =>
        have hq : q ∈ addrs (blocksFree ls) := List.mem_of_getLast? hget
        obtain ⟨p, hp, hpq⟩ := List.mem_map.mp hq
        exact ⟨p, hp, by rw [hprev, hget, hpq]; rfl⟩
    obtain ⟨hpl, hpf⟩ := mem_blocksFree.mp hp
    have hend := h.blockEnd_eq (b := p) (List.mem_append_left _ hpl)
    obtain ⟨as, ks, rfl⟩ := List.append_of_mem hpl
    have htiles : BlockTiles P.addr (as ++ p :: (ks ++ b :: rs)) (P.addr + finshHeapMax) := by
      simpa using h.tiles
    obtain rfl := htiles.touching (hend.symm.trans htouch)
    exact hlast ⟨as, p, rfl, hpf⟩

theorem FinshHeapShape.touches_next (h : FinshHeapShape P s (ls ++ b :: rs)) (hb : b.free = true) :
    (∃ q cs, rs = q :: cs ∧ q.free = true ∧ blockNext s.mem b.addr = q.addr ∧
        blockNext s.mem b.addr ≠ 0 ∧ blockEnd s.mem b.addr = blockNext s.mem b.addr) ∨
      ((∀ q ∈ rs.head?, q.free = false) ∧ ¬(blockNext s.mem b.addr ≠ 0 ∧
        blockEnd s.mem b.addr = blockNext s.mem b.addr)) := by
  have H := h.tiles.headers
  have hfree := h.free
  simp only [blocksFree_append, blocksFree_cons, hb, if_true, addrs_append, addrs_cons] at hfree
  have hnext := hfree.next_eq
  have hend := h.blockEnd_eq (b := b) (by simp)
  by_cases hfirst : ∃ q cs, rs = q :: cs ∧ q.free = true
  · left
    obtain ⟨q, cs, rfl, hq⟩ := hfirst
    have hqn : blockNext s.mem b.addr = q.addr := by
      rw [hnext]
      simp [blocksFree_cons, hq]
    have hq0 : q.addr ≠ 0 := H.pos _ (isHeader_append_cons.mpr (by simp [IsHeader]))
    exact ⟨q, cs, rfl, hq, hqn, hqn ▸ hq0, by rw [hqn, hend, h.tiles.neighbours]⟩
  · right
    have hnone : ∀ q ∈ rs.head?, q.free = false := by
      intro q hq
      by_contra hqf
      obtain ⟨cs, rfl⟩ := List.head?_eq_some_iff.mp hq
      exact hfirst ⟨q, cs, rfl, by simpa using hqf⟩
    refine ⟨hnone, fun ⟨hn0, htouch⟩ => ?_⟩
    obtain ⟨q, hq, hqn⟩ : ∃ q ∈ blocksFree rs, q.addr = blockNext s.mem b.addr := by
      rw [hnext] at hn0 ⊢
      cases hfr : blocksFree rs with
      | nil => exact absurd (by rw [hfr]; rfl) hn0
      | cons q qs => exact ⟨q, List.mem_cons_self, rfl⟩
    obtain ⟨hqr, hqf⟩ := mem_blocksFree.mp hq
    obtain ⟨ks, cs, rfl⟩ := List.append_of_mem hqr
    obtain rfl := h.tiles.touching (hend.symm.trans (htouch.trans hqn.symm))
    exact hfirst ⟨q, cs, rfl, hqf⟩

theorem freeApart_around : FreeApart (ls ++ b :: rs) ↔ FreeApart ls ∧ FreeApart rs ∧
    (b.free = true → (∀ p ∈ ls.getLast?, p.free = false) ∧ ∀ q ∈ rs.head?, q.free = false) := by
  unfold FreeApart
  rw [List.isChain_append, List.isChain_cons]
  simp only [List.head?_cons, Option.mem_some_iff, forall_eq']
  constructor
  · rintro ⟨hl, ⟨hq, hr⟩, hp⟩
    refine ⟨hl, hr, fun hb => ⟨fun p hpl => ?_, fun q hqr => ?_⟩⟩
    · simpa [hb] using hp p hpl
    · simpa [hb] using hq q hqr
  · rintro ⟨hl, hr, hsides⟩
    refine ⟨hl, ⟨fun q hqr hcon => ?_, hr⟩, fun p hpl hcon => ?_⟩
    · simp [(hsides hcon.1).2 q hqr] at hcon
    · simp [(hsides hcon.2).1 p hpl] at hcon

theorem lastFree_append_cons :
    LastFree (ls ++ b :: rs) ↔ (rs = [] ∧ b.free = true) ∨ LastFree rs := by
  unfold LastFree
  rw [List.getLast?_append_of_ne_nil _ (List.cons_ne_nil b rs)]
  cases rs with
  | nil => simp
  | cons c rs => simp [List.getLast?_cons_cons]

theorem lastFree_cons : LastFree (b :: rs) ↔ (rs = [] ∧ b.free = true) ∨ LastFree rs := by
  rw [← List.nil_append (b :: rs)]
  exact lastFree_append_cons

theorem FinshHeapShape.next_free (h : FinshHeapShape P s (ls ++ b :: rs)) (hb : b.free = true) :
    blockNext s.mem b.addr = (addrs (blocksFree rs)).headD 0 := by
  have hfree := h.free
  simp only [blocksFree_append, blocksFree_cons, hb, if_true, addrs_append, addrs_cons] at hfree
  exact hfree.next_eq

/-- A block put on the free list is merged with the free blocks it touches. -/
theorem FinshHeapShape.merge (h : FinshHeapShape P s (ls ++ b :: rs)) (hb : b.free = true)
    (hl : FreeApart ls) (hr : FreeApart rs) (hlast : LastFree (ls ++ b :: rs)) :
    ∃ m' bs', finshBlockMerge s.mem s.freeList b.addr = some m' ∧
      FinshHeapRep P ⟨m', s.freeList, s.allocateList⟩ bs' ∧
      blocksUsed bs' = blocksUsed ls ++ blocksUsed rs := by
  have H := h.tiles.headers
  have hfits := P.fits
  have hbm : b ∈ ls ++ b :: rs := by simp
  have hblen := h.lengths b hbm
  unfold finshBlockMerge
  rw [h.prev_eq hb]
  simp only [Option.bind_eq_bind, Option.bind_some]
  rcases h.touches_prev rfl with ⟨as, p, rfl, hp, hpr, hprev⟩ | ⟨hpn, hprev⟩
  · rw [if_pos hprev, hpr]
    have hpm : p ∈ as ++ [p] ++ b :: rs := by simp
    have hplen := h.lengths p hpm
    have hapart := freeApart_around.mp hl
    rcases h.touches_next hb with ⟨q, cs, rfl, hq, hqn, hnext⟩ | ⟨hqn, hnext⟩
    · rw [if_pos hnext, hqn, hblen, hplen, h.lengths q (by simp)]
      have h3 : FinshHeapShape P s (as ++ p :: ([b, q] ++ cs)) := by simpa using h
      have ht := (h3.tiles.join (f := true)).join (f := true)
      have htotal : p.len + (b.len + blockHeader) + (q.len + blockHeader) =
          p.len + (b.len + q.len + 2 * blockHeader) := by omega
      simp only [htotal] at ht
      have hbound := (ht.bounds (List.mem_append_right as List.mem_cons_self)).2
      simp only [FinshBlock.stop] at hbound
      rw [word_of_lt (by omega), blockNext_setLength (h.tiles.sep (by simp) (by simp))]
      have hq' : FinshHeapShape P s ((as ++ [p, b]) ++ q :: cs) := by simpa using h
      have hmem : ∀ k ∈ [b, q], k.free = true := by simp [hb, hq]
      rw [hq'.next_free hq]
      refine ⟨_, _, rfl, ⟨h3.swallow hp hmem ht, ?_, ?_⟩, ?_⟩
      · have hcs := (List.isChain_cons.mp hr)
        exact freeApart_around.mpr ⟨hapart.1, hcs.2, fun _ => ⟨(hapart.2.2 hp).1,
          fun d hd => by simpa [hq] using hcs.1 d hd⟩⟩
      · rcases lastFree_append_cons.mp hlast with ⟨hnil, -⟩ | hlast
        · exact absurd hnil (List.cons_ne_nil _ _)
        · have hlast' := lastFree_cons.mp hlast
          exact lastFree_append_cons.mpr (hlast'.imp_left fun hh => ⟨hh.1, rfl⟩)
      · simp [blocksUsed_cons, hp, hq]
    · rw [if_neg hnext, hblen, hplen]
      have h2 : FinshHeapShape P s (as ++ p :: ([b] ++ rs)) := by simpa using h
      have ht := h2.tiles.join (f := true)
      have hbound := (ht.bounds (List.mem_append_right as List.mem_cons_self)).2
      simp only [FinshBlock.stop] at hbound
      rw [word_of_lt (by omega), blockNext_setLength (h.tiles.sep (by simp) (by simp)),
        h.next_free hb]
      have hmem : ∀ k ∈ [b], k.free = true := by simp [hb]
      refine ⟨_, _, rfl, ⟨h2.swallow hp hmem ht, ?_, ?_⟩, ?_⟩
      · exact freeApart_around.mpr ⟨hapart.1, hr, fun _ => ⟨(hapart.2.2 hp).1, hqn⟩⟩
      · rcases lastFree_append_cons.mp hlast with hh | hlast
        · exact lastFree_append_cons.mpr (Or.inl ⟨hh.1, rfl⟩)
        · exact lastFree_append_cons.mpr (Or.inr hlast)
      · simp [blocksUsed_cons, hp]
  · rw [if_neg hprev]
    rcases h.touches_next hb with ⟨q, cs, rfl, hq, hqn, hnext⟩ | ⟨hqn, hnext⟩
    · rw [if_pos hnext, hqn, hblen, h.lengths q (by simp)]
      have h2 : FinshHeapShape P s (ls ++ b :: ([q] ++ cs)) := h
      have ht := h2.tiles.join (f := true)
      have hbound := (ht.bounds (List.mem_append_right ls List.mem_cons_self)).2
      simp only [FinshBlock.stop] at hbound
      rw [word_of_lt (by omega), blockNext_setLength (h.tiles.sep (by simp) (by simp))]
      have hq' : FinshHeapShape P s ((ls ++ [b]) ++ q :: cs) := by simpa using h
      have hmem : ∀ k ∈ [q], k.free = true := by simp [hq]
      rw [hq'.next_free hq]
      refine ⟨_, _, rfl, ⟨h2.swallow hb hmem ht, ?_, ?_⟩, ?_⟩
      · have hcs := (List.isChain_cons.mp hr)
        exact freeApart_around.mpr ⟨hl, hcs.2, fun _ => ⟨hpn,
          fun d hd => by simpa [hq] using hcs.1 d hd⟩⟩
      · rcases lastFree_append_cons.mp hlast with ⟨hnil, -⟩ | hlast
        · exact absurd hnil (List.cons_ne_nil _ _)
        · have hlast' := lastFree_cons.mp hlast
          exact lastFree_append_cons.mpr (hlast'.imp_left fun hh => ⟨hh.1, rfl⟩)
      · simp [blocksUsed_cons, hq]
    · rw [if_neg hnext]
      refine ⟨_, _, rfl, ⟨h, freeApart_around.mpr ⟨hl, hr, fun _ => ⟨hpn, hqn⟩⟩, hlast⟩, ?_⟩
      simp [blocksUsed_cons, hb]

theorem BlockTiles.around {a e : Nat} (h : BlockTiles a (ls ++ b :: rs) e) :
    (∀ x ∈ addrs ls, x < b.addr) ∧ ∀ x ∈ addrs rs, b.addr < x := by
  have hpair := h.ascending
  simp only [addrs_append, addrs_cons] at hpair
  obtain ⟨-, hcons, hcross⟩ := List.pairwise_append.mp hpair
  exact ⟨fun x hx => hcross x hx b.addr List.mem_cons_self, (List.pairwise_cons.mp hcons).1⟩

theorem blockGetHeader_blockGetData (hx : x < 4294967296) : blockGetHeader (blockGetData x) = x := by
  unfold blockGetHeader blockGetData wordSub word blockHeader
  omega

theorem addrs_free_sub (hx : x ∈ addrs (blocksFree bs)) : x ∈ addrs bs := isHeader_of_free hx

theorem addrs_used_sub (hx : x ∈ addrs (blocksUsed bs)) : x ∈ addrs bs := isHeader_of_used hx

/-- Freeing an allocated block keeps the invariant and takes just this block out of use. -/
theorem FinshHeapRep.free_block (h : FinshHeapRep P s (ls ++ b :: rs)) (hb : b.free = false) :
    ∃ s' bs', finshHeapFree s (blockGetData b.addr) = some s' ∧ FinshHeapRep P s' bs' ∧
      blocksUsed bs' = blocksUsed ls ++ blocksUsed rs := by
  have H := h.tiles.headers
  have hbh : IsHeader (ls ++ b :: rs) b.addr := isHeader_append_cons.mpr (by simp)
  obtain ⟨hbelow, habove⟩ := h.tiles.around
  have hused := h.used
  have hfree := h.free
  have husedlen := h.used_lt_walkTurns
  have hfreelen := h.free_lt_walkTurns
  have husedin : ∀ x ∈ addrs (blocksUsed (ls ++ b :: rs)), IsHeader (ls ++ b :: rs) x :=
    fun x hx => isHeader_of_used hx
  have hfreein : ∀ x ∈ addrs (blocksFree (ls ++ b :: rs)), IsHeader (ls ++ b :: rs) x :=
    fun x hx => isHeader_of_free hx
  have hdisj : ∀ x ∈ addrs (blocksUsed (ls ++ b :: rs)), x ∉ addrs (blocksFree (ls ++ b :: rs)) :=
    fun x hx => used_not_free h.tiles hx
  simp only [blocksUsed_append, blocksUsed_cons, hb, Bool.false_eq_true, if_false, addrs_append,
    addrs_cons] at hused husedlen husedin
  simp only [blocksFree_append, blocksFree_cons, hb, Bool.false_eq_true, if_false, addrs_append]
    at hfree hfreelen hfreein
  simp only [blocksUsed_append, blocksUsed_cons, blocksFree_append, blocksFree_cons, hb,
    Bool.false_eq_true, if_false, addrs_append, addrs_cons] at hdisj
  obtain ⟨allocateList, m1, hremove, hused1, hk1⟩ := finshBlockRemove_spec H hused husedin husedlen
  have hfree1 : NodeList (blockNext m1) 0 s.freeList
      (addrs (blocksFree ls) ++ addrs (blocksFree rs)) := by
    refine hk1.nodeList hfreein (fun x hx hch => hdisj x ?_ hx) hfree
    simp only [List.mem_append, List.mem_cons, List.not_mem_nil, or_false] at hch ⊢
    tauto
  -- the last block of the heap is free, so the block is not linked behind the whole free list
  have hnotlast : addrs (blocksFree rs) ≠ [] := by
    rcases lastFree_append_cons.mp h.last with ⟨-, hbt⟩ | ⟨c, hc, hcf⟩
    · rw [hb] at hbt
      exact absurd hbt Bool.false_ne_true
    · have hmem : c ∈ blocksFree rs := mem_blocksFree.mpr ⟨List.mem_of_getLast? hc, hcf⟩
      exact List.ne_nil_of_mem (List.mem_map_of_mem hmem)
  obtain ⟨freeList, m2, hinsert, hfree2, hk2⟩ := finshBlockInsert_spec H hfree1 hfreein hbh
    (fun x hx => hbelow x (addrs_free_sub hx)) (fun x hx => habove x (addrs_free_sub hx))
    (Or.inl hnotlast) hfreelen
  have hused2 : NodeList (blockNext m2) 0 allocateList
      (addrs (blocksUsed ls) ++ addrs (blocksUsed rs)) := by
    refine hk2.nodeList (fun x hx => husedin x ?_) (fun x hx hch => ?_) hused1
    · simp only [List.mem_append, List.mem_cons] at hx ⊢
      tauto
    · rcases List.mem_append.mp hch with hch | hch
      · refine hdisj x ?_ (List.mem_append_left _ hch)
        simp only [List.mem_append, List.mem_cons] at hx ⊢
        tauto
      · obtain rfl := List.mem_singleton.mp hch
        rcases List.mem_append.mp hx with hx | hx
        · exact lt_irrefl _ (hbelow _ (addrs_used_sub hx))
        · exact lt_irrefl _ (habove _ (addrs_used_sub hx))
  have hshape : FinshHeapShape P ⟨m2, freeList, allocateList⟩
      (ls ++ { b with free := true } :: rs) := by
    refine ⟨h.tiles.retag, fun c hc => ?_, ?_, ?_⟩
    · obtain ⟨d, hd, hda, hdl⟩ : ∃ d ∈ ls ++ b :: rs, d.addr = c.addr ∧ d.len = c.len := by
        simp only [List.mem_append, List.mem_cons] at hc
        rcases hc with hc | rfl | hc
        · exact ⟨c, by simp [hc], rfl, rfl⟩
        · exact ⟨b, by simp, rfl, rfl⟩
        · exact ⟨c, by simp [hc], rfl, rfl⟩
      have hdh : IsHeader (ls ++ b :: rs) d.addr := List.mem_map_of_mem hd
      rw [← hda, ← hdl]
      exact ((hk2 _ hdh).1.trans (hk1 _ hdh).1).trans (h.lengths d hd)
    · simpa [blocksFree_cons] using hfree2
    · simpa [blocksUsed_cons] using hused2
  obtain ⟨hl, hr, -⟩ := freeApart_around.mp h.apart
  have hlast : LastFree (ls ++ { b with free := true } :: rs) := by
    rcases lastFree_append_cons.mp h.last with hh | hh
    · exact lastFree_append_cons.mpr (Or.inl ⟨hh.1, rfl⟩)
    · exact lastFree_append_cons.mpr (Or.inr hh)
  obtain ⟨m3, bs', hmerge, hrep, hbs'⟩ := hshape.merge rfl hl hr hlast
  refine ⟨_, bs', ?_, hrep, hbs'⟩
  unfold finshHeapFree
  rw [blockGetHeader_blockGetData (H.lt _ hbh)]
  simp only [Option.bind_eq_bind, hremove, hinsert, Option.bind_some]
  simp only [] at hmerge
  rw [hmerge]
  rfl

/-- What a collection leaves in use: the blocks from `todo` that a variable holds. -/
theorem FinshHeapRep.gcFrom {vars : FinshVars} {turns : Nat} {done todo : List FinshBlock}
    (h : FinshHeapRep P s bs) (hused : blocksUsed bs = done ++ todo) (hturns : todo.length < turns) :
    ∃ s' bs', finshHeapGcFrom vars turns ((addrs todo).headD 0) s = some s' ∧
      FinshHeapRep P s' bs' ∧
      blocksUsed bs' = done ++ todo.filter fun b => heldByVariable vars b.addr := by
  induction todo generalizing s bs turns done with
  | nil =>
    obtain ⟨turns, rfl⟩ : ∃ t, turns = t + 1 := ⟨turns - 1, by simp at hturns; omega⟩
    exact ⟨s, bs, by simp [finshHeapGcFrom], h, by simpa using hused⟩
  | cons b todo ih =>
    obtain ⟨turns, rfl⟩ : ∃ t, turns = t + 1 := ⟨turns - 1, by simp at hturns; omega⟩
    have hturns' : todo.length < turns := by simpa using hturns
    have hbu : b ∈ blocksUsed bs := by simp [hused]
    obtain ⟨hbs, hbf⟩ := mem_blocksUsed.mp hbu
    have hb0 : b.addr ≠ 0 := h.tiles.headers.pos _ (List.mem_map_of_mem hbs)
    have hnext : blockNext s.mem b.addr = (addrs todo).headD 0 := by
      have hlist := h.used
      rw [hused] at hlist
      simp only [addrs_append, addrs_cons] at hlist
      exact hlist.next_eq
    have hhead : (addrs (b :: todo)).headD 0 = b.addr := rfl
    rw [hhead]
    unfold finshHeapGcFrom
    rw [if_neg hb0, hnext]
    by_cases hheld : heldByVariable vars b.addr = true
    · rw [if_pos hheld]
      have hrest : blocksUsed bs = (done ++ [b]) ++ todo := by simp [hused]
      obtain ⟨s', bs', hgc, hrep, hbs'⟩ := ih h hrest hturns'
      refine ⟨s', bs', hgc, hrep, ?_⟩
      rw [hbs', List.filter_cons, if_pos hheld]
      simp
    · rw [if_neg hheld]
      obtain ⟨ls, rs, rfl⟩ := List.append_of_mem hbs
      obtain ⟨s1, bs1, hfree, hrep1, hbs1⟩ := h.free_block hbf
      have hrest : blocksUsed bs1 = done ++ todo := by
        obtain ⟨hbelow, habove⟩ := h.tiles.around
        have hls : b ∉ blocksUsed ls := fun hm =>
          lt_irrefl _ (hbelow b.addr (addrs_used_sub (List.mem_map_of_mem hm)))
        have hrs : b ∉ blocksUsed rs := fun hm =>
          lt_irrefl _ (habove b.addr (addrs_used_sub (List.mem_map_of_mem hm)))
        rw [blocksUsed_append, blocksUsed_cons, hbf] at hused
        obtain ⟨hdone, -, htodo⟩ := (List.append_cons_inj_of_notMem hls hrs).mp hused
        rw [hbs1, hdone, htodo]
      obtain ⟨s', bs', hgc, hrep, hbs'⟩ := ih hrep1 hrest hturns'
      refine ⟨s', bs', ?_, hrep, ?_⟩
      · simp only [Option.bind_eq_bind, hfree, Option.bind_some]
        exact hgc
      · rw [hbs', List.filter_cons, if_neg hheld]

end

end RTThread
