import RTThread.HeapRuns

namespace RTThread

/-- `offs` are the headers reached from offset zero by following `next` up to `heap_end`. -/
structure HeapChain (A : AlignSize) (h : Heap) (offs : List Nat) : Prop where
  start : (offs ++ [h.heapEnd]).head? = some 0
  follows : (offs ++ [h.heapEnd]).IsChain fun x y =>
    (header h.mem x).next = y ∧ x + A.sizeofStructMem ≤ y

/-- The representation invariant, in terms of the headers the code reads. -/
structure HeapSound (A : AlignSize) (beginAddr endAddr : Nat) (s : HeapState) (offs : List Nat) :
    Prop extends HeapChain A s.heap offs where
  starts : s.heap.heapPtr = rtAlign A beginAddr
  covers : s.heap.heapPtr + s.heap.heapEnd + A.sizeofStructMem = rtAlignDown A endAddr
  backLinks : offs.IsChain fun x y => (header s.heap.mem y).prev = x
  noFreePair : offs.IsChain fun x y =>
    ¬((header s.heap.mem x).tag.used = 0 ∧ (header s.heap.mem y).tag.used = 0)
  liveInUse : ∀ p ∈ s.live, ∃ o ∈ offs, p = s.heap.heapPtr + o + A.sizeofStructMem ∧
    (header s.heap.mem o).tag.used ≠ 0
  liveInside : ∀ p ∈ s.live, s.heap.heapPtr + A.sizeofStructMem ≤ p ∧
    p < usableEnd A s.heap p ∧ usableEnd A s.heap p ≤ s.heap.heapPtr + s.heap.heapEnd
  liveApart : s.live.Pairwise fun p q => usableEnd A s.heap p ≤ q ∨ usableEnd A s.heap q ≤ p
  accounts : s.heap.usedMem =
    ((offs.filter fun o => (header s.heap.mem o).tag.used ≠ 0).map fun o =>
      (header s.heap.mem o).next - o).sum

/-- `lfree` is the lowest free block, or `heap_end` when there is none. -/
def LfreeLowest (h : Heap) (offs : List Nat) : Prop :=
  h.lfree = h.heapEnd ∧ (∀ o ∈ offs, (header h.mem o).tag.used ≠ 0) ∨
  h.lfree ∈ offs ∧ (header h.mem h.lfree).tag.used = 0 ∧
    ∀ o ∈ offs, (header h.mem o).tag.used = 0 → h.lfree ≤ o

section
variable {A : AlignSize} {h : Heap} {s : HeapState} {bs : List Block} {k : Block}
  {ok : Nat → Heap → HeapCall → Prop} {m : Memory} {beginAddr endAddr : UInt32}

theorem HeapShape.read (hs : HeapShape A h bs) (hk : k ∈ bs) :
    (header h.mem k.off).tag = k.tag ∧ (header h.mem k.off).next = k.next :=
  hs.tiles.reads hk

theorem HeapShape.read_used (hs : HeapShape A h bs) (hk : k ∈ bs) :
    (header h.mem k.off).tag.used = 0 ↔ isFree k := by
  rw [(hs.read hk).1]
  simp [isFree]

theorem HeapShape.chain (hs : HeapShape A h bs) : HeapChain A h (bs.map Cell.off) :=
  ⟨hs.tiles.follows.1, hs.tiles.follows.2⟩

theorem HeapShape.noFreePair (hs : HeapShape A h bs) (hn : NoFreePair bs) :
    (bs.map Cell.off).IsChain fun x y =>
      ¬((header h.mem x).tag.used = 0 ∧ (header h.mem y).tag.used = 0) := by
  rw [List.isChain_map]
  refine List.IsChain.imp_of_mem_imp (fun x y hx hy hf => ?_) hn
  rwa [hs.read_used hx, hs.read_used hy]

theorem HeapShape.usableEnd_eq (hs : HeapShape A h bs) (hk : k ∈ bs) :
    usableEnd A h (blockPtr A h k) = h.heapPtr + k.next := by
  rw [usableEnd, hs.wordSub_blockPtr hk, (hs.read hk).2]

theorem HeapShape.usedBytes_eq (hs : HeapShape A h bs) : usedBytes bs =
    (((bs.map Cell.off).filter fun o => (header h.mem o).tag.used ≠ 0).map fun o =>
      (header h.mem o).next - o).sum := by
  have hkeep : bs.filter ((fun o => decide ((header h.mem o).tag.used ≠ 0)) ∘ Cell.off) =
      usedBlocks bs := by
    refine List.filter_congr fun k hk => ?_
    simp [(hs.read hk).1, isFree, beq_eq_decide]
  rw [List.filter_map, List.map_map, hkeep, usedBytes]
  refine congrArg List.sum (List.map_congr_left fun k hk => ?_)
  simp [(hs.read (List.mem_filter.mp hk).1).2]

theorem HeapHolds.sound (hh : HeapHolds A s bs) (hp : s.heap.heapPtr = rtAlign A beginAddr.toNat)
    (he : s.heap.heapPtr + s.heap.heapEnd + A.sizeofStructMem = rtAlignDown A endAddr.toNat) :
    HeapSound A beginAddr.toNat endAddr.toNat s (bs.map Cell.off) := by
  obtain ⟨hr, hlive⟩ := hh
  have hs := hr.toHeapShape
  have hused : ∀ p ∈ s.live, ∃ k ∈ bs, isFree k = false ∧ p = blockPtr A s.heap k := by
    intro p hp
    obtain ⟨xs, k, ys, rfl, hu, hpk⟩ := mem_livePtrs (hlive.mem_iff.mp hp)
    exact ⟨k, by simp, hu, hpk.symm⟩
  refine ⟨hs.chain, hp, he, hs.tiles.backLinks, hs.noFreePair hr.noPair, ?_, ?_, ?_, ?_⟩
  · intro p hp
    obtain ⟨k, hk, hu, rfl⟩ := hused p hp
    refine ⟨k.off, List.mem_map_of_mem hk, rfl, ?_⟩
    rw [ne_eq, hs.read_used hk, hu]
    simp
  · intro p hp
    obtain ⟨k, hk, hu, rfl⟩ := hused p hp
    have hb := hs.bounds hk
    have hroom := hr.roomy k (List.mem_filter.mpr ⟨hk, by simp [hu]⟩)
    rw [hs.usableEnd_eq hk]
    unfold blockPtr
    omega
  · refine (hlive.pairwise_iff fun hpq => hpq.symm).mpr ?_
    rw [livePtrs, List.pairwise_map]
    refine List.Pairwise.imp_of_mem ?_ (hs.tiles.pairwise.sublist List.filter_sublist)
    intro x y hx hy hxy
    left
    rw [hs.usableEnd_eq (List.mem_filter.mp hx).1]
    unfold blockPtr
    omega
  · rw [hr.accounts, hs.usedBytes_eq]

theorem HeapShape.lfreeLowest (hs : HeapShape A h bs) (hl : h.lfree = lowestFree h.heapEnd bs) :
    LfreeLowest h (bs.map Cell.off) := by
  rcases lowestFree_spec h.heapEnd bs with
    ⟨he, hn⟩ | ⟨us, v, ws, rfl, hv, he, hus⟩
  · left
    refine ⟨hl.trans he, fun o ho => ?_⟩
    obtain ⟨k, hk, rfl⟩ := List.mem_map.mp ho
    rw [ne_eq, hs.read_used hk, hn k hk]
    simp
  · right
    have hvo : h.lfree = v.off := hl.trans he
    refine ⟨hvo ▸ List.mem_map_of_mem (by simp), ?_, ?_⟩
    · rw [hvo, hs.read_used (by simp)]
      exact hv
    · intro o ho hf
      obtain ⟨k, hk, rfl⟩ := List.mem_map.mp ho
      rw [hs.read_used hk] at hf
      rw [hvo]
      simp only [List.mem_append, List.mem_cons] at hk
      rcases hk with hk | rfl | hk
      · simp [hus k hk] at hf
      · exact Nat.le_refl _
      · have hb := hs.bounds (k := v) (by simp)
        have := hs.after hk
        omega

/-- Every run of calls that fit keeps the blocks, the live pointers and the arena. -/
theorem heapReach_holds (hok : ∀ fuel h c, ok fuel h c → CallFits A fuel h c)
    (hr : HeapReach A ok m beginAddr endAddr s) :
    ∃ bs, HeapHolds A s bs ∧ s.heap.heapPtr = rtAlign A beginAddr.toNat ∧
      s.heap.heapPtr + s.heap.heapEnd + A.sizeofStructMem = rtAlignDown A endAddr.toNat ∧
      ((∀ fuel h c, ok fuel h c → CallKeepsLowest A h c) →
        s.heap.lfree = lowestFree s.heap.heapEnd bs) := by
  induction hr with
  | start hfresh =>
    obtain ⟨hi, hlive⟩ := hfresh
    obtain ⟨hrep, hl, hp, he⟩ := rtSystemHeapInit_spec endAddr.toNat_lt hi
    exact ⟨_, ⟨hrep, List.Perm.of_eq hlive⟩, hp, he, fun _ => hl⟩
  | step _ hc hs ih =>
    obtain ⟨bs, hh, hp, he, hl⟩ := ih
    obtain ⟨bs', hh', ⟨e1, e2, _⟩, hlow⟩ := heapCall_holds hh (hok _ _ _ hc) hs
    exact ⟨bs', hh', e1.trans hp, by rw [e1, e2, he], fun hkeep => hlow (hkeep _ _ _ hc) (hl hkeep)⟩

theorem HeapChain.first_next {offs : List Nat} (hc : HeapChain A h offs) (he : h.heapEnd ≠ 0) :
    A.sizeofStructMem ≤ (header h.mem 0).next ∧
      ((header h.mem 0).next = h.heapEnd ∨ (header h.mem 0).next ∈ offs) := by
  obtain ⟨hstart, hfollows⟩ := hc
  rcases offs with _ | ⟨o, _ | ⟨n, offs⟩⟩
  · simp [he] at hstart
  · obtain rfl : o = 0 := by simpa using hstart
    simp at hfollows
    exact ⟨by omega, Or.inl hfollows.1⟩
  · obtain rfl : o = 0 := by simpa using hstart
    simp only [List.cons_append, List.isChain_cons_cons] at hfollows
    exact ⟨by omega, Or.inr (by simp [hfollows.1.1])⟩

end

/-- Calls on a fresh arena, each with its fuel. -/
def heapRun (A : AlignSize) (m : Memory) (beginAddr endAddr : UInt32) (cs : List (Nat × HeapCall)) :
    Option HeapState :=
  (rtSystemHeapInit A m beginAddr.toNat endAddr.toNat).bind fun h =>
    runFrom (fun s c => heapCall A c.1 s c.2) cs ⟨h, []⟩

section
variable {A : AlignSize} {ok : Nat → Heap → HeapCall → Prop} {m : Memory}
  {beginAddr endAddr : UInt32} {cs : List (Nat × HeapCall)} {s : HeapState}

theorem heapReach_run (hok : ∀ h, ∀ c ∈ cs, ok c.1 h c.2)
    (hs : heapRun A m beginAddr endAddr cs = some s) : HeapReach A ok m beginAddr endAddr s := by
  obtain ⟨h, hi, hs⟩ := Option.bind_eq_some_iff.mp hs
  exact Reach.runFrom (runMeets_of_forall fun s => hok s.heap) (.start (s := ⟨h, []⟩) ⟨hi, rfl⟩) hs

/-- `lfree` is the lowest free block in every run in which no size wraps and no shrinking
`rt_realloc` leaves its remainder below it. -/
theorem heapReach_lfreeLowest
    (hr : HeapReach A (fun fuel h c => CallFits A fuel h c ∧ CallKeepsLowest A h c) m beginAddr endAddr
      s) : ∃ offs, HeapChain A s.heap offs ∧ LfreeLowest s.heap offs := by
  obtain ⟨bs, hh, _, _, hl⟩ := heapReach_holds (fun _ _ _ hc => hc.1) hr
  have hs := hh.1.toHeapShape
  exact ⟨_, hs.chain, hs.lfreeLowest (hl fun _ _ _ hc => hc.2)⟩

end

/-- Eight-byte alignment and memory that starts cleared. -/
def align8 : AlignSize := ⟨3, by decide⟩

def clearedMemory : Memory := ⟨fun _ => 0⟩

/-- `rt_calloc(1, 0xFFFFFFFF)` gets a minimal block and clears all of memory through it. -/
def wrappedCalloc : HeapState :=
  (heapRun align8 clearedMemory 4096 4176 [(8, .calloc 1 0xFFFFFFFF)]).get (by decide +kernel)

def oneBlock : HeapState :=
  (heapRun align8 clearedMemory 4096 4608 [(8, .malloc 100)]).get (by decide +kernel)

def oneBlockShrunk : HeapState :=
  (heapCall align8 8 oneBlock (.realloc 4112 12)).get (by decide +kernel)

theorem heapReach_lfreeLowest_shrink :
    HeapReach align8 (fun fuel h c => CallFits align8 fuel h c ∧ CallKeepsLowest align8 h c)
        clearedMemory 4096 4608 oneBlockShrunk ∧
      ∃ offs, HeapChain align8 oneBlockShrunk.heap offs ∧ LfreeLowest oneBlockShrunk.heap offs := by
  have hr : HeapReach align8 (fun fuel h c => CallFits align8 fuel h c ∧ CallKeepsLowest align8 h c)
      clearedMemory 4096 4608 oneBlock :=
    heapReach_run (fun h c hc => by
      obtain rfl := List.mem_singleton.mp hc
      exact ⟨trivial, trivial⟩) (Option.some_get _).symm
  have hkeep : CallKeepsLowest align8 oneBlock.heap (.realloc 4112 12) := by
    show _ → _ → _ → _ ∨ _ ∧ _
    decide +kernel
  have hfits : CallFits align8 8 oneBlock.heap (.realloc 4112 12) :=
    Or.inr (Or.inr (by unfold AlignFits; decide))
  have hr2 := hr.step (a := (8, .realloc 4112 12)) ⟨hfits, hkeep⟩
    (Option.some_get (by decide +kernel)).symm
  exact ⟨hr2, heapReach_lfreeLowest hr2⟩

/-- Shrinking the lower of two blocks leaves a free block below `lfree`. -/
def twoBlocksShrunk : HeapState :=
  (heapRun align8 clearedMemory 4096 4608
    [(8, .malloc 100), (8, .malloc 12), (8, .realloc 4112 12)]).get (by decide +kernel)

theorem realloc_shrink_below_lfree :
    ∃ s, HeapReach align8 (CallFits align8) clearedMemory 4096 4608 s ∧
      ¬∃ offs, HeapChain align8 s.heap offs ∧ LfreeLowest s.heap offs := by
  refine ⟨twoBlocksShrunk, heapReach_run (fun h c hc => ?_) (Option.some_get _).symm, ?_⟩
  · simp only [List.mem_cons, List.not_mem_nil, or_false] at hc
    rcases hc with rfl | rfl | rfl
    · trivial
    · trivial
    · exact Or.inr (Or.inr (by unfold AlignFits; decide))
  rintro ⟨offs, hchain, hlow⟩
  have hend : twoBlocksShrunk.heap.heapEnd = 496 := by decide +kernel
  have hl : twoBlocksShrunk.heap.lfree = 152 := by decide +kernel
  have hnext : (header twoBlocksShrunk.heap.mem 0).next = 32 := by decide +kernel
  have hfree : (header twoBlocksShrunk.heap.mem 32).tag.used = 0 := by decide +kernel
  obtain ⟨_, hn⟩ := hchain.first_next (by omega)
  have hmem : 32 ∈ offs := by
    rw [hnext] at hn
    exact hn.resolve_left (by omega)
  rcases hlow with ⟨he, _⟩ | ⟨_, _, hlow⟩
  · omega
  · have := hlow 32 hmem hfree
    omega

end RTThread
