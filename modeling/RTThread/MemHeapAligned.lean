import RTThread.MemHeapRuns

namespace RTThread

/-- Every block of the pool begins at a multiple of `RT_ALIGN_SIZE`. -/
def AlignedBlocks (A : AlignSize) (bs : List MemBlock) : Prop := ∀ x ∈ bs.map Cell.off, A.size ∣ x

/-- The call meets what the lists need, and the size it rounds its request to is a multiple of
`RT_ALIGN_SIZE` after the clamp to `RT_MEMHEAP_MINIALLOC` too. -/
def MemCallAligned (A : AlignSize) (h : MemHeap) : MemHeapCall → Prop
  | .alloc size => A.size ∣ memheapAlign A size.toNat
  | .realloc ptr newsize =>
    (ptr = 0 ∨ GrowFits A h ptr newsize.toNat) ∧
      (newsize.toNat = 0 ∨ A.size ∣ memheapAlign A newsize.toNat)
  | _ => True

/-- The blocks of the pool begin at multiples of `RT_ALIGN_SIZE`, and one live pointer is held for
each one in use. -/
def MemHeapAligned (A : AlignSize) (s : MemHeapState) : Prop :=
  ∃ bs fs, MemHeapRep A s.heap bs fs ∧ s.live.Perm ((usedOffs bs).map (· + A.memheapSize)) ∧
    AlignedBlocks A bs

section
variable {A : AlignSize} {s s' : MemHeapState} {bs bs' : List MemBlock} {fs fs' : List Nat} {fuel p : Nat}
  {c : MemHeapCall} {h h' : MemHeap} {k : MemBlock} {size : Nat}

theorem Tiled.unique {τ : Type} {w p a b : Nat} {rd : Nat → Links τ} {cs ds : List (Cell τ)} (hw : 0 < w)
    (hc : Tiled w rd p a cs b) (hd : Tiled w rd p a ds b) : cs = ds := by
  induction cs generalizing p a ds with
  | nil =>
    have hab : a = b := hc
    cases ds with
    | nil => rfl
    | cons d ds =>
      have hbound := hd.bounds List.mem_cons_self
      have hle := hd.2.2.1
      have hrest := hd.2.2.2.le
      omega
  | cons c cs ih =>
    obtain ⟨hco, hcr, hcw, hcs⟩ := hc
    cases ds with
    | nil =>
      have hab : a = b := hd
      have hrest := hcs.le
      omega
    | cons d ds =>
      obtain ⟨hdo, hdr, -, hds⟩ := hd
      obtain ⟨ht, hn, -⟩ := Links.mk.inj (hcr.symm.trans hdr)
      have hcd : c = d := by
        cases c
        cases d
        dsimp only at *
        rw [hco, hdo, ht, hn]
      subst hcd
      rw [ih hcs hds]

/-- The memory determines the blocks. -/
theorem MemHeapRep.unique (hr : MemHeapRep A h bs fs) (hr' : MemHeapRep A h bs' fs') : bs = bs' := by
  have hW := memheapSize_ge A
  have hitem : sizeofMemheapItem = 24 := rfl
  exact hr.layout.tiles.unique (by omega) hr'.layout.tiles

theorem memheapSize_dvd (A : AlignSize) : A.size ∣ A.memheapSize := rtAlign_dvd A _

/-- A block cut off behind an aligned size begins at an aligned place. -/
theorem AlignedBlocks.cut {c : Nat} (ha : AlignedBlocks A bs) (hc : A.size ∣ c)
    (hsub : bs'.map Cell.off ⊆ c :: bs.map Cell.off) : AlignedBlocks A bs' := by
  intro x hx
  rcases List.mem_cons.mp (hsub hx) with rfl | hold
  · exact hc
  · exact ha x hold

/-- The block in front of the cut is an old one. -/
theorem AlignedBlocks.front (ha : AlignedBlocks A bs) {x : Nat} (hx : x ∈ bs'.map Cell.off)
    (hsub : bs'.map Cell.off ⊆ (x + size + A.memheapSize) :: bs.map Cell.off) : A.size ∣ x := by
  have hne := ptr_ne_zero A size
  rcases List.mem_cons.mp (hsub hx) with he | hold
  · omega
  · exact ha x hold

theorem alloc_aligned (hr : MemHeapRep A h bs fs) (ha : AlignedBlocks A bs)
    (hd : A.size ∣ memheapAlign A size) (hm : rtMemheapAlloc A fuel h size = some (h', p)) :
    ∃ bs' fs', MemHeapRep A h' bs' fs' ∧ AlignedBlocks A bs' := by
  rcases rtMemheapAlloc_cases hr hm with ⟨-, rfl, -⟩ | ⟨-, bs', k, -, htook, hsub⟩
  · exact ⟨bs, fs, hr, ha⟩
  · obtain ⟨fs', hr'⟩ := htook.rep
    have hk := ha.front (List.mem_map_of_mem htook.mem) hsub
    exact ⟨bs', fs', hr', ha.cut (hk.add hd |>.add (memheapSize_dvd A)) hsub⟩

theorem free_aligned (hr : MemHeapRep A h bs fs) (ha : AlignedBlocks A bs) (hk : k ∈ bs)
    (hu : memBlockFree k = false) (hm : rtMemheapFree A h (k.off + A.memheapSize) = some h') :
    ∃ bs' fs', MemHeapRep A h' bs' fs' ∧ AlignedBlocks A bs' := by
  obtain ⟨xs, ys, rfl⟩ := List.append_of_mem hk
  obtain ⟨bs', hgave, hsub⟩ := memheapRelease_spec hr hu
  rw [rtMemheapFree_eq hr hu] at hm
  obtain rfl := Option.some.inj hm
  obtain ⟨fs', hr'⟩ := hgave.rep
  exact ⟨bs', fs', hr', fun x hx => ha x (hsub hx)⟩

/-- An aligned size stays what it is when it is rounded once more. -/
theorem memheapAlign_again (hd : A.size ∣ memheapAlign A size) :
    memheapAlign A (memheapAlign A size) = memheapAlign A size := by
  have hlt : memheapAlign A size < 4294967296 := by
    have hround := rtAlign_lt A size
    unfold memheapAlign
    split
    · exact (by decide : memheapMinialloc < 4294967296)
    · exact hround
  have hmin := memheapAlign_ge A size
  have hsame := rtAlign_of_dvd hd hlt
  rw [memheapAlign, hsame, if_neg (by omega)]

theorem realloc_aligned (hr : MemHeapRep A h bs fs) (ha : AlignedBlocks A bs) (hk : k ∈ bs)
    (hu : memBlockFree k = false) (hfits : GrowFits A h (k.off + A.memheapSize) size)
    (hd : size = 0 ∨ A.size ∣ memheapAlign A size)
    (hm : rtMemheapRealloc A fuel h (k.off + A.memheapSize) size = some (h', p)) :
    ∃ bs' fs', MemHeapRep A h' bs' fs' ∧ AlignedBlocks A bs' := by
  by_cases hzero : size = 0
  · rw [rtMemheapRealloc, if_pos hzero] at hm
    obtain ⟨h1, hfree, he⟩ := Option.map_eq_some_iff.mp hm
    obtain ⟨rfl, -⟩ := Prod.mk.inj he
    exact free_aligned hr ha hk hu hfree
  have hdvd := hd.resolve_left hzero
  have hmin := memheapAlign_ge A size
  obtain ⟨xs, ys, rfl⟩ := List.append_of_mem hk
  have hkoff : A.size ∣ k.off := ha k.off (List.mem_map_of_mem hk)
  cases rtMemheapRealloc_branch hr hfits hzero hm with
  | move hgrow hmoved =>
    rcases memheapMove_cases hr hk hu hgrow (memheapAlign_twice A size) hmoved with
      ⟨-, rfl⟩ | ⟨bs', fs', k', hr', -, -, hoffs, hsub⟩
    · exact ⟨_, fs, hr, ha⟩
    · rw [memheapAlign_again hdvd] at hsub
      have hk' : A.size ∣ k'.off := by
        rcases List.mem_cons.mp (hoffs.mem_iff.mpr List.mem_cons_self) with he | hused
        · rw [he]
          exact hkoff
        · obtain ⟨b, hb, -, he⟩ := mem_usedOffs hused
          exact ha.front (List.mem_map.mpr ⟨b, hb, he⟩) hsub
      exact ⟨bs', fs', hr', ha.cut (hk'.add hdvd |>.add (memheapSize_dvd A)) hsub⟩
  | same hh hp =>
    subst hh
    exact ⟨_, fs, hr, ha⟩
  | grow hys hn hgrow hfit hh hp =>
    subst hys hh
    obtain ⟨bs', hkept, hsub⟩ := growInPlace_spec hr hu hn hgrow hmin hfit
    obtain ⟨fs', hr'⟩ := hkept.rep
    exact ⟨bs', fs', hr', ha.cut (hkoff.add (memheapSize_dvd A) |>.add hdvd) hsub⟩
  | shrink hfit hh hp =>
    subst hh
    obtain ⟨bs', hkept, hsub⟩ := memheapShrink_spec hr hu hmin hfit
    obtain ⟨fs', hr'⟩ := hkept.rep
    exact ⟨bs', fs', hr', ha.cut (hkoff.add hdvd |>.add (memheapSize_dvd A)) hsub⟩

/-- One call keeps the blocks at multiples of `RT_ALIGN_SIZE`. -/
theorem memHeapCall_aligned (hh : MemHeapAligned A s) (hok : MemCallAligned A s.heap c)
    (hs : memHeapCall A fuel s c = some s') : MemHeapAligned A s' := by
  obtain ⟨bs, fs, hr, hlive, ha⟩ := hh
  have hfits : MemCallFits A s.heap c := by
    cases c with
    | realloc ptr newsize => exact hok.1
    | _ => trivial
  obtain ⟨bs1, fs1, hr1, hlive1⟩ := memHeapCall_holds ⟨bs, fs, hr, hlive⟩ hfits hs
  -- the blocks are the ones the memory determines
  have hgoal : (∃ bs2 fs2, MemHeapRep A s'.heap bs2 fs2 ∧ AlignedBlocks A bs2) → MemHeapAligned A s' := by
    rintro ⟨bs2, fs2, hr2, ha2⟩
    obtain rfl := hr1.unique hr2
    exact ⟨bs1, fs1, hr1, hlive1, ha2⟩
  apply hgoal
  cases c with
  | alloc size =>
    simp only [memHeapCall, Option.bind_eq_bind, Option.bind_eq_some_iff] at hs
    obtain ⟨⟨h', p⟩, hm, hs⟩ := hs
    obtain rfl := Option.some.inj hs
    exact alloc_aligned hr ha hok hm
  | free ptr =>
    simp only [memHeapCall] at hs
    split at hs
    next hptr =>
      simp only [Option.bind_eq_bind, Option.bind_eq_some_iff] at hs
      obtain ⟨h', hm, hs⟩ := hs
      obtain rfl := Option.some.inj hs
      by_cases hz : ptr = 0
      · subst hz
        rw [rtMemheapFree_null] at hm
        have he : h' = s.heap := (Option.some.inj hm).symm
        exact ⟨bs, fs, he ▸ hr, ha⟩
      · obtain ⟨k, hk, hu, rfl⟩ := liveItem hlive (hptr.resolve_left hz)
        exact free_aligned hr ha hk hu hm
    next => cases hs
  | realloc ptr newsize =>
    simp only [memHeapCall] at hs
    split at hs
    next hptr =>
      simp only [Option.bind_eq_bind, Option.bind_eq_some_iff] at hs
      obtain ⟨⟨h', p⟩, hm, hs⟩ := hs
      obtain rfl := Option.some.inj hs
      by_cases hz : ptr = 0
      · subst hz
        by_cases hn : newsize.toNat = 0
        · rw [rtMemheapRealloc, if_pos hn, rtMemheapFree_null] at hm
          have he : s.heap = h' := congrArg Prod.fst (Option.some.inj hm)
          exact ⟨bs, fs, he ▸ hr, ha⟩
        · have halloc : rtMemheapAlloc A fuel s.heap (memheapAlign A newsize.toNat) = some (h', p) := by
            rw [rtMemheapRealloc, if_neg hn] at hm
            dsimp only at hm
            rwa [if_pos rfl] at hm
          have hd := hok.2.resolve_left hn
          exact alloc_aligned hr ha (by rwa [memheapAlign_again hd]) halloc
      · obtain ⟨k, hk, hu, rfl⟩ := liveItem hlive (hptr.resolve_left hz)
        exact realloc_aligned hr ha hk hu (hok.1.resolve_left hz) hok.2 hm
    next => cases hs
  | store ptr offset value =>
    simp only [memHeapCall] at hs
    split at hs
    next hptr =>
      obtain rfl := Option.some.inj hs
      obtain ⟨k, hk, hu, rfl⟩ := liveItem hlive hptr.1
      have hwithin := hptr.2
      have htail := hr.arena.tail_lt
      have hitem : sizeofMemheapItem = 24 := rfl
      have hkb := hr.layout.bounds hk
      obtain ⟨xs, ys, rfl⟩ := List.append_of_mem hk
      rw [hr.layout.header_eq hr.arena hk, memitemSize_eq hr.arena hr.layout, dataSize] at hwithin
      exact ⟨_, fs, hr.payload hk fun y _ hout => if_neg (by omega), ha⟩
    next => cases hs

/-- In runs whose requests are rounded to multiples of `RT_ALIGN_SIZE` every pointer handed out is
one. -/
theorem memHeapReach_aligned {m : Memory} {self freeHeader startAddr : Nat} {poolSize : UInt32}
    (hbig : 2 * A.memheapSize ≤ rtAlignDown A poolSize.toNat) (hstart : A.size ∣ startAddr)
    (hr : MemHeapReach A (MemCallAligned A) m self freeHeader startAddr poolSize s) :
    ∀ p ∈ s.live, A.size ∣ p := by
  have hinv : MemHeapAligned A s := by
    refine Reach.invariant (fun s hs => ?_) (fun s c s' hh hc hs => memHeapCall_aligned hh hc hs) hr
    obtain ⟨hplaced, hheap, hlive⟩ := hs
    obtain ⟨k, hk, hrep⟩ := rtMemheapInit_spec (m := m) hplaced hbig
    have hfirst : k.off = startAddr := hrep.layout.tiles.1
    rw [← hheap] at hrep
    refine ⟨[k], [k.off], hrep, ?_, ?_⟩
    · rw [hlive, usedOffs_free hk]
      exact List.Perm.refl _
    · intro x hx
      rw [List.map_singleton, List.mem_singleton] at hx
      rwa [hx, hfirst]
  obtain ⟨bs, fs, -, hlive, ha⟩ := hinv
  intro p hp
  obtain ⟨k, hk, -, rfl⟩ := liveItem hlive hp
  exact (ha k.off (List.mem_map_of_mem hk)).add (memheapSize_dvd A)

end

/-- A pool of 512 bytes with two blocks handed out. -/
def twoAligned : MemHeapState :=
  (memHeapRun align8 clearedMemory 100 200 4096 512 [(9, .alloc 20), (9, .alloc 40)]).get (by decide +kernel)

theorem memHeapReach_aligned_two :
    twoAligned.live.length = 2 ∧ ∀ p ∈ twoAligned.live, align8.size ∣ p := by
  have hreach : MemHeapReach align8 (MemCallAligned align8) clearedMemory 100 200 4096 512 twoAligned := by
    refine memHeapReach_run ⟨by decide, by decide, by decide, by decide, by decide⟩ (fun h c hc => ?_)
      (Option.some_get _).symm
    simp only [List.mem_cons, List.not_mem_nil, or_false] at hc
    rcases hc with rfl | rfl
    · show align8.size ∣ memheapAlign align8 20
      decide +kernel
    · show align8.size ∣ memheapAlign align8 40
      decide +kernel
  exact ⟨by decide +kernel, memHeapReach_aligned (by decide +kernel) (by decide) hreach⟩

/-- The same pool after a request of 4 bytes, which is rounded to 8 and then raised to 12. -/
def twelveBytes : MemHeapState :=
  (memHeapRun align8 clearedMemory 100 200 4096 512 [(9, .alloc 4), (9, .alloc 40)]).get (by decide +kernel)

theorem twelve_bytes_misalign : ¬∀ (A : AlignSize) (m : Memory) (self freeHeader startAddr : Nat)
    (poolSize : UInt32) (s : MemHeapState), 2 ≤ A.log → 2 * A.memheapSize ≤ rtAlignDown A poolSize.toNat →
    A.size ∣ startAddr → MemHeapReach A (MemCallFits A) m self freeHeader startAddr poolSize s →
    ∀ p ∈ s.live, A.size ∣ p := by
  intro hall
  have hreach : MemHeapReach align8 (MemCallFits align8) clearedMemory 100 200 4096 512 twelveBytes := by
    refine memHeapReach_run ⟨by decide, by decide, by decide, by decide, by decide⟩ (fun h c hc => ?_)
      (Option.some_get _).symm
    simp only [List.mem_cons, List.not_mem_nil, or_false] at hc
    rcases hc with rfl | rfl
    · trivial
    · trivial
  have hd := hall align8 clearedMemory 100 200 4096 512 twelveBytes (by decide) (by decide +kernel)
    (by decide) hreach 4156 (by decide +kernel)
  exact absurd hd (by decide)

end RTThread
