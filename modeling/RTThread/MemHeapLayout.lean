import RTThread.MemHeapItems

namespace RTThread

def memTag (self : Nat) (used : Bool) : MemTag :=
  ⟨if used then memheapMagic ||| memheapUsed else memheapMagic, self⟩

/-- A block of the pool; the tail is not one. -/
abbrev MemBlock := Cell MemTag

def memBlockFree (k : MemBlock) : Bool := k.tag.magic &&& memheapUsed == 0

/-- The block at the end of the pool that is never free. -/
def MemHeap.tail (A : AlignSize) (h : MemHeap) : Nat := h.startAddr + h.poolSize - A.memheapSize

/-- Where the pool and the header of the free list lie. -/
structure MemArena (A : AlignSize) (h : MemHeap) : Prop where
  start : 0 < h.startAddr
  big : 2 * A.memheapSize ≤ h.poolSize
  fits : h.startAddr + h.poolSize ≤ 4294967296
  header : h.freeHeader + sizeofMemheapItem ≤ h.startAddr ∨ h.startAddr + h.poolSize ≤ h.freeHeader
  headerFits : h.freeHeader + sizeofMemheapItem ≤ 4294967296
  self : h.self < 4294967296
  freeList : h.freeList = h.freeHeader

/-- The memory `m` holds the blocks `bs` of the pool and the free list `fs`. -/
structure MemLayout (A : AlignSize) (h : MemHeap) (m : Memory) (bs : List MemBlock) (fs : List Nat) :
    Prop where
  tiles : Tiled A.memheapSize (blockLinks m) (h.tail A) h.startAddr bs (h.tail A)
  tail : blockLinks m (h.tail A) = ⟨memTag h.self true, h.startAddr, lastOff (h.tail A) bs⟩
  tags : ∀ k ∈ bs, k.tag = memTag h.self true ∨ k.tag = memTag h.self false
  ring : FreeRing m h.freeHeader fs
  placed : AllPlaced (h.freeHeader :: h.tail A :: (bs.map Cell.off ++ fs))

section
variable {A : AlignSize} {h : MemHeap} {m m' : Memory} {bs xs ys : List MemBlock} {k n : MemBlock}
  {fs us vs : List Nat} {x c p q : Nat}

theorem lastOff_append {τ : Type} {p : Nat} {cs ds : List (Cell τ)} :
    lastOff p (cs ++ ds) = lastOff (lastOff p cs) ds := by
  induction cs generalizing p with
  | nil => rfl
  | cons c cs ih => exact ih

theorem MemArena.tail_eq (ha : MemArena A h) : h.tail A + A.memheapSize = h.startAddr + h.poolSize := by
  have := ha.big
  unfold MemHeap.tail
  omega

theorem MemArena.tail_lt (ha : MemArena A h) : h.tail A + sizeofMemheapItem ≤ 4294967296 := by
  have := ha.tail_eq
  have := ha.fits
  have := memheapSize_ge A
  omega

theorem MemLayout.bounds (hl : MemLayout A h m bs fs) (hk : k ∈ bs) :
    h.startAddr ≤ k.off ∧ k.off + A.memheapSize ≤ k.next ∧ k.next ≤ h.tail A :=
  hl.tiles.bounds hk

/-- What an item of the pool needs to know of the others. -/
theorem AllPlaced.mono {as bs : List Nat} (h : AllPlaced bs) (hsub : as ⊆ bs) : AllPlaced as :=
  fun a ha b hb => h a (hsub ha) b (hsub hb)

theorem MemLayout.ring_placed (hl : MemLayout A h m bs fs) : AllPlaced (h.freeHeader :: fs) :=
  hl.placed.mono fun x hx => by
    simp only [List.mem_cons, List.mem_append] at hx ⊢
    tauto

/-- Steps that leave what the lists read. -/
theorem MemLayout.congr (hl : MemLayout A h m bs fs)
    (hlinks : ∀ x ∈ h.tail A :: bs.map Cell.off, SameLinks m m' x)
    (hfree : ∀ x ∈ h.freeHeader :: fs, SameFree m m' x) : MemLayout A h m' bs fs := by
  refine ⟨hl.tiles.congr fun k hk => ?_, ?_, hl.tags, hl.ring.congr hfree, hl.placed⟩
  · exact hlinks k.off (List.mem_cons_of_mem _ (List.mem_map_of_mem hk))
  · exact Eq.trans (hlinks _ List.mem_cons_self) hl.tail

/-- The block list while the free list is rewritten. -/
theorem MemLayout.relist (hl : MemLayout A h m bs fs)
    (hlinks : ∀ x ∈ h.tail A :: bs.map Cell.off, SameLinks m m' x)
    (hring : FreeRing m' h.freeHeader vs) (hvs : ∀ x ∈ vs, x ∈ bs.map Cell.off ++ fs) :
    MemLayout A h m' bs vs := by
  refine ⟨hl.tiles.congr fun k hk => ?_, ?_, hl.tags, hring, hl.placed.mono fun x hx => ?_⟩
  · exact hlinks k.off (List.mem_cons_of_mem _ (List.mem_map_of_mem hk))
  · exact Eq.trans (hlinks _ List.mem_cons_self) hl.tail
  · simp only [List.mem_cons, List.mem_append] at hx ⊢
    rcases hx with hx | hx | hx | hx
    · exact Or.inl hx
    · exact Or.inr (Or.inl hx)
    · exact Or.inr (Or.inr (Or.inl hx))
    · exact Or.inr (Or.inr (List.mem_append.mp (hvs x hx)))

theorem MemLayout.offList (hl : MemLayout A h m bs (us ++ x :: vs)) :
    MemLayout A h (removeFree m x) bs (us ++ vs) := by
  obtain ⟨hring, hlinks⟩ := removeFree_spec hl.ring hl.ring_placed
  refine hl.relist (fun c hc => hlinks c fun y hy => hl.placed y ?_ c ?_) hring fun y hy => ?_
  · simp only [List.mem_cons, List.mem_append] at hy ⊢
    tauto
  · simp only [List.mem_cons, List.mem_append] at hc ⊢
    tauto
  · simp only [List.mem_cons, List.mem_append] at hy ⊢
    tauto

theorem MemLayout.onList (ha : MemArena A h) (hl : MemLayout A h m bs fs) (hx : x ∈ bs.map Cell.off)
    (hnew : x ∉ fs) : MemLayout A h (insertFree m h.freeList x) bs (x :: fs) := by
  rw [ha.freeList]
  obtain ⟨k, hk, rfl⟩ := List.mem_map.mp hx
  have hb := hl.bounds hk
  have htail := ha.tail_lt
  have hheader := ha.header
  have hfits := ha.headerFits
  have hsize : sizeofMemheapItem = 24 := rfl
  have htop := ha.tail_eq
  have hW := memheapSize_ge A
  have hnot : k.off ∉ h.freeHeader :: fs := by
    rw [List.mem_cons, not_or]
    exact ⟨by omega, hnew⟩
  have hsub : h.freeHeader :: k.off :: fs ⊆ h.freeHeader :: h.tail A :: (bs.map Cell.off ++ fs) := by
    intro c hc
    simp only [List.mem_cons, List.mem_append] at hc ⊢
    rcases hc with hc | rfl | hc
    · exact Or.inl hc
    · exact Or.inr (Or.inr (Or.inl hx))
    · exact Or.inr (Or.inr (Or.inr hc))
  obtain ⟨hring, hlinks⟩ := insertFree_spec hl.ring (hl.placed.mono hsub) hnot (by omega) (by omega)
  refine hl.relist (fun c hc => hlinks c fun y hy => hl.placed y (hsub hy) c ?_) hring fun y hy => ?_
  · simp only [List.mem_cons, List.mem_append] at hc ⊢
    tauto
  · rcases List.mem_cons.mp hy with rfl | hy
    · exact List.mem_append_left fs hx
    · exact List.mem_append_right _ hy

/-- The links of a block that is not on the free list are written. -/
theorem MemLayout.clearFree {f : ItemField} {v : Nat} (hl : MemLayout A h m bs fs)
    (hx : x ∈ bs.map Cell.off) (hne : x ∉ h.freeHeader :: fs) (hf : f = .nextFree ∨ f = .prevFree) :
    MemLayout A h (setItem m f x v) bs fs := by
  have hmem : x ∈ h.freeHeader :: h.tail A :: (bs.map Cell.off ++ fs) := by
    simp only [List.mem_cons, List.mem_append]
    exact Or.inr (Or.inr (Or.inl hx))
  refine hl.congr (fun c hc => sameLinks_free (hl.placed x hmem c ?_) hf) fun c hc =>
    sameFree_item (hl.placed x hmem c ?_) fun he => hne (he ▸ hc)
  · simp only [List.mem_cons, List.mem_append] at hc ⊢
    tauto
  · simp only [List.mem_cons, List.mem_append] at hc ⊢
    tauto

theorem placed_of_le {a b : Nat} (hle : a + 24 ≤ b) : Beside a b := Or.inr (Or.inl hle)

/-- The header of the free list lies beside every item of the pool. -/
theorem MemArena.placed_header (ha : MemArena A h) (hlo : h.startAddr ≤ x) (hhi : x ≤ h.tail A) :
    Beside h.freeHeader x := by
  have := ha.header
  have := ha.tail_eq
  have := memheapSize_ge A
  unfold Beside
  omega

/-- The offset after a block is the next block's, or the tail. -/
theorem MemLayout.next_item (hl : MemLayout A h m (xs ++ k :: ys) fs) :
    ys = [] ∧ k.next = h.tail A ∨ ∃ n zs, ys = n :: zs ∧ n.off = k.next := by
  obtain ⟨o, -, -, -, -, hys⟩ := tiled_append.mp hl.tiles
  cases ys with
  | nil => exact Or.inl ⟨rfl, hys⟩
  | cons n zs => exact Or.inr ⟨n, zs, rfl, hys.1⟩

theorem MemLayout.links_eq (hl : MemLayout A h m (xs ++ k :: ys) fs) :
    blockLinks m k.off = ⟨k.tag, k.next, lastOff (h.tail A) xs⟩ := by
  obtain ⟨o, -, ho, hr, -⟩ := tiled_append.mp hl.tiles
  rw [ho, hr]

theorem MemLayout.next_eq (hl : MemLayout A h m (xs ++ k :: ys) fs) :
    getItem m .next k.off = k.next := congrArg Links.next hl.links_eq

/-- Blocks before and after one block. -/
theorem MemLayout.before (hl : MemLayout A h m (xs ++ k :: ys) fs) (hn : n ∈ xs) : n.next ≤ k.off :=
  (List.pairwise_append.mp hl.tiles.pairwise).2.2 n hn k List.mem_cons_self

theorem MemLayout.after (hl : MemLayout A h m (xs ++ k :: ys) fs) (hn : n ∈ ys) : k.next ≤ n.off :=
  (List.pairwise_cons.mp (List.pairwise_append.mp hl.tiles.pairwise).2.1).1 n hn

/-- A block is cut in two, the second part free. -/
theorem MemLayout.split (ha : MemArena A h) (hl : MemLayout A h m (xs ++ k :: ys) fs)
    (hfs : ∀ x ∈ fs, x ∈ (xs ++ k :: ys).map Cell.off) (hlo : k.off + A.memheapSize ≤ c)
    (hhi : c + A.memheapSize ≤ k.next) :
    MemLayout A h (insertBlock (newItem m h.self c) k.off c)
      (xs ++ ⟨k.off, c, k.tag⟩ :: ⟨c, k.next, memTag h.self false⟩ :: ys) fs := by
  have hW := memheapSize_ge A
  have hsize : sizeofMemheapItem = 24 := rfl
  have hkb := hl.bounds (k := k) (by simp)
  have htop := ha.tail_lt
  have hco : Beside c k.off := (placed_of_le (by omega)).symm
  have hcn : Beside c k.next := placed_of_le (by omega)
  have hon : Beside k.off k.next := placed_of_le (by omega)
  obtain ⟨e1, e2, e3, e4, e5⟩ := insertBlock_spec hl.next_eq hco hcn hon
    ⟨by omega, by omega, by omega⟩ (by omega : c < 4294967296) (by omega) ha.self
  -- an item apart from the block that is cut
  have hout : ∀ x, x + A.memheapSize ≤ k.off ∨ k.next + A.memheapSize ≤ x →
      Beside c x ∧ Beside k.off x ∧ Beside k.next x ∧ x ≠ c ∧ x ≠ k.off ∧ x ≠ k.next := by
    intro x hx
    unfold Beside
    omega
  have hkept : ∀ x, x + A.memheapSize ≤ k.off ∨ k.next + A.memheapSize ≤ x →
      blockLinks (insertBlock (newItem m h.self c) k.off c) x = blockLinks m x := by
    intro x hx
    obtain ⟨h1, h2, h3, h4, h5, h6⟩ := hout x hx
    exact e4 x h1 h2 h3 h4 h5 h6
  -- the items of the pool, and what is new among them
  have hitem : ∀ x ∈ h.freeHeader :: h.tail A :: ((xs ++ k :: ys).map Cell.off ++ fs),
      Beside c x := by
    intro x hx
    have hoff : ∀ x ∈ (xs ++ k :: ys).map Cell.off, Beside c x := by
      intro x hx
      obtain ⟨n, hn, rfl⟩ := List.mem_map.mp hx
      have hnb := hl.bounds hn
      rcases List.mem_append.mp hn with hn | hn
      · have := hl.before hn
        exact (placed_of_le (by omega)).symm
      · rcases List.mem_cons.mp hn with rfl | hn
        · exact hco
        · have := hl.after hn
          exact placed_of_le (by omega)
    simp only [List.mem_cons, List.mem_append] at hx
    rcases hx with rfl | rfl | hx | hx
    · exact (ha.placed_header (by omega) (by omega)).symm
    · exact placed_of_le (by omega)
    · exact hoff x hx
    · exact hoff x (hfs x hx)
  refine ⟨?_, ?_, ?_, ?_, ?_⟩
  · refine hl.tiles.split (by omega) hlo hhi ?_ ?_ (fun _ => e3) fun x hx => hkept x (by omega)
    · rw [e2, hl.links_eq]
    · exact e1
  · rcases hl.next_item with ⟨rfl, hend⟩ | ⟨n, zs, rfl, hn⟩
    · rw [← hend, e3, hend, hl.tail]
      simp [lastOff_append]
    · have hnb := hl.bounds (k := n) (by simp)
      rw [hkept _ (Or.inr (by omega)), hl.tail]
      simp [lastOff_append]
  · intro n hn
    simp only [List.mem_append, List.mem_cons] at hn
    rcases hn with hn | rfl | rfl | hn
    · exact hl.tags n (by simp [hn])
    · exact hl.tags k (by simp)
    · exact Or.inr rfl
    · exact hl.tags n (by simp [hn])
  · refine hl.ring.congr fun x hx => ?_
    have hin : x ∈ h.freeHeader :: h.tail A :: ((xs ++ k :: ys).map Cell.off ++ fs) := by
      simp only [List.mem_cons, List.mem_append] at hx ⊢
      tauto
    have hk : k.off ∈ h.freeHeader :: h.tail A :: ((xs ++ k :: ys).map Cell.off ++ fs) := by simp
    refine e5 x (hitem x hin) (hl.placed _ hk x hin) ?_
    rcases hl.next_item with ⟨rfl, hend⟩ | ⟨n, zs, rfl, hn⟩
    · rw [hend]
      exact hl.placed _ (by simp) x hin
    · rw [← hn]
      exact hl.placed _ (by simp) x hin
  · intro a ha' b hb
    have hsub : ∀ x, x ∈ h.freeHeader :: h.tail A ::
        ((xs ++ ⟨k.off, c, k.tag⟩ :: ⟨c, k.next, memTag h.self false⟩ :: ys).map Cell.off ++ fs) →
        x = c ∨ x ∈ h.freeHeader :: h.tail A :: ((xs ++ k :: ys).map Cell.off ++ fs) := by
      intro x hx
      simp only [List.map_append, List.map_cons, List.mem_cons, List.mem_append] at hx ⊢
      tauto
    rcases hsub a ha' with rfl | hain
    · rcases hsub b hb with rfl | hbin
      · exact Or.inl rfl
      · exact hitem b hbin
    · rcases hsub b hb with rfl | hbin
      · exact (hitem a hain).symm
      · exact hl.placed a hain b hbin

/-- Items of the pool, each with its place. -/
theorem MemLayout.item_placed (hl : MemLayout A h m bs fs) {a b : Nat}
    (ha : a ∈ h.tail A :: bs.map Cell.off) (hb : b ∈ h.freeHeader :: (h.tail A :: (bs.map Cell.off ++ fs))) :
    Beside a b := by
  refine hl.placed a ?_ b hb
  simp only [List.mem_cons, List.mem_append] at ha ⊢
  tauto

theorem MemLayout.next_mem (hl : MemLayout A h m (xs ++ k :: ys) fs) :
    k.next ∈ h.tail A :: (xs ++ k :: ys).map Cell.off := by
  rcases hl.next_item with ⟨rfl, hend⟩ | ⟨n, zs, rfl, hn⟩
  · rw [hend]
    exact List.mem_cons_self
  · rw [← hn]
    simp

/-- Two blocks become one, with the tag of the first. -/
theorem MemLayout.merge (hl : MemLayout A h m (xs ++ k :: n :: ys) fs)
    (hj : Joined m m' k.off n.next) : MemLayout A h m' (xs ++ ⟨k.off, n.next, k.tag⟩ :: ys) fs := by
  have hW := memheapSize_ge A
  have hsize : sizeofMemheapItem = 24 := rfl
  have hl2 : MemLayout A h m ((xs ++ [k]) ++ n :: ys) fs := by simpa using hl
  have hkn : k.next = n.off := by
    rcases hl.next_item with ⟨he, -⟩ | ⟨n', zs, he, hn⟩
    · cases he
    · obtain ⟨rfl, -⟩ := List.cons.inj he
      exact hn.symm
  have hkb := hl.bounds (k := k) (by simp)
  have hnb := hl.bounds (k := n) (by simp)
  have hnext : n.next ∈ h.tail A :: (xs ++ k :: n :: ys).map Cell.off := by
    have hmem := hl2.next_mem
    simpa using hmem
  have hoff : k.off ∈ h.tail A :: (xs ++ k :: n :: ys).map Cell.off := by simp
  have hkept : ∀ x, x + A.memheapSize ≤ k.off ∨ n.next + A.memheapSize ≤ x →
      blockLinks m' x = blockLinks m x := by
    intro x hx
    refine hj.others x ?_ ?_ (by omega) (by omega) <;> (unfold Beside; omega)
  refine ⟨?_, ?_, ?_, ?_, hl.placed.mono ?_⟩
  · refine hl.tiles.merge (by omega) hj.left (fun _ => hj.right) fun x hx => hkept x (by omega)
  · rcases hl2.next_item with ⟨rfl, hend⟩ | ⟨y, zs, rfl, hy⟩
    · rw [← hend, hj.right, hend, hl.tail]
      simp [lastOff_append]
    · have hyb := hl.bounds (k := y) (by simp)
      rw [hkept _ (Or.inr (by omega)), hl.tail]
      simp [lastOff_append]
  · intro c hc
    simp only [List.mem_append, List.mem_cons] at hc
    rcases hc with hc | rfl | hc
    · exact hl.tags c (by simp [hc])
    · exact hl.tags k (by simp)
    · exact hl.tags c (by simp [hc])
  · refine hl.ring.congr fun x hx => ?_
    have hin : x ∈ h.freeHeader :: h.tail A :: ((xs ++ k :: n :: ys).map Cell.off ++ fs) := by
      simp only [List.mem_cons, List.mem_append] at hx ⊢
      tauto
    exact hj.free x (hl.item_placed hoff hin) (hl.item_placed hnext hin)
  · intro x hx
    simp only [List.map_append, List.map_cons, List.mem_cons, List.mem_append] at hx ⊢
    tauto

/-- A block changes its mark. -/
theorem MemLayout.retag {v : Nat} {used : Bool} (hl : MemLayout A h m (xs ++ k :: ys) fs)
    (hv : v = (memTag h.self used).magic) :
    MemLayout A h (setItem m .magic k.off v) (xs ++ { k with tag := memTag h.self used } :: ys) fs := by
  have hW := memheapSize_ge A
  have hsize : sizeofMemheapItem = 24 := rfl
  have hlt : v < 4294967296 := by
    rw [hv]
    cases used
    · exact (by decide : memheapMagic < 4294967296)
    · exact (by decide : memheapMagic ||| memheapUsed < 4294967296)
  have hkb := hl.bounds (k := k) (by simp)
  have hoff : k.off ∈ h.tail A :: (xs ++ k :: ys).map Cell.off := by simp
  have htag : k.tag.poolPtr = h.self := by
    rcases hl.tags k (by simp) with he | he <;> rw [he] <;> rfl
  have hkept : ∀ x, x + A.memheapSize ≤ k.off ∨ k.off + A.memheapSize ≤ x →
      blockLinks (setItem m .magic k.off v) x = blockLinks m x := by
    intro x hx
    exact sameLinks_item (by unfold Beside; omega) (by omega)
  refine ⟨?_, ?_, ?_, ?_, hl.placed.mono ?_⟩
  · refine hl.tiles.retag ?_ (fun x hx => hkept x (by omega)) (by omega)
    have hnew : ({ k.tag with magic := v } : MemTag) = memTag h.self used := by
      show MemTag.mk v k.tag.poolPtr = _
      rw [hv, htag]
      rfl
    rw [blockLinks_setMagic hlt, hl.links_eq]
    dsimp only
    rw [hnew]
  · rw [hkept _ (Or.inr (by omega)), hl.tail]
    simp [lastOff_append]
  · intro c hc
    simp only [List.mem_append, List.mem_cons] at hc
    rcases hc with hc | rfl | hc
    · exact hl.tags c (by simp [hc])
    · cases used <;> simp
    · exact hl.tags c (by simp [hc])
  · refine hl.ring.congr fun x hx => sameFree_field (hl.item_placed hoff ?_) (by decide) (by decide)
    simp only [List.mem_cons, List.mem_append] at hx ⊢
    tauto
  · intro x hx
    simpa using hx

end

end RTThread
