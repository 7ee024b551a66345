import RTThread.FinshHeapLists

namespace RTThread

def addrs (bs : List FinshBlock) : List Nat := bs.map FinshBlock.addr

@[simp] theorem addrs_append (as bs : List FinshBlock) : addrs (as ++ bs) = addrs as ++ addrs bs :=
  List.map_append

@[simp] theorem addrs_cons (b : FinshBlock) (bs : List FinshBlock) :
    addrs (b :: bs) = b.addr :: addrs bs := rfl

@[simp] theorem addrs_nil : addrs [] = [] := rfl

/-- The two lists of the heap hold the blocks `bs`, which fill it. -/
structure FinshHeapShape (P : FinshPlace) (s : FinshHeap) (bs : List FinshBlock) : Prop where
  tiles : BlockTiles P.addr bs (P.addr + finshHeapMax)
  lengths : ∀ b ∈ bs, blockLength s.mem b.addr = b.len
  free : NodeList (blockNext s.mem) 0 s.freeList (addrs (blocksFree bs))
  used : NodeList (blockNext s.mem) 0 s.allocateList (addrs (blocksUsed bs))

/-- No two neighbours are both free. -/
def FreeApart (bs : List FinshBlock) : Prop := bs.IsChain fun b c => ¬(b.free ∧ c.free)

def LastFree (bs : List FinshBlock) : Prop := ∃ b ∈ bs.getLast?, b.free = true

structure FinshHeapRep (P : FinshPlace) (s : FinshHeap) (bs : List FinshBlock) : Prop extends
    FinshHeapShape P s bs where
  apart : FreeApart bs
  last : LastFree bs

section
variable {P : FinshPlace} {s s' : FinshHeap} {as bs cs ks ls rs : List FinshBlock}
  {b c : FinshBlock} {x : Nat}

def IsHeader (bs : List FinshBlock) (x : Nat) : Prop := x ∈ addrs bs

instance : Std.Symm fun b c : FinshBlock => Sep b.addr c.addr where
  symm b c h := by
    unfold Sep at h ⊢
    omega

theorem BlockTiles.sep {a e : Nat} (h : BlockTiles a bs e) (hb : b ∈ bs) (hc : c ∈ bs) :
    Sep b.addr c.addr := by
  have hpair : bs.Pairwise fun b c => Sep b.addr c.addr := by
    apply h.pairwise.imp
    intro b c hbc
    right; left
    unfold FinshBlock.stop at hbc
    omega
  have hself : ∀ d ∈ bs, Sep d.addr d.addr := fun _ _ => Or.inl rfl
  exact hpair.forall_of_forall hself hb hc

theorem BlockTiles.headers (h : BlockTiles P.addr bs (P.addr + finshHeapMax)) :
    Headers (IsHeader bs) := by
  refine ⟨fun x y hx hy => ?_, fun x hx => ?_, fun x hx => ?_⟩
  · obtain ⟨b, hb, rfl⟩ := List.mem_map.mp hx
    obtain ⟨c, hc, rfl⟩ := List.mem_map.mp hy
    exact h.sep hb hc
  · obtain ⟨b, hb, rfl⟩ := List.mem_map.mp hx
    have := (h.bounds hb).1
    have := P.pos
    omega
  · obtain ⟨b, hb, rfl⟩ := List.mem_map.mp hx
    have hstop := (h.bounds hb).2
    have := P.fits
    unfold FinshBlock.stop at hstop
    omega

theorem BlockTiles.length_lt {a e : Nat} (h : BlockTiles a bs e) (he : e < 4294967296) :
    bs.length < walkTurns := by
  have := h.count
  unfold blockHeader at this
  unfold walkTurns
  omega

theorem mem_blocksFree : b ∈ blocksFree bs ↔ b ∈ bs ∧ b.free = true := List.mem_filter

theorem mem_blocksUsed : b ∈ blocksUsed bs ↔ b ∈ bs ∧ b.free = false := by
  unfold blocksUsed
  rw [List.mem_filter, Bool.not_eq_true']

theorem isHeader_of_free (hx : x ∈ addrs (blocksFree bs)) : IsHeader bs x := by
  obtain ⟨b, hb, rfl⟩ := List.mem_map.mp hx
  exact List.mem_map.mpr ⟨b, (mem_blocksFree.mp hb).1, rfl⟩

theorem isHeader_of_used (hx : x ∈ addrs (blocksUsed bs)) : IsHeader bs x := by
  obtain ⟨b, hb, rfl⟩ := List.mem_map.mp hx
  exact List.mem_map.mpr ⟨b, (mem_blocksUsed.mp hb).1, rfl⟩

theorem BlockTiles.ascending {a e : Nat} (h : BlockTiles a bs e) : (addrs bs).Pairwise (· < ·) := by
  refine List.pairwise_map.mpr (h.pairwise.imp ?_)
  intro b c hbc
  unfold FinshBlock.stop blockHeader at hbc
  omega

theorem BlockTiles.eq_of_addr {a e : Nat} (h : BlockTiles a bs e) (hb : b ∈ bs) (hc : c ∈ bs)
    (heq : b.addr = c.addr) : b = c :=
  List.inj_on_of_nodup_map (h.ascending.imp fun hlt => Nat.ne_of_lt hlt) hb hc heq

theorem used_not_free {a e : Nat} (h : BlockTiles a bs e) (hx : x ∈ addrs (blocksUsed bs)) :
    x ∉ addrs (blocksFree bs) := by
  intro hf
  obtain ⟨b, hb, rfl⟩ := List.mem_map.mp hx
  obtain ⟨c, hc, heq⟩ := List.mem_map.mp hf
  obtain ⟨hb, hbf⟩ := mem_blocksUsed.mp hb
  obtain ⟨hc, hcf⟩ := mem_blocksFree.mp hc
  rw [h.eq_of_addr hc hb heq, hbf] at hcf
  exact Bool.false_ne_true hcf

theorem FinshHeapShape.blockEnd_eq (h : FinshHeapShape P s bs) (hb : b ∈ bs) :
    blockEnd s.mem b.addr = b.stop := by
  have hstop := (h.tiles.bounds hb).2
  have := P.fits
  unfold blockEnd
  rw [h.lengths b hb]
  unfold FinshBlock.stop at hstop ⊢
  rw [word_of_lt (by omega)]
  omega

theorem FinshHeapShape.free_lt_walkTurns (h : FinshHeapShape P s bs) :
    (addrs (blocksFree bs)).length < walkTurns := by
  have := h.tiles.length_lt P.fits
  have hle : (blocksFree bs).length ≤ bs.length := List.length_filter_le ..
  simp only [addrs, List.length_map]
  omega

theorem FinshHeapShape.used_lt_walkTurns (h : FinshHeapShape P s bs) :
    (addrs (blocksUsed bs)).length < walkTurns := by
  have := h.tiles.length_lt P.fits
  have hle : (blocksUsed bs).length ≤ bs.length := List.length_filter_le ..
  simp only [addrs, List.length_map]
  omega

end

end RTThread
