import RTThread.HeapHeaders

namespace RTThread

/-- A block of the arena with the tag its header keeps. -/
abbrev Block := Cell HeapTag

def usedTag : HeapTag := ⟨heapMagic, 1⟩

def freeTag : HeapTag := ⟨heapMagic, 0⟩

def isFree (k : Block) : Bool := k.tag.used == 0

def usedBlocks (bs : List Block) : List Block := bs.filter (!isFree ·)

def usedBytes (bs : List Block) : Nat := ((usedBlocks bs).map fun k => k.next - k.off).sum

/-- Offset of the first free block, or `stop` when there is none. -/
def lowestFree (stop : Nat) (bs : List Block) : Nat :=
  ((bs.find? isFree).map Cell.off).getD stop

def NoFreePair (bs : List Block) : Prop := bs.IsChain fun x y => ¬(isFree x ∧ isFree y)

/-- The arena holds exactly the blocks `bs`. -/
structure HeapShape (A : AlignSize) (h : Heap) (bs : List Block) : Prop where
  tiles : Tiled A.sizeofStructMem (header h.mem) 0 0 bs h.heapEnd
  endUsed : (header h.mem h.heapEnd).tag.used ≠ 0
  endNext : (header h.mem h.heapEnd).next = h.heapEnd
  endOff : h.heapEnd = h.memSizeAligned + A.sizeofStructMem
  fits : h.heapPtr + h.heapEnd + A.sizeofStructMem < 4294967296
  ptrAligned : A.size ∣ h.heapPtr
  aligned : ∀ k ∈ bs, A.size ∣ k.off
  tags : ∀ k ∈ bs, k.tag = usedTag ∨ k.tag = freeTag
  lfreeAt : h.lfree = h.heapEnd ∨ ∃ k ∈ bs, k.off = h.lfree ∧ isFree k

section
variable {A : AlignSize} {h : Heap} {xs ys bs : List Block} {k n : Block} {stop : Nat}

@[simp] theorem usedBlocks_append : usedBlocks (xs ++ ys) = usedBlocks xs ++ usedBlocks ys :=
  List.filter_append ..

@[simp] theorem usedBlocks_cons_free (hf : isFree k) : usedBlocks (k :: ys) = usedBlocks ys := by
  simp [usedBlocks, hf]

@[simp] theorem usedBlocks_cons_used (hu : isFree k = false) :
    usedBlocks (k :: ys) = k :: usedBlocks ys := by
  simp [usedBlocks, hu]

theorem usedBytes_append : usedBytes (xs ++ ys) = usedBytes xs + usedBytes ys := by
  simp [usedBytes]

theorem usedBytes_cons_used (hu : isFree k = false) :
    usedBytes (k :: ys) = (k.next - k.off) + usedBytes ys := by
  simp [usedBytes, hu]

theorem usedBytes_cons_free (hf : isFree k) : usedBytes (k :: ys) = usedBytes ys := by
  simp [usedBytes, hf]

theorem Tiled.usedBytes_le {w p a b : Nat} {rd : Nat → HeapMem} (ht : Tiled w rd p a bs b) :
    usedBytes bs + a ≤ b := by
  induction bs generalizing p a with
  | nil =>
    have he : a = b := ht
    simp [usedBytes, usedBlocks, he]
  | cons k bs ih =>
    obtain ⟨ho, _, hw, ht⟩ := ht
    have hh := ih ht
    cases hk : isFree k with
    | true => rw [usedBytes_cons_free hk]; omega
    | false => rw [usedBytes_cons_used hk]; omega

theorem lowestFree_append_free (hf : isFree k) :
    lowestFree stop (xs ++ k :: ys) = lowestFree k.off xs := by
  unfold lowestFree
  rw [List.find?_append]
  cases hx : xs.find? isFree <;> simp [hf]

theorem lowestFree_append_used (hu : isFree k = false) :
    lowestFree stop (xs ++ k :: ys) = lowestFree stop (xs ++ ys) := by
  unfold lowestFree
  rw [List.find?_append, List.find?_append]
  cases hx : xs.find? isFree <;> simp [hu]

theorem lowestFree_cons_free (hf : isFree k) : lowestFree stop (k :: ys) = k.off := by
  simp [lowestFree, hf]

theorem lowestFree_cons_used (hu : isFree k = false) :
    lowestFree stop (k :: ys) = lowestFree stop ys := by
  simp [lowestFree, hu]

theorem lowestFree_of_used (hn : ∀ x ∈ xs, isFree x = false) : lowestFree stop xs = stop := by
  have hfind : xs.find? isFree = none := List.find?_eq_none.mpr (by simpa using hn)
  simp [lowestFree, hfind]

theorem lowestFree_append_nil (hn : ∀ x ∈ xs, isFree x = false) :
    lowestFree stop (xs ++ ys) = lowestFree stop ys := by
  unfold lowestFree
  rw [List.find?_append, List.find?_eq_none.mpr (by simpa using hn)]
  simp

theorem lowestFree_spec (stop : Nat) (bs : List Block) : lowestFree stop bs = stop ∧ (∀ x ∈ bs, isFree x = false) ∨
    ∃ us v ws, bs = us ++ v :: ws ∧ isFree v ∧ lowestFree stop bs = v.off ∧
      ∀ x ∈ us, isFree x = false := by
  cases hx : bs.find? isFree with
  | none =>
    left
    have hn := List.find?_eq_none.mp hx
    exact ⟨by simp [lowestFree, hx], fun x hm => by simpa using hn x hm⟩
  | some v =>
    right
    obtain ⟨hv, us, ws, rfl, hus⟩ := List.find?_eq_some_iff_append.mp hx
    exact ⟨us, v, ws, rfl, hv, by simp [lowestFree, hx], fun x hm => by simpa using hus x hm⟩

theorem freeTag_of_isFree (ht : k.tag = usedTag ∨ k.tag = freeTag) (hf : isFree k) :
    k.tag = freeTag := by
  rcases ht with ht | ht
  · simp [isFree, ht, usedTag] at hf
  · exact ht

theorem usedTag_of_not_isFree (ht : k.tag = usedTag ∨ k.tag = freeTag) (hu : isFree k = false) :
    k.tag = usedTag := by
  rcases ht with ht | ht
  · exact ht
  · simp [isFree, ht, freeTag] at hu

/-- The header the code reads at a block of the arena. -/
theorem HeapShape.header_eq (hs : HeapShape A h (xs ++ k :: ys)) :
    header h.mem k.off = ⟨k.tag, k.next, lastOff 0 xs⟩ := by
  obtain ⟨m, _, ho, hr, _⟩ := tiled_append.mp hs.tiles
  rw [ho, hr]

theorem HeapShape.bounds (hs : HeapShape A h bs) (hk : k ∈ bs) :
    k.off + A.sizeofStructMem ≤ k.next ∧ k.next ≤ h.heapEnd :=
  (hs.tiles.bounds hk).2

theorem HeapShape.end_lt (hs : HeapShape A h bs) : h.heapEnd < 4294967296 := by
  have := hs.fits
  omega

/-- The block after `k` starts where `k` ends; after the last one comes `heap_end`. -/
theorem HeapShape.next_off (hs : HeapShape A h (xs ++ k :: n :: ys)) : n.off = k.next := by
  obtain ⟨m, _, _, _, _, hn, _⟩ := tiled_append.mp hs.tiles
  exact hn

theorem HeapShape.last_next (hs : HeapShape A h (xs ++ [k])) : k.next = h.heapEnd := by
  obtain ⟨m, _, _, _, _, he⟩ := tiled_append.mp hs.tiles
  exact he

theorem HeapShape.next_eq_or_lt (hs : HeapShape A h (xs ++ k :: ys)) :
    h.heapEnd = k.next ∨ k.next + A.sizeofStructMem ≤ h.heapEnd := by
  cases ys with
  | nil => exact Or.inl hs.last_next.symm
  | cons n ys =>
    have hb := hs.bounds (k := n) (by simp)
    have ho := hs.next_off
    exact Or.inr (by omega)

theorem HeapShape.before (hs : HeapShape A h (xs ++ k :: ys)) (hx : n ∈ xs) :
    n.off + A.sizeofStructMem ≤ k.off := by
  have hp := hs.tiles.pairwise
  have hb := hs.bounds (List.mem_append_left _ hx)
  have := (List.pairwise_append.mp hp).2.2 n hx k List.mem_cons_self
  omega

theorem HeapShape.after (hs : HeapShape A h (xs ++ k :: ys)) (hy : n ∈ ys) :
    k.next ≤ n.off := by
  have hp := (List.pairwise_append.mp hs.tiles.pairwise).2.1
  exact (List.pairwise_cons.mp hp).1 n hy

end

end RTThread
