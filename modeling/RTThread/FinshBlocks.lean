import RTThread.FinshHeapModel

namespace RTThread

/-- A block of the heap: where its header lies, the length of its data, and its list. -/
structure FinshBlock where
  addr : Nat
  len : Nat
  free : Bool
deriving DecidableEq, Repr

def FinshBlock.stop (b : FinshBlock) : Nat := b.addr + blockHeader + b.len

/-- The blocks fill `[a, e)` one behind the other. -/
def BlockTiles : Nat → List FinshBlock → Nat → Prop
  | a, [], e => a = e
  | a, b :: bs, e => b.addr = a ∧ BlockTiles b.stop bs e

def blocksFree (bs : List FinshBlock) : List FinshBlock := bs.filter (·.free)

def blocksUsed (bs : List FinshBlock) : List FinshBlock := bs.filter (!·.free)

@[simp] theorem blocksFree_nil : blocksFree [] = [] := rfl

@[simp] theorem blocksUsed_nil : blocksUsed [] = [] := rfl

@[simp] theorem blocksFree_append (as bs : List FinshBlock) :
    blocksFree (as ++ bs) = blocksFree as ++ blocksFree bs := List.filter_append ..

@[simp] theorem blocksUsed_append (as bs : List FinshBlock) :
    blocksUsed (as ++ bs) = blocksUsed as ++ blocksUsed bs := List.filter_append ..

theorem blocksFree_cons (b : FinshBlock) (bs : List FinshBlock) :
    blocksFree (b :: bs) = if b.free then b :: blocksFree bs else blocksFree bs :=
  List.filter_cons ..

theorem blocksUsed_cons (b : FinshBlock) (bs : List FinshBlock) :
    blocksUsed (b :: bs) = if b.free then blocksUsed bs else b :: blocksUsed bs := by
  unfold blocksUsed
  cases hb : b.free with
  | true => simp [hb]
  | false => simp [hb]

section
variable {a e : Nat} {as bs cs : List FinshBlock} {b c : FinshBlock}

theorem blockTiles_append : BlockTiles a (as ++ bs) e ↔ ∃ m, BlockTiles a as m ∧ BlockTiles m bs e := by
  induction as generalizing a with
  | nil => simp [BlockTiles]
  | cons b as ih =>
    simp only [List.cons_append, BlockTiles, ih]
    constructor
    · rintro ⟨hb, m, has, hbs⟩
      exact ⟨m, ⟨hb, has⟩, hbs⟩
    · rintro ⟨m, ⟨hb, has⟩, hbs⟩
      exact ⟨hb, m, has, hbs⟩

theorem BlockTiles.bounds (h : BlockTiles a bs e) (hb : b ∈ bs) : a ≤ b.addr ∧ b.stop ≤ e := by
  induction bs generalizing a with
  | nil => simp at hb
  | cons c bs ih =>
    have hle : ∀ {a' : Nat} {cs : List FinshBlock}, BlockTiles a' cs e → a' ≤ e := by
      intro a' cs hcs
      induction cs generalizing a' with
      | nil => exact Nat.le_of_eq hcs
      | cons d cs ih =>
        have hd := ih hcs.2
        have ha := hcs.1
        unfold FinshBlock.stop at hd
        omega
    have hstop := hle h.2
    have ha := h.1
    rcases List.mem_cons.mp hb with rfl | hb
    · exact ⟨by omega, hstop⟩
    · have hrest := ih h.2 hb
      refine ⟨?_, hrest.2⟩
      have hpos := hrest.1
      unfold FinshBlock.stop at hpos
      omega

/-- Every block ends before the later ones begin. -/
theorem BlockTiles.pairwise (h : BlockTiles a bs e) : bs.Pairwise fun b c => b.stop ≤ c.addr := by
  induction bs generalizing a with
  | nil => exact List.Pairwise.nil
  | cons b bs ih => exact List.pairwise_cons.mpr ⟨fun c hc => (h.2.bounds hc).1, ih h.2⟩

theorem BlockTiles.neighbours (h : BlockTiles a (as ++ b :: c :: bs) e) : b.stop = c.addr := by
  obtain ⟨m, -, -, hc⟩ := blockTiles_append.mp h
  exact hc.1.symm

/-- Blocks that touch stand next to each other. -/
theorem BlockTiles.touching (h : BlockTiles a (as ++ b :: (bs ++ c :: cs)) e)
    (htouch : b.stop = c.addr) : bs = [] := by
  have hpair := (List.pairwise_append.mp h.pairwise).2.1
  obtain ⟨hb, hrest⟩ := List.pairwise_cons.mp hpair
  cases bs with
  | nil => rfl
  | cons d bs =>
    have hbd : b.stop ≤ d.addr := hb d (by simp)
    have hdc : d.stop ≤ c.addr := (List.pairwise_cons.mp hrest).1 c (by simp)
    unfold FinshBlock.stop blockHeader at hdc htouch hbd
    omega

/-- Cutting a block in two. -/
theorem BlockTiles.split {size : Nat} {f g : Bool} (h : BlockTiles a (as ++ b :: bs) e)
    (hsize : size + blockHeader ≤ b.len) :
    BlockTiles a (as ++ ⟨b.addr, size, f⟩ ::
      ⟨b.addr + blockHeader + size, b.len - blockHeader - size, g⟩ :: bs) e := by
  obtain ⟨m, has, hb, hbs⟩ := blockTiles_append.mp h
  refine blockTiles_append.mpr ⟨m, has, hb, rfl, ?_⟩
  have hstop : b.addr + blockHeader + size + blockHeader + (b.len - blockHeader - size) = b.stop := by
    unfold FinshBlock.stop
    omega
  unfold FinshBlock.stop
  rw [hstop]
  exact hbs

/-- Joining two neighbours. -/
theorem BlockTiles.join {f : Bool} (h : BlockTiles a (as ++ b :: c :: bs) e) :
    BlockTiles a (as ++ ⟨b.addr, b.len + (c.len + blockHeader), f⟩ :: bs) e := by
  obtain ⟨m, has, hb, hc, hbs⟩ := blockTiles_append.mp h
  refine blockTiles_append.mpr ⟨m, has, hb, ?_⟩
  have hstop : b.addr + blockHeader + (b.len + (c.len + blockHeader)) = c.stop := by
    unfold FinshBlock.stop at hc ⊢
    omega
  unfold FinshBlock.stop
  rw [hstop]
  exact hbs

theorem BlockTiles.retag {f : Bool} (h : BlockTiles a (as ++ b :: bs) e) :
    BlockTiles a (as ++ { b with free := f } :: bs) e := by
  obtain ⟨m, has, hb, hbs⟩ := blockTiles_append.mp h
  exact blockTiles_append.mpr ⟨m, has, hb, hbs⟩

/-- The blocks are no more than the headers that fit. -/
theorem BlockTiles.count (h : BlockTiles a bs e) : a + blockHeader * bs.length ≤ e := by
  induction bs generalizing a with
  | nil => exact Nat.le_of_eq h
  | cons b bs ih =>
    have hrest := ih h.2
    have ha := h.1
    simp only [List.length_cons, FinshBlock.stop, blockHeader] at hrest ⊢
    omega

end

/-- Two headers that are one, or share no byte. -/
def Sep (x y : Nat) : Prop := x = y ∨ x + blockHeader ≤ y ∨ y + blockHeader ≤ x

section
variable {m : Memory} {x y v : Nat}

theorem blockNext_setBlockNext (h : Sep x y) :
    blockNext (setBlockNext m y v) x = if x = y then word v else blockNext m x := by
  unfold Sep blockHeader at h
  unfold blockNext setBlockNext
  split
  next heq => rw [heq, read32_write32_same]
  next hne => exact read32_write32_disjoint m (by omega)

theorem blockLength_setBlockNext (h : Sep x y) :
    blockLength (setBlockNext m y v) x = blockLength m x := by
  unfold Sep blockHeader at h
  exact read32_write32_disjoint m (by omega)

theorem blockLength_setLength (h : Sep x y) :
    blockLength (setLength m y v) x = if x = y then word v else blockLength m x := by
  unfold Sep blockHeader at h
  unfold blockLength setLength
  split
  next heq => rw [heq, read32_write32_same]
  next hne => exact read32_write32_disjoint m (by omega)

theorem blockNext_setLength (h : Sep x y) : blockNext (setLength m y v) x = blockNext m x := by
  unfold Sep blockHeader at h
  exact read32_write32_disjoint m (by omega)

theorem blockNext_lt (m : Memory) (x : Nat) : blockNext m x < 4294967296 := read32_lt _ _

theorem blockLength_lt (m : Memory) (x : Nat) : blockLength m x < 4294967296 := read32_lt _ _

end

end RTThread
