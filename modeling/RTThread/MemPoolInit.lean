import RTThread.MemPoolBlocks

namespace RTThread

/-- `rt_mp_init` writes nothing outside the `size` bytes from `start`, and the free list it leaves
has as many entries as the pool counts blocks. -/
def PoolInitSafe (A : AlignSize) (start size blockSize : Nat) : Prop :=
  ∀ m, (∀ a, a < start ∨ start + size ≤ a →
      (rtMpInit A m start size blockSize).1.byte a = m.byte a) ∧
    ∃ free, NodeList (read32 (rtMpInit A m start size blockSize).1) 0
        (rtMpInit A m start size blockSize).2.blockList free ∧
      free.length = (rtMpInit A m start size blockSize).2.blockTotalCount

/-- The rounded block and its link fit in the rounded memory, and their sum does not wrap to 0. -/
def FitsOneBlock (A : AlignSize) (size blockSize : Nat) : Prop :=
  word (rtAlign A blockSize + 4) ≠ 0 ∧ word (rtAlign A blockSize + 4) ≤ rtAlignDown A size

section
variable {A : AlignSize} {m : Memory} {b k count start size blockSize : Nat}

theorem rtAlignDown_le (A : AlignSize) (n : Nat) : rtAlignDown A n ≤ n := Nat.and_le_left

theorem linkBlocks_outside {a : Nat} (hroom : b + count * k ≤ 4294967296) (hk : 4 ≤ k)
    (ha : a < b ∨ b + count * k ≤ a) : (linkBlocks m b k count).byte a = m.byte a := by
  induction count with
  | zero => rfl
  | succ count ih =>
    rw [Nat.add_mul, Nat.one_mul] at hroom ha
    have hlast : word (b + count * k) = b + count * k := word_of_lt (by omega)
    rw [linkBlocks, hlast, write32_outside (by omega)]
    exact ih (by omega) (by omega)

theorem initBlockList_outside {a : Nat} (hroom : b + count * k ≤ 4294967296) (hk : 4 ≤ k)
    (hcount : 0 < count) (ha : a < b ∨ b + count * k ≤ a) :
    (initBlockList m b k count).byte a = m.byte a := by
  have hlinks := linkBlocks_outside (m := m) hroom hk ha
  obtain ⟨n, rfl⟩ : ∃ n, count = n + 1 := ⟨count - 1, by omega⟩
  rw [Nat.add_mul, Nat.one_mul] at hroom ha
  have hle : n * 4 ≤ n * k := Nat.mul_le_mul_left n hk
  have hlast : wordSub (n + 1) 1 = n := wordSub_of_le (by omega) (by omega)
  rw [initBlockList, hlast, word_of_lt (by omega), write32_outside (by omega)]
  exact hlinks

/-- The list that the loop and the terminating link build, over all blocks in order. -/
theorem initBlockList_nodes (hb : 0 < b) (hroom : b + count * k ≤ 4294967296) (hk : 4 ≤ k)
    (hcount : 0 < count) : NodeList (read32 (initBlockList m b k count)) 0 b
      ((List.range count).map fun i => b + i * k) := by
  have hle : count * 4 ≤ count * k := Nat.mul_le_mul_left count hk
  have hread : ∀ i, 0 ≤ i → i < 0 + count → read32 (initBlockList m b k count) (b + i * k) =
      if i + 1 = 0 + count then 0 else b + (i + 1) * k := by
    intro i _ hi
    rw [Nat.zero_add] at hi ⊢
    exact initBlockList_read hk hroom (by omega) hi
  have hnodes := nodeList_blocks hb hread
  rw [if_neg (by omega), Nat.zero_mul, Nat.add_zero, ← List.range_eq_range'] at hnodes
  exact hnodes

/-- The initialisation is safe exactly when at least one block fits. -/
theorem rtMpInit_safe_iff (hA : 2 ≤ A.log) (hstart : 0 < start) (hroom : start + size ≤ 4294967296) :
    PoolInitSafe A start size blockSize ↔ FitsOneBlock A size blockSize := by
  have hstride : word (rtAlign A blockSize + 4) % 4 = 0 := by
    have hfour : 4 ∣ rtAlign A blockSize := dvd_trans (pow_dvd_pow 2 hA) (rtAlign_dvd A blockSize)
    unfold word
    omega
  have hsize := rtAlignDown_le A size
  constructor
  · intro h
    by_contra hfits
    have hzero : rtAlignDown A size / word (rtAlign A blockSize + 4) = 0 := by
      by_cases hne : word (rtAlign A blockSize + 4) = 0
      · rw [hne, Nat.div_zero]
      · exact Nat.div_eq_of_lt (by by_contra hle; exact hfits ⟨hne, by omega⟩)
    obtain ⟨-, free, hnodes, hlength⟩ := h ⟨fun _ => 0⟩
    have hempty : free = [] := List.eq_nil_of_length_eq_zero (hlength.trans hzero)
    have hnull : start = 0 := hnodes.nil_iff.mp hempty
    omega
  · rintro ⟨hne, hfit⟩ m
    have hpos : 0 < rtAlignDown A size / word (rtAlign A blockSize + 4) :=
      Nat.div_pos hfit (Nat.pos_of_ne_zero hne)
    have hle := Nat.div_mul_le_self (rtAlignDown A size) (word (rtAlign A blockSize + 4))
    refine ⟨fun a ha => initBlockList_outside (by omega) (by omega) hpos (by omega), _,
      initBlockList_nodes hstart (by omega) (by omega) hpos, ?_⟩
    rw [List.length_map, List.length_range]
    rfl

end

/-- A pool of 256 bytes and blocks of 20. -/
theorem rtMpInit_safe_twelve : 2 ≤ align4.log ∧ 0 < 536870912 ∧ 536870912 + 256 ≤ 4294967296 ∧
    PoolInitSafe align4 536870912 256 20 :=
  ⟨by decide, by decide, by decide,
    (rtMpInit_safe_iff (by decide) (by decide) (by decide)).mpr (by unfold FitsOneBlock; decide)⟩

/-- No block of 16 bytes fits in 8: the terminating null goes below the memory. -/
theorem no_block_writes_below : ¬PoolInitSafe align4 536870912 8 16 := by
  intro h
  have hbelow := (h ⟨fun _ => 255⟩).1 536870892 (by decide)
  exact absurd hbelow (by decide)

end RTThread
