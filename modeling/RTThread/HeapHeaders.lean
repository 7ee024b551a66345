import RTThread.HeapModel

namespace RTThread

theorem and_high_bits {x k : Nat} (hx : x < 4294967296) (hk : k ≤ 32) :
    x &&& (4294967296 - 2 ^ k) = x / 2 ^ k * 2 ^ k := by
  have hm : 2 ^ 32 - 2 ^ k = (2 ^ (32 - k) - 1) <<< k := by
    rw [Nat.shiftLeft_eq, Nat.sub_mul, one_mul, ← pow_add, Nat.sub_add_cancel hk]
  rw [show (4294967296 : Nat) = 2 ^ 32 from rfl] at hx ⊢
  rw [hm, ← Nat.shiftRight_eq_div_pow, ← Nat.shiftLeft_eq]
  apply Nat.eq_of_testBit_eq
  intro i
  simp only [Nat.testBit_and, Nat.testBit_shiftLeft, Nat.testBit_two_pow_sub_one,
    Nat.testBit_shiftRight]
  by_cases hi : k ≤ i
  · by_cases hb : i < 32
    · simp [hi, show i - k < 32 - k by omega]
    · have hz : x.testBit i = false :=
        Nat.testBit_lt_two_pow (lt_of_lt_of_le hx (Nat.pow_le_pow_right (by omega) (by omega)))
      simp [hi, hz]
  · simp [hi]

theorem AlignSize.size_pos (A : AlignSize) : 0 < A.size := Nat.two_pow_pos _

theorem AlignSize.size_le (A : AlignSize) : A.size ≤ 536870912 :=
  Nat.pow_le_pow_right (n := 2) (by omega) A.log_le

/-- Masking by a power of two is rounding to a multiple of it. -/
theorem rtAlign_eq (A : AlignSize) (n : Nat) :
    rtAlign A n = word (n + A.size - 1) / A.size * A.size :=
  and_high_bits (word_lt _) (by have := A.log_le; omega)

theorem rtAlignDown_eq (A : AlignSize) {n : Nat} (hn : n < 4294967296) :
    rtAlignDown A n = n / A.size * A.size :=
  and_high_bits hn (by have := A.log_le; omega)

theorem rtAlign_dvd (A : AlignSize) (n : Nat) : A.size ∣ rtAlign A n := by
  rw [rtAlign_eq]
  exact Nat.dvd_mul_left _ _

theorem rtAlign_lt (A : AlignSize) (n : Nat) : rtAlign A n < 4294967296 := by
  rw [rtAlign_eq]
  exact lt_of_le_of_lt (Nat.div_mul_le_self _ _) (word_lt _)

theorem le_rtAlign {A : AlignSize} {n : Nat} (h : n + A.size ≤ 4294967296) : n ≤ rtAlign A n := by
  have hpos := A.size_pos
  rw [rtAlign_eq, word_of_lt (by omega)]
  have hm := Nat.div_add_mod (n + A.size - 1) A.size
  have hl := Nat.mod_lt (n + A.size - 1) hpos
  rw [Nat.mul_comm] at hm
  omega

theorem rtAlign_le (A : AlignSize) (n : Nat) : rtAlign A n ≤ n + A.size - 1 := by
  rw [rtAlign_eq]
  exact le_trans (Nat.div_mul_le_self _ _) (Nat.mod_le _ _)

theorem rtAlign_of_dvd {A : AlignSize} {n : Nat} (hd : A.size ∣ n) (hn : n < 4294967296) :
    rtAlign A n = n := by
  have hle : n + A.size ≤ 4294967296 := by
    have hk : A.size ∣ 4294967296 := by
      have : (4294967296 : Nat) = 2 ^ 32 := by norm_num
      rw [this]
      exact Nat.pow_dvd_pow 2 (by have := A.log_le; omega)
    have hs : A.size ∣ 4294967296 - n := Nat.dvd_sub hk hd
    have := Nat.le_of_dvd (by omega) hs
    omega
  have h1 := le_rtAlign hle
  have h2 := rtAlign_le A n
  obtain ⟨i, hi⟩ := hd
  obtain ⟨j, hj⟩ := rtAlign_dvd A n
  have hpos := A.size_pos
  rw [hj, hi] at h1 h2 ⊢
  have hij : i ≤ j := Nat.le_of_mul_le_mul_left h1 hpos
  have hji : j < i + 1 := by
    apply Nat.lt_of_mul_lt_mul_left (a := A.size)
    rw [Nat.mul_add]
    omega
  rw [show j = i by omega]

theorem sizeofStructMem_dvd (A : AlignSize) : A.size ∣ A.sizeofStructMem := rtAlign_dvd A _

theorem sizeofStructMem_ge (A : AlignSize) : 12 ≤ A.sizeofStructMem :=
  le_rtAlign (by have := A.size_le; omega)

theorem minSizeAligned_eq (A : AlignSize) : A.minSizeAligned = A.sizeofStructMem := rfl

/-- Two headers that share no byte. -/
def Apart (x y : Nat) : Prop := x + 12 ≤ y ∨ y + 12 ≤ x

section
variable {m m' : Memory} {x y v : Nat}

theorem header_congr (h : ∀ i, x ≤ i → i < x + 12 → m'.byte i = m.byte i) :
    header m' x = header m x := by
  unfold header
  rw [read16_congr fun i _ _ => h i (by omega) (by omega),
    read16_congr fun i _ _ => h i (by omega) (by omega),
    read32_congr fun i _ _ => h i (by omega) (by omega),
    read32_congr fun i _ _ => h i (by omega) (by omega)]

theorem header_next_lt (m : Memory) (x : Nat) : (header m x).next < 4294967296 := read32_lt _ _

theorem header_setMagic_apart (h : Apart y x) : header (setMagic m x v) y = header m y :=
  header_congr fun i _ _ => write16_outside (by unfold Apart at h; omega)

theorem header_setUsed_apart (h : Apart y x) : header (setUsed m x v) y = header m y :=
  header_congr fun i _ _ => write16_outside (by unfold Apart at h; omega)

theorem header_setNext_apart (h : Apart y x) : header (setNext m x v) y = header m y :=
  header_congr fun i _ _ => write32_outside (by unfold Apart at h; omega)

theorem header_setPrev_apart (h : Apart y x) : header (setPrev m x v) y = header m y :=
  header_congr fun i _ _ => write32_outside (by unfold Apart at h; omega)

@[simp] theorem header_setMagic : header (setMagic m x v) x =
    { header m x with tag := { (header m x).tag with magic := v % 65536 } } := by
  simp only [header, setMagic, read16_write16_same,
    read16_write16_disjoint m (show x + 2 + 2 ≤ x ∨ x + 2 ≤ x + 2 by omega),
    read32_write16_disjoint m (show x + 4 + 4 ≤ x ∨ x + 2 ≤ x + 4 by omega),
    read32_write16_disjoint m (show x + 8 + 4 ≤ x ∨ x + 2 ≤ x + 8 by omega)]

@[simp] theorem header_setUsed : header (setUsed m x v) x =
    { header m x with tag := { (header m x).tag with used := v % 65536 } } := by
  simp only [header, setUsed, read16_write16_same,
    read16_write16_disjoint m (show x + 2 ≤ x + 2 ∨ x + 2 + 2 ≤ x by omega),
    read32_write16_disjoint m (show x + 4 + 4 ≤ x + 2 ∨ x + 2 + 2 ≤ x + 4 by omega),
    read32_write16_disjoint m (show x + 8 + 4 ≤ x + 2 ∨ x + 2 + 2 ≤ x + 8 by omega)]

@[simp] theorem header_setNext :
    header (setNext m x v) x = { header m x with next := word v } := by
  simp only [header, setNext, read32_write32_same,
    read16_write32_disjoint m (show x + 2 ≤ x + 4 ∨ x + 4 + 4 ≤ x by omega),
    read16_write32_disjoint m (show x + 2 + 2 ≤ x + 4 ∨ x + 4 + 4 ≤ x + 2 by omega),
    read32_write32_disjoint m (show x + 8 + 4 ≤ x + 4 ∨ x + 4 + 4 ≤ x + 8 by omega)]

@[simp] theorem header_setPrev :
    header (setPrev m x v) x = { header m x with prev := word v } := by
  simp only [header, setPrev, read32_write32_same,
    read16_write32_disjoint m (show x + 2 ≤ x + 8 ∨ x + 8 + 4 ≤ x by omega),
    read16_write32_disjoint m (show x + 2 + 2 ≤ x + 8 ∨ x + 8 + 4 ≤ x + 2 by omega),
    read32_write32_disjoint m (show x + 4 + 4 ≤ x + 8 ∨ x + 8 + 4 ≤ x + 4 by omega)]

theorem header_insertRemainder_self {ptr ptr2 : Nat} (h : Apart ptr ptr2) :
    header (insertRemainder m ptr ptr2) ptr = { header m ptr with next := word ptr2 } := by
  simp [insertRemainder, header_setPrev_apart h, header_setNext_apart h, header_setUsed_apart h,
    header_setMagic_apart h]

theorem header_insertRemainder_new {ptr ptr2 : Nat} (h : Apart ptr ptr2) :
    header (insertRemainder m ptr ptr2) ptr2 =
      ⟨⟨heapMagic, 0⟩, (header m ptr).next, word ptr⟩ := by
  have h' : Apart ptr2 ptr := Or.symm h
  simp [insertRemainder, header_setNext_apart h', header_setUsed_apart h,
    header_setMagic_apart h, heapMagic, word_of_lt (header_next_lt m ptr)]

theorem header_insertRemainder_apart {ptr ptr2 : Nat} (h : Apart y ptr) (h2 : Apart y ptr2) :
    header (insertRemainder m ptr ptr2) y = header m y := by
  simp [insertRemainder, header_setNext_apart h, header_setPrev_apart h2,
    header_setNext_apart h2, header_setUsed_apart h2, header_setMagic_apart h2]

end

end RTThread
