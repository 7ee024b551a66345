import Mathlib.Tactic
import Mathlib.Order.Bounds.Basic

namespace RTThread

/-- The numbers of the bits of a machine word that are set. -/
def bits {w : Nat} (v : BitVec w) : Set Nat := {i | v.getLsbD i = true}

/-- The numbers a table of words of width `k` stands for, `k` to each word. -/
def tableBits {k : Nat} (table : Nat → BitVec k) : Set Nat := {i | i % k ∈ bits (table (i / k))}

section
variable {w k n i p : Nat} {u v : BitVec w} {group : BitVec w} {table : Nat → BitVec k}

@[simp] theorem mem_bits : i ∈ bits v ↔ v.getLsbD i = true := Iff.rfl

theorem lt_of_mem_bits (h : i ∈ bits v) : i < w := by
  by_contra hw
  rw [mem_bits, BitVec.getLsbD_of_ge v i (by omega)] at h
  simp at h

@[simp] theorem bits_zero : bits (0#w) = ∅ := by
  ext i
  simp

theorem eq_zero_iff_bits : v = 0 ↔ bits v = ∅ := by
  constructor
  · rintro rfl
    exact bits_zero
  · intro h
    refine BitVec.eq_of_getLsbD_eq fun i _ => ?_
    have hi : i ∉ bits v := by simp [h]
    simpa using hi

theorem bits_or : bits (u ||| v) = bits u ∪ bits v := by
  ext i
  simp

theorem bits_andNot : bits (u &&& ~~~v) = bits u \ bits v := by
  ext i
  simp only [mem_bits, BitVec.getLsbD_and, BitVec.getLsbD_not, Set.mem_sdiff]
  by_cases hi : i < w
  · simp [hi]
  · simp [BitVec.getLsbD_of_ge u i (by omega)]

theorem bits_and : bits (u &&& v) = bits u ∩ bits v := by
  ext i
  simp

theorem bits_injective : Function.Injective (bits (w := w)) := by
  intro u v h
  refine BitVec.eq_of_getLsbD_eq fun i _ => ?_
  have hi : i ∈ bits u ↔ i ∈ bits v := by rw [h]
  exact Bool.eq_iff_iff.mpr hi

theorem and_eq_left_iff_subset : u &&& v = u ↔ bits u ⊆ bits v := by
  rw [← bits_injective.eq_iff, bits_and, Set.inter_eq_left]

theorem and_ne_zero_iff_nonempty : u &&& v ≠ 0 ↔ (bits u ∩ bits v).Nonempty := by
  rw [ne_eq, eq_zero_iff_bits, bits_and, Set.nonempty_iff_ne_empty]

theorem bits_shiftOne (h : i < w) : bits (1#w <<< i) = {i} := by
  ext j
  simp only [mem_bits, BitVec.getLsbD_shiftLeft, BitVec.getLsbD_one, Set.mem_singleton_iff]
  constructor
  · intro hj
    simp at hj
    omega
  · rintro rfl
    simp only [Nat.lt_irrefl, Nat.sub_self, h]
    simp
    omega

theorem mem_tableBits : i ∈ tableBits table ↔ i % k ∈ bits (table (i / k)) := Iff.rfl

theorem tableBits_zero : tableBits (fun _ => 0#k) = ∅ := by
  ext i
  simp [mem_tableBits]

theorem eq_iff_mod_eq (h : i / k = p / k) : i = p ↔ i % k = p % k := by
  constructor
  · rintro rfl
    rfl
  · intro hmod
    rw [← Nat.div_add_mod i k, h, hmod, Nat.div_add_mod]

theorem tableBits_insert (hk : 0 < k) :
    tableBits (Function.update table (p / k) (table (p / k) ||| 1#k <<< (p % k))) =
      tableBits table ∪ {p} := by
  ext i
  have hp : p % k < k := Nat.mod_lt p hk
  rw [mem_tableBits, Set.mem_union, mem_tableBits, Set.mem_singleton_iff]
  by_cases hi : i / k = p / k
  · rw [hi, Function.update_self, bits_or, bits_shiftOne hp, eq_iff_mod_eq hi]
    rfl
  · have hne : i ≠ p := fun h => hi (h ▸ rfl)
    simp [Function.update_of_ne hi, hne]

theorem tableBits_erase (hk : 0 < k) :
    tableBits (Function.update table (p / k) (table (p / k) &&& ~~~(1#k <<< (p % k)))) =
      tableBits table \ {p} := by
  ext i
  have hp : p % k < k := Nat.mod_lt p hk
  rw [mem_tableBits, Set.mem_sdiff, mem_tableBits, Set.mem_singleton_iff]
  by_cases hi : i / k = p / k
  · rw [hi, Function.update_self, bits_andNot, bits_shiftOne hp, eq_iff_mod_eq hi]
    rfl
  · have hne : i ≠ p := fun h => hi (h ▸ rfl)
    simp [Function.update_of_ne hi, hne]

theorem ne_zero_iff_exists_tableBits (hk : 0 < k) :
    table n ≠ 0 ↔ ∃ i, i / k = n ∧ i ∈ tableBits table := by
  constructor
  · intro hne
    obtain ⟨i, hi⟩ := Set.nonempty_iff_ne_empty.mpr (eq_zero_iff_bits.not.mp hne)
    have hik := lt_of_mem_bits hi
    have hdiv : (i + n * k) / k = n := by
      rw [Nat.add_mul_div_right i n hk, Nat.div_eq_of_lt hik, Nat.zero_add]
    refine ⟨i + n * k, hdiv, ?_⟩
    rw [mem_tableBits, hdiv, Nat.add_mul_mod_self_right, Nat.mod_eq_of_lt hik]
    exact hi
  · rintro ⟨i, rfl, hi⟩ hzero
    rw [mem_tableBits, hzero] at hi
    simp at hi

/-- The lowest bit of the lowest word that is not zero is the least number of the table. -/
theorem isLeast_tableBits (hk : 0 < k) (hgroup : ∀ j, j ∈ bits group ↔ table j ≠ 0)
    (hn : IsLeast (bits group) n) (hi : IsLeast (bits (table n)) i) :
    IsLeast (tableBits table) (n * k + i) := by
  have hik : i < k := lt_of_mem_bits hi.1
  have hdiv : (n * k + i) / k = n := by
    rw [Nat.add_comm, Nat.add_mul_div_right i n hk, Nat.div_eq_of_lt hik, Nat.zero_add]
  have hmod : (n * k + i) % k = i := by
    rw [Nat.add_comm, Nat.add_mul_mod_self_right, Nat.mod_eq_of_lt hik]
  refine ⟨?_, fun j hj => ?_⟩
  · rw [mem_tableBits, hdiv, hmod]
    exact hi.1
  · rw [mem_tableBits] at hj
    have hne : table (j / k) ≠ 0 := by
      intro hzero
      rw [hzero] at hj
      simp at hj
    have hle : n ≤ j / k := hn.2 ((hgroup (j / k)).mpr hne)
    have hdecomp := Nat.div_add_mod' j k
    rcases Nat.lt_or_ge n (j / k) with hlt | hge
    · have hmul : (n + 1) * k ≤ j / k * k := Nat.mul_le_mul_right k hlt
      rw [Nat.succ_mul] at hmul
      omega
    · have heq : j / k = n := by omega
      rw [heq] at hj hdecomp
      have hlow : i ≤ j % k := hi.2 hj
      omega

end

end RTThread
