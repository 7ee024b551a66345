import Mathlib.Tactic

namespace RTThread

/-- The slot behind `i` in a buffer of `size` slots. -/
def nextSlot (size i : Nat) : Nat := if size ≤ i + 1 then 0 else i + 1

/-- What a buffer of `size` slots with `count` elements from slot `out` on holds, oldest first. -/
def ringContents {α : Type} (slot : Nat → α) (size out count : Nat) : List α :=
  (List.range count).map fun i => slot ((out + i) % size)

section
variable {α : Type} {slot : Nat → α} {size out count i j : Nat} {x : α}

theorem nextSlot_eq_mod (h : i < size) : nextSlot size i = (i + 1) % size := by
  unfold nextSlot
  split
  next hw =>
    obtain rfl : size = i + 1 := by omega
    exact (Nat.mod_self (i + 1)).symm
  next hw => exact (Nat.mod_eq_of_lt (by omega)).symm

theorem nextSlot_lt (h : i < size) : nextSlot size i < size := by
  unfold nextSlot
  split <;> omega

theorem slot_ne (hij : i < j) (hj : j < size) : (out + i) % size ≠ (out + j) % size := by
  intro he
  have hmod : (i + out) % size = (j + out) % size := by rwa [Nat.add_comm i, Nat.add_comm j]
  have heq : i % size = j % size := Nat.ModEq.add_right_cancel' out hmod
  rw [Nat.mod_eq_of_lt (hij.trans hj), Nat.mod_eq_of_lt hj] at heq
  omega

theorem ringContents_length : (ringContents slot size out count).length = count := by
  simp [ringContents]

theorem ringContents_zero : ringContents slot size out 0 = [] := rfl

/-- Writing the free slot behind the last element appends. -/
theorem ringContents_put (h : count < size) :
    ringContents (Function.update slot ((out + count) % size) x) size out (count + 1) =
      ringContents slot size out count ++ [x] := by
  unfold ringContents
  rw [List.range_succ, List.map_append]
  have hold : (List.range count).map
      (fun i => Function.update slot ((out + count) % size) x ((out + i) % size)) =
      (List.range count).map fun i => slot ((out + i) % size) :=
    List.map_congr_left fun i hi =>
      Function.update_of_ne (slot_ne (List.mem_range.mp hi) h) _ _
  rw [hold]
  simp

/-- Moving the start past the first element takes it out. -/
theorem ringContents_take (h : out < size) :
    ringContents slot size out (count + 1) =
      slot out :: ringContents slot size ((out + 1) % size) count := by
  unfold ringContents
  rw [List.range_succ_eq_map, List.map_cons, List.map_map, Nat.add_zero, Nat.mod_eq_of_lt h]
  refine congrArg _ (List.map_congr_left fun i _ => ?_)
  rw [Function.comp_apply, Nat.mod_add_mod]
  congr 2
  omega

theorem ringContents_mod :
    ringContents slot size (out % size) count = ringContents slot size out count := by
  simp [ringContents]

theorem ringContents_size_add (i : Nat) :
    ringContents slot size (size + i) count = ringContents slot size i count := by
  simp [ringContents, Nat.add_assoc]

theorem ringContents_add (n : Nat) : ringContents slot size out (count + n) =
    ringContents slot size out count ++ ringContents slot size (out + count) n := by
  simp [ringContents, List.range_add, Function.comp_def, Nat.add_assoc]

/-- A stretch that does not reach the end of the buffer is read in place. -/
theorem ringContents_of_le (h : out + count ≤ size) :
    ringContents slot size out count = (List.range count).map fun i => slot (out + i) := by
  refine List.map_congr_left fun i hi => ?_
  have hlt := List.mem_range.mp hi
  rw [Nat.mod_eq_of_lt (by omega)]

theorem ringContents_take_le {n : Nat} (h : n ≤ count) :
    (ringContents slot size out count).take n = ringContents slot size out n := by
  obtain ⟨k, rfl⟩ := Nat.exists_eq_add_of_le h
  rw [ringContents_add, List.take_left' ringContents_length]

theorem ringContents_drop_le {n : Nat} (h : n ≤ count) :
    (ringContents slot size out count).drop n = ringContents slot size (out + n) (count - n) := by
  obtain ⟨k, rfl⟩ := Nat.exists_eq_add_of_le h
  rw [ringContents_add, List.drop_left' ringContents_length, Nat.add_sub_cancel_left]

end

/-- `xs` written to a buffer of `size` slots from slot `start` on, going round at its end. -/
def ringWrite {α : Type} (slot : Nat → α) (size start : Nat) : List α → Nat → α
  | [] => slot
  | x :: xs => ringWrite (Function.update slot (start % size) x) size (start + 1) xs

section
variable {α : Type} {slot : Nat → α} {size out start count : Nat} {xs ys : List α}

theorem ringWrite_mod : ringWrite slot size (start % size) xs = ringWrite slot size start xs := by
  induction xs generalizing slot start with
  | nil => rfl
  | cons x xs ih =>
    have hstart : (start % size + 1) % size = (start + 1) % size := Nat.mod_add_mod _ _ _
    rw [ringWrite, ringWrite, Nat.mod_mod, ← ih, hstart, ih]

theorem ringWrite_append : ringWrite slot size start (xs ++ ys) =
    ringWrite (ringWrite slot size start xs) size (start + xs.length) ys := by
  induction xs generalizing slot start with
  | nil => rfl
  | cons x xs ih =>
    rw [List.cons_append, ringWrite, ringWrite, ih, List.length_cons, Nat.add_assoc,
      Nat.add_comm xs.length 1]

/-- Writing on from the last element appends, as long as no element is overwritten. -/
theorem ringContents_write (h : count + xs.length ≤ size) :
    ringContents (ringWrite slot size (out + count) xs) size out (count + xs.length) =
      ringContents slot size out count ++ xs := by
  induction xs generalizing slot count with
  | nil => exact (List.append_nil _).symm
  | cons x xs ih =>
    rw [List.length_cons] at h ⊢
    have hnext : count + (xs.length + 1) = count + 1 + xs.length := by omega
    rw [ringWrite, hnext, Nat.add_assoc, ih (by omega), ringContents_put (by omega),
      List.append_assoc]
    rfl

end

/-- The longest suffix of `xs` with at most `n` elements. -/
def keepLast {α : Type} (n : Nat) (xs : List α) : List α := xs.drop (xs.length - n)

section
variable {α : Type} {n size out count : Nat} {slot : Nat → α} {xs ys : List α}

theorem keepLast_length : (keepLast n xs).length = min n xs.length := by
  simp [keepLast]
  omega

theorem keepLast_of_le (h : xs.length ≤ n) : keepLast n xs = xs := by
  rw [keepLast, Nat.sub_eq_zero_of_le h, List.drop_zero]

/-- What is cut off early is cut off anyway. -/
theorem keepLast_append : keepLast n (keepLast n xs ++ ys) = keepLast n (xs ++ ys) := by
  by_cases h : xs.length ≤ n
  · rw [keepLast_of_le h]
  · unfold keepLast
    rw [List.length_append, List.length_append, List.length_drop, ← List.drop_append_of_le_length
      (by omega), List.drop_drop]
    congr 1
    omega

theorem keepLast_append_of_le (h : n ≤ ys.length) : keepLast n (xs ++ ys) = keepLast n ys := by
  unfold keepLast
  rw [List.drop_append, List.drop_eq_nil_of_le (by simp; omega), List.nil_append,
    List.length_append]
  congr 1
  omega

theorem keepLast_append_right : keepLast n (xs ++ keepLast n ys) = keepLast n (xs ++ ys) := by
  rcases Nat.le_total ys.length n with h | h
  · rw [keepLast_of_le h]
  · have hlen : (keepLast n ys).length = n := by rw [keepLast_length, Nat.min_eq_left h]
    rw [keepLast_append_of_le h, keepLast_append_of_le hlen.ge, keepLast_of_le hlen.le]

/-- A write that fills the buffer leaves the newest elements, from where it ends on. -/
theorem ringContents_overwrite (hlen : xs.length ≤ size) (hfull : size ≤ count + xs.length) :
    ringContents (ringWrite slot size (out + count) xs) size (out + count + xs.length) size =
      keepLast size (ringContents slot size out count ++ xs) := by
  obtain ⟨k, hk⟩ := Nat.exists_eq_add_of_le hfull
  have hstart : out + count = out + k + (count - k) := by omega
  have hend : out + count + xs.length = size + (out + k) := by omega
  have hkept : count - k + xs.length = size := by omega
  have hwritten : ringContents (ringWrite slot size (out + k + (count - k)) xs) size (out + k)
      (count - k + xs.length) = ringContents slot size (out + k) (count - k) ++ xs :=
    ringContents_write hkept.le
  have hlast : keepLast size (ringContents slot size out count ++ xs) =
      (ringContents slot size out count).drop k ++ xs := by
    have hcut : (ringContents slot size out count ++ xs).length - size = k := by
      rw [List.length_append, ringContents_length]
      omega
    rw [keepLast, hcut, List.drop_append_of_le_length]
    rw [ringContents_length]
    omega
  rw [hlast, ringContents_drop_le (by omega), hend, ringContents_size_add, hstart, ← hwritten,
    hkept]

end

end RTThread
