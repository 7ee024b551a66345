import Mathlib.Tactic

namespace RTThread

/-- What holds of all 256 bytes, checked one by one. -/
theorem forall_byte {P : UInt8 → Prop} (h : ∀ n : Fin 256, P (UInt8.ofNat n.val)) (c : UInt8) : P c := by
  have hc := h ⟨c.toNat, c.toNat_lt⟩
  simpa using hc

/-- The number that bytes hold, the low byte first. -/
def leNat : List UInt8 → Nat
  | [] => 0
  | b :: bs => b.toNat + 256 * leNat bs

def leBytes : Nat → Nat → List UInt8
  | 0, _ => []
  | n + 1, x => UInt8.ofNat x :: leBytes n (x / 256)

/-- The first `n` bytes as a number, with what comes after them. -/
def takeNat (n : Nat) (bs : List UInt8) : Option (Nat × List UInt8) :=
  if n ≤ bs.length then some (leNat (bs.take n), bs.drop n) else none

def takeVector (n : Nat) (bs : List UInt8) : Option (Vector UInt8 n × List UInt8) :=
  if h : n ≤ bs.length then some (⟨(bs.take n).toArray, by simpa using h⟩, bs.drop n) else none

section
variable {n x : Nat} {bs rest : List UInt8}

@[simp] theorem leBytes_length : (leBytes n x).length = n := by
  induction n generalizing x with
  | zero => rfl
  | succ n ih => rw [leBytes, List.length_cons, ih]

theorem leNat_lt (bs : List UInt8) : leNat bs < 256 ^ bs.length := by
  induction bs with
  | nil => exact Nat.one_pos
  | cons b bs ih =>
    have hb := b.toNat_lt
    rw [leNat, List.length_cons, Nat.pow_succ]
    omega

theorem leNat_leBytes (h : x < 256 ^ n) : leNat (leBytes n x) = x := by
  induction n generalizing x with
  | zero =>
    rw [Nat.pow_zero] at h
    rw [leBytes, leNat]
    omega
  | succ n ih =>
    rw [Nat.pow_succ] at h
    rw [leBytes, leNat, ih (by omega), UInt8.toNat_ofNat']
    omega

theorem leBytes_leNat (bs : List UInt8) : leBytes bs.length (leNat bs) = bs := by
  induction bs with
  | nil => rfl
  | cons b bs ih =>
    have hb := b.toNat_lt
    have hlow : UInt8.ofNat (b.toNat + 256 * leNat bs) = b := by
      apply UInt8.toNat_inj.mp
      rw [UInt8.toNat_ofNat']
      omega
    have hhigh : (b.toNat + 256 * leNat bs) / 256 = leNat bs := by omega
    rw [List.length_cons, leNat, leBytes, hlow, hhigh, ih]

theorem takeNat_leBytes (h : x < 256 ^ n) : takeNat n (leBytes n x ++ rest) = some (x, rest) := by
  unfold takeNat
  rw [if_pos (by simp), List.take_left' leBytes_length, List.drop_left' leBytes_length,
    leNat_leBytes h]

theorem takeVector_append (v : Vector UInt8 n) :
    takeVector n (v.toList ++ rest) = some (v, rest) := by
  unfold takeVector
  rw [dif_pos (by simp)]
  congr 2
  · apply Vector.toList_inj.mp
    show ((v.toList ++ rest).take n).toArray.toList = v.toList
    rw [List.take_left' (by simp)]
  · exact List.drop_left' (by simp)

theorem takeNat_some (h : n ≤ bs.length) : ∃ x rest, takeNat n bs = some (x, rest) ∧
    x < 256 ^ n ∧ bs = leBytes n x ++ rest := by
  have hlen : (bs.take n).length = n := List.length_take_of_le h
  refine ⟨leNat (bs.take n), bs.drop n, if_pos h, ?_, ?_⟩
  · have hlt := leNat_lt (bs.take n)
    rwa [hlen] at hlt
  · have hbytes := leBytes_leNat (bs.take n)
    rw [hlen] at hbytes
    rw [hbytes, List.take_append_drop]

theorem takeVector_some (h : n ≤ bs.length) : ∃ v rest, takeVector n bs = some (v, rest) ∧
    bs = v.toList ++ rest := by
  refine ⟨⟨(bs.take n).toArray, by simpa using h⟩, bs.drop n, dif_pos h, ?_⟩
  exact (List.take_append_drop n bs).symm

end

end RTThread
