import Mathlib.Tactic

namespace RTThread

/-- A sum over all elements of a finite type, kept from being unfolded: the type is large. -/
@[irreducible] def total {ι : Type} [Fintype ι] (f : ι → Nat) : Nat := ∑ i, f i

section
variable {ι : Type} [Fintype ι] {f g : ι → Nat} {a b : Nat}

theorem total_mono (h : ∀ i, f i ≤ g i) : total f ≤ total g := by
  unfold total
  exact Finset.sum_le_sum fun i _ => h i

theorem total_eq_zero (h : ∀ i, f i = 0) : total f = 0 := by
  unfold total
  exact Finset.sum_eq_zero fun i _ => h i

variable [DecidableEq ι]

theorem total_add_le_total_add (i : ι) (hne : ∀ j, j ≠ i → f j ≤ g j) (hi : f i + a ≤ g i + b) :
    total f + a ≤ total g + b := by
  have hrest : ∑ j ∈ Finset.univ.erase i, f j ≤ ∑ j ∈ Finset.univ.erase i, g j :=
    Finset.sum_le_sum fun j hj => hne j (Finset.ne_of_mem_erase hj)
  have hf := Finset.add_sum_erase Finset.univ f (Finset.mem_univ i)
  have hg := Finset.add_sum_erase Finset.univ g (Finset.mem_univ i)
  unfold total
  omega

theorem total_le_total_add (i : ι) (hne : ∀ j, j ≠ i → f j ≤ g j) (hi : f i ≤ g i + b) :
    total f ≤ total g + b := by
  simpa using total_add_le_total_add (a := 0) i hne hi

theorem total_succ_le_total (i : ι) (hne : ∀ j, j ≠ i → f j ≤ g j) (hi : f i + 1 ≤ g i) :
    total f + 1 ≤ total g := by
  simpa using total_add_le_total_add (b := 0) i hne hi

theorem total_eq_succ (i : ι) (hne : ∀ j, j ≠ i → f j = g j) (hi : f i = g i + 1) :
    total f = total g + 1 := by
  have hle := total_le_total_add i (fun j hj => (hne j hj).le) hi.le
  have hge := total_succ_le_total i (fun j hj => (hne j hj).ge) hi.ge
  omega

theorem total_add_eq (i : ι) (hne : ∀ j, j ≠ i → f j = g j) (hi : f i + a = g i + b) :
    total f + a = total g + b :=
  (total_add_le_total_add i (fun j hj => (hne j hj).le) hi.le).antisymm
    (total_add_le_total_add i (fun j hj => (hne j hj).ge) hi.ge)

end

end RTThread
