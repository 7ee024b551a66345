import Mathlib.Data.List.Infix

namespace RTThread

section
variable {α : Type} [DecidableEq α] {a b q : List α} {names : List (List α)}

/-- How many elements two lists have in common at the front. -/
def commonLength : List α → List α → Nat
  | x :: a, y :: b => if x = y then commonLength a b + 1 else 0
  | _, _ => 0

def commonPrefix (a b : List α) : List α := a.take (commonLength a b)

/-- What all lists of a nonempty family begin with. -/
def longestCommon : List (List α) → List α
  | [] => []
  | a :: names => names.foldl commonPrefix a

theorem commonLength_comm (a b : List α) : commonLength a b = commonLength b a := by
  induction a generalizing b with
  | nil => cases b <;> rfl
  | cons x a ih =>
    cases b with
    | nil => rfl
    | cons y b =>
      unfold commonLength
      by_cases h : x = y
      · rw [if_pos h, if_pos h.symm, ih]
      · rw [if_neg h, if_neg (Ne.symm h)]

theorem commonLength_le (a b : List α) : commonLength a b ≤ a.length := by
  induction a generalizing b with
  | nil => cases b <;> exact Nat.zero_le _
  | cons x a ih =>
    cases b with
    | nil => exact Nat.zero_le _
    | cons y b =>
      unfold commonLength
      split
      · exact Nat.succ_le_succ (ih b)
      · exact Nat.zero_le _

theorem prefix_commonPrefix_iff : q <+: commonPrefix a b ↔ q <+: a ∧ q <+: b := by
  unfold commonPrefix
  induction a generalizing b q with
  | nil =>
    have hzero : commonLength ([] : List α) b = 0 := by cases b <;> rfl
    rw [hzero, List.take_nil]
    constructor
    · intro h
      rw [List.prefix_nil.mp h]
      exact ⟨List.nil_prefix, List.nil_prefix⟩
    · exact And.left
  | cons x a ih =>
    cases b with
    | nil =>
      have hzero : commonLength (x :: a) [] = 0 := rfl
      rw [hzero, List.take_zero]
      constructor
      · intro h
        rw [List.prefix_nil.mp h]
        exact ⟨List.nil_prefix, List.nil_prefix⟩
      · exact And.right
    | cons y b =>
      cases q with
      | nil => simp
      | cons z q =>
        unfold commonLength
        by_cases h : x = y
        · rw [if_pos h, List.take_succ_cons, List.cons_prefix_cons, List.cons_prefix_cons,
            List.cons_prefix_cons, ih, ← h]
          constructor
          · rintro ⟨hz, ha, hb⟩
            exact ⟨⟨hz, ha⟩, hz, hb⟩
          · rintro ⟨⟨hz, ha⟩, -, hb⟩
            exact ⟨hz, ha, hb⟩
        · rw [if_neg h, List.take_zero, List.cons_prefix_cons, List.cons_prefix_cons]
          constructor
          · intro hq
            exact absurd (List.prefix_nil.mp hq) (List.cons_ne_nil z q)
          · rintro ⟨⟨hx, -⟩, hy, -⟩
            exact absurd (hx.symm.trans hy) h

theorem prefix_foldl_iff : q <+: names.foldl commonPrefix a ↔ q <+: a ∧ ∀ name ∈ names, q <+: name := by
  induction names generalizing a with
  | nil => simp
  | cons name names ih =>
    rw [List.foldl_cons, ih, prefix_commonPrefix_iff, List.forall_mem_cons, and_assoc]

/-- The prefixes of `longestCommon names` are the common prefixes of the family. -/
theorem prefix_longestCommon_iff (h : names ≠ []) :
    q <+: longestCommon names ↔ ∀ name ∈ names, q <+: name := by
  cases names with
  | nil => exact absurd rfl h
  | cons a names => exact prefix_foldl_iff.trans List.forall_mem_cons.symm

theorem longestCommon_begins {name : List α} (h : name ∈ names) : longestCommon names <+: name :=
  (prefix_longestCommon_iff (List.ne_nil_of_mem h)).mp (List.prefix_refl _) name h

/-- The common prefix of a family is known from its length and any member. -/
theorem commonPrefix_take (m : Nat) :
    commonPrefix (a.take m) b = a.take (min m (commonLength a b)) := by
  have hbegins : ∀ q, q <+: commonPrefix (a.take m) b ↔ q <+: a.take (min m (commonLength a b)) := by
    intro q
    rw [prefix_commonPrefix_iff, ← List.take_take, List.prefix_take_iff, List.prefix_take_iff]
    have hboth : q <+: a.take (commonLength a b) ↔ q <+: a ∧ q <+: b := prefix_commonPrefix_iff
    rw [hboth]
    constructor
    · rintro ⟨⟨ha, hlen⟩, hb⟩
      exact ⟨⟨ha, hb⟩, hlen⟩
    · rintro ⟨⟨ha, hb⟩, hlen⟩
      exact ⟨⟨ha, hlen⟩, hb⟩
  have hle := (hbegins _).mp (List.prefix_refl _)
  have hge := (hbegins _).mpr (List.prefix_refl _)
  exact hle.eq_of_length_le hge.length_le

end

end RTThread
