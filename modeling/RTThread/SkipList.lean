import Mathlib.Data.List.Sort
import Mathlib.Data.List.TakeWhile
import Mathlib.Tactic

namespace RTThread

variable {α : Type}

/-- The elements of a row behind a position: its head or one of its members. -/
def afterNode [DecidableEq α] : Option α → List α → List α
  | none, row => row
  | some _, [] => []
  | some y, z :: row => if z = y then row else afterNode (some y) row

/-- Link `x` behind a position. -/
def insertAfter [DecidableEq α] (x : α) : Option α → List α → List α
  | none, row => x :: row
  | some _, [] => []
  | some y, z :: row => if z = y then z :: x :: row else z :: insertAfter x (some y) row

/-- Step from a position over what follows it until the next element is one to stop at. -/
def walkRow (stop : α → Bool) : Option α → List α → Option α
  | p, [] => p
  | p, t :: row => if stop t then p else walkRow stop (some t) row

/-- The position a search from the top row reaches in row `k`; it goes on in each row from where it
left the row above. -/
def rowHead [DecidableEq α] (stop : α → Bool) (rows : Nat → List α) : Nat → Option α
  | 0 => walkRow stop none (rows 0)
  | k + 1 => walkRow stop (rowHead stop rows k) (afterNode (rowHead stop rows k) (rows (k + 1)))

/-- Link `x` in the lowest `height` of the rows. -/
def insertRows [DecidableEq α] (stop : α → Bool) (rows : Nat → List α) (level height : Nat) (x : α) :
    Nat → List α := fun k =>
  if k < level ∧ level ≤ k + height then insertAfter x (rowHead stop rows k) (rows k) else rows k

/-- Each row but the last is a subsequence of the row below it. -/
def NestedRows (level : Nat) (rows : Nat → List α) : Prop :=
  ∀ k, k + 1 < level → (rows k).Sublist (rows (k + 1))

/-- A position that cuts a row where a search for the first element to stop at may end. -/
structure RowCut (stop : α → Bool) (row : List α) (p : Option α) (A B : List α) : Prop where
  eq : row = A ++ B
  last : p = A.getLast?
  low : ∀ y ∈ A.getLast?, stop y = false
  high : ∀ y ∈ B.head?, stop y = true

section
variable {stop : α → Bool} {rows : Nat → List α} {row row' A B : List α} {p : Option α} {x y : α}
  {k level height : Nat}

theorem walkRow_getLast? :
    walkRow stop A.getLast? B = (A ++ B.takeWhile fun t => !stop t).getLast? := by
  induction B generalizing A with
  | nil => simp [walkRow]
  | cons b B ih =>
    by_cases hb : stop b
    · simp [walkRow, hb]
    · have := ih (A := A ++ [b])
      simpa [walkRow, hb] using this

theorem sublist_dropWhile_of_stop (hB : ∀ y ∈ B.head?, stop y = true) (hs : B.Sublist row) :
    B.Sublist (row.dropWhile fun t => !stop t) := by
  induction row with
  | nil => simpa using hs
  | cons c row ih =>
    by_cases hc : stop c
    · simpa [hc] using hs
    · simp only [List.dropWhile_cons, hc, Bool.not_false, if_true]
      refine ih ?_
      cases hs with
      | cons _ hs => exact hs
      | cons_cons _ hs => exact absurd (hB c rfl) hc

/-- A longer row has a cut at the same place as the shorter one. -/
theorem sublist_cut (hs : (A ++ B).Sublist row) :
    ∃ C D, row = C ++ D ∧ C.getLast? = A.getLast? ∧ A.Sublist C ∧ B.Sublist D := by
  rcases List.eq_nil_or_concat' A with rfl | ⟨A, y, rfl⟩
  · exact ⟨[], row, rfl, rfl, .slnil, hs⟩
  · rw [List.append_assoc] at hs
    obtain ⟨R, S, rfl, hR, hS⟩ := List.append_sublist_iff.mp hs
    obtain ⟨S, T, rfl, hy, hT⟩ := List.cons_sublist_iff.mp hS
    obtain ⟨S, U, rfl⟩ := List.append_of_mem hy
    refine ⟨R ++ S ++ [y], U ++ T, by simp, by simp, ?_, hT.trans (List.sublist_append_right _ _)⟩
    exact (hR.trans (List.sublist_append_left _ _)).append (List.Sublist.refl _)

theorem nodup_row (hr : NestedRows level rows) (hn : (rows (level - 1)).Nodup) (hk : k < level) :
    (rows k).Nodup := by
  induction hj : level - 1 - k generalizing k with
  | zero => rwa [show k = level - 1 by omega]
  | succ j ih => exact (ih (k := k + 1) (by omega) (by omega)).sublist (hr k (by omega))

/-- Every row is a subsequence of the last one. -/
theorem NestedRows.sublist_bottom (hr : NestedRows level rows) (hk : k < level) :
    (rows k).Sublist (rows (level - 1)) := by
  induction hj : level - 1 - k generalizing k with
  | zero => rw [show k = level - 1 by omega]
  | succ j ih => exact (hr k (by omega)).trans (ih (k := k + 1) (by omega) (by omega))

variable [DecidableEq α]

theorem afterNode_getLast? (hn : (A ++ B).Nodup) : afterNode A.getLast? (A ++ B) = B := by
  induction A with
  | nil => simp [afterNode]
  | cons a A ih =>
    obtain ⟨ha, hn⟩ := List.nodup_cons.mp hn
    cases A with
    | nil => simp [afterNode]
    | cons c A =>
      have hne : a ≠ (c :: A).getLast (by simp) := by
        rintro rfl
        exact ha (List.mem_append_left _ (List.getLast_mem _))
      rw [List.getLast?_eq_some_getLast (by simp)] at ih ⊢
      simpa [afterNode, hne] using ih hn

theorem insertAfter_getLast? (hn : (A ++ B).Nodup) :
    insertAfter x A.getLast? (A ++ B) = A ++ x :: B := by
  induction A with
  | nil => simp [insertAfter]
  | cons a A ih =>
    obtain ⟨ha, hn⟩ := List.nodup_cons.mp hn
    cases A with
    | nil => simp [insertAfter]
    | cons c A =>
      have hne : a ≠ (c :: A).getLast (by simp) := by
        rintro rfl
        exact ha (List.mem_append_left _ (List.getLast_mem _))
      rw [List.getLast?_eq_some_getLast (by simp)] at ih ⊢
      simpa [insertAfter, hne] using ih hn

theorem rowCut_walkRow (stop : α → Bool) (hA : ∀ y ∈ A.getLast?, stop y = false) (hn : (A ++ B).Nodup) :
    RowCut stop (A ++ B) (walkRow stop A.getLast? (afterNode A.getLast? (A ++ B)))
      (A ++ B.takeWhile fun t => !stop t) (B.dropWhile fun t => !stop t) := by
  refine ⟨by simp, by rw [afterNode_getLast? hn, walkRow_getLast?], ?_, ?_⟩
  · intro y hy
    rcases List.eq_nil_or_concat' (B.takeWhile fun t => !stop t) with h | ⟨C, z, h⟩
    · rw [h, List.append_nil] at hy
      exact hA y hy
    · have hz : z ∈ B.takeWhile fun t => !stop t := by simp [h]
      have hyz : y = z := by simpa [h, eq_comm] using hy
      simpa [hyz] using List.mem_takeWhile_imp hz
  · intro y hy
    have := List.head?_dropWhile_not (fun t => !stop t) B
    rw [Option.mem_def.mp hy] at this
    simpa using this

theorem rowCut_zero (hn : (rows 0).Nodup) :
    ∃ A B, RowCut stop (rows 0) (rowHead stop rows 0) A B := by
  have h := rowCut_walkRow stop (A := []) (by simp) hn
  exact ⟨_, _, by simpa [rowHead, afterNode] using h⟩

theorem RowCut.down (h : RowCut stop row p A B) (hs : row.Sublist row') (hn : row'.Nodup) :
    ∃ A' B', RowCut stop row' (walkRow stop p (afterNode p row')) A' B' ∧
      A.Sublist A' ∧ B.Sublist B' := by
  obtain ⟨C, D, rfl, hlast, hC, hD⟩ := sublist_cut (h.eq ▸ hs)
  have hcut := rowCut_walkRow stop (fun y hy => h.low y (hlast ▸ hy)) hn
  rw [hlast, ← h.last] at hcut
  exact ⟨_, _, hcut, hC.trans (List.sublist_append_left _ _), sublist_dropWhile_of_stop h.high hD⟩

theorem rowCut_rowHead (stop : α → Bool) (hr : NestedRows level rows) (hn : (rows (level - 1)).Nodup)
    (hk : k < level) : ∃ A B, RowCut stop (rows k) (rowHead stop rows k) A B := by
  induction k with
  | zero => exact rowCut_zero (nodup_row hr hn hk)
  | succ k ih =>
    obtain ⟨A, B, h⟩ := ih (by omega)
    obtain ⟨A', B', h', -⟩ := h.down (hr k hk) (nodup_row hr hn hk)
    exact ⟨A', B', h'⟩

theorem RowCut.insertAfter (h : RowCut stop row p A B) (hn : row.Nodup) :
    insertAfter x p row = A ++ x :: B := by
  rw [h.last, h.eq]
  exact insertAfter_getLast? (h.eq ▸ hn)

theorem insertRows_nested (hr : NestedRows level rows) (hn : (rows (level - 1)).Nodup) :
    NestedRows level (insertRows stop rows level height x) := by
  intro k hk
  obtain ⟨A, B, h⟩ := rowCut_rowHead stop hr hn (k := k) (by omega)
  obtain ⟨A', B', h', hA, hB⟩ := h.down (hr k hk) (nodup_row hr hn hk)
  have hsub := hr k hk
  simp only [insertRows, rowHead]
  rw [h.insertAfter (nodup_row hr hn (by omega)), h'.insertAfter (nodup_row hr hn hk)]
  by_cases hin : level ≤ k + height
  · rw [if_pos ⟨by omega, hin⟩, if_pos ⟨by omega, by omega⟩]
    exact hA.append (hB.cons_cons x)
  · rw [if_neg (by omega)]
    split
    · rw [h.eq]
      exact hA.append (hB.cons x)
    · exact hsub

end

section
variable {κ : Type} [LinearOrder κ] {stop : α → Bool} {row A B : List α}
  {p : Option α} {x : α}

/-- In a sorted row a cut separates what comes before the key from what comes after it. -/
theorem RowCut.sorted (key : α → κ) (h : RowCut stop row p A B)
    (hs : row.Pairwise fun a b => key a ≤ key b)
    (hstop : ∀ y ∈ row, stop y = true ↔ key x < key y) :
    (∀ a ∈ A, key a ≤ key x) ∧ ∀ b ∈ B, key x < key b := by
  obtain rfl := h.eq
  obtain ⟨hA, hB, -⟩ := List.pairwise_append.mp hs
  constructor
  · intro a ha
    rcases List.eq_nil_or_concat' A with rfl | ⟨A, y, rfl⟩
    · simp at ha
    · have hy : key y ≤ key x := by
        have := h.low y (by simp)
        exact not_lt.mp fun hlt => by simp [(hstop y (by simp)).mpr hlt] at this
      rcases List.mem_append.mp ha with ha | ha
      · exact ((List.pairwise_append.mp hA).2.2 a ha y (by simp)).trans hy
      · simpa [List.mem_singleton.mp ha] using hy
  · intro b hb
    cases B with
    | nil => simp at hb
    | cons c B =>
      have hc := (hstop c (by simp)).mp (h.high c rfl)
      rcases List.mem_cons.mp hb with rfl | hb
      · exact hc
      · exact hc.trans_le (List.rel_of_pairwise_cons hB hb)

end

end RTThread
