import Mathlib.Tactic

namespace RTThread

/-- What a receiver waits for: all or some of the wanted events, and whether it takes them away. -/
structure Interest (α : Type) where
  wanted : Set α
  all : Prop
  clear : Prop

def Interest.Holds {α : Type} (i : Interest α) (e : Set α) : Prop :=
  i.all ∧ i.wanted ⊆ e ∨ ¬ i.all ∧ (i.wanted ∩ e).Nonempty

/-- The events left behind when `i` receives from `e`. -/
def Interest.Leaves {α : Type} (i : Interest α) (e e' : Set α) : Prop :=
  i.clear ∧ e' = e \ i.wanted ∨ ¬ i.clear ∧ e' = e

/-- Receivers served in turn from the events `e`: what each one receives and what is left. -/
inductive Delivered {α : Type} :
    Set α → List (Interest α) → List (Option (Set α)) → Set α → Prop where
  | nil {e} : Delivered e [] [] e
  | served {i e e' e'' is xs} (hi : i.Holds e) (hl : i.Leaves e e') (hd : Delivered e' is xs e'') :
    Delivered e (i :: is) (some (i.wanted ∩ e) :: xs) e''
  | passed {i e e' is xs} (hi : ¬ i.Holds e) (hd : Delivered e is xs e') :
    Delivered e (i :: is) (none :: xs) e'

section
variable {α : Type} {i : Interest α} {is : List (Interest α)} {e e' e'' : Set α}
  {xs ys : List (Option (Set α))} {n : Nat}

theorem Interest.Holds.mono (h : i.Holds e) (hsub : e ⊆ e') : i.Holds e' := by
  rcases h with ⟨hall, h⟩ | ⟨hall, h⟩
  · exact .inl ⟨hall, h.trans hsub⟩
  · exact .inr ⟨hall, h.mono (Set.inter_subset_inter_right _ hsub)⟩

theorem Interest.Leaves.subset (h : i.Leaves e e') : e' ⊆ e := by
  rcases h with ⟨-, rfl⟩ | ⟨-, rfl⟩
  · exact Set.sdiff_subset
  · exact subset_rfl

theorem Interest.Leaves.unique (h : i.Leaves e e') (h' : i.Leaves e e'') : e' = e'' := by
  rcases h with ⟨hc, rfl⟩ | ⟨hc, rfl⟩ <;> rcases h' with ⟨hc', rfl⟩ | ⟨hc', rfl⟩
  · rfl
  · contradiction
  · contradiction
  · rfl

theorem Delivered.unique (h : Delivered e is xs e') (h' : Delivered e is ys e'') :
    xs = ys ∧ e' = e'' := by
  induction h generalizing ys with
  | nil =>
    cases h'
    exact ⟨rfl, rfl⟩
  | served hi hl _ ih =>
    cases h' with
    | served _ hl' hd' =>
      obtain rfl := hl.unique hl'
      obtain ⟨rfl, rfl⟩ := ih hd'
      exact ⟨rfl, rfl⟩
    | passed hi' _ => contradiction
  | passed hi _ ih =>
    cases h' with
    | served hi' _ _ => contradiction
    | passed _ hd' =>
      obtain ⟨rfl, rfl⟩ := ih hd'
      exact ⟨rfl, rfl⟩

theorem Delivered.subset (h : Delivered e is xs e') : e' ⊆ e := by
  induction h with
  | nil => exact subset_rfl
  | served _ hl _ ih => exact ih.trans hl.subset
  | passed _ _ ih => exact ih

/-- One pass is enough: whoever was passed over is not satisfied by what is left at the end. -/
theorem Delivered.not_holds (h : Delivered e is xs e') (hi : is[n]? = some i)
    (hx : xs[n]? = some none) : ¬ i.Holds e' := by
  induction h generalizing n with
  | nil => simp at hi
  | served _ _ _ ih =>
    cases n with
    | zero => simp at hx
    | succ n => exact ih hi hx
  | passed hpass hd ih =>
    cases n with
    | zero =>
      obtain rfl := Option.some.inj hi
      exact fun hend => hpass (hend.mono hd.subset)
    | succ n => exact ih hi hx

end

end RTThread
