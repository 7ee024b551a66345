import Mathlib.Tactic

namespace RTThread

/-- The items of a pool held in places: each item is in one place at most, and there once. -/
structure Held {ι α : Type} (pool : List α) (holds : ι → List α) : Prop where
  nodup : ∀ p, (holds p).Nodup
  unique : ∀ {a p r}, a ∈ holds p → a ∈ holds r → p = r
  inside : ∀ {a p}, a ∈ holds p → a ∈ pool

section
variable {ι α : Type} {pool : List α} {holds holds' : ι → List α} {p d : ι} {a : α}
  {l : List α}

theorem Held.congr (h : Held pool holds) (hperm : ∀ p, (holds' p).Perm (holds p)) : Held pool holds' := by
  refine ⟨fun p => (hperm p).nodup_iff.mpr (h.nodup p), fun {a p r} hp hr => ?_, fun hp => ?_⟩
  · exact h.unique ((hperm _).mem_iff.mp hp) ((hperm _).mem_iff.mp hr)
  · exact h.inside ((hperm _).mem_iff.mp hp)

theorem Held.not_mem (h : Held pool holds) (ha : a ∈ holds p) (hne : p ≠ d) : a ∉ holds d :=
  fun had => hne (h.unique ha had)

/-- An item goes from one place to another. -/
theorem Held.move (h : Held pool holds) (hne : p ≠ d) (hfrom : (holds p).Perm (a :: l))
    (hrest : (holds' p).Perm l) (hdest : (holds' d).Perm (a :: holds d))
    (hother : ∀ r, r ≠ p → r ≠ d → (holds' r).Perm (holds r)) : Held pool holds' := by
  have hap : a ∈ holds p := hfrom.mem_iff.mpr List.mem_cons_self
  obtain ⟨harest, hnodup⟩ := List.nodup_cons.mp (hfrom.nodup_iff.mp (h.nodup p))
  -- where an item is now tells where it was
  have hwas : ∀ {b r}, b ∈ holds' r → b ∈ holds r ∧ b ≠ a ∨ r = d ∧ b = a := by
    intro b r hb
    by_cases hrp : r = p
    · subst hrp
      have hb' := hrest.mem_iff.mp hb
      exact .inl ⟨hfrom.mem_iff.mpr (List.mem_cons_of_mem a hb'), ne_of_mem_of_not_mem hb' harest⟩
    · by_cases hrd : r = d
      · subst hrd
        rcases List.mem_cons.mp (hdest.mem_iff.mp hb) with rfl | hb'
        · exact .inr ⟨rfl, rfl⟩
        · exact .inl ⟨hb', ne_of_mem_of_not_mem hb' (h.not_mem hap hne)⟩
      · have hb' := (hother r hrp hrd).mem_iff.mp hb
        exact .inl ⟨hb', ne_of_mem_of_not_mem hb' (h.not_mem hap (Ne.symm hrp))⟩
  refine ⟨fun r => ?_, fun {b r r'} hr hr' => ?_, fun {b r} hr => ?_⟩
  · by_cases hrp : r = p
    · subst hrp
      exact hrest.nodup_iff.mpr hnodup
    · by_cases hrd : r = d
      · subst hrd
        exact hdest.nodup_iff.mpr (List.nodup_cons.mpr ⟨h.not_mem hap hne, h.nodup r⟩)
      · exact (hother r hrp hrd).nodup_iff.mpr (h.nodup r)
  · rcases hwas hr with ⟨hb, hba⟩ | ⟨rfl, rfl⟩
    · rcases hwas hr' with ⟨hb', -⟩ | ⟨-, heq⟩
      · exact h.unique hb hb'
      · exact absurd heq hba
    · rcases hwas hr' with ⟨-, hba⟩ | ⟨rfl, -⟩
      · exact absurd rfl hba
      · rfl
  · rcases hwas hr with ⟨hb, -⟩ | ⟨-, rfl⟩
    · exact h.inside hb
    · exact h.inside hap

end

end RTThread
