import Mathlib.Tactic

namespace RTThread

/-- Following `next` from `a` visits the nodes of the list and arrives at `b`, and `prev` leads back. -/
def LinkedPath {α : Type} (next prev : α → α) : α → List α → α → Prop
  | a, [], b => next a = b ∧ prev b = a
  | a, x :: xs, b => next a = x ∧ prev x = a ∧ LinkedPath next prev x xs b

/-- The circular list with header `h` and the nodes `xs`. -/
structure Ring {α : Type} (next prev : α → α) (h : α) (xs : List α) : Prop where
  path : LinkedPath next prev h xs h
  nodup : (h :: xs).Nodup

section
variable {α : Type} {next prev next' prev' : α → α} {a b h n x : α} {xs ys : List α}

theorem linkedPath_append : LinkedPath next prev a (xs ++ x :: ys) b ↔
    LinkedPath next prev a xs x ∧ LinkedPath next prev x ys b := by
  induction xs generalizing a with
  | nil => exact and_assoc.symm
  | cons c xs ih =>
    rw [List.cons_append]
    simp only [LinkedPath, ih, and_assoc]

theorem LinkedPath.congr (hc : LinkedPath next prev a xs b) (hnext : ∀ c ∈ a :: xs, next' c = next c)
    (hprev : ∀ c ∈ xs ++ [b], prev' c = prev c) : LinkedPath next' prev' a xs b := by
  induction xs generalizing a with
  | nil =>
    obtain ⟨h1, h2⟩ := hc
    exact ⟨(hnext a List.mem_cons_self).trans h1, (hprev b List.mem_cons_self).trans h2⟩
  | cons x xs ih =>
    obtain ⟨h1, h2, h3⟩ := hc
    refine ⟨(hnext a List.mem_cons_self).trans h1, (hprev x List.mem_cons_self).trans h2, ?_⟩
    exact ih h3 (fun c hc => hnext c (List.mem_cons_of_mem a hc))
      fun c hc => hprev c (List.mem_cons_of_mem x hc)

theorem Ring.congr (hr : Ring next prev h xs) (hnext : ∀ c ∈ h :: xs, next' c = next c)
    (hprev : ∀ c ∈ h :: xs, prev' c = prev c) : Ring next' prev' h xs := by
  refine ⟨hr.path.congr hnext fun c hc => hprev c ?_, hr.nodup⟩
  rcases List.mem_append.mp hc with hc | hc
  · exact List.mem_cons_of_mem h hc
  · rw [List.mem_singleton.mp hc]
    exact List.mem_cons_self

theorem LinkedPath.next_mem (hc : LinkedPath next prev a xs b) : next a ∈ xs ++ [b] := by
  cases xs with
  | nil => exact List.mem_singleton.mpr hc.1
  | cons x xs =>
    rw [hc.1]
    exact List.mem_cons_self

theorem LinkedPath.prev_mem (hc : LinkedPath next prev a xs b) : prev b ∈ a :: xs := by
  induction xs generalizing a with
  | nil => exact List.mem_singleton.mpr hc.2
  | cons x xs ih => exact List.mem_cons_of_mem a (ih hc.2.2)

/-- Leaving out a node: its neighbours point to each other. -/
theorem LinkedPath.remove (hc : LinkedPath next prev a (xs ++ x :: ys) b)
    (hfirst : (a :: (xs ++ x :: ys)).Nodup) (hlast : (xs ++ x :: ys ++ [b]).Nodup)
    (hn : next' (prev x) = next x) (hp : prev' (next x) = prev x)
    (hnext : ∀ c ∈ a :: (xs ++ ys), c ≠ prev x → next' c = next c)
    (hprev : ∀ c ∈ xs ++ ys ++ [b], c ≠ next x → prev' c = prev c) :
    LinkedPath next' prev' a (xs ++ ys) b := by
  induction xs generalizing a with
  | nil =>
    obtain ⟨hax, hxa, hrest⟩ := hc
    rw [hxa] at hn hp hnext
    rw [List.nil_append] at hfirst hnext hprev ⊢
    cases ys with
    | nil =>
      obtain ⟨hxb, -⟩ := hrest
      rw [hxb] at hn hp
      exact ⟨hn, hp⟩
    | cons y ys =>
      obtain ⟨hxy, -, hrest⟩ := hrest
      rw [hxy] at hn hp hprev
      have hay := (List.nodup_cons.mp hfirst).1
      have hyb := (List.nodup_cons.mp (List.nodup_cons.mp hlast).2).1
      refine ⟨hn, hp, hrest.congr (fun c hc => hnext c (List.mem_cons_of_mem a hc) ?_)
        fun c hc => hprev c (List.mem_cons_of_mem y hc) ?_⟩
      · rintro rfl
        exact hay (List.mem_cons_of_mem x hc)
      · rintro rfl
        exact hyb hc
  | cons c xs ih =>
    obtain ⟨hac, hca, hrest⟩ := hc
    have hparts := linkedPath_append.mp hrest
    have hpx : prev x ∈ c :: xs := hparts.1.prev_mem
    have hnx : next x ∈ ys ++ [b] := hparts.2.next_mem
    obtain ⟨hanot, hfirst'⟩ := List.nodup_cons.mp hfirst
    obtain ⟨hcnot, hlast'⟩ := List.nodup_cons.mp hlast
    refine ⟨?_, ?_, ih hrest hfirst' hlast' (fun d hd => hnext d (List.mem_cons_of_mem a hd))
      fun d hd => hprev d (List.mem_cons_of_mem c hd)⟩
    · rw [hnext a List.mem_cons_self, hac]
      rintro rfl
      exact hanot (List.mem_append_left (x :: ys) hpx)
    · rw [hprev c List.mem_cons_self, hca]
      rintro rfl
      apply hcnot
      show next x ∈ xs ++ x :: ys ++ [b]
      rw [List.append_assoc]
      exact List.mem_append_right xs (List.mem_cons_of_mem x hnx)

theorem Ring.next_mem (hr : Ring next prev h xs) (hx : x ∈ h :: xs) : next x ∈ h :: xs := by
  have hend : ∀ {us : List α}, us ++ [h] ⊆ h :: us := by
    intro us c hc
    rcases List.mem_append.mp hc with hc | hc
    · exact List.mem_cons_of_mem h hc
    · rw [List.mem_singleton.mp hc]
      exact List.mem_cons_self
  rcases List.mem_cons.mp hx with rfl | hx
  · exact hend hr.path.next_mem
  · obtain ⟨us, vs, rfl⟩ := List.append_of_mem hx
    have hmem := hend (linkedPath_append.mp hr.path).2.next_mem
    rcases List.mem_cons.mp hmem with he | hmem
    · rw [he]
      exact List.mem_cons_self
    · exact List.mem_cons_of_mem h (List.mem_append_right us (List.mem_cons_of_mem x hmem))

theorem Ring.prev_mem (hr : Ring next prev h xs) (hx : x ∈ h :: xs) : prev x ∈ h :: xs := by
  rcases List.mem_cons.mp hx with rfl | hx
  · exact hr.path.prev_mem
  · obtain ⟨us, vs, rfl⟩ := List.append_of_mem hx
    have hmem := (linkedPath_append.mp hr.path).1.prev_mem
    rcases List.mem_cons.mp hmem with he | hmem
    · rw [he]
      exact List.mem_cons_self
    · exact List.mem_cons_of_mem h (List.mem_append_left (x :: vs) hmem)

theorem Ring.next_ne (hr : Ring next prev h (xs ++ x :: ys)) : next x ≠ x := by
  intro he
  have hmem := (linkedPath_append.mp hr.path).2.next_mem
  rw [he] at hmem
  obtain ⟨hnot, hnodup⟩ := List.nodup_cons.mp hr.nodup
  rcases List.mem_append.mp hmem with hy | hy
  · exact (List.nodup_cons.mp (List.nodup_append.mp hnodup).2.1).1 hy
  · exact hnot (List.mem_singleton.mp hy ▸ List.mem_append_right xs List.mem_cons_self)

/-- Linking a node in behind the header. -/
theorem Ring.insert (hr : Ring next prev h xs) (hx : n ∉ h :: xs) (h1 : next' h = n)
    (h2 : next' n = next h) (h3 : prev' n = h) (h4 : prev' (next h) = n)
    (hnext : ∀ c ∈ xs, next' c = next c) (hprev : ∀ c ∈ h :: xs, c ≠ next h → prev' c = prev c) :
    Ring next' prev' h (n :: xs) := by
  obtain ⟨hc, hnodup⟩ := hr
  have hnh : ¬n = h := fun he => hx (he ▸ List.mem_cons_self)
  refine ⟨⟨h1, h3, ?_⟩, ?_⟩
  · cases xs with
    | nil =>
      obtain ⟨hh, -⟩ := hc
      rw [hh] at h2 h4
      exact ⟨h2, h4⟩
    | cons y ys =>
      obtain ⟨hhy, -, hrest⟩ := hc
      rw [hhy] at h2 h4 hprev
      obtain ⟨hnot, hys⟩ := List.nodup_cons.mp hnodup
      refine ⟨h2, h4, hrest.congr hnext fun c hc => ?_⟩
      rcases List.mem_append.mp hc with hc | hc
      · refine hprev c (List.mem_cons_of_mem h (List.mem_cons_of_mem y hc)) ?_
        rintro rfl
        exact (List.nodup_cons.mp hys).1 hc
      · obtain rfl := List.mem_singleton.mp hc
        exact hprev c List.mem_cons_self fun he => hnot (he ▸ List.mem_cons_self)
  · obtain ⟨hnot, hxs⟩ := List.nodup_cons.mp hnodup
    refine List.nodup_cons.mpr ⟨?_, List.nodup_cons.mpr ⟨fun hn => hx (List.mem_cons_of_mem h hn), hxs⟩⟩
    rintro (hmem | ⟨_, hmem⟩)
    · exact hnh rfl
    · exact hnot hmem

/-- Unlinking a node. -/
theorem Ring.remove (hr : Ring next prev h (xs ++ x :: ys)) (hn : next' (prev x) = next x)
    (hp : prev' (next x) = prev x) (hnext : ∀ c ∈ h :: (xs ++ ys), c ≠ prev x → next' c = next c)
    (hprev : ∀ c ∈ h :: (xs ++ ys), c ≠ next x → prev' c = prev c) :
    Ring next' prev' h (xs ++ ys) := by
  obtain ⟨hc, hnodup⟩ := hr
  have hrotated : (xs ++ x :: ys ++ [h]).Nodup :=
    List.perm_append_comm.nodup_iff.mpr hnodup
  refine ⟨hc.remove hnodup hrotated hn hp hnext fun c hc => hprev c ?_, ?_⟩
  · rcases List.mem_append.mp hc with hc | hc
    · exact List.mem_cons_of_mem h hc
    · rw [List.mem_singleton.mp hc]
      exact List.mem_cons_self
  · refine hnodup.sublist (List.Sublist.cons_cons h ?_)
    exact List.Sublist.append_left (List.sublist_cons_self x ys) xs

theorem LinkedPath.unique (hx : LinkedPath next prev a xs b) (hy : LinkedPath next prev a ys b)
    (hnx : b ∉ xs) (hny : b ∉ ys) : xs = ys := by
  induction xs generalizing a ys with
  | nil =>
    cases ys with
    | nil => rfl
    | cons y ys =>
      have he : b = y := hx.1.symm.trans hy.1
      exact absurd (he ▸ List.mem_cons_self) hny
  | cons x xs ih =>
    cases ys with
    | nil =>
      have he : b = x := hy.1.symm.trans hx.1
      exact absurd (he ▸ List.mem_cons_self) hnx
    | cons y ys =>
      obtain ⟨hax, -, hxs⟩ := hx
      obtain ⟨hay, -, hys⟩ := hy
      obtain rfl : x = y := hax.symm.trans hay
      rw [ih hxs hys (fun hm => hnx (List.mem_cons_of_mem x hm)) fun hm =>
        hny (List.mem_cons_of_mem x hm)]

/-- A header has one ring. -/
theorem Ring.unique (hx : Ring next prev h xs) (hy : Ring next prev h ys) : xs = ys :=
  hx.path.unique hy.path (List.nodup_cons.mp hx.nodup).1 (List.nodup_cons.mp hy.nodup).1

end

end RTThread
