import Mathlib.Tactic

namespace RTThread

section
variable {α κ : Type} [DecidableEq κ] {key : α → κ} {max : Nat} {c : α} {l : List α}

/-- A list of at most `max` entries with different keys, the latest first: `c` comes to the front
and takes the place of an entry with its key. -/
def recent (key : α → κ) (max : Nat) (c : α) (l : List α) : List α :=
  (c :: l.filter fun x => key x ≠ key c).take max

def KeysDiffer (key : α → κ) (l : List α) : Prop := l.Pairwise fun x y => key x ≠ key y

theorem recent_length : (recent key max c l).length ≤ max := by simp [recent]

theorem recent_head (h : 0 < max) : (recent key max c l).head? = some c := by
  simp [recent, List.head?_take, Nat.pos_iff_ne_zero.mp h]

theorem keysDiffer_recent (h : KeysDiffer key l) : KeysDiffer key (recent key max c l) := by
  apply List.Pairwise.sublist (List.take_sublist _ _)
  apply List.pairwise_cons.mpr
  constructor
  · intro x hx
    have hne := (List.mem_filter.mp hx).2
    exact Ne.symm (of_decide_eq_true hne)
  · exact h.filter _

omit [DecidableEq κ] in
theorem keysDiffer_eraseIdx (h : KeysDiffer key l) (i : Nat) : KeysDiffer key (l.eraseIdx i) :=
  List.Pairwise.sublist (List.eraseIdx_sublist l i) h

theorem filter_key_of_new (h : ∀ x ∈ l, key x ≠ key c) :
    (l.filter fun x => key x ≠ key c) = l :=
  List.filter_eq_self.mpr fun x hx => by simpa using h x hx

/-- At most one entry has a key, so dropping the key drops one place. -/
theorem filter_key_of_found (h : KeysDiffer key l) {i : Nat} (hi : i < l.length)
    (hkey : key l[i] = key c) : (l.filter fun x => key x ≠ key c) = l.eraseIdx i := by
  induction l generalizing i with
  | nil => simp at hi
  | cons x xs ih =>
    obtain ⟨hx, hxs⟩ := List.pairwise_cons.mp h
    cases i with
    | zero =>
      have hc : key x = key c := hkey
      simp only [List.eraseIdx_zero, List.tail_cons]
      rw [List.filter_cons_of_neg (by simp [hc])]
      exact filter_key_of_new fun y hy heq => hx y hy (hc.trans heq.symm)
    | succ i =>
      have hi : i < xs.length := by simpa using hi
      have hne : key x ≠ key c := fun heq => hx xs[i] (List.getElem_mem hi) (heq.trans hkey.symm)
      rw [List.filter_cons_of_pos (by simpa using hne), List.eraseIdx_cons_succ]
      exact congrArg (x :: ·) (ih hxs hi hkey)

theorem recent_of_found (h : KeysDiffer key l) (hmax : l.length ≤ max) {i : Nat}
    (hi : i < l.length) (hkey : key l[i] = key c) : recent key max c l = c :: l.eraseIdx i := by
  unfold recent
  rw [filter_key_of_found h hi hkey]
  apply List.take_of_length_le
  rw [List.length_cons, List.length_eraseIdx_of_lt hi]
  omega

theorem recent_of_new (hnew : ∀ x ∈ l, key x ≠ key c) (hmax : l.length < max) :
    recent key max c l = c :: l := by
  unfold recent
  rw [filter_key_of_new hnew]
  exact List.take_of_length_le (by simpa using hmax)

/-- A full list loses its oldest entry. -/
theorem recent_of_full (hnew : ∀ x ∈ l, key x ≠ key c) (hmax : l.length = max) (hpos : 0 < max) :
    recent key max c l = c :: l.eraseIdx (max - 1) := by
  unfold recent
  rw [filter_key_of_new hnew]
  obtain ⟨n, rfl⟩ := Nat.exists_eq_succ_of_ne_zero (Nat.pos_iff_ne_zero.mp hpos)
  have hlast : l.eraseIdx n = l.take n := by
    rw [List.eraseIdx_eq_take_drop_succ, List.drop_of_length_le (by omega), List.append_nil]
  rw [List.take_succ_cons, Nat.succ_sub_one, hlast]

/-- The entries of `cs` go to the end of `l`, those whose key is there excepted, until it is
full. -/
def mergeNew (key : α → κ) (max : Nat) : List α → List α → List α
  | l, [] => l
  | l, c :: cs =>
    if max ≤ l.length then l
    else mergeNew key max (if ∃ x ∈ l, key x = key c then l else l ++ [c]) cs

theorem mergeNew_keysDiffer {cs : List α} (h : KeysDiffer key l) (hmax : l.length ≤ max) :
    KeysDiffer key (mergeNew key max l cs) ∧ (mergeNew key max l cs).length ≤ max := by
  induction cs generalizing l with
  | nil => exact ⟨h, hmax⟩
  | cons c cs ih =>
    rw [mergeNew]
    split
    next => exact ⟨h, hmax⟩
    next hfull =>
      split
      next => exact ih h hmax
      next hnew =>
        apply ih
        · apply List.pairwise_append.mpr
          refine ⟨h, List.pairwise_singleton _ _, ?_⟩
          intro x hx y hy heq
          rw [List.mem_singleton.mp hy] at heq
          exact hnew ⟨x, hx, heq⟩
        · rw [List.length_append, List.length_singleton]
          omega

theorem mergeNew_append {cs : List α} (h : KeysDiffer key (l ++ cs))
    (hmax : (l ++ cs).length ≤ max) : mergeNew key max l cs = l ++ cs := by
  induction cs generalizing l with
  | nil => simp [mergeNew]
  | cons c cs ih =>
    have hnew : ¬∃ x ∈ l, key x = key c := by
      rintro ⟨x, hx, heq⟩
      exact (List.pairwise_append.mp h).2.2 x hx c List.mem_cons_self heq
    rw [List.length_append, List.length_cons] at hmax
    rw [mergeNew, if_neg (by omega), if_neg hnew, ih]
    · simp
    · simpa using h
    · simp only [List.length_append, List.length_singleton]
      omega

/-- Merging into the empty list gives back just the lists that fit and tell their keys apart. -/
theorem mergeNew_nil_iff : mergeNew key max [] l = l ↔ KeysDiffer key l ∧ l.length ≤ max := by
  constructor
  · intro h
    have hmerged : KeysDiffer key (mergeNew key max [] l) ∧ (mergeNew key max [] l).length ≤ max :=
      mergeNew_keysDiffer List.Pairwise.nil (Nat.zero_le _)
    rwa [h] at hmerged
  · rintro ⟨hkeys, hlen⟩
    exact mergeNew_append (l := []) hkeys hlen

end

end RTThread
