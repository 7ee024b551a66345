import Mathlib.Tactic

namespace RTThread

/-- The links a header keeps: its own tag and the offsets of both neighbours. -/
structure Links (τ : Type) where
  tag : τ
  next : Nat
  prev : Nat
deriving DecidableEq, Repr

/-- A piece of a range: it starts at `off` and the next piece starts at `next`. -/
structure Cell (τ : Type) where
  off : Nat
  next : Nat
  tag : τ
deriving DecidableEq, Repr

section
variable {τ : Type} {w p a b : Nat} {rd rd' : Nat → Links τ} {cs ds : List (Cell τ)}

/-- `cs` tiles `[a, b)` by pieces with headers of `w` bytes read through `rd`;
`p` is what the first piece records as its predecessor. -/
def Tiled (w : Nat) (rd : Nat → Links τ) : Nat → Nat → List (Cell τ) → Nat → Prop
  | _, a, [], b => a = b
  | p, a, c :: cs, b =>
    c.off = a ∧ rd a = ⟨c.tag, c.next, p⟩ ∧ a + w ≤ c.next ∧ Tiled w rd a c.next cs b

/-- The predecessor a piece placed right after `cs` records. -/
def lastOff : Nat → List (Cell τ) → Nat
  | p, [] => p
  | _, c :: cs => lastOff c.off cs

@[simp] theorem lastOff_nil : lastOff p ([] : List (Cell τ)) = p := rfl

@[simp] theorem lastOff_cons {c : Cell τ} : lastOff p (c :: cs) = lastOff c.off cs := rfl

@[simp] theorem lastOff_concat {c : Cell τ} : lastOff p (cs ++ [c]) = c.off := by
  induction cs generalizing p with
  | nil => rfl
  | cons d cs ih => exact ih

theorem Tiled.le (h : Tiled w rd p a cs b) : a ≤ b := by
  induction cs generalizing p a with
  | nil => exact Nat.le_of_eq h
  | cons c cs ih =>
    have hh := ih h.2.2.2
    have := h.2.2.1
    omega

theorem Tiled.bounds (h : Tiled w rd p a cs b) {c : Cell τ} (hc : c ∈ cs) :
    a ≤ c.off ∧ c.off + w ≤ c.next ∧ c.next ≤ b := by
  induction cs generalizing p a with
  | nil => simp at hc
  | cons d cs ih =>
    obtain ⟨ho, _, hw, ht⟩ := h
    rcases List.mem_cons.mp hc with rfl | hc
    · exact ⟨by omega, by omega, ht.le⟩
    · have hh := ih ht hc
      exact ⟨by omega, hh.2⟩

theorem tiled_append : Tiled w rd p a (cs ++ ds) b ↔
    ∃ m, Tiled w rd p a cs m ∧ Tiled w rd (lastOff p cs) m ds b := by
  induction cs generalizing p a with
  | nil => simp [Tiled]
  | cons c cs ih =>
    simp only [List.cons_append, Tiled, lastOff_cons]
    constructor
    · rintro ⟨ho, hr, hw, ht⟩
      obtain ⟨m, hcs, hds⟩ := ih.mp ht
      subst ho
      exact ⟨m, ⟨rfl, hr, hw, hcs⟩, hds⟩
    · rintro ⟨m, ⟨ho, hr, hw, hcs⟩, hds⟩
      subst ho
      exact ⟨rfl, hr, hw, ih.mpr ⟨m, hcs, hds⟩⟩

theorem Tiled.reads (h : Tiled w rd p a cs b) {c : Cell τ} (hc : c ∈ cs) :
    (rd c.off).tag = c.tag ∧ (rd c.off).next = c.next := by
  induction cs generalizing p a with
  | nil => simp at hc
  | cons d cs ih =>
    obtain ⟨ho, hr, _, ht⟩ := h
    rcases List.mem_cons.mp hc with rfl | hc
    · rw [ho, hr]
      exact ⟨rfl, rfl⟩
    · exact ih ht hc

theorem Tiled.congr (h : Tiled w rd p a cs b) (heq : ∀ c ∈ cs, rd' c.off = rd c.off) :
    Tiled w rd' p a cs b := by
  induction cs generalizing p a with
  | nil => exact h
  | cons c cs ih =>
    obtain ⟨ho, hr, hw, ht⟩ := h
    refine ⟨ho, ?_, hw, ih ht fun d hd => heq d (List.mem_cons_of_mem c hd)⟩
    rw [← ho, heq c List.mem_cons_self, ho, hr]

/-- Repointing the predecessor recorded at `a` keeps the tiling, with that predecessor. -/
theorem Tiled.reprev {q : Nat} (h : Tiled w rd p a cs b)
    (hfirst : a < b → rd' a = { rd a with prev := q })
    (heq : ∀ x, a + w ≤ x → x < b → rd' x = rd x) (hw : 0 < w) : Tiled w rd' q a cs b := by
  cases cs with
  | nil => exact h
  | cons c cs =>
    obtain ⟨ho, hr, hwc, ht⟩ := h
    have hlt : a < b := by have := ht.le; omega
    refine ⟨ho, by rw [hfirst hlt, hr], hwc, ht.congr fun d hd => ?_⟩
    have hd' := ht.bounds hd
    exact heq _ (by omega) (by omega)

/-- The offsets of a tiling, with the end, are what following `next` visits. -/
theorem Tiled.follows (h : Tiled w rd p a cs b) :
    (cs.map Cell.off ++ [b]).head? = some a ∧
      (cs.map Cell.off ++ [b]).IsChain fun x y => (rd x).next = y ∧ x + w ≤ y := by
  induction cs generalizing p a with
  | nil => exact ⟨by simpa using h.symm, by simp⟩
  | cons c cs ih =>
    obtain ⟨ho, hr, hw, ht⟩ := h
    obtain ⟨hhead, hchain⟩ := ih ht
    refine ⟨by simp [ho], ?_⟩
    simp only [List.map_cons, List.cons_append]
    refine List.isChain_cons.mpr ⟨?_, hchain⟩
    intro y hy
    rw [hhead] at hy
    obtain rfl : c.next = y := by simpa using hy
    exact ⟨by rw [ho, hr], by omega⟩

/-- Each piece but the first records the offset of the piece before it. -/
theorem Tiled.backLinks (h : Tiled w rd p a cs b) :
    (cs.map Cell.off).IsChain fun x y => (rd y).prev = x := by
  induction cs generalizing p a with
  | nil => simp
  | cons c cs ih =>
    obtain ⟨ho, _, _, ht⟩ := h
    refine List.isChain_cons.mpr ⟨?_, ih ht⟩
    intro y hy
    cases cs with
    | nil => simp at hy
    | cons d ds =>
      obtain ⟨ho', hr', _⟩ := ht
      obtain rfl : d.off = y := by simpa using hy
      rw [ho', hr', ho]

theorem Tiled.pairwise (h : Tiled w rd p a cs b) :
    cs.Pairwise fun c d => c.next ≤ d.off := by
  induction cs generalizing p a with
  | nil => exact List.Pairwise.nil
  | cons c cs ih =>
    exact List.pairwise_cons.mpr ⟨fun d hd => (h.2.2.2.bounds hd).1, ih h.2.2.2⟩

/-- Cutting one piece in two. -/
theorem Tiled.split {k : Cell τ} {c : Nat} {t t' : τ} (h : Tiled w rd p a (cs ++ k :: ds) b)
    (hw : 0 < w) (hlo : k.off + w ≤ c) (hhi : c + w ≤ k.next)
    (hk : rd' k.off = { rd k.off with tag := t, next := c })
    (hc : rd' c = ⟨t', k.next, k.off⟩)
    (hn : k.next < b → rd' k.next = { rd k.next with prev := c })
    (heq : ∀ x, x + w ≤ k.off ∨ k.next + w ≤ x ∧ x < b → rd' x = rd x) :
    Tiled w rd' p a (cs ++ ⟨k.off, c, t⟩ :: ⟨c, k.next, t'⟩ :: ds) b := by
  obtain ⟨m, hcs, ho, hr, _, hds⟩ := tiled_append.mp h
  subst ho
  refine tiled_append.mpr ⟨k.off, hcs.congr fun x hx => ?_, rfl, ?_, hlo, rfl, hc, hhi, ?_⟩
  · have hb := hcs.bounds hx
    exact heq _ (Or.inl (by omega))
  · rw [hk, hr]
  · exact hds.reprev hn (fun x hx hb => heq x (Or.inr ⟨hx, hb⟩)) hw

/-- Joining a piece with the one after it. -/
theorem Tiled.merge {k n : Cell τ} (h : Tiled w rd p a (cs ++ k :: n :: ds) b) (hw : 0 < w)
    (hk : rd' k.off = { rd k.off with next := n.next })
    (hn : n.next < b → rd' n.next = { rd n.next with prev := k.off })
    (heq : ∀ x, x + w ≤ k.off ∨ n.next + w ≤ x ∧ x < b → rd' x = rd x) :
    Tiled w rd' p a (cs ++ ⟨k.off, n.next, k.tag⟩ :: ds) b := by
  obtain ⟨m, hcs, ho, hr, hwk, hon, _, hwn, hds⟩ := tiled_append.mp h
  subst ho
  refine tiled_append.mpr ⟨k.off, hcs.congr fun x hx => ?_, rfl, ?_, ?_, ?_⟩
  · have hb := hcs.bounds hx
    exact heq _ (Or.inl (by omega))
  · rw [hk, hr]
  · exact (by omega : k.off + w ≤ n.next)
  · exact hds.reprev hn (fun x hx hb => heq x (Or.inr ⟨hx, hb⟩)) hw

/-- Changing the tag of one piece. -/
theorem Tiled.retag {k : Cell τ} {t : τ} (h : Tiled w rd p a (cs ++ k :: ds) b)
    (hk : rd' k.off = { rd k.off with tag := t })
    (heq : ∀ x, x + w ≤ k.off ∨ k.off + w ≤ x ∧ x < b → rd' x = rd x) (hw : 0 < w) :
    Tiled w rd' p a (cs ++ { k with tag := t } :: ds) b := by
  obtain ⟨m, hcs, ho, hr, hwk, hds⟩ := tiled_append.mp h
  subst ho
  refine tiled_append.mpr ⟨k.off, hcs.congr fun x hx => ?_, rfl, ?_, hwk, hds.congr fun x hx => ?_⟩
  · have hb := hcs.bounds hx
    exact heq _ (Or.inl (by omega))
  · rw [hk, hr]
  · have hb := hds.bounds hx
    exact heq _ (Or.inr ⟨by omega, by omega⟩)

end

end RTThread
