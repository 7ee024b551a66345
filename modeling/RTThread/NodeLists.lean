import Mathlib.Tactic

namespace RTThread

/-- Following `next` from `p` visits the nodes of the list and arrives at `b`. -/
def Segment {α : Type} (next : α → α) : α → List α → α → Prop
  | p, [], b => p = b
  | p, n :: ns, b => p = n ∧ Segment next (next n) ns b

/-- The singly linked list from `p`, closed by a null pointer. -/
structure NodeList {α : Type} (next : α → α) (null p : α) (ns : List α) : Prop where
  segment : Segment next p ns null
  null : null ∉ ns

/-- `for (node = p; node != null && !stop(node); node = next(node))`. The fuel counts the turns. -/
def scanNodes {α : Type} [DecidableEq α] (next : α → α) (null : α) (stop : α → Bool) :
    Nat → α → Option α
  | 0, _ => none
  | turns + 1, p =>
    if p = null ∨ stop p then some p else scanNodes next null stop turns (next p)

section
variable {α : Type} {next next' : α → α} {null p q b n : α} {ns ms : List α}

theorem segment_append : Segment next p (ns ++ ms) b ↔ ∃ q, Segment next p ns q ∧ Segment next q ms b := by
  induction ns generalizing p with
  | nil => simp [Segment]
  | cons n ns ih =>
    rw [List.cons_append]
    simp only [Segment, ih]
    constructor
    · rintro ⟨hp, q, hns, hms⟩
      exact ⟨q, ⟨hp, hns⟩, hms⟩
    · rintro ⟨q, ⟨hp, hns⟩, hms⟩
      exact ⟨hp, q, hns, hms⟩

/-- A segment depends only on the pointers in its nodes. -/
theorem Segment.congr (h : Segment next p ns b) (hn : ∀ n ∈ ns, next' n = next n) :
    Segment next' p ns b := by
  induction ns generalizing p with
  | nil => exact h
  | cons n ns ih =>
    refine ⟨h.1, ?_⟩
    rw [hn n List.mem_cons_self]
    exact ih h.2 fun m hm => hn m (List.mem_cons_of_mem n hm)

theorem NodeList.congr (h : NodeList next null p ns) (hn : ∀ n ∈ ns, next' n = next n) :
    NodeList next' null p ns := ⟨h.segment.congr hn, h.null⟩

theorem nodeList_nil : NodeList next null p [] ↔ p = null :=
  ⟨fun h => h.segment, fun h => ⟨h, List.not_mem_nil⟩⟩

theorem nodeList_cons : NodeList next null p (n :: ns) ↔
    p = n ∧ n ≠ null ∧ NodeList next null (next n) ns := by
  constructor
  · rintro ⟨⟨hp, hns⟩, hnull⟩
    obtain ⟨hn, hns'⟩ := not_or.mp (List.mem_cons.not.mp hnull)
    exact ⟨hp, Ne.symm hn, hns, hns'⟩
  · rintro ⟨hp, hn, hns⟩
    exact ⟨⟨hp, hns.segment⟩, List.mem_cons.not.mpr (not_or.mpr ⟨Ne.symm hn, hns.null⟩)⟩

theorem NodeList.nil_iff (h : NodeList next null p ns) : ns = [] ↔ p = null := by
  cases ns with
  | nil => simpa using nodeList_nil.mp h
  | cons n ns =>
    obtain ⟨rfl, hn, -⟩ := nodeList_cons.mp h
    simpa using hn

theorem NodeList.unique (hn : NodeList next null p ns) (hm : NodeList next null p ms) : ns = ms := by
  induction ns generalizing p ms with
  | nil => exact (hm.nil_iff.mpr (nodeList_nil.mp hn)).symm
  | cons n ns ih =>
    obtain ⟨rfl, hne, hns⟩ := nodeList_cons.mp hn
    cases ms with
    | nil => exact absurd (nodeList_nil.mp hm) hne
    | cons m ms =>
      obtain ⟨rfl, -, hms⟩ := nodeList_cons.mp hm
      rw [ih hns hms]

/-- A closed list does not run into itself. -/
theorem NodeList.nodup (h : NodeList next null p ns) : ns.Nodup := by
  induction ns generalizing p with
  | nil => exact List.nodup_nil
  | cons n ns ih =>
    obtain ⟨rfl, -, hns⟩ := nodeList_cons.mp h
    refine List.nodup_cons.mpr ⟨fun hmem => ?_, ih hns⟩
    obtain ⟨as, bs, rfl⟩ := List.append_of_mem hmem
    obtain ⟨r, -, hr⟩ := segment_append.mp hns.segment
    obtain rfl : r = p := hr.1
    have hagain : NodeList next null r (r :: bs) :=
      ⟨hr, fun hnull => hns.null (List.mem_append_right as hnull)⟩
    have hlen := congrArg List.length (hagain.unique h)
    simp only [List.length_cons, List.length_append] at hlen
    omega

/-- Each node points to the one after it, and the last one to null. -/
theorem NodeList.next_eq (h : NodeList next null p (ns ++ n :: ms)) : next n = ms.headD null := by
  obtain ⟨q, -, hq⟩ := segment_append.mp h.segment
  obtain ⟨rfl, hms⟩ := hq
  cases ms with
  | nil => exact hms
  | cons m ms => exact hms.1

theorem NodeList.next_mem (h : NodeList next null p (ns ++ n :: ms)) {m : α} (hm : m ∈ ns) :
    next m ∈ ns ∨ next m = n := by
  obtain ⟨as, bs, rfl⟩ := List.append_of_mem hm
  have hsplit : NodeList next null p (as ++ m :: (bs ++ n :: ms)) := by simpa using h
  have hnext := hsplit.next_eq
  cases bs with
  | nil => exact Or.inr hnext
  | cons b bs =>
    left
    rw [hnext]
    simp

variable [DecidableEq α]

/-- A walk that is given enough turns ends at the first node that stops it, or at the end. -/
theorem NodeList.scan_eq {turns : Nat} {stop : α → Bool} (h : NodeList next null p ns)
    (hturns : ns.length < turns) :
    scanNodes next null stop turns p = some ((ns.find? stop).getD null) := by
  induction ns generalizing p turns with
  | nil =>
    obtain ⟨turns, rfl⟩ : ∃ t, turns = t + 1 := ⟨turns - 1, by omega⟩
    have hp := nodeList_nil.mp h
    simp [scanNodes, hp]
  | cons n ns ih =>
    obtain ⟨turns, rfl⟩ : ∃ t, turns = t + 1 := ⟨turns - 1, by simp at hturns; omega⟩
    obtain ⟨rfl, hne, hns⟩ := nodeList_cons.mp h
    have hrest := ih hns (by simpa using hturns)
    by_cases hstop : stop p = true
    · simp [scanNodes, hstop]
    · simp [scanNodes, hne, hstop, hrest]

/-- Link a node in front. -/
theorem NodeList.push (h : NodeList next null p ns) (hn : n ≠ null) (hns : n ∉ ns) :
    NodeList (Function.update next n p) null n (n :: ns) := by
  refine nodeList_cons.mpr ⟨rfl, hn, ?_⟩
  rw [Function.update_self]
  exact h.congr fun m hm => Function.update_of_ne (ne_of_mem_of_not_mem hm hns) ..

/-- Link a node behind the last one. -/
theorem NodeList.snoc (h : NodeList next null p ns) (hlast : ns.getLast? = some b)
    (hn : n ≠ null) (hns : n ∉ ns) (hnext : next n = null) :
    NodeList (Function.update next b n) null p (ns ++ [n]) := by
  obtain ⟨as, rfl⟩ := List.getLast?_eq_some_iff.mp hlast
  have hnodup := h.nodup
  obtain ⟨q, has, hq, -⟩ := segment_append.mp h.segment
  subst hq
  have hlas : q ∉ as := fun hmem =>
    (List.nodup_append.mp hnodup).2.2 q hmem q (List.mem_singleton.mpr rfl) rfl
  have hnq : n ≠ q := fun hnq => hns (List.mem_append_right as (List.mem_singleton.mpr hnq))
  refine ⟨?_, ?_⟩
  · rw [List.append_assoc]
    refine segment_append.mpr ⟨q, has.congr fun m hm => ?_, rfl, ?_, ?_⟩
    · exact Function.update_of_ne (ne_of_mem_of_not_mem hm hlas) ..
    · exact Function.update_self ..
    · rw [Function.update_of_ne hnq]
      exact hnext
  · intro hmem
    rcases List.mem_append.mp hmem with hmem | hmem
    · exact h.null hmem
    · exact hn (List.mem_singleton.mp hmem).symm

/-- Link a node behind `b`. -/
theorem NodeList.insert (h : NodeList next null p (ns ++ b :: ms)) (hn : n ≠ null)
    (hns : n ∉ ns ++ b :: ms) (hnext : next n = ms.headD null) :
    NodeList (Function.update next b n) null p (ns ++ b :: n :: ms) := by
  have hb := h.next_eq
  obtain ⟨q, hseg, rfl, hms⟩ := segment_append.mp h.segment
  obtain ⟨-, hq, hdisj⟩ := List.nodup_append.mp h.nodup
  have hqms : q ∉ ms := (List.nodup_cons.mp hq).1
  have hnq : n ≠ q := fun heq => hns (heq ▸ List.mem_append_right ns List.mem_cons_self)
  refine ⟨segment_append.mpr ⟨q, ?_, rfl, ?_, ?_⟩, fun hmem => ?_⟩
  · refine hseg.congr fun m hm => Function.update_of_ne ?_ ..
    exact hdisj m hm q List.mem_cons_self
  · exact Function.update_self ..
  · rw [Function.update_of_ne hnq, hnext, ← hb]
    refine hms.congr fun m hm => Function.update_of_ne ?_ ..
    exact ne_of_mem_of_not_mem hm hqms
  · have hnull := h.null
    simp only [List.mem_append, List.mem_cons] at hmem hnull
    tauto

/-- Unlink the nodes `ks` behind `b`. -/
theorem NodeList.cut {ks : List α} (h : NodeList next null p (ns ++ b :: (ks ++ ms))) :
    NodeList (Function.update next b (ms.headD null)) null p (ns ++ b :: ms) := by
  obtain ⟨q, hns, rfl, hks⟩ := segment_append.mp h.segment
  obtain ⟨-, hq, hdisj⟩ := List.nodup_append.mp h.nodup
  have hqms : q ∉ ms := fun hmem => (List.nodup_cons.mp hq).1 (List.mem_append_right ks hmem)
  obtain ⟨r, -, hms⟩ := segment_append.mp hks
  have hr : r = ms.headD null := by
    cases ms with
    | nil => exact hms
    | cons m ms => exact hms.1
  refine ⟨segment_append.mpr ⟨q, ?_, rfl, ?_⟩, fun hmem => h.null ?_⟩
  · refine hns.congr fun m hm => Function.update_of_ne ?_ ..
    exact hdisj m hm q List.mem_cons_self
  · rw [Function.update_self, ← hr]
    refine hms.congr fun m hm => Function.update_of_ne ?_ ..
    exact ne_of_mem_of_not_mem hm hqms
  · simp only [List.mem_append, List.mem_cons] at hmem ⊢
    tauto

/-- Unlink the node behind `b`. -/
theorem NodeList.unlink (h : NodeList next null p (ns ++ b :: n :: ms)) :
    NodeList (Function.update next b (next n)) null p (ns ++ b :: ms) := by
  have hn : NodeList next null p ((ns ++ [b]) ++ n :: ms) := by simpa using h
  have hb : NodeList next null p (ns ++ b :: ([n] ++ ms)) := h
  rw [hn.next_eq]
  exact hb.cut

end

end RTThread
