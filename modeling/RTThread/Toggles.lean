import Mathlib.Tactic

namespace RTThread

section
variable {ε : Type} (on off : ε → Bool)

/-- Whether something is on after the events of a log, newest first. -/
def isOn : List ε → Bool
  | [] => false
  | e :: log => if on e then true else if off e then false else isOn log

/-- It is turned on only while it is off and off only while it is on. -/
def Alternates : List ε → Prop
  | [] => True
  | e :: log =>
    (on e = true → isOn on off log = false) ∧ (off e = true → isOn on off log = true) ∧ Alternates log

variable {on off} {e : ε} {es es' log : List ε}

theorem isOn_neutral (h : ∀ e ∈ es, on e = false ∧ off e = false) :
    isOn on off (es ++ log) = isOn on off log := by
  induction es with
  | nil => rfl
  | cons e es ih =>
    obtain ⟨hon, hoff⟩ := h e (by simp)
    have hrest := ih fun e' he' => h e' (by simp [he'])
    simp [isOn, hon, hoff, hrest]

theorem alternates_neutral (h : ∀ e ∈ es, on e = false ∧ off e = false) :
    Alternates on off (es ++ log) ↔ Alternates on off log := by
  induction es with
  | nil => rfl
  | cons e es ih =>
    obtain ⟨hon, hoff⟩ := h e (by simp)
    have hrest := ih fun e' he' => h e' (by simp [he'])
    simp [Alternates, hon, hoff, hrest]

/-- One event that turns it on, among others that do not concern it. -/
theorem Alternates.turnOn (h : Alternates on off log) (hoff : isOn on off log = false)
    (he : on e = true ∧ off e = false) (h1 : ∀ e ∈ es, on e = false ∧ off e = false)
    (h2 : ∀ e ∈ es', on e = false ∧ off e = false) :
    Alternates on off (es ++ e :: es' ++ log) ∧ isOn on off (es ++ e :: es' ++ log) = true := by
  rw [List.append_assoc, List.cons_append, alternates_neutral h1, isOn_neutral h1]
  have hold : isOn on off (es' ++ log) = isOn on off log := isOn_neutral h2
  have halt := (alternates_neutral h2).mpr h
  simp [Alternates, isOn, he, hold, hoff, halt]

theorem Alternates.turnOff (h : Alternates on off log) (hon : isOn on off log = true)
    (he : on e = false ∧ off e = true) (h1 : ∀ e ∈ es, on e = false ∧ off e = false)
    (h2 : ∀ e ∈ es', on e = false ∧ off e = false) :
    Alternates on off (es ++ e :: es' ++ log) ∧ isOn on off (es ++ e :: es' ++ log) = false := by
  rw [List.append_assoc, List.cons_append, alternates_neutral h1, isOn_neutral h1]
  have hold : isOn on off (es' ++ log) = isOn on off log := isOn_neutral h2
  have halt := (alternates_neutral h2).mpr h
  simp [Alternates, isOn, he, hold, hon, halt]

end

end RTThread
