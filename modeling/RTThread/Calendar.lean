import Mathlib.Tactic

namespace RTThread

/-- Of the Gregorian calendar, carried on into all years. -/
def leapYear (y : Nat) : Bool := y % 4 = 0 ∧ (y % 100 ≠ 0 ∨ y % 400 = 0)

def yearDays (y : Nat) : Nat := if leapYear y then 366 else 365

/-- The months are counted from 0. -/
def monthDays (leap : Bool) : Nat → Nat
  | 1 => if leap then 29 else 28
  | 3 | 5 | 8 | 10 => 30
  | _ => 31

def daysBeforeMonth (leap : Bool) : Nat → Nat
  | 0 => 0
  | m + 1 => daysBeforeMonth leap m + monthDays leap m

/-- The days of the `n` years from `epoch` on. -/
def daysBeforeYear (epoch : Nat) : Nat → Nat
  | 0 => 0
  | n + 1 => daysBeforeYear epoch n + yearDays (epoch + n)

/-- The day `day`, counted from 1, of a month of the year `n` behind `epoch`. -/
structure CivilDay where
  n : Nat
  month : Nat
  day : Nat
deriving DecidableEq

namespace CivilDay

/-- The days from the first one of `epoch` to this one; the day of the month need not be one. -/
def number (epoch : Nat) (d : CivilDay) : Nat :=
  daysBeforeYear epoch d.n + daysBeforeMonth (leapYear (epoch + d.n)) d.month + d.day - 1

structure Valid (epoch : Nat) (d : CivilDay) : Prop where
  month : d.month < 12
  first : 1 ≤ d.day
  last : d.day ≤ monthDays (leapYear (epoch + d.n)) d.month

end CivilDay

section
variable {leap : Bool} {epoch m n : Nat} {a b : CivilDay}

theorem monthDays_pos (leap : Bool) (m : Nat) : 0 < monthDays leap m := by
  unfold monthDays
  split <;> (try split) <;> decide

theorem daysBeforeMonth_year (leap : Bool) : daysBeforeMonth leap 12 = if leap then 366 else 365 := by
  cases leap <;> rfl

theorem daysBeforeMonth_mono (leap : Bool) (hle : m ≤ n) :
    daysBeforeMonth leap m ≤ daysBeforeMonth leap n := by
  induction hle with
  | refl => exact Nat.le_refl _
  | step _ ih => exact ih.trans (Nat.le_add_right _ _)

theorem daysBeforeYear_succ_front (epoch n : Nat) :
    daysBeforeYear epoch (n + 1) = yearDays epoch + daysBeforeYear (epoch + 1) n := by
  induction n with
  | zero => simp [daysBeforeYear]
  | succ n ih =>
    rw [daysBeforeYear, ih, daysBeforeYear, Nat.add_assoc, show epoch + 1 + n = epoch + (n + 1) by omega]

theorem yearDays_bounds (y : Nat) : 365 ≤ yearDays y ∧ yearDays y ≤ 366 := by
  unfold yearDays
  split <;> omega

theorem le_daysBeforeYear (epoch n : Nat) : 365 * n ≤ daysBeforeYear epoch n := by
  induction n with
  | zero => exact Nat.le_refl _
  | succ n ih =>
    have hyear := (yearDays_bounds (epoch + n)).1
    rw [daysBeforeYear]
    omega

end

end RTThread
