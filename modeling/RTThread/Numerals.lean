import Mathlib.Data.List.DropRight
import Mathlib.Tactic

namespace RTThread

/-- The value of a digit character of either case. -/
def digitOf (c : UInt8) : Option Nat :=
  if 48 ≤ c ∧ c ≤ 57 then some (c.toNat - 48)
  else if 97 ≤ c ∧ c ≤ 102 then some (c.toNat - 87)
  else if 65 ≤ c ∧ c ≤ 70 then some (c.toNat - 55)
  else none

/-- The value of a string of digits of a base, if it is one. -/
def digitsValue (base : Nat) (ds : List UInt8) : Option Nat :=
  if ds = [] then none
  else (ds.mapM fun c => (digitOf c).filter (· < base)).map fun vs => Nat.ofDigits base vs.reverse

def trimBlanks (s : List UInt8) : List UInt8 := (s.dropWhile (· = 32)).rdropWhile (· = 32)

/-- A numeral with an optional sign between blanks. -/
def readNumeral (base : Nat) (s : List UInt8) : Option Int :=
  match trimBlanks s with
  | [] => none
  | c :: ds =>
    if c = 45 then (digitsValue base ds).map fun n : Nat => -(n : Int)
    else if c = 43 then (digitsValue base ds).map fun n : Nat => (n : Int)
    else (digitsValue base (c :: ds)).map fun n : Nat => (n : Int)

/-- How many characters are digits. -/
def digitCount (s : List UInt8) : Nat := s.countP fun c => (digitOf c).isSome

theorem digitOf_ne {c d : UInt8} (h : (digitOf c).isSome) (hd : digitOf d = none) : c ≠ d := by
  rintro rfl
  rw [hd] at h
  exact absurd h (by decide)

theorem mapM_filter_map {char : Nat → UInt8} (hchar : ∀ v < 16, digitOf (char v) = some v) {base : Nat}
    (vs : List Nat) (hvs : ∀ v ∈ vs, v < 16) :
    ((vs.map char).mapM fun c => (digitOf c).filter (· < base)) =
      if ∀ v ∈ vs, v < base then some vs else none := by
  induction vs with
  | nil => simp
  | cons v vs ih =>
    rw [List.map_cons, List.mapM_cons, ih fun w hw => hvs w (List.mem_cons_of_mem _ hw),
      hchar v (hvs v List.mem_cons_self)]
    simp only [List.forall_mem_cons (a := v)]
    by_cases hv : v < base
    · by_cases hrest : ∀ w ∈ vs, w < base
      · rw [if_pos hrest, if_pos ⟨hv, hrest⟩]
        simp [Option.filter, hv]
      · rw [if_neg hrest, if_neg fun h => hrest h.2]
        simp
    · have hnot : ¬(v < base ∧ ∀ w ∈ vs, w < base) := fun h => hv h.1
      rw [if_neg hnot]
      simp [Option.filter, hv]

theorem digitsValue_map {char : Nat → UInt8} (hchar : ∀ v < 16, digitOf (char v) = some v) {base : Nat}
    {vs : List Nat} (hne : vs ≠ []) (hvs : ∀ v ∈ vs, v < 16) :
    digitsValue base (vs.map char) =
      if ∀ v ∈ vs, v < base then some (Nat.ofDigits base vs.reverse) else none := by
  unfold digitsValue
  rw [if_neg (by simpa using hne), mapM_filter_map hchar vs hvs]
  split
  · rfl
  · rfl

theorem trimBlanks_core {core : List UInt8} (l t : Nat) {c d : UInt8} {front back : List UInt8}
    (hfront : core = c :: back) (hc : c ≠ 32) (hback : core = front ++ [d]) (hd : d ≠ 32) :
    trimBlanks (List.replicate l 32 ++ core ++ List.replicate t 32) = core := by
  unfold trimBlanks
  rw [List.append_assoc, List.dropWhile_append_of_pos (by simp), hfront, List.cons_append,
    List.dropWhile_cons_of_neg (by simpa using hc), ← List.cons_append, ← hfront, hback, List.rdropWhile,
    List.reverse_append, List.dropWhile_append_of_pos (by simp), List.reverse_append,
    List.reverse_singleton, List.singleton_append, List.dropWhile_cons_of_neg (by simpa using hd)]
  simp

theorem readNumeral_unsigned {base : Nat} {ds : List UInt8} (hne : ds ≠ [])
    (hds : ∀ c ∈ ds, (digitOf c).isSome) (l t : Nat) :
    readNumeral base (List.replicate l 32 ++ ds ++ List.replicate t 32) =
      (digitsValue base ds).map fun n : Nat => (n : Int) := by
  obtain ⟨c, back, hc⟩ := List.exists_cons_of_ne_nil hne
  obtain ⟨front, d, hd⟩ := (List.eq_nil_or_concat' ds).resolve_left hne
  have hcd := hds c (hc ▸ List.mem_cons_self)
  have hdd := hds d (hd ▸ List.mem_concat_self)
  unfold readNumeral
  rw [trimBlanks_core l t hc (digitOf_ne hcd (by decide)) hd (digitOf_ne hdd (by decide)), hc]
  simp only [digitOf_ne hcd (d := 45) (by decide), digitOf_ne hcd (d := 43) (by decide), if_false]

/-- Reading a field: the blanks around the numeral, and a blank for its sign, do not count. -/
theorem readNumeral_field {base : Nat} {ds : List UInt8} (hne : ds ≠ [])
    (hds : ∀ c ∈ ds, (digitOf c).isSome) (l t : Nat) {sign : Option UInt8}
    (hsign : sign = none ∨ sign = some 45 ∨ sign = some 43 ∨ sign = some 32) :
    readNumeral base (List.replicate l 32 ++ (sign.toList ++ ds) ++ List.replicate t 32) =
      (digitsValue base ds).map fun n : Nat => if sign = some 45 then -(n : Int) else n := by
  obtain ⟨front, d, hd⟩ := (List.eq_nil_or_concat' ds).resolve_left hne
  have hdd := hds d (hd ▸ List.mem_concat_self)
  have hcore : ∀ c : UInt8, c :: ds = (c :: front) ++ [d] := fun c => by rw [hd]; rfl
  rcases hsign with rfl | rfl | rfl | rfl
  · exact readNumeral_unsigned hne hds l t
  · unfold readNumeral
    rw [Option.toList_some, List.singleton_append,
      trimBlanks_core l t rfl (by decide) (hcore 45) (digitOf_ne hdd (by decide))]
    simp
  · unfold readNumeral
    rw [Option.toList_some, List.singleton_append,
      trimBlanks_core l t rfl (by decide) (hcore 43) (digitOf_ne hdd (by decide))]
    simp
  · have hblank : readNumeral base (List.replicate (l + 1) 32 ++ ds ++ List.replicate t 32) = _ :=
      readNumeral_unsigned hne hds (l + 1) t
    rwa [List.replicate_succ', List.append_assoc (List.replicate l 32)] at hblank

theorem digitCount_append (s t : List UInt8) : digitCount (s ++ t) = digitCount s + digitCount t :=
  List.countP_append

theorem digitCount_digits {ds : List UInt8} (hds : ∀ c ∈ ds, (digitOf c).isSome) :
    digitCount ds = ds.length := List.countP_eq_length.mpr hds

end RTThread
