import RTThread.Numerals
import RTThread.PrintfLength

namespace RTThread

/-- The conversions of integers. -/
inductive IntConversion where
  | o
  | X
  | x
  | d
  | i
  | u
deriving DecidableEq, Repr

def IntConversion.char : IntConversion → UInt8
  | .o => ascii 'o'
  | .X => ascii 'X'
  | .x => ascii 'x'
  | .d => ascii 'd'
  | .i => ascii 'i'
  | .u => ascii 'u'

/-- The base that a reader of the numeral assumes. -/
def IntConversion.base : IntConversion → Nat
  | .o => 8
  | .X => 16
  | .x => 16
  | _ => 10

def IntConversion.signed : IntConversion → Bool
  | .d => true
  | .i => true
  | _ => false

/-- The value of the argument `n`: its low half under the qualifier `h`. -/
def conversionValue (c : IntConversion) (qualifier : Option UInt8) (n : UInt32) : Int :=
  let width := if qualifier = some (ascii 'h') then 65536 else 4294967296
  if c.signed then Int.bmod n.toNat width else (n.toNat % width : Nat)

/-- What stands in memory where `b` started and `b'` ends. -/
def emitted (b b' : PrintBuf) : List UInt8 :=
  (List.range (b'.str - b.str)).map fun i => b'.mem.byte (b.str + i)

theorem emitted_putAll {e : Nat} {b : PrintBuf} {out : List UInt8} (hroom : b.str + out.length ≤ e)
    (he : e < 4294967296) : emitted b (putAll e b out) = out := by
  have hstr := putAll_str out (e := e) (b := b) (by omega)
  rw [word_of_lt (by omega)] at hstr
  apply List.ext_getElem?
  intro i
  unfold emitted
  rw [hstr, Nat.add_sub_cancel_left, List.getElem?_map]
  by_cases hi : i < out.length
  · rw [List.getElem?_range hi, putAll_inside out (e := e) (b := b) (by omega) hi (by omega)]
    rfl
  · rw [List.getElem?_eq_none (by rw [List.length_range]; omega), List.getElem?_eq_none (by omega)]
    rfl

/-- The base that `divide` works with. -/
def divideBase (base : Nat) : Nat := if base = 10 then 10 else 16

theorem divide_eq (n base : Nat) : divide n base = (n % divideBase base, n / divideBase base) := by
  unfold divide divideBase
  split
  · rfl
  · rfl

theorem divideBase_bounds (base : Nat) : 10 ≤ divideBase base ∧ divideBase base ≤ 16 := by
  unfold divideBase
  split
  · omega
  · omega

theorem digitLoop_eq (base : Nat) {n num : Nat} (h : num < divideBase base ^ n) :
    digitLoop base n num = Nat.digits (divideBase base) num := by
  have hbase := divideBase_bounds base
  induction n generalizing num with
  | zero =>
    rw [show num = 0 by simpa using h, Nat.digits_zero]
    rfl
  | succ n ih =>
    unfold digitLoop
    split
    next hz => rw [hz, Nat.digits_zero]
    next hz =>
      rw [divide_eq, Nat.digits_def' (by omega) (by omega), ih]
      rw [Nat.pow_succ] at h
      exact Nat.div_lt_of_lt_mul (by rwa [Nat.mul_comm])

/-- The digits that `tmp` holds, as numbers. -/
def numberVals (base num : Nat) : List Nat := if num = 0 then [0] else Nat.digits (divideBase base) num

def digitChar (flags : PrintFlags) : Nat → UInt8 := if flags.large then largeDigits else smallDigits

theorem digitOf_digitChar (flags : PrintFlags) : ∀ v < 16, digitOf (digitChar flags v) = some v := by
  unfold digitChar
  cases flags.large with
  | true => decide
  | false => decide

theorem numberTmp_eq (flags : PrintFlags) {base num : Nat} (h : num < 4294967296) :
    numberTmp flags base num = (numberVals base num).map (digitChar flags) := by
  unfold numberTmp numberVals
  split
  next =>
    unfold digitChar
    split
    · rfl
    · rfl
  next =>
    have hpow : 10 ^ 16 ≤ divideBase base ^ 16 := Nat.pow_le_pow_left (divideBase_bounds base).1 16
    rw [digitLoop_eq base (by omega)]
    rfl

theorem numberVals_ne_nil (base num : Nat) : numberVals base num ≠ [] := by
  unfold numberVals
  split
  next => simp
  next h => exact Nat.digits_ne_nil_iff_ne_zero.mpr h

theorem numberVals_lt {base num v : Nat} (h : v ∈ numberVals base num) : v < divideBase base := by
  have hbase := divideBase_bounds base
  unfold numberVals at h
  split at h
  next =>
    rw [List.mem_singleton.mp h]
    omega
  next => exact Nat.digits_lt_base (by omega) h

theorem ofDigits_numberVals (base num : Nat) : Nat.ofDigits (divideBase base) (numberVals base num) = num := by
  unfold numberVals
  split
  next h =>
    rw [h]
    rfl
  next => exact Nat.ofDigits_digits _ _

/-- Digits in base 16, read in base 8. -/
theorem ofDigits_eight_lt {num : Nat} (h : 16 ≤ num) : Nat.ofDigits 8 (Nat.digits 16 num) < num := by
  have hmono := Nat.ofDigits_monotone (Nat.digits 16 (num / 16)) (show 8 ≤ 16 by decide)
  rw [Nat.ofDigits_digits] at hmono
  rw [Nat.digits_def' (by decide) (by omega), Nat.ofDigits_cons]
  omega

/-- The digits denote the number in a base that `divide` honours; in base 8 a single digit does. -/
theorem digitsValue_number (flags : PrintFlags) {base num : Nat}
    (hbase : base = 8 ∨ base = 10 ∨ base = 16) (z : Nat) :
    digitsValue base ((List.replicate z 0 ++ (numberVals base num).reverse).map (digitChar flags)) = some num ↔
      base ≠ 8 ∨ num < 8 := by
  have hlt : ∀ v ∈ List.replicate z 0 ++ (numberVals base num).reverse, v < 16 := by
    intro v hv
    rcases List.mem_append.mp hv with hv | hv
    · rw [List.eq_of_mem_replicate hv]
      decide
    · exact Nat.lt_of_lt_of_le (numberVals_lt (List.mem_reverse.mp hv)) (divideBase_bounds base).2
  have hall : (∀ v ∈ List.replicate z 0 ++ (numberVals base num).reverse, v < base) ↔
      ∀ v ∈ numberVals base num, v < base := by
    constructor
    · intro h v hv
      exact h v (List.mem_append_right _ (List.mem_reverse.mpr hv))
    · intro h v hv
      rcases List.mem_append.mp hv with hv | hv
      · rw [List.eq_of_mem_replicate hv]
        omega
      · exact h v (List.mem_reverse.mp hv)
  rw [digitsValue_map (digitOf_digitChar flags) (by simpa using fun _ => numberVals_ne_nil base num) hlt,
    List.reverse_append, List.reverse_reverse, List.reverse_replicate, Nat.ofDigits_append_replicate_zero]
  by_cases h8 : base = 8
  · subst h8
    have hone : num < 16 → numberVals 8 num = [num] := by
      intro h
      unfold numberVals
      split
      next hz => rw [hz]
      next hz => exact Nat.digits_of_lt 16 num hz h
    by_cases hsmall : num < 8
    · rw [hone (by omega)] at hall ⊢
      rw [if_pos (hall.mpr (by simpa using hsmall)), Nat.ofDigits_singleton]
      exact ⟨fun _ => .inr hsmall, fun _ => rfl⟩
    · constructor
      · intro h
        exfalso
        split at h
        next hvals =>
          have hof := Option.some.inj h
          by_cases h16 : num < 16
          · rw [hone h16] at hall
            exact hsmall (hall.mp (by simpa [hone h16] using hvals) num List.mem_cons_self)
          · have hdigits : numberVals 8 num = Nat.digits 16 num := if_neg (by omega)
            rw [hdigits] at hof
            have := ofDigits_eight_lt (show 16 ≤ num by omega)
            omega
        next => exact absurd h (by simp)
      · rintro (h | h)
        · exact absurd rfl h
        · exact absurd h hsmall
  · have hdiv : divideBase base = base := by
      unfold divideBase
      split
      · omega
      · omega
    have hvals : ∀ v ∈ numberVals base num, v < base := by
      intro v hv
      exact hdiv ▸ numberVals_lt hv
    have hof := ofDigits_numberVals base num
    rw [hdiv] at hof
    rw [if_pos (hall.mpr hvals), hof]
    exact ⟨fun _ => .inl h8, fun _ => rfl⟩

theorem numberSign_mem (flags : PrintFlags) (num : UInt32) :
    (numberSign flags num).1 = none ∨ (numberSign flags num).1 = some 45 ∨
      (numberSign flags num).1 = some 43 ∨ (numberSign flags num).1 = some 32 := by
  unfold numberSign
  split
  · split
    · exact .inr (.inl rfl)
    · split
      · exact .inr (.inr (.inl rfl))
      · split
        · exact .inr (.inr (.inr rfl))
        · exact .inl rfl
  · exact .inl rfl

/-- The sign and the number behind it make up the value of the word. -/
theorem numberSign_value (flags : PrintFlags) (num : UInt32) :
    (if (numberSign flags num).1 = some 45 then -((numberSign flags num).2.toNat : Int)
      else (numberSign flags num).2.toNat) =
      if flags.sign then Int.bmod num.toNat 4294967296 else num.toNat := by
  have hlt := num.toNat_lt
  unfold numberSign
  by_cases hs : flags.sign = true
  · rw [if_pos hs, if_pos hs, Int.bmod_def]
    by_cases hneg : 2147483648 ≤ num.toNat
    · have hminus : (some (ascii '-'), -num).1 = some 45 := rfl
      have hsize : UInt32.size = 4294967296 := rfl
      rw [if_pos hneg, if_pos hminus, UInt32.toNat_neg, hsize]
      split
      · omega
      · omega
    · rw [if_neg hneg]
      have hplain : ∀ sign : Option UInt8, sign ≠ some 45 →
          (if (sign, num).1 = some 45 then -((sign, num).2.toNat : Int) else (sign, num).2.toNat) =
            num.toNat := fun sign h => if_neg h
      split
      · rw [hplain _ (by decide)]
        omega
      · split
        · rw [hplain _ (by decide)]
          omega
        · rw [hplain _ (by decide)]
          omega
  · rw [if_neg hs, if_neg hs]
    exact if_neg (by simp)

/-- The word that an integer conversion hands to `print_number`. -/
def conversionNumber (qualifier : Option UInt8) (signed : Bool) (n : UInt32) : UInt32 :=
  if qualifier = some (ascii 'h') then
    if signed = true ∧ 32768 ≤ n.toNat % 65536 then UInt32.ofNat (n.toNat % 65536 + 4294901760)
    else UInt32.ofNat (n.toNat % 65536)
  else n

theorem conversionNumber_value (c : IntConversion) (qualifier : Option UInt8) (n : UInt32) :
    (if c.signed = true then Int.bmod (conversionNumber qualifier c.signed n).toNat 4294967296
      else (conversionNumber qualifier c.signed n).toNat) = conversionValue c qualifier n := by
  have hlt := n.toNat_lt
  have hsize : UInt32.size = 4294967296 := rfl
  unfold conversionNumber conversionValue
  by_cases hh : qualifier = some (ascii 'h')
  · simp only [if_pos hh]
    cases c.signed with
    | true =>
      simp only [if_true, true_and]
      split
      next =>
        rw [UInt32.toNat_ofNat', Int.bmod_def, Int.bmod_def]
        split
        · omega
        · split
          · omega
          · omega
      next =>
        rw [UInt32.toNat_ofNat', Int.bmod_def, Int.bmod_def]
        split
        · split
          · omega
          · omega
        · omega
    | false =>
      simp only [Bool.false_eq_true, if_false, false_and]
      rw [UInt32.toNat_ofNat']
      omega
  · simp only [if_neg hh]
    cases c.signed with
    | true => rfl
    | false =>
      simp only [Bool.false_eq_true, if_false]
      omega

/-- The flags that a conversion adds to those of the format. -/
def IntConversion.setFlags (c : IntConversion) (flags : PrintFlags) : PrintFlags :=
  { flags with sign := c.signed, large := decide (c = .X) }

theorem conversionCase_eq (c : IntConversion) {flags : PrintFlags} (hsign : flags.sign = false)
    (hlarge : flags.large = false) (fieldWidth precision : Int) (qualifier : Option UInt8)
    (fmt : List UInt8) (n : UInt32) (args : List PrintfArg) :
    conversionCase c.char flags fieldWidth precision qualifier ⟨fmt, .word n :: args⟩ =
      some (.number (conversionNumber qualifier c.signed n) c.base fieldWidth precision (c.setFlags flags),
        ⟨fmt, args⟩) := by
  obtain ⟨zeropad, sign, plus, space, left, special, large⟩ := flags
  obtain rfl : sign = false := hsign
  obtain rfl : large = false := hlarge
  cases c with
  | o => rfl
  | X => rfl
  | x => rfl
  | d => rfl
  | i => rfl
  | u => rfl

theorem ascii_blank : ascii ' ' = 32 := rfl

theorem ascii_zero : ascii '0' = 48 := rfl

theorem signedField_shape (sign : Option UInt8) (digits : List UInt8) (s : Int) (zeropad left : Bool) :
    ∃ l z t, signedField true sign digits s zeropad left =
      List.replicate l 32 ++ (sign.toList ++ (List.replicate z 48 ++ digits)) ++ List.replicate t 32 := by
  cases left with
  | true =>
    refine ⟨0, 0, numberRoom true sign s digits, ?_⟩
    simp [signedField, ascii_blank]
  | false =>
    cases zeropad with
    | true =>
      refine ⟨0, numberRoom true sign s digits, 0, ?_⟩
      simp [signedField, ascii_zero]
    | false =>
      refine ⟨numberRoom true sign s digits, 0, 0, ?_⟩
      simp [signedField, ascii_blank]

theorem digitLoop_length (base n num : Nat) : (digitLoop base n num).length ≤ n := by
  induction n generalizing num with
  | zero => exact Nat.le_refl 0
  | succ n ih =>
    unfold digitLoop
    split
    · exact Nat.zero_le _
    · rw [List.length_cons]
      exact Nat.succ_le_succ (ih _)

theorem numberTmp_length (flags : PrintFlags) (base num : Nat) : (numberTmp flags base num).length ≤ 16 := by
  unfold numberTmp
  split
  · decide
  · rw [List.length_map]
    exact digitLoop_length base 16 num

/-- Between blanks stand the sign and the digits, with zeros in front of them. -/
theorem numberField_shape (num : UInt32) (base : Nat) (s precision : Int) (flags : PrintFlags) :
    ∃ l z t, precision ≤ (z + (numberVals base (numberSign flags num).2.toNat).length : Nat) ∧
      numberField true num base s precision flags =
        List.replicate l 32 ++ ((numberSign flags num).1.toList ++
          (List.replicate z 0 ++ (numberVals base (numberSign flags num).2.toNat).reverse).map
            (digitChar flags)) ++ List.replicate t 32 := by
  have hlt : (numberSign flags num).2.toNat < 4294967296 := (numberSign flags num).2.toNat_lt
  obtain ⟨l, z, t, hshape⟩ := signedField_shape (numberSign flags num).1
    (numberDigits (numberTmp flags base (numberSign flags num).2.toNat) precision) s flags.zeropad flags.left
  have hzero : digitChar flags 0 = 48 := by
    unfold digitChar
    split
    · rfl
    · rfl
  rw [numberTmp_eq flags hlt] at hshape
  refine ⟨l, z + (precision - (numberVals base (numberSign flags num).2.toNat).length).toNat, t, by omega, ?_⟩
  unfold numberField
  rw [numberTmp_eq flags hlt, hshape, List.map_append, List.map_replicate, List.replicate_add, hzero,
    List.map_reverse, numberDigits, List.length_map, ascii_zero, List.append_assoc (List.replicate z 48)]

theorem numberField_length (num : UInt32) (base : Nat) (s precision : Int) (flags : PrintFlags) :
    s ≤ (numberField true num base s precision flags).length ∧
      ((numberField true num base s precision flags).length : Int) ≤ max s (1 + max 16 precision) := by
  have hdigits := numberDigits_length (numberTmp flags base (numberSign flags num).2.toNat) precision
  have htmp := numberTmp_length flags base (numberSign flags num).2.toNat
  unfold numberField
  rw [signedField_length]
  unfold numberRoom
  cases (numberSign flags num).1 with
  | none =>
    simp only [Option.toList_none, List.length_nil, Option.isSome_none, Bool.false_and, Bool.false_eq_true,
      if_false]
    split at hdigits
    · omega
    · omega
  | some ch =>
    simp only [Option.toList_some, List.length_singleton, Option.isSome_some, Bool.true_and, Bool.true_or,
      if_true]
    split at hdigits
    · omega
    · omega

theorem digitChar_isDigit (flags : PrintFlags) {z base num : Nat} {ch : UInt8}
    (h : ch ∈ (List.replicate z 0 ++ (numberVals base num).reverse).map (digitChar flags)) :
    (digitOf ch).isSome := by
  obtain ⟨v, hv, rfl⟩ := List.mem_map.mp h
  have hlt : v < 16 := by
    rcases List.mem_append.mp hv with hv | hv
    · rw [List.eq_of_mem_replicate hv]
      decide
    · exact Nat.lt_of_lt_of_le (numberVals_lt (List.mem_reverse.mp hv)) (divideBase_bounds base).2
  rw [digitOf_digitChar flags v hlt]
  rfl

theorem numberField_digitCount (num : UInt32) (base : Nat) (s precision : Int) (flags : PrintFlags) :
    precision ≤ digitCount (numberField true num base s precision flags) := by
  obtain ⟨l, z, t, hprecision, hshape⟩ := numberField_shape num base s precision flags
  rw [hshape]
  simp only [digitCount_append]
  rw [digitCount_digits fun ch hch => digitChar_isDigit flags hch, List.length_map, List.length_append,
    List.length_replicate, List.length_reverse]
  omega

/-- The field denotes the word, except that a number of several digits is not printed in base 8. -/
theorem readNumeral_numberField (num : UInt32) {base : Nat} (hbase : base = 8 ∨ base = 10 ∨ base = 16)
    (s precision : Int) (flags : PrintFlags) :
    readNumeral base (numberField true num base s precision flags) =
        some (if flags.sign then Int.bmod num.toNat 4294967296 else num.toNat) ↔
      base ≠ 8 ∨ (numberSign flags num).2.toNat < 8 := by
  obtain ⟨l, z, t, -, hshape⟩ := numberField_shape num base s precision flags
  have hne : (List.replicate z 0 ++ (numberVals base (numberSign flags num).2.toNat).reverse).map
      (digitChar flags) ≠ [] := by
    have := numberVals_ne_nil base (numberSign flags num).2.toNat
    simp [this]
  rw [hshape, readNumeral_field hne (fun ch hch => digitChar_isDigit flags hch) l t
    (numberSign_mem flags num), ← numberSign_value, ← digitsValue_number flags hbase z]
  constructor
  · intro h
    obtain ⟨v, hv, hval⟩ := Option.map_eq_some_iff.mp h
    rw [hv]
    congr 1
    split at hval
    · omega
    · omega
  · intro h
    rw [h]
    rfl

/-- The field of the value `n`, printed where there is room for it, reads back as that value and has
the width and the precision asked for. -/
def PrintsBack (c : IntConversion) (flags : PrintFlags) (fieldWidth precision : Int)
    (qualifier : Option UInt8) (n : UInt32) : Prop :=
  ∀ fmt args, ∃ piece,
    conversionCase c.char flags fieldWidth precision qualifier ⟨fmt, .word n :: args⟩ =
      some (piece, ⟨fmt, args⟩) ∧
    ∀ m a e, a + (pieceOut true piece).length ≤ e → e < 4294967296 →
      readNumeral c.base (emitted ⟨m, a⟩ (printPiece e ⟨m, a⟩ piece)) =
        some (conversionValue c qualifier n) ∧
      fieldWidth ≤ (emitted ⟨m, a⟩ (printPiece e ⟨m, a⟩ piece)).length ∧
      precision ≤ digitCount (emitted ⟨m, a⟩ (printPiece e ⟨m, a⟩ piece))

theorem emitted_printPiece {m : Memory} {a e : Nat} {p : Piece} (hroom : a + (pieceOut true p).length ≤ e)
    (he : e < 4294967296) : emitted ⟨m, a⟩ (printPiece e ⟨m, a⟩ p) = pieceOut true p := by
  rw [printPiece_eq]
  have hfits : decide ((⟨m, a⟩ : PrintBuf).str ≤ e) = true := decide_eq_true (by show a ≤ e; omega)
  rw [hfits]
  exact emitted_putAll hroom he

/-- `divide` knows the bases 10 and 16: the digits of `%o` are those of base 16. -/
theorem conversion_printsBack_iff (c : IntConversion) {flags : PrintFlags} (hsign : flags.sign = false)
    (hlarge : flags.large = false) {fieldWidth precision : Int} (hwidth : fieldWidth < 2147483648)
    (hprecision : precision < 2147483648) (qualifier : Option UInt8) (n : UInt32) :
    PrintsBack c flags fieldWidth precision qualifier n ↔ c ≠ .o ∨ conversionValue c qualifier n < 8 := by
  have hbase : c.base = 8 ∨ c.base = 10 ∨ c.base = 16 := by
    cases c with
    | o => exact .inl rfl
    | X => exact .inr (.inr rfl)
    | x => exact .inr (.inr rfl)
    | _ => exact .inr (.inl rfl)
  have hreads := readNumeral_numberField (conversionNumber qualifier c.signed n) hbase fieldWidth precision
    (c.setFlags flags)
  have hvalue := conversionNumber_value c qualifier n
  have hlength := numberField_length (conversionNumber qualifier c.signed n) c.base fieldWidth precision
    (c.setFlags flags)
  have hcondition : (c.base ≠ 8 ∨
      (numberSign (c.setFlags flags) (conversionNumber qualifier c.signed n)).2.toNat < 8) ↔
        (c ≠ .o ∨ conversionValue c qualifier n < 8) := by
    cases c with
    | o =>
      rw [← hvalue]
      have hplain : numberSign (IntConversion.setFlags .o flags) (conversionNumber qualifier false n) =
          (none, conversionNumber qualifier false n) := rfl
      simp only [IntConversion.base, IntConversion.signed, hplain, ne_eq, not_true_eq_false, false_or,
        Bool.false_eq_true, if_false]
      omega
    | _ => exact ⟨fun _ => .inl (by decide), fun _ => .inl (by decide)⟩
  constructor
  · intro h
    obtain ⟨piece, hcase, hprints⟩ := h [] []
    rw [conversionCase_eq c hsign hlarge] at hcase
    obtain ⟨rfl, -⟩ := Prod.mk.inj (Option.some.inj hcase)
    have hroom : 0 + (pieceOut true (.number (conversionNumber qualifier c.signed n) c.base fieldWidth
        precision (c.setFlags flags))).length ≤ 4294967295 := by
      show 0 + (numberField true _ _ _ _ _).length ≤ _
      omega
    have hread := (hprints ⟨fun _ => 0⟩ 0 4294967295 hroom (by decide)).1
    rw [emitted_printPiece hroom (by decide), ← hvalue] at hread
    exact hcondition.mp (hreads.mp hread)
  · intro h fmt args
    refine ⟨_, conversionCase_eq c hsign hlarge fieldWidth precision qualifier fmt n args, ?_⟩
    intro m a e hroom he
    rw [emitted_printPiece hroom he, ← hvalue]
    exact ⟨hreads.mpr (hcondition.mpr h), hlength.1,
      numberField_digitCount _ c.base fieldWidth precision (c.setFlags flags)⟩

/-- The least word, in twelve places. -/
theorem conversion_printsBack_least :
    PrintsBack .d { PrintFlags.none with zeropad := true } 12 (-1) none 2147483648 :=
  (conversion_printsBack_iff .d rfl rfl (by decide) (by decide) none 2147483648).2 (.inl (by decide))

/-- Sixteen is printed as `10` by `%o`, and a reader takes it for eight. -/
theorem conversion_octal_sixteen : ¬PrintsBack .o .none (-1) (-1) none 16 := by
  intro h
  obtain ⟨piece, hcase, hprints⟩ := h [] []
  obtain ⟨rfl, -⟩ := Prod.mk.inj (Option.some.inj hcase)
  have hread := (hprints ⟨fun _ => 0⟩ 0 16 (by decide +kernel) (by decide)).1
  exact absurd hread (by decide +kernel)

end RTThread
