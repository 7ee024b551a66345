import RTThread.PrintfNumerals
import RTThread.ScanfModel

namespace RTThread

/-- The digits of `n` from the highest on, one for zero. -/
def numeralDigits (base n : Nat) : List Nat := if n = 0 then [0] else (Nat.digits base n).reverse

theorem numeralDigits_ne_nil (base n : Nat) : numeralDigits base n ≠ [] := by
  unfold numeralDigits
  split
  · exact List.cons_ne_nil 0 []
  next h => exact List.reverse_eq_nil_iff.not.mpr (Nat.digits_ne_nil_iff_ne_zero.mpr h)

theorem numeralDigits_lt {base n d : Nat} (hbase : 1 < base) (h : d ∈ numeralDigits base n) :
    d < base := by
  unfold numeralDigits at h
  split at h
  · rw [List.mem_singleton.mp h]
    omega
  · exact Nat.digits_lt_base hbase (List.mem_reverse.mp h)

theorem numeralDigits_value (base n : Nat) :
    (numeralDigits base n).foldl (fun r d => r * base + d) 0 = n := by
  unfold numeralDigits
  split
  next h => simp [h]
  · rw [List.foldl_reverse]
    conv_rhs => rw [← Nat.ofDigits_digits base n, Nat.ofDigits_eq_foldr]
    congr 1
    funext d r
    rw [Nat.mul_comm, Nat.add_comm]
    rfl

/-- Only zero begins with a zero. -/
theorem numeralDigits_head {base n d : Nat} {ds : List Nat}
    (h : numeralDigits base n = d :: ds) : d = 0 ↔ n = 0 := by
  unfold numeralDigits at h
  split at h
  next hn =>
    obtain ⟨rfl, _⟩ := List.cons.inj h
    exact ⟨fun _ => hn, fun _ => rfl⟩
  next hn =>
    have hne : Nat.digits base n ≠ [] := Nat.digits_ne_nil_iff_ne_zero.mpr hn
    have hlast := Nat.getLast_digit_ne_zero base hn
    have hd : (Nat.digits base n).getLast hne = d := by
      rw [← List.head_reverse (List.reverse_eq_nil_iff.not.mpr hne)]
      simp only [h, List.head_cons]
    exact ⟨fun h0 => absurd (hd.trans h0) hlast, fun h0 => absurd h0 hn⟩

def IntConversion.digit (c : IntConversion) : Nat → UInt8 :=
  if c = .X then largeDigits else smallDigits

/-- What `simple_strtoul` takes as a digit. -/
def digitIn (base : Nat) (c : UInt8) : Bool := isxdigit c && xdigitValue c < base

theorem scanDigit_facts (c : IntConversion) {d : Nat} (h : d < 16) :
    isxdigit (c.digit d) = true ∧ xdigitValue (c.digit d) = d ∧ c.digit d ≠ 45 ∧
      isspace (c.digit d) = false ∧ c.digit d ≠ 0 ∧ (c.digit d = 48 ↔ d = 0) := by
  unfold IntConversion.digit
  revert d
  split
  · decide
  · decide

theorem scanDigits_map (bits : Nat) {base : Nat} (c : IntConversion) (hbase : base ≤ 16)
    {rest : List UInt8} (hrest : digitIn base (charAt rest 0) = false) (ds : List Nat)
    (hds : ∀ d ∈ ds, d < base) (r : Nat) :
    scanDigits bits base (ds.map c.digit ++ rest) (r % 2 ^ bits) =
      (ds.foldl (fun r d => r * base + d) r % 2 ^ bits, rest) := by
  induction ds generalizing r with
  | nil =>
    cases rest with
    | nil => rfl
    | cons c rest => exact if_neg (Bool.eq_false_iff.mp hrest)
  | cons d ds ih =>
    obtain ⟨hd, hds⟩ := List.forall_mem_cons.mp hds
    obtain ⟨hxdigit, hvalue, _⟩ := scanDigit_facts c (hd.trans_le hbase)
    have hin : (isxdigit (c.digit d) && decide (xdigitValue (c.digit d) < base)) = true := by
      rw [hxdigit, hvalue, Bool.true_and]
      exact decide_eq_true hd
    rw [List.map_cons, List.cons_append, scanDigits, if_pos hin, hvalue, List.foldl_cons, ← ih hds]
    congr 1
    rw [Nat.add_mod, Nat.mul_mod, Nat.mod_mod, ← Nat.mul_mod, ← Nat.add_mod]

def IntConversion.numeral (c : IntConversion) (n : Nat) : List UInt8 :=
  (numeralDigits c.base n).map c.digit

theorem IntConversion.base_bounds (c : IntConversion) : 1 < c.base ∧ c.base ≤ 16 := by
  cases c <;> decide

/-- Where a scanner of numbers does not end behind the numeral of `n`: at a digit of the base, or at
an `x` that makes a lone zero a prefix, for which `simple_strtoull` asks no base but a digit. -/
def IntConversion.ReadsOn (c : IntConversion) (wide : Bool) (n : Nat) (rest : List UInt8) : Prop :=
  digitIn c.base (charAt rest 0) = true ∨
    n = 0 ∧ toupper (charAt rest 0) = ascii 'X' ∧
      if wide then isxdigit (charAt rest 1) = true else c.base = 16

instance (c : IntConversion) (wide : Bool) (n : Nat) (rest : List UInt8) :
    Decidable (c.ReadsOn wide n rest) :=
  inferInstanceAs (Decidable (digitIn c.base (charAt rest 0) = true ∨ n = 0 ∧
    toupper (charAt rest 0) = ascii 'X' ∧
      if wide then isxdigit (charAt rest 1) = true else c.base = 16))

section
variable {c : IntConversion} {n : Nat} {rest : List UInt8}

/-- The numeral is a digit of the value that stands first and other digits. -/
theorem numeral_cons (c : IntConversion) (n : Nat) :
    ∃ d ds, c.numeral n = c.digit d :: ds.map c.digit ∧ numeralDigits c.base n = d :: ds ∧
      d < 16 := by
  obtain ⟨hbase, hle⟩ := c.base_bounds
  cases hdigits : numeralDigits c.base n with
  | nil => exact absurd hdigits (numeralDigits_ne_nil _ _)
  | cons d ds =>
    have hd : d < c.base := numeralDigits_lt hbase (hdigits ▸ List.mem_cons_self)
    exact ⟨d, ds, congrArg (List.map c.digit) hdigits, rfl, hd.trans_le hle⟩

theorem numeral_head (c : IntConversion) (n : Nat) (rest : List UInt8) :
    charAt (c.numeral n ++ rest) 0 ≠ ascii '-' ∧ isspace (charAt (c.numeral n ++ rest) 0) = false ∧
      charAt (c.numeral n ++ rest) 0 ≠ 0 := by
  obtain ⟨d, ds, hnumeral, _, hd⟩ := numeral_cons c n
  obtain ⟨_, _, hsign, hspace, hnul, _⟩ := scanDigit_facts c hd
  rw [hnumeral]
  exact ⟨hsign, hspace, hnul⟩

/-- A zero in front is the whole numeral. -/
theorem numeral_zero (c : IntConversion) {n : Nat} (rest : List UInt8)
    (h : charAt (c.numeral n ++ rest) 0 = 48) : n = 0 ∧ c.numeral n = [48] := by
  obtain ⟨d, ds, hnumeral, hdigits, hd⟩ := numeral_cons c n
  have hzero : d = 0 := by
    rw [hnumeral] at h
    exact (scanDigit_facts c hd).2.2.2.2.2.mp h
  obtain rfl := (numeralDigits_head hdigits).mp hzero
  refine ⟨rfl, ?_⟩
  unfold IntConversion.numeral numeralDigits
  rw [if_pos rfl, List.map_singleton, (scanDigit_facts c (by decide)).2.2.2.2.2.mpr rfl]

theorem scanDigits_numeral {bits : Nat} (hn : n < 2 ^ bits)
    (hends : digitIn c.base (charAt rest 0) = false) :
    scanDigits bits c.base (c.numeral n ++ rest) 0 = (n, rest) := by
  have hscan := scanDigits_map bits c c.base_bounds.2 hends (numeralDigits c.base n)
    (fun d hd => numeralDigits_lt c.base_bounds.1 hd) 0
  rw [numeralDigits_value, Nat.mod_eq_of_lt hn, Nat.zero_mod] at hscan
  exact hscan

/-- A zero passed over adds nothing. -/
theorem scanDigits_zero {bits base : Nat} {cp : List UInt8} (hbase : 0 < base) :
    scanDigits bits base (48 :: cp) 0 = scanDigits bits base cp 0 := by
  have hin : (isxdigit 48 && decide (xdigitValue 48 < base)) = true := decide_eq_true hbase
  have hvalue : (0 * base + xdigitValue 48) % 2 ^ bits = 0 := by
    rw [Nat.zero_mul]
    exact Nat.zero_mod _
  rw [scanDigits, if_pos hin, hvalue]

theorem simpleStrtoul_numeral {bits : Nat} (hn : n < 2 ^ bits) (hends : ¬c.ReadsOn false n rest) :
    simpleStrtoul bits (c.numeral n ++ rest) c.base = (n, rest) := by
  obtain ⟨hdigit, hprefix⟩ := not_or.mp hends
  have hbase := c.base_bounds.1
  unfold simpleStrtoul
  rw [if_neg (by omega), if_neg, scanDigits_numeral hn (Bool.eq_false_iff.mpr hdigit)]
  rintro ⟨hsixteen, hzero, hx⟩
  obtain ⟨hn, hnumeral⟩ := numeral_zero c rest hzero
  rw [hnumeral] at hx
  exact hprefix ⟨hn, hx, hsixteen⟩

theorem simpleStrtoull_numeral (hn : n < 2 ^ 64) (hends : ¬c.ReadsOn true n rest) :
    simpleStrtoull (c.numeral n ++ rest) c.base = (n, rest) := by
  obtain ⟨hdigit, hprefix⟩ := not_or.mp hends
  have hbase := c.base_bounds.1
  have hscan := scanDigits_numeral hn (Bool.eq_false_iff.mpr hdigit)
  unfold simpleStrtoull
  rw [if_neg (by omega : c.base ≠ 0), if_neg (by omega : c.base ≠ 0)]
  split
  next hzero =>
    obtain ⟨rfl, hnumeral⟩ := numeral_zero c rest hzero
    rw [hnumeral] at hscan ⊢
    refine (if_neg fun h => hprefix ⟨rfl, h⟩).trans ?_
    exact (scanDigits_zero (by omega)).symm.trans hscan
  · exact hscan

theorem toSigned_of_lt (bits : Nat) (hbits : 0 < bits) (h : n < 2 ^ (bits - 1)) :
    toSigned bits n = n := by
  have hpow : 2 ^ bits = 2 * 2 ^ (bits - 1) := by
    rw [← Nat.pow_succ', Nat.succ_eq_add_one, Nat.sub_add_cancel hbits]
  apply Int.bmod_eq_of_le_mul_two <;> omega

theorem lt_pow_of_half {bits : Nat} (h : n < 2 ^ (bits - 1)) : n < 2 ^ bits :=
  h.trans_le (Nat.pow_le_pow_right (by decide) (Nat.sub_le _ _))

theorem simpleStrtol_numeral {bits : Nat} (hbits : 0 < bits) (hn : n < 2 ^ (bits - 1))
    (hends : ¬c.ReadsOn false n rest) :
    simpleStrtol bits (c.numeral n ++ rest) c.base = ((n : Int), rest) := by
  unfold simpleStrtol
  rw [if_neg (numeral_head c n rest).1, simpleStrtoul_numeral (lt_pow_of_half hn) hends]
  exact Prod.ext (toSigned_of_lt bits hbits hn) rfl

theorem simpleStrtoll_numeral (hn : n < 2 ^ (64 - 1)) (hends : ¬c.ReadsOn true n rest) :
    simpleStrtoll (c.numeral n ++ rest) c.base = ((n : Int), rest) := by
  unfold simpleStrtoll
  rw [if_neg (numeral_head c n rest).1, simpleStrtoull_numeral (lt_pow_of_half hn) hends]
  exact congrArg (Prod.mk · rest) (toSigned_of_lt 64 (by decide) hn)

end

/-- The qualifiers of the sizes short, long and long long. -/
inductive ScanQualifier where
  | h
  | l
  | L
deriving DecidableEq, Repr

def ScanQualifier.char : ScanQualifier → UInt8
  | .h => ascii 'h'
  | .l => ascii 'l'
  | .L => ascii 'L'

/-- The bits of the object that an integer conversion fills. -/
def qualifierBits (longBits : Nat) : Option ScanQualifier → Nat
  | none => 32
  | some .h => 16
  | some .l => longBits
  | some .L => 64

/-- Whether `v` is a value of the object. -/
def IntConversion.Holds (c : IntConversion) (bits : Nat) (v : Int) : Prop :=
  if c.signed then -2 ^ (bits - 1) ≤ v ∧ v < 2 ^ (bits - 1) else 0 ≤ v ∧ v < 2 ^ bits

section
variable {longBits : Nat} {c : IntConversion} {n : Nat} {rest : List UInt8}
  {q : Option ScanQualifier}

theorem scanNumber_signed (hlong : 32 ≤ longBits) (hn : n < 2 ^ (qualifierBits longBits q - 1))
    (hends : ¬c.ReadsOn (q = some .L) n rest) :
    scanNumber longBits (q.map ScanQualifier.char) true (c.numeral n ++ rest) c.base =
      ((n : Int), rest) := by
  have hstrtol : ∀ bits, bits ≤ longBits → n < 2 ^ (bits - 1) → ¬c.ReadsOn false n rest →
      simpleStrtol longBits (c.numeral n ++ rest) c.base = ((n : Int), rest) := by
    intro bits hbits hn hends
    refine simpleStrtol_numeral (by omega) (hn.trans_le ?_) hends
    exact Nat.pow_le_pow_right (by decide) (by omega)
  unfold scanNumber
  cases q with
  | none =>
    rw [if_neg (by decide), if_neg (by decide), if_neg (by decide), if_neg (by decide),
      if_pos (by decide), hstrtol 32 hlong hn hends]
    exact congrArg (Prod.mk · rest) (toSigned_of_lt 32 (by decide) hn)
  | some q =>
    cases q with
    | h =>
      rw [if_pos (by decide), if_pos (by decide), hstrtol 16 (by omega) hn hends]
      exact congrArg (Prod.mk · rest) (toSigned_of_lt 16 (by decide) hn)
    | l =>
      rw [if_neg (by decide), if_pos (by decide), if_pos (by decide),
        hstrtol longBits (Nat.le_refl _) hn hends]
    | L =>
      rw [if_neg (by decide), if_neg (by decide), if_pos (by decide), if_pos (by decide),
        simpleStrtoll_numeral hn hends]

theorem scanNumber_unsigned (hlong : 32 ≤ longBits) (hn : n < 2 ^ qualifierBits longBits q)
    (hends : ¬c.ReadsOn (q = some .L) n rest) :
    scanNumber longBits (q.map ScanQualifier.char) false (c.numeral n ++ rest) c.base =
      ((n : Int), rest) := by
  have hstrtoul : ∀ bits, bits ≤ longBits → n < 2 ^ bits → ¬c.ReadsOn false n rest →
      simpleStrtoul longBits (c.numeral n ++ rest) c.base = (n, rest) := by
    intro bits hbits hn hends
    exact simpleStrtoul_numeral (hn.trans_le (Nat.pow_le_pow_right (by decide) hbits)) hends
  have hmod : ∀ bits, n < 2 ^ bits → ((n % 2 ^ bits : Nat) : Int) = n :=
    fun bits hn => congrArg Nat.cast (Nat.mod_eq_of_lt hn)
  unfold scanNumber
  cases q with
  | none =>
    rw [if_neg (by decide), if_neg (by decide), if_neg (by decide), if_neg (by decide),
      if_neg (by decide), hstrtoul 32 hlong hn hends]
    exact Prod.ext (hmod 32 hn) rfl
  | some q =>
    cases q with
    | h =>
      rw [if_pos (by decide), if_neg (by decide), hstrtoul 16 (by omega) hn hends]
      exact Prod.ext (hmod 16 hn) rfl
    | l =>
      rw [if_neg (by decide), if_pos (by decide), if_neg (by decide),
        hstrtoul longBits (Nat.le_refl _) hn hends]
    | L =>
      rw [if_neg (by decide), if_neg (by decide), if_pos (by decide), if_neg (by decide),
        simpleStrtoull_numeral hn hends]

/-- A numeral that ends where its scanner ends is read as its value, whatever the size. -/
theorem scanNumber_numeral (hlong : 32 ≤ longBits) (hn : c.Holds (qualifierBits longBits q) n)
    (hends : ¬c.ReadsOn (q = some .L) n rest) :
    scanNumber longBits (q.map ScanQualifier.char) c.signed (c.numeral n ++ rest) c.base =
      ((n : Int), rest) := by
  unfold IntConversion.Holds at hn
  cases hsigned : c.signed with
  | true =>
    rw [hsigned, if_pos rfl] at hn
    exact scanNumber_signed hlong (by exact_mod_cast hn.2) hends
  | false =>
    rw [hsigned, if_neg (by decide)] at hn
    exact scanNumber_unsigned hlong (by exact_mod_cast hn.2) hends

end

inductive ScanField where
  | number (c : IntConversion) (pad : Nat) (v : Int)
  | word (pad : Nat) (s : List UInt8)
  | chars (s : List UInt8)
deriving DecidableEq, Repr

namespace ScanField

def char : ScanField → UInt8
  | .number c _ _ => c.char
  | .word _ _ => ascii 's'
  | .chars _ => ascii 'c'

/-- The blanks in front. -/
def pad : ScanField → Nat
  | .number _ pad _ => pad
  | .word pad _ => pad
  | .chars _ => 0

def text : ScanField → List UInt8
  | .number c _ v => (if v < 0 then [ascii '-'] else []) ++ c.numeral v.natAbs
  | .word _ s => s
  | .chars s => s

/-- What the conversion is to store. -/
def stored : ScanField → ScanStore
  | .number _ _ v => .number v
  | .word _ s => .bytes (s ++ [0])
  | .chars s => .bytes s

end ScanField

/-- A conversion of a format with the field that is printed for it. -/
structure ScanConversion where
  width : Option Nat
  qualifier : Option ScanQualifier
  field : ScanField
deriving DecidableEq, Repr

namespace ScanConversion

variable (k : ScanConversion)

def widthText : List UInt8 :=
  match k.width with
  | none => []
  | some w => IntConversion.d.numeral w

def qualifierText : List UInt8 := (k.qualifier.map ScanQualifier.char).toList

def format : List UInt8 := ascii '%' :: (k.widthText ++ (k.qualifierText ++ [k.field.char]))

def printed : List UInt8 := List.replicate k.field.pad 32 ++ k.field.text

/-- `field_width` behind the width of the conversion. -/
def widthInEffect (fieldWidth : Int) : Int :=
  match k.width with
  | none => fieldWidth
  | some w => w

end ScanConversion

section
variable (longBits : Nat) (buf : List UInt8)

theorem fieldChar_facts (f : ScanField) :
    isdigit f.char = false ∧ Scan.isQualifier f.char = false ∧ f.char ≠ 0 ∧ f.char ≠ ascii '*' := by
  have hnumber (c : IntConversion) : isdigit c.char = false ∧ Scan.isQualifier c.char = false ∧
      c.char ≠ 0 ∧ c.char ≠ ascii '*' := by cases c <;> decide
  have hletter : ∀ c ∈ [ascii 's', ascii 'c'], isdigit c = false ∧ Scan.isQualifier c = false ∧
      c ≠ 0 ∧ c ≠ ascii '*' := by decide +kernel
  cases f with
  | number c pad v => exact hnumber c
  | word pad s => exact hletter _ List.mem_cons_self
  | chars s => exact hletter _ (List.mem_cons_of_mem _ List.mem_cons_self)

theorem skipAtoi_map {rest : List UInt8} (hrest : isdigit (charAt rest 0) = false) (ds : List Nat)
    (hds : ∀ d ∈ ds, d < 10) (i : Nat) :
    skipAtoi (ds.map IntConversion.d.digit ++ rest) i =
      (ds.foldl (fun r d => r * 10 + d) i, rest) := by
  have hdigit : ∀ d < 10, isdigit (IntConversion.d.digit d) = true ∧
      (IntConversion.d.digit d).toNat - 48 = d := by decide
  induction ds generalizing i with
  | nil =>
    cases rest with
    | nil => rfl
    | cons c rest => exact if_neg (Bool.eq_false_iff.mp hrest)
  | cons d ds ih =>
    obtain ⟨hd, hds⟩ := List.forall_mem_cons.mp hds
    obtain ⟨hin, hvalue⟩ := hdigit d hd
    rw [List.map_cons, List.cons_append, skipAtoi, if_pos hin, hvalue, ih hds, List.foldl_cons]

theorem skipAtoi_width {rest : List UInt8} (hrest : isdigit (charAt rest 0) = false) (w : Nat) :
    skipAtoi (IntConversion.d.numeral w ++ rest) 0 = (w, rest) := by
  have h := skipAtoi_map hrest (numeralDigits 10 w) (fun d hd => numeralDigits_lt (by decide) hd) 0
  rw [numeralDigits_value] at h
  exact h

/-- A width begins with a digit, which is no star. -/
theorem width_cons (w : Nat) : ∃ c cs, IntConversion.d.numeral w = c :: cs ∧ isdigit c = true ∧
    c ≠ ascii '*' := by
  obtain ⟨d, ds, hnumeral, hdigits, _⟩ := numeral_cons IntConversion.d w
  have hd : d < 10 := numeralDigits_lt (by decide) (hdigits ▸ List.mem_cons_self)
  have hin : ∀ d < 10, isdigit (IntConversion.d.digit d) = true ∧
      IntConversion.d.digit d ≠ ascii '*' := by decide
  exact ⟨_, _, hnumeral, hin d hd⟩

variable (k : ScanConversion) (fmt str : List UInt8) (num : Nat) (fieldWidth : Int)
  (stored : List ScanStore)

theorem readWidth_conversion {rest : List UInt8} (hrest : isdigit (charAt rest 0) = false) :
    (⟨k.widthText ++ rest, str, num, fieldWidth, stored⟩ : Scan).readWidth =
      ⟨rest, str, num, k.widthInEffect fieldWidth, stored⟩ := by
  unfold Scan.readWidth ScanConversion.widthInEffect ScanConversion.widthText
  cases k.width with
  | none => exact if_neg (Bool.eq_false_iff.mp hrest)
  | some w =>
    obtain ⟨c, cs, hnumeral, hdigit, _⟩ := width_cons w
    have hfirst : isdigit (charAt (IntConversion.d.numeral w ++ rest) 0) = true := by
      rw [hnumeral]
      exact hdigit
    dsimp only
    rw [if_pos hfirst, skipAtoi_width hrest]

/-- What stands behind the width. -/
theorem qualifier_head :
    isdigit (charAt (k.qualifierText ++ k.field.char :: fmt) 0) = false ∧
      charAt (k.qualifierText ++ k.field.char :: fmt) 0 ≠ ascii '*' := by
  obtain ⟨hdigit, _, _, hstar⟩ := fieldChar_facts k.field
  unfold ScanConversion.qualifierText
  cases k.qualifier with
  | none => exact ⟨hdigit, hstar⟩
  | some q =>
    have hq : isdigit q.char = false ∧ q.char ≠ ascii '*' := by cases q <;> decide
    exact hq

theorem readQualifier_conversion :
    (⟨k.qualifierText ++ k.field.char :: fmt, str, num, fieldWidth, stored⟩ : Scan).readQualifier =
      (k.qualifier.map ScanQualifier.char,
        ⟨k.field.char :: fmt, str, num, fieldWidth, stored⟩) := by
  have hletter := (fieldChar_facts k.field).2.1
  unfold Scan.readQualifier ScanConversion.qualifierText
  cases k.qualifier with
  | none => exact if_neg (Bool.eq_false_iff.mp hletter)
  | some q =>
    have hq : Scan.isQualifier q.char = true := by cases q <;> decide
    exact if_pos hq

theorem turn_nonblank {c : UInt8} (h : isspace c = false) :
    (⟨c :: fmt, str, num, fieldWidth, stored⟩ : Scan).turn longBits buf =
      (⟨c :: fmt, str, num, fieldWidth, stored⟩ : Scan).matchFormat longBits buf :=
  congrArg (Scan.matchFormat longBits buf) (if_neg (Bool.eq_false_iff.mp h))

theorem turn_percent :
    (⟨ascii '%' :: fmt, str, num, fieldWidth, stored⟩ : Scan).turn longBits buf =
      (⟨fmt, str, num, fieldWidth, stored⟩ : Scan).directive longBits buf := by
  have hspace : isspace (ascii '%') = false := by decide
  have hne : ascii '%' ≠ 0 := by decide
  exact (turn_nonblank longBits buf fmt str num fieldWidth stored hspace).trans
    ((if_neg fun h => h.1 rfl).trans (if_neg hne))

theorem format_append : k.format ++ fmt =
    ascii '%' :: (k.widthText ++ (k.qualifierText ++ k.field.char :: fmt)) := by
  unfold ScanConversion.format
  simp only [List.cons_append, List.append_assoc, List.nil_append]

/-- A conversion is performed with the width in effect. -/
theorem result_conversion (hstr : charAt str 0 ≠ 0) :
    (⟨k.format ++ fmt, str, num, fieldWidth, stored⟩ : Scan).result longBits buf =
      Scan.resultOf longBits buf
        ((⟨fmt, str, num, k.widthInEffect fieldWidth, stored⟩ : Scan).convert longBits buf
          (k.qualifier.map ScanQualifier.char) k.field.char) := by
  obtain ⟨hdigit, hstar⟩ := qualifier_head k fmt
  have hhead : charAt (k.widthText ++ (k.qualifierText ++ k.field.char :: fmt)) 0 ≠ ascii '*' := by
    unfold ScanConversion.widthText
    cases k.width with
    | none => exact hstar
    | some w =>
      obtain ⟨c, cs, hnumeral, _, hne⟩ := width_cons w
      dsimp only
      rw [hnumeral]
      exact hne
  have hread : ¬(charAt (k.field.char :: fmt) 0 = 0 ∨ charAt str 0 = 0) :=
    not_or.mpr ⟨(fieldChar_facts k.field).2.2.1, hstr⟩
  rw [format_append, Scan.result_turn, turn_percent]
  · congr 1
    unfold Scan.directive
    refine (if_neg hhead).trans ?_
    rw [readWidth_conversion k str num fieldWidth stored hdigit, readQualifier_conversion]
    exact if_neg hread
  · exact (show ascii '%' ≠ 0 by decide)
  · exact hstr

/-- A character of literal text that is found is passed over; a percent sign stands twice. -/
theorem result_literal {c : UInt8} (hspace : isspace c = false) (hne : c ≠ 0) :
    (⟨(if c = ascii '%' then [ascii '%', ascii '%'] else [c]) ++ fmt, c :: str, num, fieldWidth,
        stored⟩ : Scan).result longBits buf =
      (⟨fmt, str, num, fieldWidth, stored⟩ : Scan).result longBits buf := by
  by_cases hc : c = ascii '%'
  · subst hc
    rw [if_pos rfl, List.cons_append, Scan.result_turn, turn_percent]
    · rfl
    · exact hne
    · exact hne
  · rw [if_neg hc, Scan.result_turn]
    · exact congrArg (Scan.resultOf longBits buf)
        ((turn_nonblank longBits buf fmt (c :: str) num fieldWidth stored hspace).trans
          ((if_pos ⟨hc, hne⟩).trans (if_pos rfl)))
    · exact hne
    · exact hne

theorem dropWhile_of_head {p : UInt8 → Bool} {s : List UInt8} (h : p (charAt s 0) = false) :
    s.dropWhile p = s := by
  cases s with
  | nil => rfl
  | cons c s => exact List.dropWhile_cons_of_neg (Bool.eq_false_iff.mp h)

/-- Behind the text nothing is stored. -/
theorem resultOf_matchFormat {s : Scan} (hstr : charAt s.str 0 = 0) :
    Scan.resultOf longBits buf (s.matchFormat longBits buf) = (s.num, s.stored) := by
  unfold Scan.matchFormat
  split
  next h => rw [if_neg fun heq => h.2 (heq.trans hstr)]; rfl
  next =>
    split
    · rfl
    · unfold Scan.directive
      split
      · refine Scan.result_end longBits buf (.inr ?_)
        dsimp only
        rw [dropWhile_of_head (by rw [hstr]; rfl), hstr]
      · unfold Scan.readConversion
        obtain ⟨hqstr, hqnum, hqstored⟩ :=
          Scan.readQualifier_same { s with fmt := s.fmt.drop 1 }.readWidth
        obtain ⟨hwstr, hwnum, hwstored⟩ := Scan.readWidth_same { s with fmt := s.fmt.drop 1 }
        rw [if_pos (.inr (by rw [hqstr, hwstr, hstr]))]
        exact Prod.ext (hqnum.trans hwnum) (hqstored.trans hwstored)

/-- White space of the format passes over white space of the text. -/
theorem result_blank {c : UInt8} (hspace : isspace c = true) :
    (⟨c :: fmt, str, num, fieldWidth, stored⟩ : Scan).result longBits buf =
      (⟨fmt, str.dropWhile isspace, num, fieldWidth, stored⟩ : Scan).result longBits buf := by
  have hne : c ≠ 0 := by
    rintro rfl
    exact absurd hspace (by decide)
  have hnul : ∀ {s}, charAt s 0 = 0 → s.dropWhile isspace = s :=
    fun h => dropWhile_of_head (by rw [h]; rfl)
  by_cases hstr : charAt str 0 = 0
  · rw [hnul hstr]
    refine (Scan.result_end longBits buf (.inr hstr)).trans ?_
    symm
    exact Scan.result_end longBits buf (.inr hstr)
  -- both rounds go on behind the same white space
  have hskip : (⟨c :: fmt, str, num, fieldWidth, stored⟩ : Scan).skipSpaces =
      ⟨fmt.dropWhile isspace, str.dropWhile isspace, num, fieldWidth, stored⟩ := by
    rw [← List.dropWhile_cons_of_pos (a := c) hspace]
    exact if_pos hspace
  have hturn : (⟨c :: fmt, str, num, fieldWidth, stored⟩ : Scan).result longBits buf =
      Scan.resultOf longBits buf ((⟨fmt.dropWhile isspace, str.dropWhile isspace, num, fieldWidth,
        stored⟩ : Scan).matchFormat longBits buf) := by
    rw [← hskip]
    exact Scan.result_turn longBits buf hne hstr
  rw [hturn]
  by_cases hrest : charAt (str.dropWhile isspace) 0 = 0
  · refine (resultOf_matchFormat longBits buf hrest).trans ?_
    symm
    exact Scan.result_end longBits buf (.inr hrest)
  by_cases hfmt : charAt fmt 0 = 0
  · rw [hnul hfmt]
    symm
    refine (Scan.result_end longBits buf (.inl hfmt)).trans ?_
    symm
    exact congrArg (Scan.resultOf longBits buf) ((if_neg fun h => h.2 hfmt).trans (if_pos hfmt))
  symm
  refine (Scan.result_turn longBits buf hfmt hrest).trans ?_
  unfold Scan.turn Scan.skipSpaces
  by_cases hblank : isspace (charAt fmt 0) = true
  · rw [if_pos hblank, List.dropWhile_idempotent]
  · rw [if_neg hblank, dropWhile_of_head (Bool.eq_false_iff.mpr hblank)]

end

namespace ScanConversion

variable (k : ScanConversion)

/-- The value is one that the object can hold, and its text one that the conversion can print. -/
def Printable (longBits : Nat) : Prop :=
  match k.field with
  | .number c _ v => c.Holds (qualifierBits longBits k.qualifier) v
  | .word _ s => s ≠ [] ∧ ∀ c ∈ s, Scan.inWord c = true
  | .chars s => s.length = k.width.getD 1 ∧ ∀ c ∈ s, c ≠ 0

/-- What follows does not continue the field: it fills its width, or the next character is no part
of such a field. -/
def Separated (rest : List UInt8) : Prop :=
  match k.field with
  | .number c _ v => k.width = some k.field.text.length ∨
      digitIn c.base (charAt rest 0) = false ∧
        (c.base = 16 → v = 0 → toupper (charAt rest 0) ≠ ascii 'X')
  | .word _ s => k.width = some s.length ∨ Scan.inWord (charAt rest 0) = false
  | .chars _ => True

structure Fits (longBits : Nat) (rest : List UInt8) : Prop where
  width : ∀ w, k.width = some w → 0 < w ∧ w ≤ 2147483647 ∧ k.field.text.length ≤ w
  printable : k.Printable longBits
  separated : k.Separated rest

/-- How many characters `%s` and `%c` take, where no width is in effect. -/
def limit (fieldWidth : Int) : Int :=
  match k.field with
  | .chars _ => if fieldWidth = -1 then 1 else fieldWidth
  | _ => if fieldWidth = -1 then 2147483647 else fieldWidth

/-- Where the code reads the field back: a number begins with a digit and is not read on, a string
is not longer than the width in effect, and single characters end the text or have the width 0 in
effect that an earlier string has left. -/
def Reads (fieldWidth : Int) (rest : List UInt8) : Prop :=
  match k.field with
  | .number c _ v => isdigit (charAt k.field.text 0) = true ∧
      ¬c.ReadsOn (k.qualifier = some .L) v.natAbs rest
  | .word _ s => (s.length : Int) ≤ k.limit fieldWidth
  | .chars _ => rest = [] ∨ k.width = none ∧ fieldWidth = 0

/-- `field_width` behind a conversion that reads its field. -/
def widthLeft (fieldWidth : Int) (rest : List UInt8) : Int :=
  match k.field with
  | .number _ _ _ => fieldWidth
  | .word _ s => if k.limit fieldWidth = s.length ∧ Scan.inWord (charAt rest 0) = true then -1
      else k.limit fieldWidth - s.length
  | .chars s => k.limit fieldWidth - s.length

/-- A number that is read on is not by chance the same modulo the size of its type. -/
def Differs (longBits : Nat) (rest : List UInt8) : Prop :=
  match k.field with
  | .number c _ v => c.ReadsOn (k.qualifier = some .L) v.natAbs rest →
      (scanNumber longBits (k.qualifier.map ScanQualifier.char) c.signed (k.field.text ++ rest)
        c.base).1 ≠ v
  | _ => True

/-- Where a conversion finds its field: behind blanks, except for `%c`. -/
def Finds (str rest : List UInt8) : Prop :=
  match k.field with
  | .chars s => str = s ++ rest
  | _ => str.dropWhile isspace = k.field.text ++ rest

end ScanConversion

section
variable {longBits : Nat} {buf : List UInt8} {s : Scan} {k : ScanConversion} {rest : List UInt8}

theorem result_wrong {stored values : List ScanStore} {x v : ScanStore} (hne : x ≠ v)
    (hstored : s.stored = stored ++ [x]) : (s.result longBits buf).2 ≠ stored ++ v :: values := by
  intro h
  have hprefix := s.result_stored longBits buf
  rw [hstored, h, List.prefix_append_right_inj] at hprefix
  exact hne (List.cons_prefix_cons.mp hprefix).1

theorem result_stopped {stored values : List ScanStore} {v : ScanStore} :
    stored ≠ stored ++ v :: values := by
  intro h
  have hlength := congrArg List.length h
  rw [List.length_append, List.length_cons] at hlength
  omega

theorem convert_number (c : IntConversion) (q : Option UInt8) :
    s.convert longBits buf q c.char = s.scanInteger longBits q c.signed c.base := by
  cases c <;> rfl

theorem number_text {c : IntConversion} {pad : Nat} {v : Int}
    (h : isdigit (charAt (ScanField.number c pad v).text 0) = true) :
    0 ≤ v ∧ (ScanField.number c pad v).text = c.numeral v.natAbs := by
  unfold ScanField.text at h ⊢
  dsimp only at h ⊢
  split at h
  · exact absurd h (show ¬isdigit (ascii '-') = true by decide)
  next hneg =>
    rw [if_neg hneg]
    exact ⟨by omega, rfl⟩

/-- What a number begins with. -/
theorem number_cons (c : IntConversion) (pad : Nat) (v : Int) :
    ∃ d ds, (ScanField.number c pad v).text = d :: ds ∧ Scan.inWord d = true := by
  obtain ⟨d, ds, hnumeral, _, hd⟩ := numeral_cons c v.natAbs
  obtain ⟨_, _, _, hspace, hnul, _⟩ := scanDigit_facts c hd
  unfold ScanField.text
  dsimp only
  rw [hnumeral]
  split
  · exact ⟨_, _, rfl, by decide⟩
  · refine ⟨_, _, rfl, ?_⟩
    unfold Scan.inWord
    rw [hspace, Bool.not_false, Bool.true_and]
    exact decide_eq_true hnul

theorem charAt_append {t : List UInt8} (h : t ≠ []) (rest : List UInt8) :
    charAt (t ++ rest) 0 = charAt t 0 := by
  cases t with
  | nil => exact absurd rfl h
  | cons c t => rfl

/-- A number is read back when it begins with a digit and ends where its field ends. -/
theorem scanInteger_right (hlong : 32 ≤ longBits) {c : IntConversion} {pad : Nat} {v : Int}
    (hfield : k.field = .number c pad v) (hfits : k.Fits longBits rest)
    (hfinds : k.Finds s.str rest) {fieldWidth : Int} (hreads : k.Reads fieldWidth rest) :
    s.scanInteger longBits (k.qualifier.map ScanQualifier.char) c.signed c.base =
      .again { s with str := rest, num := s.num + 1, stored := s.stored ++ [.number v] } := by
  have hprintable := hfits.printable
  unfold ScanConversion.Printable at hprintable
  unfold ScanConversion.Reads at hreads
  unfold ScanConversion.Finds at hfinds
  rw [hfield] at hprintable hreads hfinds
  obtain ⟨hdigit, hends⟩ := hreads
  obtain ⟨hsign, htext⟩ := number_text hdigit
  obtain ⟨n, rfl⟩ := Int.eq_ofNat_of_zero_le hsign
  dsimp only at hfinds hprintable
  rw [htext] at hfinds hdigit
  have hfirst : isdigit (charAt (c.numeral n ++ rest) 0) = true := by
    rw [charAt_append _ rest]
    · exact hdigit
    · intro hnil
      rw [Int.natAbs_natCast, hnil] at hdigit
      exact absurd hdigit (by decide)
  unfold Scan.scanInteger
  dsimp only
  rw [hfinds, Int.natAbs_natCast, if_pos hfirst, scanNumber_numeral hlong hprintable hends]

/-- Elsewhere the run stops at it, or stores another number. -/
theorem scanInteger_wrong {c : IntConversion} {pad : Nat} {v : Int}
    (hfield : k.field = .number c pad v) (hfinds : k.Finds s.str rest)
    (hdiffers : k.Differs longBits rest) {fieldWidth : Int} (hreads : ¬k.Reads fieldWidth rest)
    (values : List ScanStore) :
    (Scan.resultOf longBits buf
      (s.scanInteger longBits (k.qualifier.map ScanQualifier.char) c.signed c.base)).2 ≠
        s.stored ++ .number v :: values := by
  unfold ScanConversion.Reads at hreads
  unfold ScanConversion.Finds at hfinds
  unfold ScanConversion.Differs at hdiffers
  rw [hfield] at hreads hfinds hdiffers
  dsimp only at hfinds hreads hdiffers
  unfold Scan.scanInteger
  dsimp only
  rw [hfinds]
  split
  next hfirst =>
    obtain ⟨d, ds, htext, _⟩ := number_cons c pad v
    rw [charAt_append (htext ▸ List.cons_ne_nil d ds)] at hfirst
    have hon := Classical.not_not.mp fun h => hreads ⟨hfirst, h⟩
    refine result_wrong (fun heq => ?_) rfl
    exact hdiffers hon (ScanStore.number.inj heq)
  · exact result_stopped

theorem inWord_iff {c : UInt8} : Scan.inWord c = true ↔ ¬(c = 0 ∨ isspace c = true) := by
  unfold Scan.inWord
  rw [Bool.and_eq_true, Bool.not_eq_true', not_or, and_comm, Bool.not_eq_true]
  exact and_congr_left fun _ => decide_eq_true_iff

/-- A word that its width covers is copied whole. -/
theorem copyWord_eq {t : List UInt8} {fieldWidth : Int} (ht : ∀ c ∈ t, Scan.inWord c = true)
    (hwidth : (t.length : Int) ≤ fieldWidth)
    (hend : Scan.inWord (charAt rest 0) = false ∨ fieldWidth = t.length) :
    copyWord (t ++ rest) fieldWidth = (t, rest,
      if fieldWidth = t.length ∧ Scan.inWord (charAt rest 0) = true then -1
      else fieldWidth - t.length) := by
  induction t generalizing fieldWidth with
  | nil =>
    cases rest with
    | nil =>
      have hnul : ¬Scan.inWord (charAt [] 0) = true := by decide
      rw [if_neg fun h => hnul h.2]
      exact Prod.ext rfl (Prod.ext rfl (Int.sub_zero _).symm)
    | cons c rest =>
      rw [List.nil_append]
      unfold copyWord
      by_cases hc : Scan.inWord c = true
      · obtain rfl : fieldWidth = 0 := hend.resolve_left fun h =>
          absurd (hc.symm.trans h) (by decide)
        rw [if_neg (inWord_iff.mp hc), if_pos rfl, if_pos ⟨rfl, hc⟩]
        rfl
      · rw [if_pos (Classical.not_not.mp fun h => hc (inWord_iff.mpr h)), if_neg fun h => hc h.2]
        exact Prod.ext rfl (Prod.ext rfl (Int.sub_zero _).symm)
  | cons c t ih =>
    obtain ⟨hc, ht⟩ := List.forall_mem_cons.mp ht
    rw [List.length_cons] at hwidth hend ⊢
    have hrest := ih ht (show (t.length : Int) ≤ fieldWidth - 1 by omega)
      (hend.imp_right fun h => by omega)
    rw [List.cons_append]
    unfold copyWord
    rw [if_neg (inWord_iff.mp hc), if_neg (by omega), hrest]
    refine Prod.ext rfl (Prod.ext rfl ?_)
    dsimp only
    have hiff : fieldWidth - 1 = t.length ↔ fieldWidth = (t.length + 1 : Nat) := by omega
    have hleft : fieldWidth - 1 - t.length = fieldWidth - (t.length + 1 : Nat) := by omega
    simp only [hiff, hleft]

theorem copyWord_length (str : List UInt8) {fieldWidth : Int} (h : 0 ≤ fieldWidth) :
    ((copyWord str fieldWidth).1.length : Int) ≤ fieldWidth := by
  induction str generalizing fieldWidth with
  | nil => exact h
  | cons c str ih =>
    unfold copyWord
    split
    · exact h
    · split
      · exact h
      next hne =>
        have hrest := ih (show 0 ≤ fieldWidth - 1 by omega)
        rw [List.length_cons]
        omega

theorem copyChars_eq {t : List UInt8} {fieldWidth : Int} (hne : t ≠ []) (ht : ∀ c ∈ t, c ≠ 0)
    (hwidth : (t.length : Int) = fieldWidth + 1 ∨ rest = [] ∧ (t.length : Int) ≤ fieldWidth + 1) :
    copyChars (t ++ rest) fieldWidth = (t, rest, fieldWidth - t.length) := by
  induction t generalizing fieldWidth with
  | nil => exact absurd rfl hne
  | cons c t ih =>
    rw [List.cons_append]
    unfold copyChars
    cases t with
    | nil =>
      rw [List.nil_append, if_neg]
      · rfl
      · rintro ⟨hpos, hnext⟩
        rcases hwidth with hwidth | ⟨rfl, _⟩
        · rw [List.length_singleton] at hwidth
          omega
        · exact hnext rfl
    | cons d t =>
      obtain ⟨_, ht⟩ := List.forall_mem_cons.mp ht
      have hlength : (c :: d :: t).length = (d :: t).length + 1 := rfl
      have hone : 1 ≤ (d :: t).length := Nat.succ_pos _
      rw [hlength] at hwidth ⊢
      have hpos : 0 < fieldWidth := by omega
      have hrest := ih (List.cons_ne_nil d t) ht (hwidth.imp
        (fun h => show _ = fieldWidth - 1 + 1 by omega) fun h => ⟨h.1, by omega⟩)
      rw [if_pos ⟨hpos, (List.forall_mem_cons.mp ht).1⟩, hrest]
      refine Prod.ext rfl (Prod.ext rfl ?_)
      dsimp only
      omega

theorem copyChars_length {str : List UInt8} {fieldWidth : Int} (hne : str ≠ [])
    (hstr : ∀ c ∈ str, c ≠ 0) (h : 0 ≤ fieldWidth) :
    ((copyChars str fieldWidth).1.length : Int) = min (fieldWidth + 1) str.length := by
  induction str generalizing fieldWidth with
  | nil => exact absurd rfl hne
  | cons c str ih =>
    obtain ⟨_, hstr⟩ := List.forall_mem_cons.mp hstr
    rw [List.length_cons]
    unfold copyChars
    split
    next hgo =>
      have hstr' : str ≠ [] := by
        rintro rfl
        exact hgo.2 rfl
      have hrest := ih hstr' hstr (show 0 ≤ fieldWidth - 1 by omega)
      rw [List.length_cons]
      omega
    next hstop =>
      rw [List.length_singleton]
      cases str with
      | nil =>
        rw [List.length_nil]
        omega
      | cons d str =>
        have hd := (List.forall_mem_cons.mp hstr).1
        have hzero : ¬0 < fieldWidth := fun hpos => hstop ⟨hpos, hd⟩
        rw [List.length_cons]
        omega

theorem limit_nonneg (k : ScanConversion) {fieldWidth : Int} (h : -1 ≤ fieldWidth) :
    0 ≤ k.limit fieldWidth := by
  unfold ScanConversion.limit
  split
  · split
    · omega
    · omega
  · split
    · omega
    · omega

theorem limit_nat (k : ScanConversion) (w : Nat) : k.limit w = w := by
  have hne : ¬(w : Int) = -1 := by omega
  unfold ScanConversion.limit
  split
  · exact if_neg hne
  · exact if_neg hne

/-- A string is read back when the width in effect covers it. -/
theorem scanWord_right {pad : Nat} {t : List UInt8} (hfield : k.field = .word pad t)
    (hfits : k.Fits longBits rest) (hfinds : k.Finds s.str rest) {fieldWidth : Int}
    (hwidth : s.fieldWidth = k.widthInEffect fieldWidth) (hreads : k.Reads s.fieldWidth rest) :
    s.scanWord = .again { s with
      str := rest, fieldWidth := k.widthLeft s.fieldWidth rest, num := s.num + 1,
      stored := s.stored ++ [.bytes (t ++ [0])] } := by
  have hprintable := hfits.printable
  have hseparated := hfits.separated
  unfold ScanConversion.Printable at hprintable
  unfold ScanConversion.Separated at hseparated
  unfold ScanConversion.Reads at hreads
  unfold ScanConversion.Finds at hfinds
  rw [hfield] at hprintable hseparated hreads hfinds
  have hlimit : k.limit s.fieldWidth =
      if s.fieldWidth = -1 then 2147483647 else s.fieldWidth := by
    unfold ScanConversion.limit
    rw [hfield]
  have hend : Scan.inWord (charAt rest 0) = false ∨ k.limit s.fieldWidth = t.length := by
    refine hseparated.symm.imp_right fun hfull => ?_
    unfold ScanConversion.widthInEffect at hwidth
    rw [hfull] at hwidth
    rw [hwidth]
    exact limit_nat k t.length
  have hleft : k.widthLeft s.fieldWidth rest =
      if k.limit s.fieldWidth = t.length ∧ Scan.inWord (charAt rest 0) = true then -1
      else k.limit s.fieldWidth - t.length := by
    unfold ScanConversion.widthLeft
    rw [hfield]
  unfold Scan.scanWord
  rw [show s.str.dropWhile isspace = t ++ rest from hfinds, ← hlimit,
    copyWord_eq hprintable.2 hreads hend, hleft]

/-- Elsewhere what is copied is shorter. -/
theorem scanWord_wrong {pad : Nat} {t : List UInt8} (hfield : k.field = .word pad t)
    (hwidth : -1 ≤ s.fieldWidth) (hreads : ¬k.Reads s.fieldWidth rest) (values : List ScanStore) :
    (Scan.resultOf longBits buf s.scanWord).2 ≠ s.stored ++ .bytes (t ++ [0]) :: values := by
  have hlimit : k.limit s.fieldWidth =
      if s.fieldWidth = -1 then 2147483647 else s.fieldWidth := by
    unfold ScanConversion.limit
    rw [hfield]
  unfold ScanConversion.Reads at hreads
  rw [hfield] at hreads
  have hshort := copyWord_length (s.str.dropWhile isspace) (limit_nonneg k hwidth)
  rw [hlimit] at hshort hreads
  unfold Scan.scanWord
  refine result_wrong (fun heq => ?_) rfl
  have hcopy := List.append_cancel_right (ScanStore.bytes.inj heq)
  rw [hcopy] at hshort
  exact hreads hshort

theorem limit_chars {t : List UInt8} (hfield : k.field = .chars t) (fieldWidth : Int) :
    k.limit fieldWidth = if fieldWidth = -1 then 1 else fieldWidth := by
  unfold ScanConversion.limit
  rw [hfield]

/-- A field of `%c` has the characters of its width, or one. -/
theorem chars_length {t : List UInt8} (hfield : k.field = .chars t) (hfits : k.Fits longBits rest) :
    1 ≤ t.length ∧ ∀ w, k.width = some w → t.length = w := by
  have hprintable := hfits.printable
  unfold ScanConversion.Printable at hprintable
  rw [hfield] at hprintable
  obtain ⟨hlength, _⟩ := hprintable
  cases hw : k.width with
  | none =>
    rw [hw] at hlength
    exact ⟨hlength.ge, fun w h => nomatch h⟩
  | some w =>
    rw [hw] at hlength
    exact ⟨hlength.symm ▸ (hfits.width w hw).1, fun w' h => Option.some.inj h ▸ hlength⟩

/-- Where `%c` reads its field back it takes all of it and no more. -/
theorem chars_covered {t : List UInt8} (hfield : k.field = .chars t) (hfits : k.Fits longBits rest)
    {fieldWidth left : Int} (hwidth : fieldWidth = k.widthInEffect left) (hfw : -1 ≤ fieldWidth)
    (hreads : k.Reads fieldWidth rest) :
    (t.length : Int) = k.limit fieldWidth + 1 ∨
      rest = [] ∧ (t.length : Int) ≤ k.limit fieldWidth + 1 := by
  obtain ⟨_, hwide⟩ := chars_length hfield hfits
  have hprintable := hfits.printable
  unfold ScanConversion.Printable at hprintable
  unfold ScanConversion.Reads at hreads
  rw [hfield] at hprintable hreads
  obtain ⟨hlength, _⟩ := hprintable
  have hlimit := limit_chars hfield fieldWidth
  have hnonneg := limit_nonneg k hfw
  cases hw : k.width with
  | none =>
    rw [hw] at hlength hreads
    change t.length = 1 at hlength
    rcases hreads with hend | ⟨_, hzero⟩
    · exact .inr ⟨hend, by omega⟩
    · have hnone : k.limit fieldWidth = 0 := by
        rw [hlimit, hzero]
        rfl
      exact .inl (by omega)
  | some w =>
    have hw' := hwide w hw
    unfold ScanConversion.widthInEffect at hwidth
    rw [hw] at hwidth hreads
    have hend := hreads.resolve_right fun h => nomatch h.1
    rw [show fieldWidth = w from hwidth, limit_nat k w]
    exact .inr ⟨hend, by omega⟩

/-- Single characters are read back at the end of the text, or when the width in effect is 0. -/
theorem scanChars_right {t : List UInt8} (hfield : k.field = .chars t)
    (hfits : k.Fits longBits rest) (hfinds : k.Finds s.str rest) {fieldWidth : Int}
    (hwidth : s.fieldWidth = k.widthInEffect fieldWidth) (hfw : -1 ≤ s.fieldWidth)
    (hreads : k.Reads s.fieldWidth rest) :
    s.scanChars = .again { s with
      str := rest, fieldWidth := k.widthLeft s.fieldWidth rest, num := s.num + 1,
      stored := s.stored ++ [.bytes t] } := by
  have hone := (chars_length hfield hfits).1
  have hcover := chars_covered hfield hfits hwidth hfw hreads
  have hprintable := hfits.printable
  unfold ScanConversion.Printable at hprintable
  unfold ScanConversion.Finds at hfinds
  rw [hfield] at hprintable hfinds
  have hleft : k.widthLeft s.fieldWidth rest = k.limit s.fieldWidth - t.length := by
    unfold ScanConversion.widthLeft
    rw [hfield]
  unfold Scan.scanChars
  rw [show s.str = t ++ rest from hfinds, ← limit_chars hfield s.fieldWidth,
    copyChars_eq (List.ne_nil_of_length_pos hone) hprintable.2 hcover, hleft]

/-- Elsewhere one character too many is copied, or more. -/
theorem scanChars_wrong {t : List UInt8} (hfield : k.field = .chars t)
    (hfits : k.Fits longBits rest) (hrest : ∀ c ∈ rest, c ≠ 0) (hfinds : k.Finds s.str rest)
    {fieldWidth : Int} (hwidth : s.fieldWidth = k.widthInEffect fieldWidth)
    (hfw : -1 ≤ s.fieldWidth)
    (hreads : ¬k.Reads s.fieldWidth rest) (values : List ScanStore) :
    (Scan.resultOf longBits buf s.scanChars).2 ≠ s.stored ++ .bytes t :: values := by
  obtain ⟨hone, hwide⟩ := chars_length hfield hfits
  have hprintable := hfits.printable
  unfold ScanConversion.Printable at hprintable
  unfold ScanConversion.Reads at hreads
  unfold ScanConversion.Finds at hfinds
  rw [hfield] at hprintable hreads hfinds
  obtain ⟨hlength, hnul⟩ := hprintable
  obtain ⟨hmore, hwidth0⟩ := not_or.mp hreads
  have hlimit := limit_chars hfield s.fieldWidth
  have hcopied := copyChars_length (List.append_ne_nil_of_left_ne_nil
    (List.ne_nil_of_length_pos hone) rest) (List.forall_mem_append.mpr ⟨hnul, hrest⟩)
    (limit_nonneg k hfw)
  have hnext := List.length_pos_of_ne_nil hmore
  have hcover : (t.length : Int) ≤ k.limit s.fieldWidth := by
    cases hw : k.width with
    | none =>
      rw [hw] at hlength
      change t.length = 1 at hlength
      have hne : s.fieldWidth ≠ 0 := fun h => hwidth0 ⟨hw, h⟩
      rw [hlimit]
      split
      · omega
      · omega
    | some w =>
      have hw' := hwide w hw
      unfold ScanConversion.widthInEffect at hwidth
      rw [hw] at hwidth
      rw [show s.fieldWidth = w from hwidth, limit_nat k w]
      omega
  rw [List.length_append, hlimit] at hcopied
  rw [hlimit] at hcover
  unfold Scan.scanChars
  rw [show s.str = t ++ rest from hfinds]
  refine result_wrong (fun heq => ?_) rfl
  rw [ScanStore.bytes.inj heq] at hcopied
  omega

theorem widthInEffect_ge (k : ScanConversion) {fieldWidth : Int} (hfw : -1 ≤ fieldWidth) :
    -1 ≤ k.widthInEffect fieldWidth := by
  unfold ScanConversion.widthInEffect
  split
  · exact hfw
  · omega

theorem convert_right (hlong : 32 ≤ longBits) (hfits : k.Fits longBits rest)
    (hfinds : k.Finds s.str rest) {fieldWidth : Int}
    (hwidth : s.fieldWidth = k.widthInEffect fieldWidth)
    (hfw : -1 ≤ s.fieldWidth) (hreads : k.Reads s.fieldWidth rest) :
    s.convert longBits buf (k.qualifier.map ScanQualifier.char) k.field.char =
      .again { s with
        str := rest, fieldWidth := k.widthLeft s.fieldWidth rest, num := s.num + 1,
        stored := s.stored ++ [k.field.stored] } := by
  cases hfield : k.field with
  | number c pad v =>
    have hleft : k.widthLeft s.fieldWidth rest = s.fieldWidth := by
      unfold ScanConversion.widthLeft
      rw [hfield]
    rw [hleft]
    exact (convert_number c _).trans (scanInteger_right hlong hfield hfits hfinds hreads)
  | word pad t => exact scanWord_right hfield hfits hfinds hwidth hreads
  | chars t => exact scanChars_right hfield hfits hfinds hwidth hfw hreads

theorem convert_wrong (hfits : k.Fits longBits rest) (hrest : ∀ c ∈ rest, c ≠ 0)
    (hfinds : k.Finds s.str rest) {fieldWidth : Int}
    (hwidth : s.fieldWidth = k.widthInEffect fieldWidth) (hfw : -1 ≤ s.fieldWidth)
    (hdiffers : k.Differs longBits rest) (hreads : ¬k.Reads s.fieldWidth rest)
    (values : List ScanStore) :
    (Scan.resultOf longBits buf
      (s.convert longBits buf (k.qualifier.map ScanQualifier.char) k.field.char)).2 ≠
        s.stored ++ k.field.stored :: values := by
  cases hfield : k.field with
  | number c pad v =>
    rw [show (ScanField.number c pad v).char = c.char from rfl, convert_number]
    exact scanInteger_wrong hfield hfinds hdiffers hreads values
  | word pad t => exact scanWord_wrong hfield hfw hreads values
  | chars t => exact scanChars_wrong hfield hfits hrest hfinds hwidth hfw hreads values

/-- The width is left at -1 or above. -/
theorem widthLeft_ge (hfits : k.Fits longBits rest) {fieldWidth left : Int}
    (hwidth : fieldWidth = k.widthInEffect left) (hfw : -1 ≤ fieldWidth)
    (hreads : k.Reads fieldWidth rest) : -1 ≤ k.widthLeft fieldWidth rest := by
  have hchars := fun t hfield => chars_covered (t := t) hfield hfits hwidth hfw hreads
  unfold ScanConversion.Reads at hreads
  unfold ScanConversion.widthLeft
  cases hfield : k.field with
  | number c pad v => exact hfw
  | word pad t =>
    rw [hfield] at hreads
    dsimp only at hreads ⊢
    split
    · exact Int.le_refl _
    · omega
  | chars t =>
    have hcover := hchars t hfield
    dsimp only
    omega

/-- What a field begins with. -/
theorem field_cons (hfits : k.Fits longBits rest) :
    ∃ d ds, k.field.text = d :: ds ∧ d ≠ 0 ∧ ((∀ t, k.field ≠ .chars t) → isspace d = false) := by
  have hprintable := hfits.printable
  unfold ScanConversion.Printable at hprintable
  cases hfield : k.field with
  | number c pad v =>
    obtain ⟨d, ds, htext, hword⟩ := number_cons c pad v
    obtain ⟨hne, hspace⟩ := not_or.mp (inWord_iff.mp hword)
    exact ⟨d, ds, htext, hne, fun _ => Bool.eq_false_iff.mpr hspace⟩
  | word pad t =>
    rw [hfield] at hprintable
    cases t with
    | nil => exact absurd rfl hprintable.1
    | cons d ds =>
      obtain ⟨hne, hspace⟩ := not_or.mp (inWord_iff.mp (hprintable.2 d List.mem_cons_self))
      exact ⟨d, ds, rfl, hne, fun _ => Bool.eq_false_iff.mpr hspace⟩
  | chars t =>
    have hlength := (chars_length hfield hfits).1
    rw [hfield] at hprintable
    cases t with
    | nil => exact absurd hlength (by decide)
    | cons d ds =>
      exact ⟨d, ds, rfl, hprintable.2 d List.mem_cons_self, fun h => absurd rfl (h _)⟩

end

/-- A part of a format: a character of its text, or a conversion. -/
inductive ScanItem where
  | text (c : UInt8)
  | conversion (k : ScanConversion)
deriving DecidableEq, Repr

namespace ScanItem

/-- A percent sign stands twice in the format. -/
def format : ScanItem → List UInt8
  | .text c => if c = ascii '%' then [ascii '%', ascii '%'] else [c]
  | .conversion k => k.format

def printed : ScanItem → List UInt8
  | .text c => [c]
  | .conversion k => k.printed

def conversion? : ScanItem → Option ScanConversion
  | .text _ => none
  | .conversion k => some k

end ScanItem

def scanFormat (items : List ScanItem) : List UInt8 := items.flatMap ScanItem.format

def printedText (items : List ScanItem) : List UInt8 := items.flatMap ScanItem.printed

def scanConversions (items : List ScanItem) : List ScanConversion :=
  items.filterMap ScanItem.conversion?

/-- The values printed, as their conversions are to store them. -/
def scanValues (items : List ScanItem) : List ScanStore :=
  (scanConversions items).map fun k => k.field.stored

/-- No blank stands where white space of the format would take it from `%c`. -/
def StartsSolid : List ScanItem → Prop
  | .conversion k :: _ => ∀ t, k.field = .chars t → isspace (charAt t 0) = false
  | _ => True

/-- The fields fit their conversions and are separated as the format says. -/
def WellPrinted (longBits : Nat) : List ScanItem → Prop
  | [] => True
  | .text c :: items => c ≠ 0 ∧ (isspace c = true → StartsSolid items) ∧ WellPrinted longBits items
  | .conversion k :: items => k.Fits longBits (printedText items) ∧ WellPrinted longBits items

/-- Each conversion reads its field with the width that those before it leave in effect. -/
def Readable (fieldWidth : Int) : List ScanItem → Prop
  | [] => True
  | .text _ :: items => Readable fieldWidth items
  | .conversion k :: items => k.Reads (k.widthInEffect fieldWidth) (printedText items) ∧
      Readable (k.widthLeft (k.widthInEffect fieldWidth) (printedText items)) items

/-- No number is by chance what is read when it is read on. -/
def LongerDiffer (longBits : Nat) : List ScanItem → Prop
  | [] => True
  | .text _ :: items => LongerDiffer longBits items
  | .conversion k :: items => k.Differs longBits (printedText items) ∧ LongerDiffer longBits items

/-- The rest of the text for the rest of the format, with or without its blanks in front. -/
def Stands (items : List ScanItem) (str : List UInt8) : Prop :=
  str = printedText items ∨ StartsSolid items ∧ str = (printedText items).dropWhile isspace

section
variable {longBits : Nat} {buf : List UInt8} {k : ScanConversion} {items : List ScanItem}
  {str : List UInt8}

theorem printedText_cons (item : ScanItem) (items : List ScanItem) :
    printedText (item :: items) = item.printed ++ printedText items := List.flatMap_cons

theorem scanFormat_cons (item : ScanItem) (items : List ScanItem) :
    scanFormat (item :: items) = item.format ++ scanFormat items := List.flatMap_cons

theorem field_ne_zero {rest : List UInt8} (hfits : k.Fits longBits rest) :
    ∀ c ∈ k.field.text, c ≠ 0 := by
  have hprintable := hfits.printable
  unfold ScanConversion.Printable at hprintable
  cases hfield : k.field with
  | number c pad v =>
    intro b hb
    unfold ScanField.text at hb
    rcases List.mem_append.mp hb with hb | hb
    · split at hb
      · rw [List.mem_singleton.mp hb]
        decide
      · exact absurd hb List.not_mem_nil
    · obtain ⟨d, hd, rfl⟩ := List.mem_map.mp hb
      have hlt := (numeralDigits_lt c.base_bounds.1 hd).trans_le c.base_bounds.2
      exact (scanDigit_facts c hlt).2.2.2.2.1
  | word pad t =>
    rw [hfield] at hprintable
    exact fun c hc => (not_or.mp (inWord_iff.mp (hprintable.2 c hc))).1
  | chars t =>
    rw [hfield] at hprintable
    exact hprintable.2

theorem printedText_ne_zero (h : WellPrinted longBits items) : ∀ c ∈ printedText items, c ≠ 0 := by
  induction items with
  | nil => exact fun c hc => absurd hc List.not_mem_nil
  | cons item items ih =>
    rw [printedText_cons]
    cases item with
    | text c =>
      obtain ⟨hc, _, h⟩ := h
      exact List.forall_mem_cons.mpr ⟨hc, ih h⟩
    | conversion k =>
      obtain ⟨hfits, h⟩ := h
      refine List.forall_mem_append.mpr ⟨List.forall_mem_append.mpr ⟨?_, field_ne_zero hfits⟩, ih h⟩
      intro c hc
      rw [List.eq_of_mem_replicate hc]
      decide

theorem stands_chars {t : List UInt8} (hfield : k.field = .chars t) (hne : t ≠ [])
    (hstands : Stands (.conversion k :: items) str) : str = t ++ printedText items := by
  have hprinted : printedText (.conversion k :: items) = t ++ printedText items := by
    rw [printedText_cons, ScanItem.printed, ScanConversion.printed, hfield]
    rfl
  unfold Stands at hstands
  rw [hprinted] at hstands
  rcases hstands with h | ⟨hsolid, h⟩
  · exact h
  · have hhead := hsolid t hfield
    rw [← charAt_append hne (printedText items)] at hhead
    exact h.trans (dropWhile_of_head hhead)

theorem stands_blank (hfits : k.Fits longBits (printedText items))
    (hfield : ∀ t, k.field ≠ .chars t) (hstands : Stands (.conversion k :: items) str) :
    str.dropWhile isspace = k.field.text ++ printedText items ∧ charAt str 0 ≠ 0 := by
  obtain ⟨d, ds, htext, hd, hspace⟩ := field_cons hfits
  have hprinted : printedText (.conversion k :: items) =
      List.replicate k.field.pad 32 ++ (k.field.text ++ printedText items) := by
    rw [printedText_cons, ScanItem.printed, ScanConversion.printed, List.append_assoc]
  have hblanks : ∀ c ∈ List.replicate k.field.pad (32 : UInt8), isspace c = true := by
    intro c hc
    rw [List.eq_of_mem_replicate hc]
    decide
  have hdrop : (printedText (.conversion k :: items)).dropWhile isspace =
      k.field.text ++ printedText items := by
    rw [hprinted, List.dropWhile_append_of_pos hblanks, htext]
    exact dropWhile_of_head (hspace hfield)
  rcases hstands with rfl | ⟨_, rfl⟩
  · refine ⟨hdrop, ?_⟩
    rw [hprinted]
    cases k.field.pad with
    | zero =>
      rw [htext]
      exact hd
    | succ pad => exact (show (32 : UInt8) ≠ 0 by decide)
  · refine ⟨by rw [List.dropWhile_idempotent, hdrop], ?_⟩
    rw [hdrop, htext]
    exact hd

/-- A conversion finds its field. -/
theorem stands_finds (hfits : k.Fits longBits (printedText items))
    (hstands : Stands (.conversion k :: items) str) :
    k.Finds str (printedText items) ∧ charAt str 0 ≠ 0 := by
  unfold ScanConversion.Finds
  cases hfield : k.field with
  | number c pad v =>
    have h := stands_blank hfits (fun t ht => by rw [hfield] at ht; cases ht) hstands
    rw [hfield] at h
    exact h
  | word pad t =>
    have h := stands_blank hfits (fun t ht => by rw [hfield] at ht; cases ht) hstands
    rw [hfield] at h
    exact h
  | chars t =>
    obtain ⟨d, ds, htext, hd, _⟩ := field_cons hfits
    rw [hfield] at htext
    obtain rfl : t = d :: ds := htext
    obtain rfl := stands_chars hfield (List.cons_ne_nil d ds) hstands
    exact ⟨rfl, hd⟩

theorem result_nil (num : Nat) (fieldWidth : Int) (stored : List ScanStore) :
    (⟨scanFormat [], str, num, fieldWidth, stored⟩ : Scan).result longBits buf = (num, stored) :=
  Scan.result_end longBits buf (.inl rfl)

/-- A character of the format's text leaves the rest of the text for the rest of the format. -/
theorem result_textItem (buf : List UInt8) {c : UInt8} (hne : c ≠ 0)
    (hsolid : isspace c = true → StartsSolid items) (hstands : Stands (.text c :: items) str)
    (num : Nat) (fieldWidth : Int) (stored : List ScanStore) :
    ∃ str', Stands items str' ∧
      (⟨scanFormat (.text c :: items), str, num, fieldWidth, stored⟩ : Scan).result longBits buf =
        (⟨scanFormat items, str', num, fieldWidth, stored⟩ : Scan).result longBits buf := by
  have hprinted : printedText (.text c :: items) = c :: printedText items := printedText_cons _ _
  unfold Stands at hstands
  rw [hprinted] at hstands
  rw [scanFormat_cons]
  by_cases hspace : isspace c = true
  · have hdrop : str.dropWhile isspace = (printedText items).dropWhile isspace := by
      rcases hstands with rfl | ⟨_, rfl⟩
      · exact List.dropWhile_cons_of_pos hspace
      · rw [List.dropWhile_idempotent, List.dropWhile_cons_of_pos hspace]
    have hformat : ScanItem.format (.text c) = [c] := by
      refine if_neg ?_
      rintro rfl
      exact absurd hspace (by decide)
    refine ⟨str.dropWhile isspace, .inr ⟨hsolid hspace, hdrop⟩, ?_⟩
    rw [hformat]
    exact result_blank longBits buf (scanFormat items) str num fieldWidth stored hspace
  · have hspace := Bool.eq_false_iff.mpr hspace
    have hstr : str = c :: printedText items := by
      rcases hstands with h | ⟨_, h⟩
      · exact h
      · exact h.trans (dropWhile_of_head hspace)
    refine ⟨printedText items, .inl rfl, ?_⟩
    rw [hstr]
    exact result_literal longBits buf (scanFormat items) (printedText items) num fieldWidth stored
      hspace hne

/-- A conversion leaves the rest of the text for the rest of the format, with its value stored. -/
theorem result_reads (hlong : 32 ≤ longBits) (hfits : k.Fits longBits (printedText items))
    (hstands : Stands (.conversion k :: items) str) {fieldWidth : Int} (hfw : -1 ≤ fieldWidth)
    (hreads : k.Reads (k.widthInEffect fieldWidth) (printedText items)) (num : Nat)
    (stored : List ScanStore) :
    (⟨scanFormat (.conversion k :: items), str, num, fieldWidth, stored⟩ : Scan).result
        longBits buf =
      (⟨scanFormat items, printedText items, num + 1,
        k.widthLeft (k.widthInEffect fieldWidth) (printedText items),
        stored ++ [k.field.stored]⟩ : Scan).result longBits buf := by
  obtain ⟨hfinds, hstr⟩ := stands_finds hfits hstands
  rw [scanFormat_cons, ScanItem.format, result_conversion longBits buf k _ _ _ _ _ hstr]
  exact congrArg (Scan.resultOf longBits buf)
    (convert_right hlong hfits hfinds rfl (widthInEffect_ge k hfw) hreads)

/-- From where the text stands on, a readable format is read to its end. -/
theorem result_readable (hlong : 32 ≤ longBits) (hprinted : WellPrinted longBits items)
    (hstands : Stands items str) {fieldWidth : Int} (hfw : -1 ≤ fieldWidth)
    (hreadable : Readable fieldWidth items) (num : Nat) (stored : List ScanStore) :
    (⟨scanFormat items, str, num, fieldWidth, stored⟩ : Scan).result longBits buf =
      (num + (scanConversions items).length, stored ++ scanValues items) := by
  induction items generalizing str fieldWidth num stored with
  | nil =>
    rw [result_nil]
    exact Prod.ext rfl (List.append_nil stored).symm
  | cons item items ih =>
    cases item with
    | text c =>
      obtain ⟨hne, hsolid, hprinted⟩ := hprinted
      obtain ⟨str', hstands, hresult⟩ :=
        result_textItem buf hne hsolid hstands num fieldWidth stored
      rw [hresult, ih hprinted hstands hfw hreadable num stored]
      rfl
    | conversion k =>
      obtain ⟨hfits, hprinted⟩ := hprinted
      obtain ⟨hreads, hreadable⟩ := hreadable
      have hleft := widthLeft_ge hfits rfl (widthInEffect_ge k hfw) hreads
      rw [result_reads hlong hfits hstands hfw hreads num stored,
        ih hprinted (.inl rfl) hleft hreadable (num + 1) (stored ++ [k.field.stored])]
      refine Prod.ext ?_ ?_
      · change num + 1 + (scanConversions items).length = num + ((scanConversions items).length + 1)
        omega
      · exact List.append_assoc stored [k.field.stored] (scanValues items)

/-- A run that stores all the values was readable, but for numbers that are by chance what is
read. -/
theorem readable_of_result (hlong : 32 ≤ longBits) (hprinted : WellPrinted longBits items)
    (hstands : Stands items str) {fieldWidth : Int} (hfw : -1 ≤ fieldWidth)
    (hdiffer : LongerDiffer longBits items) {num : Nat} {stored : List ScanStore}
    (hresult : ((⟨scanFormat items, str, num, fieldWidth, stored⟩ : Scan).result longBits buf).2 =
      stored ++ scanValues items) :
    Readable fieldWidth items := by
  induction items generalizing str fieldWidth num stored with
  | nil => trivial
  | cons item items ih =>
    cases item with
    | text c =>
      obtain ⟨hne, hsolid, hprinted⟩ := hprinted
      obtain ⟨str', hstands, hsame⟩ :=
        result_textItem buf hne hsolid hstands num fieldWidth stored
      rw [hsame] at hresult
      exact ih hprinted hstands hfw hdiffer hresult
    | conversion k =>
      obtain ⟨hfits, hprinted⟩ := hprinted
      obtain ⟨hdiffers, hdiffer⟩ := hdiffer
      have hfw' := widthInEffect_ge k hfw
      by_cases hreads : k.Reads (k.widthInEffect fieldWidth) (printedText items)
      · have hleft := widthLeft_ge hfits rfl hfw' hreads
        have hstored : stored ++ scanValues (.conversion k :: items) =
            stored ++ [k.field.stored] ++ scanValues items :=
          (List.append_assoc stored [k.field.stored] (scanValues items)).symm
        rw [result_reads hlong hfits hstands hfw hreads num stored, hstored] at hresult
        exact ⟨hreads, ih hprinted (.inl rfl) hleft hdiffer hresult⟩
      · obtain ⟨hfinds, hstr⟩ := stands_finds hfits hstands
        rw [scanFormat_cons, ScanItem.format, result_conversion longBits buf k _ _ _ _ _ hstr]
          at hresult
        exact absurd hresult (convert_wrong hfits (printedText_ne_zero hprinted) hfinds rfl hfw'
          hdiffers hreads (scanValues items))

end

/-- What a conversion of text may write: the characters of its width, and the NUL of `%s`. -/
def ScanConversion.Covers (k : ScanConversion) : ScanStore → Prop
  | .number _ => True
  | .bytes b =>
    match k.field with
    | .chars _ => b.length ≤ k.width.getD 1
    | _ => ∀ w, k.width = some w → b.length ≤ w + 1

/-- The text printed for the format is read back: all values are stored, their number is returned,
and no conversion of text writes more than its width. -/
def ReadsBack (longBits : Nat) (items : List ScanItem) : Prop :=
  vsscanf longBits (printedText items) (scanFormat items) =
      ((scanConversions items).length, scanValues items) ∧
    List.Forall₂ ScanConversion.Covers (scanConversions items)
      (vsscanf longBits (printedText items) (scanFormat items)).2

theorem field_covers {longBits : Nat} {k : ScanConversion} {rest : List UInt8}
    (hfits : k.Fits longBits rest) : k.Covers k.field.stored := by
  have hwidth := hfits.width
  have hprintable := hfits.printable
  unfold ScanConversion.Printable at hprintable
  unfold ScanConversion.Covers
  cases hfield : k.field with
  | number c pad v => trivial
  | word pad t =>
    intro w hw
    have hlength := (hwidth w hw).2.2
    rw [hfield] at hlength
    rw [List.length_append]
    exact Nat.add_le_add_right hlength 1
  | chars t =>
    rw [hfield] at hprintable
    exact hprintable.1.le

theorem scanValues_covered {longBits : Nat} {items : List ScanItem}
    (h : WellPrinted longBits items) :
    List.Forall₂ ScanConversion.Covers (scanConversions items) (scanValues items) := by
  induction items with
  | nil => exact .nil
  | cons item items ih =>
    cases item with
    | text c => exact ih h.2.2
    | conversion k => exact .cons (field_covers h.1) (ih h.2)

/-- What a format prints is read back where each conversion reads its field with the width in
effect, and, but for numbers that are by chance what is read on, nowhere else. -/
theorem vsscanf_reads_back_iff {longBits : Nat} (hlong : 32 ≤ longBits) {items : List ScanItem}
    (hprinted : WellPrinted longBits items) :
    (Readable (-1) items → ReadsBack longBits items) ∧
      (LongerDiffer longBits items → (ReadsBack longBits items ↔ Readable (-1) items)) := by
  have hright : Readable (-1) items → ReadsBack longBits items := by
    intro hreadable
    have hresult : vsscanf longBits (printedText items) (scanFormat items) =
        ((scanConversions items).length, scanValues items) := by
      refine (result_readable hlong hprinted (.inl rfl) (by decide) hreadable 0 []).trans ?_
      rw [Nat.zero_add, List.nil_append]
    refine ⟨hresult, ?_⟩
    rw [hresult]
    exact scanValues_covered hprinted
  refine ⟨hright, fun hdiffer => ⟨fun h => ?_, hright⟩⟩
  exact readable_of_result hlong hprinted (.inl rfl) (by decide) hdiffer (congrArg Prod.snd h.1)

/-- The format `%d %5s` with 42 and the string `ab`. -/
def numberAndWord : List ScanItem :=
  [.conversion ⟨none, none, .number .d 0 42⟩, .text 32,
    .conversion ⟨some 5, none, .word 0 [97, 98]⟩]

theorem vsscanf_reads_back_number_and_word : ReadsBack 32 numberAndWord := by
  have hprinted : WellPrinted 32 numberAndWord := by
    refine ⟨⟨(fun w hw => nomatch hw), ?_, .inr ⟨by decide, fun h => absurd h (by decide)⟩⟩,
      ⟨by decide, (fun _ t ht => nomatch ht), ⟨?_, ⟨by decide, by decide +kernel⟩,
        .inr (by decide)⟩, trivial⟩⟩
    · exact (show -2 ^ 31 ≤ (42 : Int) ∧ (42 : Int) < 2 ^ 31 by norm_num)
    · intro w hw
      obtain rfl := Option.some.inj hw
      decide
  refine (vsscanf_reads_back_iff (by decide) hprinted).1 ⟨⟨by decide, by decide⟩, ?_, trivial⟩
  exact (show (2 : Int) ≤ 5 by decide)

/-- The format `%d` with -5. -/
def negativeNumber : List ScanItem := [.conversion ⟨none, none, .number .d 0 (-5)⟩]

/-- The format `%3s %s` with `abc` and `de`. -/
def wordsWithWidth : List ScanItem :=
  [.conversion ⟨some 3, none, .word 0 [97, 98, 99]⟩, .text 32,
    .conversion ⟨none, none, .word 0 [100, 101]⟩]

/-- A negative number is not converted at all, and a string without a width of its own is cut to
what the width of an earlier one has left. -/
theorem negative_and_second_word_not_read_back :
    (WellPrinted 32 negativeNumber ∧ ¬ReadsBack 32 negativeNumber) ∧
      WellPrinted 32 wordsWithWidth ∧ ¬ReadsBack 32 wordsWithWidth := by
  refine ⟨⟨⟨⟨(fun w hw => nomatch hw), ?_, .inr ⟨by decide, fun h => absurd h (by decide)⟩⟩,
    trivial⟩, ?_⟩,
    ⟨⟨?_, ⟨by decide, by decide +kernel⟩, .inl rfl⟩, by decide, (fun _ t ht => nomatch ht),
      ⟨(fun w hw => nomatch hw), ⟨by decide, by decide +kernel⟩, .inr (by decide)⟩, trivial⟩, ?_⟩
  · exact (show -2 ^ 31 ≤ (-5 : Int) ∧ (-5 : Int) < 2 ^ 31 by norm_num)
  · exact fun h => absurd (congrArg Prod.fst h.1) (by decide)
  · intro w hw
    obtain rfl := Option.some.inj hw
    decide
  · exact fun h => absurd (congrArg Prod.snd h.1) (by decide)

end RTThread
