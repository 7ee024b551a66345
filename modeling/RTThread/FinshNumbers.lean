import RTThread.ByteFields
import RTThread.FinshScans
import RTThread.Numerals

namespace RTThread

inductive FinshBase where
  | decimal
  | octal
  | hex
  | binary
deriving DecidableEq, Repr

namespace FinshBase

def radix : FinshBase → Nat
  | decimal => 10
  | octal => 8
  | hex => 16
  | binary => 2

def digit : FinshBase → UInt8 → Bool
  | decimal => isDigit
  | octal => isOctal
  | hex => isXdigit
  | binary => isBinary

/-- What stands before the digits; the letter is of either case. -/
def lead (upper : Bool) : FinshBase → List UInt8
  | decimal => []
  | octal => [48]
  | hex => [48, if upper then 88 else 120]
  | binary => [48, if upper then 66 else 98]

end FinshBase

/-- A literal `(0|0x|0X|0b|0B)number+(l|L)`; a decimal one begins with a zero only if it is `0`. -/
structure FinshLiteral where
  base : FinshBase
  upper : Bool
  digits : List UInt8
  suffix : Option Bool
  nonempty : digits ≠ []
  ofBase : ∀ d ∈ digits, base.digit d = true
  decimal : base = .decimal → digits.head? = some 48 → digits = [48]

namespace FinshLiteral

def suffixText : Option Bool → List UInt8
  | none => []
  | some upper => [if upper then 76 else 108]

def text (l : FinshLiteral) : List UInt8 := l.base.lead l.upper ++ (l.digits ++ suffixText l.suffix)

def value (l : FinshLiteral) : Nat := (digitsValue l.base.radix l.digits).getD 0

def token (l : FinshLiteral) : FinshToken :=
  if l.suffix = none then .valueInt (word l.value) else .valueLong (word l.value)

/-- The literal gives one token, of its type and value, and the next character read is the one
behind it. -/
def Right (l : FinshLiteral) (s : FinshLexer) : Prop :=
  ∃ s', s.tokenRun = some (l.token, s') ∧ s'.nextChar = (s.cleared.skip l.text.length).nextChar

/-- No suffix behind hexadecimal digits or a single zero, and digits that `buf[128]` holds. -/
def Fits (l : FinshLiteral) : Prop :=
  match l.base with
  | .decimal => l.suffix = none ∨ l.digits ≠ [48]
  | .octal => l.digits.length < 128
  | .hex => l.suffix = none ∧ l.digits.length < 128
  | .binary => l.digits.length < 128

end FinshLiteral

section
variable {ds : List UInt8} {b : Nat} {val : UInt8 → Nat}

theorem mapM_some {f : UInt8 → Option Nat} (hf : ∀ d ∈ ds, f d = some (val d)) :
    ds.mapM f = some (ds.map val) := by
  induction ds with
  | nil => rfl
  | cons d ds ih =>
    rw [List.mapM_cons, hf d List.mem_cons_self, ih fun d hd => hf d (List.mem_cons_of_mem _ hd)]
    rfl

/-- The value of digits, from the first one on. -/
theorem digitsValue_foldl (hne : ds ≠ []) (hds : ∀ d ∈ ds, digitOf d = some (val d) ∧ val d < b) :
    digitsValue b ds = some (ds.foldl (fun v d => v * b + val d) 0) := by
  have hmap : (ds.mapM fun c => (digitOf c).filter (· < b)) = some (ds.map val) := by
    apply mapM_some
    intro d hd
    obtain ⟨hdigit, hlt⟩ := hds d hd
    simp [hdigit, Option.filter, hlt]
  have hfold : Nat.ofDigits b (ds.map val).reverse = ds.foldl (fun v d => v * b + val d) 0 := by
    rw [Nat.ofDigits_eq_foldr, List.foldr_reverse, List.foldl_map]
    congr 1
    funext v d
    simp [Nat.add_comm, Nat.mul_comm]
  unfold digitsValue
  rw [if_neg hne, hmap, Option.map_some, hfold]

theorem foldl_word (v : Nat) : ds.foldl (fun v d => word (v * b + val d)) (word v) =
    word (ds.foldl (fun v d => v * b + val d) v) := by
  induction ds generalizing v with
  | nil => rfl
  | cons d ds ih =>
    have hstep : word (word v * b + val d) = word (v * b + val d) := by
      unfold word
      rw [Nat.add_mod, Nat.mod_mul_mod, ← Nat.add_mod]
    rw [List.foldl_cons, List.foldl_cons, hstep, ih]

/-- A shift and an `or` add a digit that fits behind the others. -/
theorem word_shift_or {shift v t : Nat} (ht : t < 2 ^ shift) (hshift : shift ≤ 32) :
    word (word v <<< shift) ||| t = word (v * 2 ^ shift + t) := by
  have hpow : 2 ^ shift ≤ 2 ^ 32 := Nat.pow_le_pow_right (by decide) hshift
  have hmod : t % 2 ^ 32 = t := Nat.mod_eq_of_lt (by omega)
  have hword : ∀ n, word n = n % 2 ^ 32 := fun n => rfl
  rw [hword (word v <<< shift), hword (v * 2 ^ shift + t), hword v]
  conv_lhs => rw [← hmod]
  rw [← Nat.or_mod_two_pow, ← Nat.shiftLeft_add_eq_or_of_lt ht, Nat.shiftLeft_eq, Nat.add_mod,
    Nat.mod_mul_mod, ← Nat.add_mod]

theorem tokenSpecNumber_eq {shift : Nat} (hshift : shift ≤ 32)
    (hds : ∀ d ∈ ds, val d < 2 ^ shift ∧ ∀ bn, (specStep shift bn d).1 = word (bn.1 <<< shift) ||| val d) :
    tokenSpecNumber shift ds = word (ds.foldl (fun v d => v * 2 ^ shift + val d) 0) := by
  have hfold : ∀ v bn1, (ds.foldl (specStep shift) (word v, bn1)).1 =
      word (ds.foldl (fun v d => v * 2 ^ shift + val d) v) := by
    induction ds with
    | nil => exact fun _ _ => rfl
    | cons d ds ih =>
      intro v bn1
      obtain ⟨hlt, hstep⟩ := hds d List.mem_cons_self
      have hfirst : (specStep shift (word v, bn1) d).1 = word (v * 2 ^ shift + val d) := by
        rw [hstep, word_shift_or hlt hshift]
      rw [List.foldl_cons, List.foldl_cons,
        ← ih (fun d hd => hds d (List.mem_cons_of_mem _ hd)) _ (specStep shift (word v, bn1) d).2, ← hfirst]
  exact hfold 0 0

end

/-- The digit that `token_spec_number` takes a character for. -/
def specDigit (ch : UInt8) : Nat :=
  if 97 ≤ ch.toNat ∧ ch.toNat ≤ 102 then ch.toNat - 97 + 10
  else if 65 ≤ ch.toNat ∧ ch.toNat ≤ 70 then ch.toNat - 65 + 10
  else ch.toNat - 48

set_option maxRecDepth 4000 in
theorem FinshBase.digit_value (base : FinshBase) (d : UInt8) (hd : base.digit d = true) :
    digitOf d = some (specDigit d) ∧ specDigit d < base.radix := by
  revert d
  apply forall_byte
  cases base <;> decide

set_option maxRecDepth 4000 in
theorem decimal_value (d : UInt8) (hd : isDigit d = true) : d.toNat - 48 = specDigit d := by
  revert d
  apply forall_byte
  decide

namespace FinshLiteral

variable {l : FinshLiteral}

theorem value_foldl (l : FinshLiteral) :
    l.value = l.digits.foldl (fun v d => v * l.base.radix + specDigit d) 0 := by
  have h := digitsValue_foldl l.nonempty fun d hd => l.base.digit_value d (l.ofBase d hd)
  unfold value
  rw [h]
  rfl

theorem specNumber_value {shift : Nat} (hshift : shift ≤ 32) (hradix : l.base.radix = 2 ^ shift) :
    tokenSpecNumber shift l.digits = word l.value := by
  rw [value_foldl, hradix]
  apply tokenSpecNumber_eq hshift
  intro d hd
  have hlt := (l.base.digit_value d (l.ofBase d hd)).2
  rw [hradix] at hlt
  exact ⟨hlt, fun bn => rfl⟩

theorem decimal_foldl (hbase : l.base = .decimal) :
    l.digits.foldl (fun v d => word (v * 10 + (d.toNat - 48))) 0 = word l.value := by
  have hof := l.ofBase
  rw [hbase] at hof
  have hradix : l.base.radix = 10 := by rw [hbase]; rfl
  have hval : l.digits.foldl (fun v d => word (v * 10 + (d.toNat - 48))) (word 0) =
      l.digits.foldl (fun v d => word (v * 10 + specDigit d)) (word 0) := by
    apply List.foldl_ext
    intro v d hd
    rw [decimal_value d (hof d hd)]
  rw [value_foldl, hradix, ← foldl_word, ← hval]
  rfl

end FinshLiteral

namespace FinshLexer

variable {s : FinshLexer} {r rest ds : List UInt8} {c : UInt8} {kind : UInt8 → Bool} {shift v : Nat}

theorem At.tokenRun_operator (h : s.At (c :: r)) (hc : c ≠ 10) (htrim : isTrimmed c = false)
    (hword : isDigit c = true ∨ isSeparator c = true) : s.tokenRun = s.cleared.runOperator := by
  have heof : ¬ s.cleared.eof = true := by simp [h.cleared.eof]
  have htext : cText s.cleared.string = [] := by simp [FinshLexer.cleared, cText]
  unfold FinshLexer.tokenRun
  simp only [h.trimSpace hc htrim, h.getString hc hword, Option.bind_eq_bind, Option.bind_some, if_neg heof,
    if_pos htext]

set_option maxRecDepth 4000 in
theorem digit_cases (hc : isDigit c = true) : c = 48 ∨ c = 49 ∨ c = 50 ∨ c = 51 ∨ c = 52 ∨ c = 53 ∨
    c = 54 ∨ c = 55 ∨ c = 56 ∨ c = 57 := by
  revert c
  apply forall_byte
  decide

theorem At.runOperator_digit (h : s.At (c :: r)) (hc : isDigit c = true) : s.runOperator = s.procNumber := by
  have hprev : (s.skip 1).prevChar = s := prevChar_skip (n := 0) h.eof
  have hne : c ≠ 10 := by
    rintro rfl
    cases hc
  unfold FinshLexer.runOperator
  simp only [h.nextChar_cons hne]
  rcases digit_cases hc with rfl | rfl | rfl | rfl | rfl | rfl | rfl | rfl | rfl | rfl <;>
    exact congrArg procNumber hprev

theorem At.prefixedNumber (hk : Kind kind) (h : s.At (ds ++ r)) (hds : ∀ d ∈ ds, kind d = true)
    (hr : kind (firstChar r) = false) : s.nextChar.2.prefixedNumber kind shift s.nextChar.1 =
      if ds.length < 128 then some ((s.skip ds.length).nextChar.2.numberSuffix (tokenSpecNumber shift ds)
        (firstChar r)) else none := by
  unfold FinshLexer.prefixedNumber
  simp only [h.scanFrom hk hds hr, Option.bind_eq_bind, Option.bind_some]

/-- Looking at what is there changes nothing for the next character read. -/
theorem At.nextChar_behind (h : s.At r) : (s.behind 0 r).nextChar = s.nextChar := by
  rw [h.nextChar]
  unfold behind
  split
  next hends =>
    unfold FinshLexer.nextChar firstChar
    rw [if_pos (show s.ended.eof = true from rfl), if_pos hends]
  next hends =>
    rw [skip_zero, h.nextChar, if_neg hends]

theorem separator_no_suffix (hc : isSeparator c = true) : ¬ (c = 108 ∨ c = 76) := by
  rintro (rfl | rfl) <;> cases hc

/-- A number ends with its suffix, or where something else is read and given back. -/
theorem At.numberSuffix {sfx : Option Bool} (h : s.At (FinshLiteral.suffixText sfx ++ rest))
    (hsep : isSeparator (firstChar rest) = true) :
    ∃ s', s.nextChar.2.numberSuffix v (firstChar (FinshLiteral.suffixText sfx ++ rest)) =
        (if sfx = none then .valueInt v else .valueLong v, s') ∧
      s'.nextChar = (s.skip (FinshLiteral.suffixText sfx).length).nextChar := by
  unfold FinshLexer.numberSuffix
  cases sfx with
  | none =>
    have h : s.At rest := h
    refine ⟨s.behind 0 rest, ?_, h.nextChar_behind⟩
    have hno : ¬ (firstChar (FinshLiteral.suffixText none ++ rest) = 108 ∨
        firstChar (FinshLiteral.suffixText none ++ rest) = 76) := separator_no_suffix hsep
    rw [if_neg hno, h.peek]
    rfl
  | some upper =>
    have hne : (if upper then (76 : UInt8) else 108) ≠ 10 := by cases upper <;> decide
    have hfirst : firstChar (FinshLiteral.suffixText (some upper) ++ rest) = if upper then 76 else 108 :=
      firstChar_cons hne
    have hnext : s.nextChar = (if upper then 76 else 108, s.skip 1) :=
      At.nextChar_cons (r := rest) h hne
    refine ⟨s.skip 1, ?_, rfl⟩
    rw [hfirst, if_pos (by cases upper <;> decide), hnext]
    rfl

/-- The number behind a prefix, from its first digit on. -/
theorem At.prefixed_right {l : FinshLiteral} (hk : Kind kind)
    (h : s.At (l.digits ++ (FinshLiteral.suffixText l.suffix ++ rest)))
    (hds : ∀ d ∈ l.digits, kind d = true)
    (hr : kind (firstChar (FinshLiteral.suffixText l.suffix ++ rest)) = false)
    (hsep : isSeparator (firstChar rest) = true) (hshift : shift ≤ 32)
    (hradix : l.base.radix = 2 ^ shift) (hlen : l.digits.length < 128) :
    ∃ s', s.nextChar.2.prefixedNumber kind shift s.nextChar.1 = some (l.token, s') ∧
      s'.nextChar = (s.skip (l.digits ++ FinshLiteral.suffixText l.suffix).length).nextChar := by
  obtain ⟨s', hsuffix, hnext⟩ := h.skip.numberSuffix (v := tokenSpecNumber shift l.digits) hsep
  refine ⟨s', ?_, ?_⟩
  · rw [h.prefixedNumber hk hds hr, if_pos hlen, hsuffix, FinshLiteral.specNumber_value hshift hradix]
    rfl
  · rw [hnext, skip_skip, List.length_append]

set_option maxRecDepth 4000 in
theorem separator_kinds (hc : isSeparator c = true) : isDigit c = false ∧ isAlpha c = false ∧
    isOctal c = false ∧ isBinary c = false := by
  revert c
  apply forall_byte
  decide

/-- Behind the digits comes no further one. -/
theorem digits_stop (sfx : Option Bool) (hsep : isSeparator (firstChar rest) = true) :
    isDigit (firstChar (FinshLiteral.suffixText sfx ++ rest)) = false ∧
      isOctal (firstChar (FinshLiteral.suffixText sfx ++ rest)) = false ∧
      isBinary (firstChar (FinshLiteral.suffixText sfx ++ rest)) = false := by
  cases sfx with
  | none =>
    obtain ⟨hdigit, -, hoctal, hbinary⟩ := separator_kinds hsep
    exact ⟨hdigit, hoctal, hbinary⟩
  | some upper =>
    have hfirst : firstChar (FinshLiteral.suffixText (some upper) ++ rest) = if upper then 76 else 108 :=
      firstChar_cons (by cases upper <;> decide)
    rw [hfirst]
    cases upper <;> exact ⟨rfl, rfl, rfl⟩

set_option maxRecDepth 4000 in
theorem digit_hex (hc : isXdigit c = true) : (isDigit c || isAlpha c) = true := by
  revert c
  apply forall_byte
  decide

set_option maxRecDepth 4000 in
theorem octal_not_letter (hc : isOctal c = true) : ¬ (c = 120 ∨ c = 88) ∧ ¬ (c = 98 ∨ c = 66) ∧ c ≠ 10 := by
  revert c
  apply forall_byte
  decide

set_option maxRecDepth 4000 in
theorem separator_not_lead (hc : isSeparator c = true) :
    ¬ (c = 120 ∨ c = 88) ∧ ¬ (c = 98 ∨ c = 66) ∧ ¬ isOctal c = true := by
  revert c
  apply forall_byte
  decide

set_option maxRecDepth 4000 in
theorem digit_starts (hc : isDigit c = true) : c ≠ 10 ∧ isTrimmed c = false := by
  revert c
  apply forall_byte
  decide

end FinshLexer

namespace FinshLiteral

open FinshLexer

variable {l : FinshLiteral} {s : FinshLexer} {rest : List UInt8}

/-- A literal begins with a digit. -/
theorem text_cons (l : FinshLiteral) : ∃ c t, l.text = c :: t ∧ isDigit c = true := by
  unfold text
  cases hbase : l.base with
  | decimal =>
    obtain ⟨d, ds, hds⟩ := List.exists_cons_of_ne_nil l.nonempty
    have hd := l.ofBase d (by rw [hds]; exact List.mem_cons_self)
    rw [hbase] at hd
    rw [hds]
    exact ⟨d, _, rfl, hd⟩
  | octal => exact ⟨48, _, rfl, rfl⟩
  | hex => exact ⟨48, _, rfl, rfl⟩
  | binary => exact ⟨48, _, rfl, rfl⟩

theorem tokenRun_number (h : s.At (l.text ++ rest)) : s.tokenRun = s.cleared.procNumber := by
  obtain ⟨c, t, htext, hc⟩ := l.text_cons
  rw [htext] at h
  obtain ⟨hne, htrim⟩ := digit_starts hc
  rw [At.tokenRun_operator (r := t ++ rest) h hne htrim (.inl hc)]
  exact At.runOperator_digit (r := t ++ rest) h.cleared hc

end FinshLiteral

namespace FinshBase

open FinshLexer

/-- What the loop over the digits takes, and the bits of a digit. -/
def scanned : FinshBase → UInt8 → Bool
  | decimal => isDigit
  | octal => isOctal
  | hex => fun ch => isDigit ch || isAlpha ch
  | binary => isBinary

def bits : FinshBase → Nat
  | decimal => 0
  | octal => 3
  | hex => 4
  | binary => 1

theorem scanned_kind (base : FinshBase) : Kind base.scanned := by
  cases base <;> exact ⟨rfl, rfl⟩

theorem scanned_digit {base : FinshBase} {c : UInt8} (hc : base.digit c = true) : base.scanned c = true := by
  cases base with
  | hex => exact digit_hex hc
  | decimal => exact hc
  | octal => exact hc
  | binary => exact hc

end FinshBase

namespace FinshLiteral

open FinshLexer

variable {l : FinshLiteral} {s : FinshLexer} {rest : List UInt8}

theorem at_digits (h : s.At (l.text ++ rest)) :
    (s.skip (l.base.lead l.upper).length).At (l.digits ++ (suffixText l.suffix ++ rest)) := by
  apply At.skip
  simpa [text] using h

theorem text_length : (l.base.lead l.upper).length + (l.digits ++ suffixText l.suffix).length = l.text.length :=
  List.length_append.symm

/-- Behind its lead the digits of a number are read. -/
theorem procNumber_lead (hbase : l.base ≠ .decimal) (h : s.At (l.text ++ rest)) :
    s.procNumber = (s.skip (l.base.lead l.upper).length).nextChar.2.prefixedNumber l.base.scanned l.base.bits
        (s.skip (l.base.lead l.upper).length).nextChar.1 := by
  have hdigits := at_digits h
  have hof := l.ofBase
  obtain ⟨d, ds, hds⟩ := List.exists_cons_of_ne_nil l.nonempty
  have hd := hof d (by rw [hds]; exact List.mem_cons_self)
  have htext : l.text ++ rest = l.base.lead l.upper ++ (l.digits ++ (suffixText l.suffix ++ rest)) := by
    simp [text]
  rw [htext] at h
  unfold FinshLexer.procNumber
  cases hb : l.base with
  | decimal => exact absurd hb hbase
  | octal =>
    rw [hb] at h hd hdigits
    rw [hds] at h hdigits
    obtain ⟨hhex, hbinary, hne⟩ := octal_not_letter hd
    have hnext : (s.skip 1).nextChar = (d, (s.skip 1).skip 1) := hdigits.nextChar_cons hne
    have hoctal : isOctal d = true := hd
    simp only [At.nextChar_cons h (by decide), hnext, if_true, if_neg hhex, if_neg hbinary, if_pos hoctal,
      FinshBase.lead, List.length_singleton]
    rfl
  | hex =>
    rw [hb] at h
    have hx : (if l.upper then (88 : UInt8) else 120) ≠ 10 := by cases l.upper <;> decide
    have hx' : (if l.upper then (88 : UInt8) else 120) = 120 ∨ (if l.upper then (88 : UInt8) else 120) = 88 := by
      cases l.upper <;> decide
    simp only [At.nextChar_cons h (by decide), (At.next h).nextChar_cons hx, if_pos hx', skip_skip, if_true]
    rfl
  | binary =>
    rw [hb] at h
    have hx : (if l.upper then (66 : UInt8) else 98) ≠ 10 := by cases l.upper <;> decide
    have hx' : (if l.upper then (66 : UInt8) else 98) = 98 ∨ (if l.upper then (66 : UInt8) else 98) = 66 := by
      cases l.upper <;> decide
    have hno : ¬ ((if l.upper then (66 : UInt8) else 98) = 120 ∨ (if l.upper then (66 : UInt8) else 98) = 88) := by
      cases l.upper <;> decide
    simp only [At.nextChar_cons h (by decide), (At.next h).nextChar_cons hx, if_neg hno, if_pos hx', skip_skip,
      if_true]
    rfl

/-- A number behind a lead is right if its digits fit, and nothing follows that the loop takes. -/
theorem procNumber_lead_right (hbase : l.base ≠ .decimal) (h : s.At (l.text ++ rest))
    (hsep : isSeparator (firstChar rest) = true)
    (hstop : l.base.scanned (firstChar (suffixText l.suffix ++ rest)) = false) :
    (∃ s', s.procNumber = some (l.token, s') ∧ s'.nextChar = (s.skip l.text.length).nextChar) ↔
      l.digits.length < 128 := by
  have hk := l.base.scanned_kind
  have hds : ∀ d ∈ l.digits, l.base.scanned d = true := fun d hd => FinshBase.scanned_digit (l.ofBase d hd)
  have hat := at_digits h
  rw [procNumber_lead hbase h]
  constructor
  · rintro ⟨s', hrun, -⟩
    rw [hat.prefixedNumber hk hds hstop] at hrun
    split at hrun
    next hlen => exact hlen
    next => cases hrun
  · intro hlen
    have hbits : l.base.bits ≤ 32 ∧ l.base.radix = 2 ^ l.base.bits := by
      cases hb : l.base with
      | decimal => exact absurd hb hbase
      | octal => decide
      | hex => decide
      | binary => decide
    obtain ⟨s', hrun, hnext⟩ := hat.prefixed_right hk hds hstop hsep hbits.1 hbits.2 hlen
    refine ⟨s', hrun, ?_⟩
    rw [hnext, skip_skip, text_length]

/-- A hexadecimal literal with a suffix is taken for more digits. -/
theorem procNumber_hex_suffix {upper : Bool} (hbase : l.base = .hex) (hsuffix : l.suffix = some upper)
    (h : s.At (l.text ++ rest)) (hsep : isSeparator (firstChar rest) = true) :
    ¬ ∃ s', s.procNumber = some (l.token, s') := by
  rintro ⟨s', hrun⟩
  have hat := at_digits h
  have hk := l.base.scanned_kind
  rw [procNumber_lead (by rw [hbase]; decide) h] at hrun
  rw [hsuffix] at hat
  have hat : (s.skip (l.base.lead l.upper).length).At
      ((l.digits ++ [if upper then 76 else 108]) ++ rest) := by simpa [suffixText] using hat
  have hds : ∀ d ∈ l.digits ++ [if upper then 76 else 108], l.base.scanned d = true := by
    intro d hd
    rcases List.mem_append.mp hd with hd | hd
    · exact FinshBase.scanned_digit (l.ofBase d hd)
    · rw [hbase, List.mem_singleton.mp hd]
      cases upper <;> rfl
  obtain ⟨hdigit, halpha, -, -⟩ := separator_kinds hsep
  have hstop : l.base.scanned (firstChar rest) = false := by
    rw [hbase]
    simp [FinshBase.scanned, hdigit, halpha]
  rw [hat.prefixedNumber hk hds hstop] at hrun
  unfold FinshLexer.numberSuffix at hrun
  rw [if_neg (separator_no_suffix hsep)] at hrun
  have htoken : l.token = .valueLong (word l.value) := if_neg (by simp [hsuffix])
  rw [htoken] at hrun
  by_cases hlen : (l.digits ++ [if upper then 76 else 108]).length < 128
  · rw [if_pos hlen] at hrun
    have hvalue := congrArg Prod.fst (Option.some.inj hrun)
    cases hvalue
  · rw [if_neg hlen] at hrun
    cases hrun

/-- A decimal literal that is not a single zero. -/
theorem procNumber_decimal_right (hbase : l.base = .decimal) (hzero : l.digits ≠ [48])
    (h : s.At (l.text ++ rest)) (hsep : isSeparator (firstChar rest) = true) :
    ∃ s', s.procNumber = some (l.token, s') ∧ s'.nextChar = (s.skip l.text.length).nextChar := by
  have hof : ∀ d ∈ l.digits, isDigit d = true := by
    have hof := l.ofBase
    rw [hbase] at hof
    exact hof
  have htext : l.text = l.digits ++ suffixText l.suffix := by simp [text, hbase, FinshBase.lead]
  rw [htext] at h ⊢
  rw [List.append_assoc] at h
  obtain ⟨d, ds, hds⟩ := List.exists_cons_of_ne_nil l.nonempty
  have hd : isDigit d = true := hof d (by rw [hds]; exact List.mem_cons_self)
  have hne : d ≠ 48 := by
    intro hd48
    apply hzero
    apply l.decimal hbase
    rw [hds, hd48]
    rfl
  have hfirst : s.nextChar.1 = d := by
    have hat := h
    rw [hds] at hat
    rw [At.nextChar_cons hat (digit_starts hd).1]
  have hscan := h.scanFrom ⟨rfl, rfl⟩ hof (digits_stop l.suffix hsep).1
  obtain ⟨s', hsuffix, hnext⟩ := h.skip.numberSuffix (v := word l.value) hsep
  refine ⟨s', ?_, ?_⟩
  · unfold FinshLexer.procNumber
    simp only [hfirst, if_neg hne]
    rw [← hfirst, hscan]
    simp only [Option.bind_eq_bind, Option.bind_some, decimal_foldl hbase, hsuffix]
    rfl
  · rw [hnext, skip_skip, List.length_append]

/-- A single zero is read alone. -/
theorem procNumber_zero (hbase : l.base = .decimal) (hzero : l.digits = [48]) (h : s.At (l.text ++ rest))
    (hsep : isSeparator (firstChar rest) = true) :
    s.procNumber = some (.valueInt 0, (s.skip 1).behind 0 (suffixText l.suffix ++ rest)) ∧
      (s.skip 1).At (suffixText l.suffix ++ rest) := by
  have htext : l.text ++ rest = 48 :: (suffixText l.suffix ++ rest) := by
    simp [text, hbase, FinshBase.lead, hzero]
  rw [htext] at h
  have hfirst : (s.skip 1).nextChar.1 = firstChar (suffixText l.suffix ++ rest) :=
    congrArg Prod.fst h.next.nextChar
  have hnot : ¬ ((s.skip 1).nextChar.1 = 120 ∨ (s.skip 1).nextChar.1 = 88) ∧
      ¬ ((s.skip 1).nextChar.1 = 98 ∨ (s.skip 1).nextChar.1 = 66) ∧ ¬ isOctal (s.skip 1).nextChar.1 = true := by
    rw [hfirst]
    cases l.suffix with
    | none => exact separator_not_lead hsep
    | some upper =>
      have hletter : firstChar (suffixText (some upper) ++ rest) = if upper then 76 else 108 :=
        firstChar_cons (by cases upper <;> decide)
      rw [hletter]
      cases upper <;> decide
  refine ⟨?_, h.next⟩
  unfold FinshLexer.procNumber
  simp only [h.nextChar_cons (by decide), if_true, if_neg hnot.1, if_neg hnot.2.1, if_neg hnot.2.2, h.next.peek]

theorem procNumber_iff (h : s.At (l.text ++ rest)) (hsep : isSeparator (firstChar rest) = true) :
    (∃ s', s.procNumber = some (l.token, s') ∧ s'.nextChar = (s.skip l.text.length).nextChar) ↔ l.Fits := by
  obtain ⟨-, hoctal, hbinary⟩ := digits_stop l.suffix hsep
  unfold Fits
  cases hbase : l.base with
  | octal => exact procNumber_lead_right (by simp [hbase]) h hsep (by rw [hbase]; exact hoctal)
  | binary => exact procNumber_lead_right (by simp [hbase]) h hsep (by rw [hbase]; exact hbinary)
  | hex =>
    cases hsuffix : l.suffix with
    | none =>
      obtain ⟨hdigit, halpha, -, -⟩ := separator_kinds hsep
      have hstop : l.base.scanned (firstChar (suffixText l.suffix ++ rest)) = false := by
        rw [hbase, hsuffix]
        show (isDigit (firstChar rest) || isAlpha (firstChar rest)) = false
        rw [hdigit, halpha]
        rfl
      rw [procNumber_lead_right (by simp [hbase]) h hsep hstop]
      exact ⟨fun hlen => ⟨rfl, hlen⟩, fun hfits => hfits.2⟩
    | some upper =>
      constructor
      · rintro ⟨s', hrun, -⟩
        exact absurd ⟨s', hrun⟩ (procNumber_hex_suffix hbase hsuffix h hsep)
      · intro hfits
        cases hfits.1
  | decimal =>
    by_cases hzero : l.digits = [48]
    · obtain ⟨hrun, hat⟩ := procNumber_zero hbase hzero h hsep
      have hvalue : word l.value = 0 := by
        rw [value_foldl, hzero]
        simp [specDigit, word]
      have hlen : l.text.length = 1 + (suffixText l.suffix).length := by
        simp [text, hbase, FinshBase.lead, hzero, Nat.add_comm]
      rw [hrun]
      cases hsuffix : l.suffix with
      | none =>
        have htoken : l.token = .valueInt 0 := by
          unfold token
          rw [if_pos hsuffix, hvalue]
        rw [hsuffix] at hat hlen
        have hright : ∃ s', some (FinshToken.valueInt 0, (s.skip 1).behind 0 (suffixText none ++ rest)) =
            some (l.token, s') ∧ s'.nextChar = (s.skip l.text.length).nextChar := by
          refine ⟨_, by rw [htoken], ?_⟩
          rw [hlen]
          exact hat.nextChar_behind
        exact ⟨fun _ => .inl rfl, fun _ => hright⟩
      | some upper =>
        have htoken : l.token = .valueLong (word l.value) := if_neg (by simp [hsuffix])
        rw [htoken]
        constructor
        · rintro ⟨s', heq, -⟩
          cases heq
        · rintro (hnone | hne)
          · cases hnone
          · exact absurd hzero hne
    · have hright := procNumber_decimal_right hbase hzero h hsep
      exact ⟨fun _ => .inr hzero, fun _ => hright⟩

end FinshLiteral

/-- A literal in a line, before a separator, gives one token of its type and value, behind which the
lexer goes on, exactly if it fits. -/
theorem finsh_literal_right_iff (l : FinshLiteral) (s : FinshLexer) (rest : List UInt8)
    (h : s.At (l.text ++ rest)) (hsep : isSeparator (firstChar rest) = true) : l.Right s ↔ l.Fits := by
  unfold FinshLiteral.Right
  rw [FinshLiteral.tokenRun_number h]
  exact FinshLiteral.procNumber_iff h.cleared hsep

/-- `0x1FL;`: the suffix is taken for a digit. -/
def hexLong : FinshLiteral :=
  ⟨.hex, false, [49, 70], some true, by simp, by simp [FinshBase.digit]; decide, by simp⟩

/-- `017;` -/
def octalSeven : FinshLiteral :=
  ⟨.octal, false, [49, 55], none, by simp, by simp [FinshBase.digit]; decide, by simp⟩

theorem octalSeven_right : octalSeven.Right (finshTokenInit (octalSeven.text ++ [59])) :=
  (finsh_literal_right_iff octalSeven _ [59] (FinshLexer.init_at _) rfl).mpr
    (show octalSeven.digits.length < 128 by decide)

theorem hexLong_wrong : ¬ hexLong.Right (finshTokenInit (hexLong.text ++ [59])) := by
  rintro ⟨s', hrun, -⟩
  have hinit : (finshTokenInit (hexLong.text ++ [59])).tokenRun =
    some (.valueInt 508, { finshTokenInit (hexLong.text ++ [59]) with position := 5 }) := by
    decide +kernel
  rw [hinit] at hrun
  cases hrun

end RTThread
