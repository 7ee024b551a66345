import RTThread.PrintfOutput

namespace RTThread

/-- What has `_S` in `_ctype`: the blank, the control characters 9 to 13 and the hard space. -/
def isspace (c : UInt8) : Bool := (9 ≤ c && c ≤ 13) || c = 32 || c = 160

/-- What has `_L` in `_ctype`, the Latin-1 letters among it. -/
def islower (c : UInt8) : Bool := (97 ≤ c && c ≤ 122) || (223 ≤ c && c ≠ 247)

def isxdigit (c : UInt8) : Bool := isdigit c || (65 ≤ c && c ≤ 70) || (97 ≤ c && c ≤ 102)

def toupper (c : UInt8) : UInt8 := if islower c then c - 32 else c

/-- `cp[i]` of a string whose NUL is left out. -/
def charAt (cp : List UInt8) (i : Nat) : UInt8 := cp.getD i 0

/-- `isdigit(*cp) ? *cp-'0' : toupper(*cp)-'A'+10`. -/
def xdigitValue (c : UInt8) : Nat := if isdigit c then c.toNat - 48 else (toupper c).toNat - 65 + 10

/-- The loop that all scanners of numbers share, in an unsigned type of `bits` bits. -/
def scanDigits (bits base : Nat) : List UInt8 → Nat → Nat × List UInt8
  | [], result => (result, [])
  | c :: cp, result =>
    if isxdigit c && xdigitValue c < base then
      scanDigits bits base cp ((result * base + xdigitValue c) % 2 ^ bits)
    else (result, c :: cp)

/-- The value and `*endp`; `bits` are those of `unsigned long`. -/
def simpleStrtoul (bits : Nat) (cp : List UInt8) (base : Nat) : Nat × List UInt8 :=
  if base = 0 then
    if charAt cp 0 = ascii '0' then
      if toupper (charAt cp 1) = ascii 'X' ∧ isxdigit (charAt cp 2) then
        scanDigits bits 16 (cp.drop 2) 0
      else scanDigits bits 8 (cp.drop 1) 0
    else scanDigits bits 10 cp 0
  else if base = 16 ∧ charAt cp 0 = ascii '0' ∧ toupper (charAt cp 1) = ascii 'X' then
    scanDigits bits 16 (cp.drop 2) 0
  else scanDigits bits base cp 0

/-- A leading zero is passed over in every base, and `0x` in front of a digit makes it 16. -/
def simpleStrtoull (cp : List UInt8) (base : Nat) : Nat × List UInt8 :=
  if charAt cp 0 = ascii '0' then
    if toupper (charAt cp 1) = ascii 'X' ∧ isxdigit (charAt cp 2) then
      scanDigits 64 16 (cp.drop 2) 0
    else scanDigits 64 (if base = 0 then 8 else base) (cp.drop 1) 0
  else scanDigits 64 (if base = 0 then 10 else base) cp 0

/-- `n` as a value of the signed type of `bits` bits. -/
def toSigned (bits : Nat) (n : Int) : Int := n.bmod (2 ^ bits)

def simpleStrtol (bits : Nat) (cp : List UInt8) (base : Nat) : Int × List UInt8 :=
  if charAt cp 0 = ascii '-' then
    let (n, next) := simpleStrtoul bits (cp.drop 1) base
    (toSigned bits (-(n : Int)), next)
  else
    let (n, next) := simpleStrtoul bits cp base
    (toSigned bits n, next)

def simpleStrtoll (cp : List UInt8) (base : Nat) : Int × List UInt8 :=
  if charAt cp 0 = ascii '-' then
    let (n, next) := simpleStrtoull (cp.drop 1) base
    (toSigned 64 (-(n : Int)), next)
  else
    let (n, next) := simpleStrtoull cp base
    (toSigned 64 n, next)

/-- What a conversion leaves in the object of its argument: a number, or the bytes written from the
pointer on. -/
inductive ScanStore where
  | number (v : Int)
  | bytes (s : List UInt8)
deriving DecidableEq, Repr

/-- The variables of `vsscanf` that outlive a round of its loop, the strings without their NUL and
what has been stored so far. -/
structure Scan where
  fmt : List UInt8
  str : List UInt8
  num : Nat
  fieldWidth : Int
  stored : List ScanStore
deriving DecidableEq, Repr

/-- A round ends with the next one or leaves the loop. -/
inductive ScanTurn where
  | again (s : Scan)
  | done (s : Scan)
deriving DecidableEq, Repr

def ScanTurn.state : ScanTurn → Scan
  | .again s => s
  | .done s => s

/-- `switch (qualifier)`: the value as the type of the argument keeps it, and `next`. -/
def scanNumber (longBits : Nat) (qualifier : Option UInt8) (isSign : Bool) (str : List UInt8)
    (base : Nat) : Int × List UInt8 :=
  if qualifier = some (ascii 'h') then
    if isSign then
      let (v, next) := simpleStrtol longBits str base
      (toSigned 16 v, next)
    else
      let (n, next) := simpleStrtoul longBits str base
      (n % 2 ^ 16, next)
  else if qualifier = some (ascii 'l') then
    if isSign then simpleStrtol longBits str base
    else
      let (n, next) := simpleStrtoul longBits str base
      (n, next)
  else if qualifier = some (ascii 'L') then
    if isSign then simpleStrtoll str base
    else
      let (n, next) := simpleStrtoull str base
      (n, next)
  else if qualifier = some (ascii 'Z') then
    let (n, next) := simpleStrtoul longBits str base
    (n, next)
  else
    if isSign then
      let (v, next) := simpleStrtol longBits str base
      (toSigned 32 v, next)
    else
      let (n, next) := simpleStrtoul longBits str base
      (n % 2 ^ 32, next)

/-- `do *s++ = *str++; while (field_width-- > 0 && *str)` where `*str` is not the NUL: what is
copied, `str` and `field_width`. -/
def copyChars : List UInt8 → Int → List UInt8 × List UInt8 × Int
  | [], fieldWidth => ([], [], fieldWidth)
  | c :: str, fieldWidth =>
    if 0 < fieldWidth ∧ charAt str 0 ≠ 0 then
      let (s, rest, left) := copyChars str (fieldWidth - 1)
      (c :: s, rest, left)
    else ([c], str, fieldWidth - 1)

/-- `while (*str && !isspace(*str) && field_width--) *s++ = *str++;`. -/
def copyWord : List UInt8 → Int → List UInt8 × List UInt8 × Int
  | [], fieldWidth => ([], [], fieldWidth)
  | c :: str, fieldWidth =>
    if c = 0 ∨ isspace c then ([], c :: str, fieldWidth)
    else if fieldWidth = 0 then ([], c :: str, fieldWidth - 1)
    else
      let (s, rest, left) := copyWord str (fieldWidth - 1)
      (c :: s, rest, left)

namespace Scan

variable (longBits : Nat) (buf : List UInt8)

/-- Both strings behind their white space, if the format has some. -/
def skipSpaces (s : Scan) : Scan :=
  if isspace (charAt s.fmt 0) then
    { s with fmt := s.fmt.dropWhile isspace, str := s.str.dropWhile isspace }
  else s

def readWidth (s : Scan) : Scan :=
  if isdigit (charAt s.fmt 0) then
    { s with fmt := (skipAtoi s.fmt 0).2, fieldWidth := (skipAtoi s.fmt 0).1 }
  else s

def isQualifier (c : UInt8) : Bool :=
  c = ascii 'h' || c = ascii 'l' || c = ascii 'L' || c = ascii 'Z'

def readQualifier (s : Scan) : Option UInt8 × Scan :=
  if isQualifier (charAt s.fmt 0) then (some (charAt s.fmt 0), { s with fmt := s.fmt.drop 1 })
  else (none, s)

/-- An integer conversion, from `while (isspace(*str))` on. -/
def scanInteger (longBits : Nat) (s : Scan) (qualifier : Option UInt8) (isSign : Bool)
    (base : Nat) : ScanTurn :=
  let str := s.str.dropWhile isspace
  if isdigit (charAt str 0) then
    let (v, next) := scanNumber longBits qualifier isSign str base
    .again { s with str := next, num := s.num + 1, stored := s.stored ++ [.number v] }
  else .done { s with str := str }

def scanChars (s : Scan) : ScanTurn :=
  let (copy, str, left) := copyChars s.str (if s.fieldWidth = -1 then 1 else s.fieldWidth)
  .again { s with
    str := str, fieldWidth := left, num := s.num + 1, stored := s.stored ++ [.bytes copy] }

/-- The NUL behind the copy is written too. -/
def scanWord (s : Scan) : ScanTurn :=
  let (copy, str, left) := copyWord (s.str.dropWhile isspace)
    (if s.fieldWidth = -1 then 2147483647 else s.fieldWidth)
  .again { s with
    str := str, fieldWidth := left, num := s.num + 1, stored := s.stored ++ [.bytes (copy ++ [0])] }

/-- `switch (*fmt++)`; `%n` stores the place in `buf` and is not counted. -/
def convert (longBits : Nat) (buf : List UInt8) (s : Scan) (qualifier : Option UInt8) (c : UInt8) :
    ScanTurn :=
  if c = ascii 'c' then s.scanChars
  else if c = ascii 's' then s.scanWord
  else if c = ascii 'n' then
    .again { s with stored := s.stored ++ [.number (buf.length - s.str.length)] }
  else if c = ascii 'o' then s.scanInteger longBits qualifier false 8
  else if c = ascii 'x' ∨ c = ascii 'X' then s.scanInteger longBits qualifier false 16
  else if c = ascii 'd' ∨ c = ascii 'i' then s.scanInteger longBits qualifier true 10
  else if c = ascii 'u' then s.scanInteger longBits qualifier false 10
  else if c = ascii '%' then
    if charAt s.str 0 = ascii '%' then .again { s with str := s.str.drop 1 }
    else .done { s with str := s.str.drop 1 }
  else .done s

/-- Behind the width and the qualifier: the format or the text may have ended. -/
def readConversion (longBits : Nat) (buf : List UInt8) (qualifier : Option UInt8) (s : Scan) :
    ScanTurn :=
  if charAt s.fmt 0 = 0 ∨ charAt s.str 0 = 0 then .done s
  else { s with fmt := s.fmt.drop 1 }.convert longBits buf qualifier (charAt s.fmt 0)

def inWord (c : UInt8) : Bool := !isspace c && c ≠ 0

/-- Behind a `%`; what a star skips ends at white space in both strings. -/
def directive (longBits : Nat) (buf : List UInt8) (s : Scan) : ScanTurn :=
  if charAt s.fmt 0 = ascii '*' then
    .again { s with
      fmt := s.fmt.dropWhile inWord, str := s.str.dropWhile inWord }
  else s.readWidth.readQualifier.2.readConversion longBits buf s.readWidth.readQualifier.1

/-- Behind the white space of the format. -/
def matchFormat (longBits : Nat) (buf : List UInt8) (s : Scan) : ScanTurn :=
  if charAt s.fmt 0 ≠ ascii '%' ∧ charAt s.fmt 0 ≠ 0 then
    if charAt s.fmt 0 = charAt s.str 0 then
      .again { s with fmt := s.fmt.drop 1, str := s.str.drop 1 }
    else .done { s with fmt := s.fmt.drop 1, str := s.str.drop 1 }
  else if charAt s.fmt 0 = 0 then .done s
  else { s with fmt := s.fmt.drop 1 }.directive longBits buf

/-- The body of the loop. -/
def turn (longBits : Nat) (buf : List UInt8) (s : Scan) : ScanTurn :=
  s.skipSpaces.matchFormat longBits buf

/-- Each round shortens the format. -/
def run (longBits : Nat) (buf : List UInt8) : Scan → Nat → Scan
  | s, 0 => s
  | s, fuel + 1 =>
    if charAt s.fmt 0 = 0 ∨ charAt s.str 0 = 0 then s
    else
      match s.turn longBits buf with
      | .again s' => s'.run longBits buf fuel
      | .done s' => s'

/-- What `vsscanf` ends with from `s` on. -/
def result (longBits : Nat) (buf : List UInt8) (s : Scan) : Nat × List ScanStore :=
  ((s.run longBits buf s.fmt.length).num, (s.run longBits buf s.fmt.length).stored)

/-- What later stores add stands behind those before. -/
structure Keeps (s : Scan) (t : ScanTurn) : Prop where
  fmt : t.state.fmt = s.fmt
  stored : s.stored <+: t.state.stored

theorem scanInteger_keeps (s : Scan) (q : Option UInt8) (isSign : Bool) (base : Nat) :
    s.Keeps (s.scanInteger longBits q isSign base) := by
  unfold scanInteger
  dsimp only
  split
  · exact ⟨rfl, List.prefix_append _ _⟩
  · exact ⟨rfl, List.prefix_rfl⟩

theorem convert_keeps (s : Scan) (q : Option UInt8) (c : UInt8) :
    s.Keeps (s.convert longBits buf q c) := by
  unfold convert scanChars scanWord
  repeat' split
  all_goals first
    | exact scanInteger_keeps longBits s q _ _
    | exact ⟨rfl, List.prefix_append _ _⟩
    | exact ⟨rfl, List.prefix_rfl⟩

/-- A turn that does not lengthen the format from `n` characters. -/
structure Within (s : Scan) (n : Nat) (t : ScanTurn) : Prop where
  fmt : t.state.fmt.length ≤ n
  stored : s.stored <+: t.state.stored

theorem readConversion_within (s : Scan) (q : Option UInt8) :
    s.Within s.fmt.length (s.readConversion longBits buf q) := by
  unfold readConversion
  split
  · exact ⟨Nat.le_refl _, List.prefix_rfl⟩
  · have h := convert_keeps longBits buf { s with fmt := s.fmt.drop 1 } q
      (charAt s.fmt 0)
    refine ⟨?_, h.stored⟩
    rw [h.fmt, List.length_drop]
    exact Nat.sub_le _ _

theorem readWidth_fmt (s : Scan) : s.readWidth.fmt.length ≤ s.fmt.length := by
  unfold readWidth
  split
  · exact skipAtoi_length s.fmt 0
  · exact Nat.le_refl _

theorem readWidth_same (s : Scan) : s.readWidth.str = s.str ∧ s.readWidth.num = s.num ∧
    s.readWidth.stored = s.stored := by
  unfold readWidth
  split
  · exact ⟨rfl, rfl, rfl⟩
  · exact ⟨rfl, rfl, rfl⟩

theorem readQualifier_fmt (s : Scan) : s.readQualifier.2.fmt.length ≤ s.fmt.length := by
  unfold readQualifier
  split
  · exact (List.drop_sublist _ _).length_le
  · exact Nat.le_refl _

theorem readQualifier_same (s : Scan) : s.readQualifier.2.str = s.str ∧
    s.readQualifier.2.num = s.num ∧ s.readQualifier.2.stored = s.stored := by
  unfold readQualifier
  split
  · exact ⟨rfl, rfl, rfl⟩
  · exact ⟨rfl, rfl, rfl⟩

theorem directive_within (s : Scan) : s.Within s.fmt.length (s.directive longBits buf) := by
  unfold directive
  split
  · exact ⟨(List.dropWhile_sublist _).length_le, List.prefix_rfl⟩
  · have h := readConversion_within longBits buf s.readWidth.readQualifier.2
      s.readWidth.readQualifier.1
    have hstored := h.stored
    rw [(readQualifier_same _).2.2, (readWidth_same s).2.2] at hstored
    exact ⟨h.fmt.trans ((readQualifier_fmt _).trans (readWidth_fmt s)), hstored⟩

/-- A round that does not leave the loop shortens the format. -/
theorem turn_within (s : Scan) :
    s.stored <+: (s.turn longBits buf).state.stored ∧
      ∀ s', s.turn longBits buf = .again s' → s'.fmt.length < s.fmt.length := by
  have hspaces : s.skipSpaces.fmt.length ≤ s.fmt.length ∧ s.skipSpaces.stored = s.stored := by
    unfold skipSpaces
    split
    · exact ⟨(List.dropWhile_sublist _).length_le, rfl⟩
    · exact ⟨Nat.le_refl _, rfl⟩
  have hdrop : charAt s.skipSpaces.fmt 0 ≠ 0 →
      (s.skipSpaces.fmt.drop 1).length < s.skipSpaces.fmt.length := by
    intro hne
    cases hfmt : s.skipSpaces.fmt with
    | nil => exact absurd rfl (hfmt ▸ hne)
    | cons c fmt => exact Nat.lt_succ_self _
  rw [← hspaces.2]
  unfold turn matchFormat
  split
  next h =>
    split
    · refine ⟨List.prefix_rfl, fun s' hagain => ?_⟩
      obtain rfl := ScanTurn.again.inj hagain
      exact (hdrop h.2).trans_le hspaces.1
    · exact ⟨List.prefix_rfl, fun s' hagain => nomatch hagain⟩
  next =>
    split
    · exact ⟨List.prefix_rfl, fun s' hagain => nomatch hagain⟩
    next hne =>
      have h := directive_within longBits buf
        { s.skipSpaces with fmt := s.skipSpaces.fmt.drop 1 }
      refine ⟨h.stored, fun s' hagain => ?_⟩
      have hlength := h.fmt
      rw [hagain] at hlength
      exact hlength.trans_lt ((hdrop hne).trans_le hspaces.1)

/-- Fuel for every character of the format is enough. -/
theorem run_enough {fuel : Nat} {s : Scan} (h : s.fmt.length ≤ fuel) :
    s.run longBits buf fuel = s.run longBits buf s.fmt.length := by
  generalize hn : s.fmt.length = n
  induction n using Nat.strongRecOn generalizing s fuel with
  | ind n ih =>
    subst hn
    cases hfmt : s.fmt with
    | nil =>
      cases fuel with
      | zero => rfl
      | succ fuel => exact if_pos (.inl (by rw [hfmt]; rfl))
    | cons c fmt =>
      rw [hfmt] at h ih
      cases fuel with
      | zero => exact absurd h (by simp)
      | succ fuel =>
        rw [List.length_cons]
        unfold run
        split
        · rfl
        · split
          next s' hagain =>
            have hshort := (turn_within longBits buf s).2 s' hagain
            rw [hfmt] at hshort
            have h1 : s'.run longBits buf fuel = s'.run longBits buf s'.fmt.length :=
              ih _ hshort (by rw [List.length_cons] at hshort h; omega) rfl
            have h2 : s'.run longBits buf fmt.length = s'.run longBits buf s'.fmt.length :=
              ih _ hshort (by rw [List.length_cons] at hshort; omega) rfl
            rw [h1, h2]
          next => rfl

/-- What `vsscanf` ends with behind a round. -/
def resultOf (longBits : Nat) (buf : List UInt8) : ScanTurn → Nat × List ScanStore
  | .again s => s.result longBits buf
  | .done s => (s.num, s.stored)

/-- The loop as its rounds. -/
theorem result_turn {s : Scan} (hfmt : charAt s.fmt 0 ≠ 0) (hstr : charAt s.str 0 ≠ 0) :
    s.result longBits buf = resultOf longBits buf (s.turn longBits buf) := by
  unfold resultOf result
  cases h : s.fmt with
  | nil => exact absurd rfl (h ▸ hfmt)
  | cons c fmt =>
    rw [List.length_cons, run, if_neg (not_or.mpr ⟨hfmt, hstr⟩)]
    cases hturn : s.turn longBits buf with
    | again s' =>
      have hshort := (turn_within longBits buf s).2 s' hturn
      rw [h, List.length_cons] at hshort
      have henough := run_enough longBits buf (Nat.le_of_lt_succ hshort)
      dsimp only
      rw [henough]
    | done s' => rfl

theorem result_end {s : Scan} (h : charAt s.fmt 0 = 0 ∨ charAt s.str 0 = 0) :
    s.result longBits buf = (s.num, s.stored) := by
  unfold result
  cases s.fmt.length with
  | zero => rfl
  | succ n =>
    unfold run
    rw [if_pos h]

theorem result_stored (s : Scan) : s.stored <+: (s.result longBits buf).2 := by
  suffices h : ∀ fuel (s : Scan), s.stored <+: (s.run longBits buf fuel).stored from h _ s
  intro fuel
  induction fuel with
  | zero => exact fun s => List.prefix_rfl
  | succ fuel ih =>
    intro s
    have hturn := (turn_within longBits buf s).1
    unfold run
    split
    · exact List.prefix_rfl
    · split
      next s' hagain =>
        rw [hagain] at hturn
        exact hturn.trans (ih s')
      next s' hdone =>
        rw [hdone] at hturn
        exact hturn

end Scan

/-- What is returned and what is stored; a round takes a character of the format at least. -/
def vsscanf (longBits : Nat) (buf fmt : List UInt8) : Nat × List ScanStore :=
  Scan.result longBits buf ⟨fmt, buf, 0, -1, []⟩

end RTThread
