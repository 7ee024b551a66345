import RTThread.ByteMemory
import RTThread.FinshTokens
import RTThread.ShellModel

namespace RTThread

/-- What the lexer gives to `finsh_error_set`. -/
inductive FinshLexErr where
  | unknownToken
  | expectChar
  | unexpectEnd
deriving DecidableEq, Repr

/-- `struct finsh_token` without the token itself: the line up to its NUL, and the bytes of `string`. -/
structure FinshLexer where
  line : List UInt8
  position : Nat
  eof : Bool
  string : List UInt8
  err : Option FinshLexErr
deriving DecidableEq, Repr

/-- `finsh_token_init`. -/
def finshTokenInit (line : List UInt8) : FinshLexer := ⟨line, 0, false, List.replicate finshStringMax 0, none⟩

def isDigit (ch : UInt8) : Bool := 48 ≤ ch.toNat ∧ ch.toNat ≤ 57

def isAlpha (ch : UInt8) : Bool := 97 ≤ ch.toNat ||| 32 ∧ ch.toNat ||| 32 < 123

def isXdigit (ch : UInt8) : Bool := isDigit ch ∨ (97 ≤ ch.toNat ||| 32 ∧ ch.toNat ||| 32 < 103)

/-- `(ch - '0') < 8u`. -/
def isOctal (ch : UInt8) : Bool := 48 ≤ ch.toNat ∧ ch.toNat < 56

def isBinary (ch : UInt8) : Bool := ch = 48 ∨ ch = 49

def isSeparator (ch : UInt8) : Bool :=
  ¬ ((97 ≤ ch.toNat ∧ ch.toNat ≤ 122) ∨ (65 ≤ ch.toNat ∧ ch.toNat ≤ 90) ∨
    (48 ≤ ch.toNat ∧ ch.toNat ≤ 57) ∨ ch = 95)

def isTrimmed (ch : UInt8) : Bool := ch = 32 ∨ ch = 9 ∨ ch = 13

/-- `finsh_name_table`. -/
def finshNameTable : List (List UInt8 × FinshToken) :=
  [("void".toUTF8.toList, .typeVoid), ("char".toUTF8.toList, .typeChar), ("short".toUTF8.toList, .typeShort),
    ("int".toUTF8.toList, .typeInt), ("long".toUTF8.toList, .typeLong),
    ("unsigned".toUTF8.toList, .typeUnsigned), ("NULL".toUTF8.toList, .valueNull),
    ("null".toUTF8.toList, .valueNull)]

/-- `token_match_name`; what is no keyword is an identifier. -/
def matchName (str : List UInt8) : FinshToken :=
  ((finshNameTable.find? fun entry => entry.1 == str).map Prod.snd).getD (.identifier str)

/-- The value of a digit, as the decoder of hexadecimal escapes and `token_spec_number` take it. -/
def digitValue (ch : UInt8) : Nat :=
  if ch.toNat < 65 then ch.toNat - 48 else (ch.toNat ||| 32) - 97 + 10

def escapeValue (b : Nat) (digits : List UInt8) : Nat :=
  digits.foldl (fun v d => v * b + digitValue d) 0

/-- A turn of the loop of `token_spec_number`: `bn[0]` and `bn[1]` are shifted and take the digit. -/
def specStep (shift : Nat) (bn : Nat × Nat) (ch : UInt8) : Nat × Nat :=
  let t := if 97 ≤ ch.toNat ∧ ch.toNat ≤ 102 then ch.toNat - 97 + 10
    else if 65 ≤ ch.toNat ∧ ch.toNat ≤ 70 then ch.toNat - 65 + 10
    else ch.toNat - 48
  (word (bn.1 <<< shift) ||| t, word (bn.2 <<< shift) ||| bn.1 >>> (32 - shift))

/-- `token_spec_number`, whose base 16, 8 or 2 is given as a number of bits. -/
def tokenSpecNumber (shift : Nat) (digits : List UInt8) : Nat := (digits.foldl (specStep shift) (0, 0)).1

namespace FinshLexer

/-- `token_next_char`. -/
def nextChar (s : FinshLexer) : UInt8 × FinshLexer :=
  if s.eof then (0, s)
  else
    match s.line[s.position]? with
    | none => (0, { s with eof := true, position := 0 })
    | some ch =>
      if ch = 10 then (0, { s with eof := true, position := 0 })
      else (ch, { s with position := s.position + 1 })

def prevChar (s : FinshLexer) : FinshLexer := if s.eof then s else { s with position := s.position - 1 }

def errorSet (s : FinshLexer) (err : FinshLexErr) : FinshLexer := { s with err := some err }

/-- A loop that reads characters from `ch` on while they are of a kind: these characters, and the
one at which it stops. -/
def scan (kind : UInt8 → Bool) : Nat → UInt8 → FinshLexer → Option (List UInt8 × UInt8 × FinshLexer)
  | 0, _, _ => none
  | fuel + 1, ch, s =>
    if kind ch then
      let (next, s) := s.nextChar
      (scan kind fuel next s).map fun (chars, stop, s) => (ch :: chars, stop, s)
    else some ([], ch, s)

def scanFrom (s : FinshLexer) (kind : UInt8 → Bool) (ch : UInt8) : Option (List UInt8 × UInt8 × FinshLexer) :=
  scan kind (s.line.length + 2) ch s

/-- Bytes written to `string` from its beginning on; `none` is a write behind it. -/
def putString (s : FinshLexer) (bytes : List UInt8) : Option FinshLexer :=
  if bytes.length ≤ s.string.length then some { s with string := bytes ++ s.string.drop bytes.length }
  else none

/-- `token_trim_space`. -/
def trimSpace (s : FinshLexer) : Option FinshLexer := do
  let (ch, s) := s.nextChar
  let (_, _, s) ← s.scanFrom isTrimmed ch
  some s.prevChar

/-- `token_get_string`. -/
def getString (s : FinshLexer) : Option FinshLexer := do
  let (ch, s) := s.nextChar
  if s.eof then some s
  else
    let s ← s.putString [0]
    if isDigit ch then some s.prevChar
    else
      let (word, _, s) ← s.scanFrom (fun ch => !isSeparator ch) ch
      -- the end of the line is forgotten here, and so is that the position is 0 again
      { s with eof := false }.prevChar.putString (word ++ [0])

/-- The escapes of `token_proc_char`. -/
def charEscape (s : FinshLexer) : Option (UInt8 × FinshLexer) :=
  let (ch, s) := s.nextChar
  match Char.ofUInt8 ch with
  | 'n' => some (10, s)
  | 't' => some (9, s)
  | 'v' => some (11, s)
  | 'b' => some (8, s)
  | 'r' => some (13, s)
  | '\\' => some (92, s)
  | '\'' => some (39, s)
  | _ => do
    let (digits, _, s) ← s.scanFrom isDigit ch
    -- `atoi` reads from the terminating NUL in `buf[4]`
    if digits.length < 4 then some (0, s.prevChar) else none

def procChar (s : FinshLexer) : Option (UInt8 × FinshLexer) := do
  let (ch, s) := s.nextChar
  let (ch, s) ← if ch = 92 then s.charEscape else some (ch, s)
  let (quote, s) := s.nextChar
  if quote = 39 then some (ch, s) else some (ch, s.prevChar.errorSet .expectChar)

/-- `token_proc_escape`; the result is stored as a `char`. -/
def procEscape (s : FinshLexer) : Option (UInt8 × FinshLexer) :=
  let (ch, s) := s.nextChar
  match Char.ofUInt8 ch with
  | 'n' => some (10, s)
  | 't' => some (9, s)
  | 'v' => some (11, s)
  | 'b' => some (8, s)
  | 'r' => some (13, s)
  | 'f' => some (12, s)
  | 'a' => some (7, s)
  | '"' => some (34, s)
  | 'x' | 'X' => do
    let (ch, s) := s.nextChar
    let (digits, _, s) ← s.scanFrom isXdigit ch
    some (UInt8.ofNat (escapeValue 16 digits), s.prevChar)
  | _ =>
    if isOctal ch then do
      let (digits, _, s) ← s.scanFrom isOctal ch
      some (UInt8.ofNat (escapeValue 8 digits), s.prevChar)
    else some (0, s)

/-- The loop of `token_proc_string` with room for so many bytes: those it stores, and whether it has
met the closing quote. -/
def stringLoop : Nat → FinshLexer → Option (List UInt8 × Bool × FinshLexer)
  | 0, s => some ([], false, s)
  | room + 1, s => do
    let (ch, s) := s.nextChar
    if s.eof then some ([], false, s.errorSet .unexpectEnd)
    else if ch = 34 then some ([], true, s)
    else
      let (ch, s) ← if ch = 92 then s.procEscape else some (ch, s)
      let (bytes, closed, s) ← stringLoop room s
      some (ch :: bytes, closed, s)

/-- `token_proc_string`: the bytes of the literal, or `NULL`. -/
def procString (s : FinshLexer) : Option (Option (List UInt8) × FinshLexer) := do
  let (bytes, closed, s) ← stringLoop finshStringMax s
  if closed then
    let s ← s.putString (bytes ++ [0])
    some (some bytes, s)
  else
    let s ← s.putString bytes
    some (none, s)

/-- The suffix of a number. -/
def numberSuffix (s : FinshLexer) (value : Nat) (ch : UInt8) : FinshToken × FinshLexer :=
  if ch = 108 ∨ ch = 76 then (.valueLong value, s) else (.valueInt value, s.prevChar)

/-- The digits behind a prefix, which `buf[128]` must hold with a NUL. -/
def prefixedNumber (s : FinshLexer) (kind : UInt8 → Bool) (shift : Nat) (ch : UInt8) :
    Option (FinshToken × FinshLexer) := do
  let (digits, stop, s) ← s.scanFrom kind ch
  if digits.length < 128 then some (s.numberSuffix (tokenSpecNumber shift digits) stop) else none

/-- `token_proc_number`. -/
def procNumber (s : FinshLexer) : Option (FinshToken × FinshLexer) :=
  let (ch, s) := s.nextChar
  if ch = 48 then
    let (ch, s) := s.nextChar
    if ch = 120 ∨ ch = 88 then
      let (ch, s) := s.nextChar
      s.prefixedNumber (fun ch => isDigit ch || isAlpha ch) 4 ch
    else if ch = 98 ∨ ch = 66 then
      let (ch, s) := s.nextChar
      s.prefixedNumber isBinary 1 ch
    else if isOctal ch then s.prefixedNumber isOctal 3 ch
    else some (.valueInt 0, s.prevChar)
  else do
    let (digits, stop, s) ← s.scanFrom isDigit ch
    some (s.numberSuffix (digits.foldl (fun v d => word (v * 10 + (d.toNat - 48))) 0) stop)

/-- An operator of one character, or of the same one twice. -/
def twice (s : FinshLexer) (ch : UInt8) (both single : FinshToken) : FinshToken × FinshLexer :=
  let (next, s) := s.nextChar
  if next = ch then (both, s) else (single, s.prevChar)

/-- The `switch` of `token_run`. -/
def runOperator (s : FinshLexer) : Option (FinshToken × FinshLexer) :=
  let (ch, s) := s.nextChar
  match Char.ofUInt8 ch with
  | '(' => some (.leftParen, s)
  | ')' => some (.rightParen, s)
  | ',' => some (.comma, s)
  | ';' => some (.semicolon, s)
  | '&' => some (.and, s)
  | '*' => some (.mul, s)
  | '+' => some (s.twice ch .inc .add)
  | '-' => some (s.twice ch .dec .sub)
  | '/' => some (s.twice ch .eof .div)
  | '<' => some (s.twice ch .shl .bad)
  | '>' => some (s.twice ch .shr .bad)
  | '|' => some (.or, s)
  | '%' => some (.mod, s)
  | '~' => some (.bitwise, s)
  | '^' => some (.xor, s)
  | '=' => some (.assign, s)
  | '\'' => do
    let (c, s) ← s.procChar
    some (.valueChar c.toNat, s)
  | '"' => do
    let (_, s) ← s.procString
    some (.valueString (cText s.string), s)
  | _ => if isDigit ch then s.prevChar.procNumber else some (.bad, s.errorSet .unknownToken)

/-- `token_run`. -/
def tokenRun (s : FinshLexer) : Option (FinshToken × FinshLexer) := do
  let s ← s.trimSpace
  let s ← s.getString
  if s.eof then some (.eof, s)
  else if cText s.string = [] then s.runOperator
  else some (matchName (cText s.string), s)

end FinshLexer

end RTThread
