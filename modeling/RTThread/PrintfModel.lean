import RTThread.ByteMemory

namespace RTThread

def ascii (c : Char) : UInt8 := c.toUInt8

/-- The bits of `flags`. -/
structure PrintFlags where
  zeropad : Bool
  sign : Bool
  plus : Bool
  space : Bool
  left : Bool
  special : Bool
  large : Bool
deriving DecidableEq, Repr

def PrintFlags.none : PrintFlags := ⟨false, false, false, false, false, false, false⟩

/-- What `va_arg` takes next: a word, or the string that a pointer designates. -/
inductive PrintfArg where
  | word (n : UInt32)
  | string (s : Option (List UInt8))
deriving DecidableEq, Repr

/-- The memory and the running pointer `str`. -/
structure PrintBuf where
  mem : Memory
  str : Nat

/-- `if (str <= end) *str = c; ++ str;` -/
def put (e : Nat) (b : PrintBuf) (c : UInt8) : PrintBuf :=
  ⟨if b.str ≤ e then write8 b.mem b.str c.toNat else b.mem, word (b.str + 1)⟩

def putAll (e : Nat) (b : PrintBuf) (out : List UInt8) : PrintBuf := out.foldl (put e) b

/-- `while (size-- > 0)` putting `c`, with the value that `size` has behind it. -/
def padWhile (e : Nat) (c : UInt8) (size : Int) (b : PrintBuf) : PrintBuf × Int :=
  (putAll e b (List.replicate size.toNat c), min size 0 - 1)

/-- `while (--size > 0)` putting `c`. -/
def padDown (e : Nat) (c : UInt8) (size : Int) (b : PrintBuf) : PrintBuf × Int :=
  (putAll e b (List.replicate (size - 1).toNat c), min (size - 1) 0)

/-- The remainder, and the quotient left in `*n`. -/
def divide (n base : Nat) : Nat × Nat := if base = 10 then (n % 10, n / 10) else (n % 16, n / 16)

def smallDigits (d : Nat) : UInt8 := UInt8.ofNat (if d < 10 then 48 + d else 87 + d)

def largeDigits (d : Nat) : UInt8 := UInt8.ofNat (if d < 10 then 48 + d else 55 + d)

/-- `while (num != 0)` into `tmp`, the least digit first; the fuel is the size of `tmp`. -/
def digitLoop (base : Nat) : Nat → Nat → List Nat
  | 0, _ => []
  | n + 1, num => if num = 0 then [] else (divide num base).1 :: digitLoop base n (divide num base).2

def numberTmp (flags : PrintFlags) (base num : Nat) : List UInt8 :=
  if num = 0 then [ascii '0']
  else (digitLoop base 16 num).map (if flags.large then largeDigits else smallDigits)

/-- The sign character, and the number without its sign. -/
def numberSign (flags : PrintFlags) (num : UInt32) : Option UInt8 × UInt32 :=
  if flags.sign then
    if 2147483648 ≤ num.toNat then (some (ascii '-'), -num)
    else if flags.plus then (some (ascii '+'), num)
    else if flags.space then (some (ascii ' '), num)
    else (none, num)
  else (none, num)

/-- `if (sign)`: the width counts the sign only where it is stored. -/
def putSign (e : Nat) (sign : Option UInt8) (size : Int) (b : PrintBuf) : PrintBuf × Int :=
  match sign with
  | some ch => (put e b ch, if b.str ≤ e then size - 1 else size)
  | none => (b, size)

/-- What `print_number` does with `tmp`, once it has the digits. -/
def putNumber (e : Nat) (b : PrintBuf) (sign : Option UInt8) (tmp : List UInt8) (s precision : Int)
    (zeropad left : Bool) : PrintBuf :=
  let i : Int := tmp.length
  let precision := if i > precision then i else precision
  let size := s - precision
  let r :=
    if zeropad || left then (b, size)
    else padWhile e (ascii ' ') (if sign.isSome ∧ 0 < size then size - 1 else size) b
  let r := putSign e sign r.2 r.1
  let r := if left then r else padWhile e (if zeropad then ascii '0' else ascii ' ') r.2 r.1
  let b := (padWhile e (ascii '0') (precision - i) r.1).1
  let b := putAll e b tmp.reverse
  (padWhile e (ascii ' ') r.2 b).1

/-- `print_number`, with the precision but without the special prefixes compiled in. -/
def printNumber (e : Nat) (b : PrintBuf) (num : UInt32) (base : Nat) (s precision : Int)
    (flags : PrintFlags) : PrintBuf :=
  let flags := if flags.left then { flags with zeropad := false } else flags
  let sign := numberSign flags num
  putNumber e b sign.1 (numberTmp flags base sign.2.toNat) s precision flags.zeropad flags.left

/-- What a piece of the format, with the arguments it takes, asks for. -/
inductive Piece where
  | char (c : UInt8)
  /-- `%` and a character that is no conversion, if there is one -/
  | unknown (c : Option UInt8)
  | character (left : Bool) (fieldWidth : Int) (c : UInt8)
  | string (left : Bool) (fieldWidth : Int) (s : List UInt8)
  | number (num : UInt32) (base : Nat) (fieldWidth precision : Int) (flags : PrintFlags)
deriving DecidableEq, Repr

/-- The cases of the `switch`. -/
def printPiece (e : Nat) (b : PrintBuf) : Piece → PrintBuf
  | .char c => put e b c
  | .unknown c => putAll e (put e b (ascii '%')) c.toList
  | .character left fieldWidth c =>
    let r := if left then (b, fieldWidth) else padDown e (ascii ' ') fieldWidth b
    (padDown e (ascii ' ') r.2 (put e r.1 c)).1
  | .string left fieldWidth s =>
    let pad := fieldWidth - s.length
    let r := if left then (b, pad) else padWhile e (ascii ' ') pad b
    let b := putAll e r.1 s
    (padWhile e (ascii ' ') r.2 b).1
  | .number num base fieldWidth precision flags => printNumber e b num base fieldWidth precision flags

def isdigit (c : UInt8) : Bool := 48 ≤ c && c ≤ 57

def skipAtoi : List UInt8 → Nat → Nat × List UInt8
  | [], i => (i, [])
  | c :: fmt, i => if isdigit c then skipAtoi fmt (i * 10 + (c.toNat - 48)) else (i, c :: fmt)

def readFlags : List UInt8 → PrintFlags → PrintFlags × List UInt8
  | [], flags => (flags, [])
  | c :: fmt, flags =>
    if c = ascii '-' then readFlags fmt { flags with left := true }
    else if c = ascii '+' then readFlags fmt { flags with plus := true }
    else if c = ascii ' ' then readFlags fmt { flags with space := true }
    else if c = ascii '#' then readFlags fmt { flags with special := true }
    else if c = ascii '0' then readFlags fmt { flags with zeropad := true }
    else (flags, c :: fmt)

/-- The format from here on and the arguments that are left. -/
structure FormatRest where
  fmt : List UInt8
  args : List PrintfArg

def readInt (r : FormatRest) : Option (Int × FormatRest) :=
  match r.args with
  | .word n :: args => some (n.toInt32.toInt, ⟨r.fmt, args⟩)
  | _ => none

def readWidth (flags : PrintFlags) (r : FormatRest) : Option (Int × PrintFlags × FormatRest) :=
  match r.fmt with
  | [] => some (-1, flags, r)
  | c :: fmt =>
    if isdigit c then some ((skipAtoi r.fmt 0).1, flags, ⟨(skipAtoi r.fmt 0).2, r.args⟩)
    else if c = ascii '*' then
      (readInt ⟨fmt, r.args⟩).map fun w =>
        if w.1 < 0 then (-w.1, { flags with left := true }, w.2) else (w.1, flags, w.2)
    else some (-1, flags, r)

def readPrecision (r : FormatRest) : Option (Int × FormatRest) :=
  match r.fmt with
  | [] => some (-1, r)
  | c :: fmt =>
    if c = ascii '.' then
      match fmt with
      | [] => some (0, ⟨[], r.args⟩)
      | d :: rest =>
        if isdigit d then some ((skipAtoi fmt 0).1, ⟨(skipAtoi fmt 0).2, r.args⟩)
        else if d = ascii '*' then
          (readInt ⟨rest, r.args⟩).map fun p => if p.1 < 0 then (0, p.2) else p
        else some (0, ⟨fmt, r.args⟩)
    else some (-1, r)

def readQualifier (fmt : List UInt8) : Option UInt8 × List UInt8 :=
  match fmt with
  | [] => (none, [])
  | c :: rest => if c = ascii 'h' ∨ c = ascii 'l' then (some c, rest) else (none, c :: rest)

/-- The number that an integer conversion takes, after its qualifier. -/
def readNumber (qualifier : Option UInt8) (flags : PrintFlags) (r : FormatRest) :
    Option (UInt32 × FormatRest) :=
  match r.args with
  | .word n :: args =>
    let num :=
      if qualifier = some (ascii 'h') then
        let low := n.toNat % 65536
        if flags.sign ∧ 32768 ≤ low then UInt32.ofNat (low + 4294901760) else UInt32.ofNat low
      else n
    some (num, ⟨r.fmt, args⟩)
  | _ => none

/-- The `switch` on the conversion character `c`. -/
def conversionCase (c : UInt8) (flags : PrintFlags) (fieldWidth precision : Int) (qualifier : Option UInt8)
    (r : FormatRest) : Option (Piece × FormatRest) :=
  if c = ascii 'c' then
    (readInt r).map fun a => (.character flags.left fieldWidth (UInt8.ofNat (a.1 % 256).toNat), a.2)
  else if c = ascii 's' then
    match r.args with
    | .string s :: args =>
      let s := s.getD [40, 78, 85, 76, 76, 41]
      let s := if 0 < precision ∧ precision < s.length then s.take precision.toNat else s
      some (.string flags.left fieldWidth s, ⟨r.fmt, args⟩)
    | _ => none
  else if c = ascii 'p' then
    (readNumber none flags r).map fun a =>
      if fieldWidth = -1 then (.number a.1 16 8 precision { flags with zeropad := true }, a.2)
      else (.number a.1 16 fieldWidth precision flags, a.2)
  else if c = ascii '%' then some (.char (ascii '%'), r)
  else if c = ascii 'o' then
    (readNumber qualifier flags r).map fun a => (.number a.1 8 fieldWidth precision flags, a.2)
  else if c = ascii 'X' then
    (readNumber qualifier flags r).map fun a =>
      (.number a.1 16 fieldWidth precision { flags with large := true }, a.2)
  else if c = ascii 'x' then
    (readNumber qualifier flags r).map fun a => (.number a.1 16 fieldWidth precision flags, a.2)
  else if c = ascii 'd' ∨ c = ascii 'i' then
    (readNumber qualifier { flags with sign := true } r).map fun a =>
      (.number a.1 10 fieldWidth precision { flags with sign := true }, a.2)
  else if c = ascii 'u' then
    (readNumber qualifier flags r).map fun a => (.number a.1 10 fieldWidth precision flags, a.2)
  else some (.unknown (some c), r)

/-- What follows a `%`. -/
def readConversion (r : FormatRest) : Option (Piece × FormatRest) := do
  let f := readFlags r.fmt .none
  let (fieldWidth, flags, r) ← readWidth f.1 ⟨f.2, r.args⟩
  let (precision, r) ← readPrecision r
  let q := readQualifier r.fmt
  match q.2 with
  | [] => some (.unknown none, ⟨[], r.args⟩)
  | c :: fmt => conversionCase c flags fieldWidth precision q.1 ⟨fmt, r.args⟩

/-- The pieces of a format in their order; `none` where the arguments do not match. Each turn reads
at least one character of the format. -/
def readPieces : Nat → FormatRest → Option (List Piece)
  | 0, _ => some []
  | n + 1, r =>
    match r.fmt with
    | [] => some []
    | c :: fmt =>
      if c = ascii '%' then do
        let (p, r) ← readConversion ⟨fmt, r.args⟩
        (readPieces n r).map (p :: ·)
      else (readPieces n ⟨fmt, r.args⟩).map (.char c :: ·)

def formatPieces (fmt : List UInt8) (args : List PrintfArg) : Option (List Piece) :=
  readPieces fmt.length ⟨fmt, args⟩

/-- The address that `str` is compared with. -/
def bufferEnd (buf size : Nat) : Nat :=
  if wordSub (word (buf + size)) 1 < buf then 0xffffffff else wordSub (word (buf + size)) 1

/-- `rt_vsnprintf`, with its result as a `rt_int32_t`. -/
def rtVsnprintf (m : Memory) (buf size : Nat) (fmt : List UInt8) (args : List PrintfArg) :
    Option (Memory × Int) :=
  (formatPieces fmt args).map fun ps =>
    let e := bufferEnd buf size
    let b := ps.foldl (printPiece e) ⟨m, buf⟩
    (write8 b.mem (if b.str ≤ e then b.str else e) 0, Int.bmod (wordSub b.str buf) 4294967296)

end RTThread
