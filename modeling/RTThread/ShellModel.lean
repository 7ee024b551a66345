import RTThread.Runs

namespace RTThread

inductive InputStat where
  | normal
  | specKey
  | funcKey
deriving DecidableEq, Repr

/-- `FINSH_CMD_SIZE`, `FINSH_HISTORY_LINES` (0 without `FINSH_USING_HISTORY`; `history_count` is 16
bits wide), and what `shell_auto_complete` makes of a line. -/
structure ShellConfig where
  size : Nat
  lines : Nat
  complete : List UInt8 → List UInt8
  sizePos : 0 < size
  linesFit : lines < 65536

/-- `struct finsh_shell`; the positions are 8 bits wide. -/
structure Shell where
  stat : InputStat
  line : List UInt8
  position : Nat
  curpos : Nat
  history : List (List UInt8)
  historyCount : Nat
  currentHistory : Nat

/-- What the executor is given: the line as a string, if it ends within the array, and for
`msh_exec` its length. -/
inductive Executed where
  | msh (line : Option (List UInt8)) (length : Nat)
  | finsh (line : Option (List UInt8))
deriving DecidableEq

def cText (bytes : List UInt8) : List UInt8 := bytes.takeWhile fun b => b ≠ 0

def cString (bytes : List UInt8) : Option (List UInt8) :=
  if 0 ∈ bytes then some (cText bytes) else none

/-- `rt_memmove` within an array. -/
def moveBytes (bytes : List UInt8) (dst src n : Nat) : List UInt8 :=
  bytes.take dst ++ (bytes.drop src).take n ++ bytes.drop (dst + n)

/-- A row of `cmd_history` after `memset` and `memcpy`. -/
def historyRow (size : Nat) (text : List UInt8) : List UInt8 :=
  text ++ List.replicate (size - text.length) 0

/-- `shell_push_history`. -/
def shellPushHistory (c : ShellConfig) (s : Shell) : Shell :=
  let row := historyRow c.size (s.line.take s.position)
  let s :=
    if s.position ≠ 0 then
      if c.lines ≤ s.historyCount then
        if s.history.getD (c.lines - 1) [] ≠ s.line then
          { s with history := s.history.tail ++ [row], historyCount := c.lines }
        else s
      else if s.historyCount = 0 ∨ s.history.getD (s.historyCount - 1) [] ≠ s.line then
        { s with history := s.history.set s.historyCount row, historyCount := s.historyCount + 1 }
      else s
    else s
  { s with currentHistory := s.historyCount }

/-- The line is taken from the history. -/
def Shell.recall (s : Shell) (i : Nat) : Shell :=
  let line := s.history.getD i []
  { s with
    currentHistory := i, line := line
    position := (cText line).length % 256, curpos := (cText line).length % 256 }

def shellUp (c : ShellConfig) (s : Shell) : Shell :=
  if 0 < c.lines ∧ 0 < s.currentHistory then s.recall (s.currentHistory - 1) else s

def shellDown (c : ShellConfig) (s : Shell) : Shell :=
  if 0 < c.lines then
    if s.currentHistory + 1 < s.historyCount then s.recall (s.currentHistory + 1)
    else if s.historyCount ≠ 0 then s.recall (s.historyCount - 1)
    else s
  else s

def shellLeft (s : Shell) : Shell :=
  if s.curpos ≠ 0 then { s with curpos := s.curpos - 1 } else s

def shellRight (s : Shell) : Shell :=
  if s.curpos < s.position then { s with curpos := s.curpos + 1 } else s

def shellBackspace (s : Shell) : Shell :=
  if s.curpos = 0 then s
  else
    let s := { s with position := s.position - 1, curpos := s.curpos - 1 }
    if s.curpos < s.position then
      { s with
        line := (moveBytes s.line s.curpos (s.curpos + 1) (s.position - s.curpos)).set
          s.position 0 }
    else { s with line := s.line.set s.position 0 }

/-- The end of a line: `msh` says which executor is in use. -/
def shellLineEnd (c : ShellConfig) (msh : Bool) (s : Shell) : Option Executed × Shell :=
  let s := if 0 < c.lines then shellPushHistory c s else s
  let executed :=
    if msh then some (.msh (cString s.line) s.position)
    else if s.position ≠ 0 then some (.finsh (cString (s.line.set s.position 59)))
    else none
  (executed, { s with line := List.replicate c.size 0, position := 0, curpos := 0 })

/-- A normal character. The positions are reset when the line is full, and its bytes are not. -/
def shellInsert (c : ShellConfig) (s : Shell) (ch : UInt8) : Shell :=
  let s := if c.size ≤ s.position then { s with position := 0 } else s
  let line :=
    if s.curpos < s.position then
      (moveBytes s.line (s.curpos + 1) s.curpos (s.position - s.curpos)).set s.curpos ch
    else s.line.set s.position ch
  let s := { s with
    line := line, position := (s.position + 1) % 256, curpos := (s.curpos + 1) % 256 }
  if c.size ≤ s.position then { s with position := 0, curpos := 0 } else s

def shellTab (c : ShellConfig) (s : Shell) : Shell :=
  let line := c.complete s.line
  { s with
    line := line, position := (cText line).length % 256, curpos := (cText line).length % 256 }

/-- What `finsh_thread_entry` does with a character that is no part of an escape sequence. -/
def shellPlain (c : ShellConfig) (msh : Bool) (s : Shell) (ch : UInt8) : Option Executed × Shell :=
  if ch = 0 ∨ ch = 255 then (none, s)
  else if ch = 9 then (none, shellTab c s)
  else if ch = 127 ∨ ch = 8 then (none, shellBackspace s)
  else if ch = 13 ∨ ch = 10 then shellLineEnd c msh s
  else (none, shellInsert c s ch)

/-- The loop of `finsh_thread_entry`, once round. -/
def shellChar (c : ShellConfig) (msh : Bool) (s : Shell) (ch : UInt8) : Option Executed × Shell :=
  if ch = 27 then (none, { s with stat := .specKey })
  else
    match s.stat with
    | .normal => shellPlain c msh s ch
    | .specKey =>
      if ch = 91 then (none, { s with stat := .funcKey })
      else shellPlain c msh { s with stat := .normal } ch
    | .funcKey =>
      let s := { s with stat := .normal }
      if ch = 65 then (none, shellUp c s)
      else if ch = 66 then (none, shellDown c s)
      else if ch = 68 then (none, shellLeft s)
      else if ch = 67 then (none, shellRight s)
      else shellPlain c msh s ch

/-- The characters of a key, the last of which decides what is executed. -/
def shellChars (c : ShellConfig) (msh : Bool) (s : Shell) : List UInt8 → Option Executed × Shell
  | [] => (none, s)
  | [ch] => shellChar c msh s ch
  | ch :: rest => shellChars c msh (shellChar c msh s ch).2 rest

abbrev Printable := { ch : UInt8 // 32 ≤ ch ∧ ch < 127 }

/-- Backspace is 0x7f or 0x08, the end of a line `\r` or `\n`. -/
inductive ShellKey where
  | char (ch : Printable)
  | backspace (del : Bool)
  | up
  | down
  | left
  | right
  | lineEnd (cr msh : Bool)
deriving DecidableEq

def ShellKey.bytes : ShellKey → List UInt8
  | .char ch => [ch.val]
  | .backspace del => [if del then 127 else 8]
  | .up => [27, 91, 65]
  | .down => [27, 91, 66]
  | .right => [27, 91, 67]
  | .left => [27, 91, 68]
  | .lineEnd cr _ => [if cr then 13 else 10]

def ShellKey.msh : ShellKey → Bool
  | .lineEnd _ msh => msh
  | _ => false

/-- What is seen after a key: the bytes of the line from `line_position` on, and what was executed. -/
structure KeySeen where
  rest : List UInt8
  executed : Option Executed
deriving DecidableEq

def shellKey (c : ShellConfig) (s : Shell) (k : ShellKey) : KeySeen × Shell :=
  let (executed, s) := shellChars c k.msh s k.bytes
  (⟨s.line.drop s.position, executed⟩, s)

def shellStart (c : ShellConfig) : Shell :=
  ⟨.normal, List.replicate c.size 0, 0, 0, List.replicate c.lines (List.replicate c.size 0), 0, 0⟩

/-- A text with a cursor, the lines entered before and where in them it is. -/
structure Editor where
  text : List UInt8
  cursor : Nat
  history : List (List UInt8)
  recalled : Nat
deriving DecidableEq

/-- A line that fills the buffer is discarded. -/
def Editor.insert (size : Nat) (e : Editor) (ch : UInt8) : Editor :=
  if e.text.length + 1 < size then
    { e with text := e.text.take e.cursor ++ ch :: e.text.drop e.cursor, cursor := e.cursor + 1 }
  else { e with text := [], cursor := 0 }

def Editor.delete (e : Editor) : Editor :=
  if e.cursor = 0 then e
  else
    { e with
      text := e.text.take (e.cursor - 1) ++ e.text.drop e.cursor, cursor := e.cursor - 1 }

def Editor.bringBack (e : Editor) (i : Nat) : Editor :=
  let text := e.history.getD i []
  { e with text := text, cursor := text.length, recalled := i }

/-- The text joins the history unless it is empty or its last line; the oldest lines go. -/
def Editor.remember (lines : Nat) (e : Editor) : Editor :=
  let history :=
    if e.text = [] ∨ e.history.getLast? = some e.text then e.history
    else (e.history ++ [e.text]).drop (e.history.length + 1 - lines)
  { e with history := history, recalled := history.length }

def Editor.execute (e : Editor) (msh : Bool) : Option Executed :=
  if msh then some (.msh (some e.text) e.text.length)
  else if e.text = [] then none
  else some (.finsh (some (e.text ++ [59])))

def Editor.key (c : ShellConfig) (e : Editor) : ShellKey → Option Executed × Editor
  | .char ch => (none, e.insert c.size ch)
  | .backspace _ => (none, e.delete)
  | .up => (none, if 0 < e.recalled then e.bringBack (e.recalled - 1) else e)
  | .down =>
    (none, if e.history = [] then e
      else e.bringBack (if e.recalled + 1 < e.history.length then e.recalled + 1
        else e.history.length - 1))
  | .left => (none, { e with cursor := e.cursor - 1 })
  | .right => (none, { e with cursor := if e.cursor < e.text.length then e.cursor + 1 else e.cursor })
  | .lineEnd _ msh => (e.execute msh, { e.remember c.lines with text := [], cursor := 0 })

/-- The rest of the line is zero. -/
def editorKey (c : ShellConfig) (e : Editor) (k : ShellKey) : KeySeen × Editor :=
  let (executed, e) := e.key c k
  (⟨List.replicate (c.size - e.text.length) 0, executed⟩, e)

/-- The editor of a shell. -/
def Shell.view (s : Shell) : Editor where
  text := s.line.take s.position
  cursor := s.curpos
  history := (s.history.take s.historyCount).map cText
  recalled := s.currentHistory

/-- After each key the shell is an editor's, with the rest of the line zero, and what was executed is
the editor's text. -/
def ShellEdits (c : ShellConfig) (keys : List ShellKey) : Prop :=
  ∀ n, (runAnswers (shellKey c) (shellStart c) (keys.take n)).1 =
      (runAnswers (editorKey c) ⟨[], 0, [], 0⟩ (keys.take n)).1 ∧
    (runAnswers (shellKey c) (shellStart c) (keys.take n)).2.view =
      (runAnswers (editorKey c) ⟨[], 0, [], 0⟩ (keys.take n)).2

/-- A character does not fill the line, nor the positions' 8 bits, and a line for finsh leaves room
for the ';' and the NUL. -/
def ShellSafe (c : ShellConfig) (s : Shell) : ShellKey → Prop
  | .char _ => s.position + 1 < c.size ∧ s.position < 255
  | .lineEnd _ msh => msh = false → s.position = 0 ∨ s.position + 1 < c.size
  | _ => True

end RTThread
