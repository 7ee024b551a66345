import RTThread.ByteFields
import RTThread.MshSplit

namespace RTThread

def atCmdNameLen : Nat := 16

def atServerRecvBuffLen : Nat := 256

/-- The choices of `AT_CMD_END_MARK`. -/
inductive AtEndMark where
  | crlf | cr | lf
  deriving DecidableEq

def AtEndMark.bytes : AtEndMark → List UInt8
  | .crlf => [13, 10]
  | .cr => [13]
  | .lf => [10]

/-- What a call of a handler leaves in `echo_mode`. -/
abbrev AtHandler := Bool → Bool

/-- `struct at_cmd`; `name` ends within its array, and `at_check_args` asserts that there is an
expression where there is a handler for `setup`. -/
structure AtCmd where
  name : List UInt8
  argsExpr : Option (List UInt8)
  test : Option AtHandler
  query : Option AtHandler
  setup : Option (List UInt8 → AtHandler)
  exec : Option AtHandler
  nameFits : name.length < atCmdNameLen
  exprGiven : setup.isSome → argsExpr.isSome

/-- The handler that a text behind the name asks for. -/
inductive AtRequest where
  | test
  | query
  | setup (args : List UInt8)
  | exec
  deriving DecidableEq

/-- A call of a handler. -/
structure AtCall where
  cmd : AtCmd
  request : AtRequest

/-- The fields of `struct at_server` that `server_parser` uses, `cur_cmd_name`, and the handlers
called so far. What is printed is left out. -/
structure AtServer where
  echoMode : Bool
  recvBuffer : List UInt8
  curRecvLen : Nat
  curCmdName : List UInt8
  calls : List AtCall

def atServerStart (echoMode : Bool) : AtServer :=
  ⟨echoMode, List.replicate atServerRecvBuffLen 0, 0, List.replicate atCmdNameLen 0, []⟩

/-- `AT_CMD_QUESTION_MARK`, `AT_CMD_EQUAL_MARK`, `AT_CMD_CR` or a digit. -/
def endsName (ch : UInt8) : Bool := ch = 63 ∨ ch = 61 ∨ ch = 13 ∨ (48 ≤ ch.toNat ∧ ch.toNat ≤ 57)

/-- `at_cmd_get_name`: the inner `none` is its error, the outer one a write behind `cmd_name`. -/
def atCmdGetName (cmdBuffer cmdName : List UInt8) : Option (Option (List UInt8)) :=
  match cmdBuffer.findIdx? endsName with
  | none => some none
  | some i =>
    if i < cmdName.length then some (some (cmdBuffer.take i ++ [0] ++ cmdName.drop (i + 1))) else none

/-- `rt_strcasecmp` sees letters so. -/
def lowerCase (ch : UInt8) : UInt8 := if 65 ≤ ch.toNat ∧ ch.toNat ≤ 90 then ch + 32 else ch

def sameLetters (a b : List UInt8) : Bool := a.map lowerCase = b.map lowerCase

/-- `at_find_cmd` -/
def atFindCmd (table : List AtCmd) (cmd : List UInt8) : Option AtCmd :=
  table.find? fun entry => sameLetters cmd entry.name

/-- `at_check_args` -/
def atCheckArgs (args argsFormat : List UInt8) : Bool :=
  let leftSqBracketNum := argsFormat.count 91
  let rightSqBracketNum := argsFormat.count 93
  let leftAngleBracketNum := argsFormat.count 60
  let rightAngleBracketNum := argsFormat.count 62
  let commaMarkNum := args.count 44
  ¬ (leftSqBracketNum ≠ rightSqBracketNum ∨ leftAngleBracketNum ≠ rightAngleBracketNum ∨
    leftAngleBracketNum < leftSqBracketNum) ∧
  ¬ (commaMarkNum + 1 < leftAngleBracketNum - leftSqBracketNum ∨ leftAngleBracketNum < commaMarkNum + 1)

/-- `at_cmd_process`: the request it calls a handler for, and what this does; the outer `none` is a
failed assertion. -/
def atCmdProcess (cmd : AtCmd) (args : List UInt8) : Option (Option (AtRequest × AtHandler)) :=
  if byteAt args 0 = 61 ∧ byteAt args 1 = 63 ∧ byteAt args 2 = 13 then
    some (cmd.test.map fun handler => (.test, handler))
  else if byteAt args 0 = 63 ∧ byteAt args 1 = 13 then
    some (cmd.query.map fun handler => (.query, handler))
  else if byteAt args 0 = 61 ∨
      ((48 ≤ (byteAt args 0).toNat ∧ (byteAt args 0).toNat ≤ 57) ∧ byteAt args 1 = 13) then
    match cmd.setup with
    | none => some none
    | some handler =>
      match cmd.argsExpr with
      | none => none
      | some expr => if atCheckArgs args expr then some (some (.setup args, handler args)) else some none
  else if byteAt args 0 = 13 then some (cmd.exec.map fun handler => (.exec, handler))
  else some none

namespace AtServer

/-- `__retry` -/
def retry (s : AtServer) : AtServer :=
  { s with recvBuffer := List.replicate atServerRecvBuffLen 0, curRecvLen := 0 }

/-- The part of the loop of `server_parser` behind the end mark. -/
def runLine (table : List AtCmd) (s : AtServer) (text : List UInt8) : Option AtServer := do
  match ← atCmdGetName text s.curCmdName with
  | none => some s.retry
  | some curCmdName =>
    let s := { s with curCmdName := curCmdName }
    match atFindCmd table (cText curCmdName) with
    | none => some s.retry
    | some cmd =>
      match ← atCmdProcess cmd (text.drop (cText curCmdName).length) with
      | none => some s.retry
      | some (request, handler) =>
        let call : AtCall := ⟨cmd, request⟩
        some { s with echoMode := handler s.echoMode, calls := s.calls ++ [call] }.retry

/-- A turn of the loop of `server_parser`, for a byte other than `ESC_KEY`; `none` is a read or a
write outside an array. -/
def receive (table : List AtCmd) (mark : AtEndMark) (s : AtServer) (ch : UInt8) : Option AtServer :=
  if s.echoMode ∧ (ch = 8 ∨ ch = 127) then
    if s.curRecvLen = 0 then some s
    else if s.curRecvLen - 1 < s.recvBuffer.length then
      some { s with recvBuffer := s.recvBuffer.set (s.curRecvLen - 1) 0, curRecvLen := s.curRecvLen - 1 }
    else none
  else if s.recvBuffer.length ≤ s.curRecvLen then none
  else do
    let s := { s with recvBuffer := s.recvBuffer.set s.curRecvLen ch, curRecvLen := s.curRecvLen + 1 }
    let text ← cString s.recvBuffer
    if mark.bytes <:+: text then s.runLine table text else some s

end AtServer

/-- A byte of the name of a command that `at_cmd_get_name` goes past. -/
def isNameByte (ch : UInt8) : Bool := 32 ≤ ch.toNat ∧ ch.toNat < 127 ∧ endsName ch = false

/-- The bytes of arguments: no end of a line, no key that edits it. -/
def isArgsByte (ch : UInt8) : Bool := ch ≠ 0 ∧ ch ≠ 13 ∧ ch ≠ 10 ∧ ch ≠ 8 ∧ ch ≠ 127

/-- A line that calls a handler: the name of a command in letters of any case, what selects the
handler, and the end mark. -/
inductive AtLine (table : List AtCmd) (mark : AtEndMark) : List UInt8 → AtCall → Prop where
  | test {name cmd} (hname : atFindCmd table name = some cmd) (h : cmd.test.isSome) :
    AtLine table mark (name ++ ([61, 63] ++ mark.bytes)) ⟨cmd, .test⟩
  | query {name cmd} (hname : atFindCmd table name = some cmd) (h : cmd.query.isSome) :
    AtLine table mark (name ++ ([63] ++ mark.bytes)) ⟨cmd, .query⟩
  | exec {name cmd} (hname : atFindCmd table name = some cmd) (h : cmd.exec.isSome) :
    AtLine table mark (name ++ mark.bytes) ⟨cmd, .exec⟩
  | digit {name cmd d expr} (hname : atFindCmd table name = some cmd) (h : cmd.setup.isSome)
    (hd : 48 ≤ d.toNat ∧ d.toNat ≤ 57) (hexpr : cmd.argsExpr = some expr)
    (hcheck : atCheckArgs ([d] ++ mark.bytes) expr) :
    AtLine table mark (name ++ ([d] ++ mark.bytes)) ⟨cmd, .setup ([d] ++ mark.bytes)⟩
  | setup {name cmd args expr} (hname : atFindCmd table name = some cmd) (h : cmd.setup.isSome)
    (hargs : ∀ ch ∈ args, isArgsByte ch) (htest : args ≠ [63]) (hexpr : cmd.argsExpr = some expr)
    (hcheck : atCheckArgs (61 :: args ++ mark.bytes) expr) :
    AtLine table mark (name ++ (61 :: args ++ mark.bytes)) ⟨cmd, .setup (61 :: args ++ mark.bytes)⟩

/-- The parser stays in its arrays on the stream, and each line of the stream that calls a handler
and begins at its start or behind an end mark adds this call. -/
def ServerRight (table : List AtCmd) (mark : AtEndMark) (start : AtServer) (stream : List UInt8) : Prop :=
  (runFrom (AtServer.receive table mark) stream start).isSome ∧
  ∀ before line call, before ++ line <+: stream → (before = [] ∨ mark.bytes <:+ before) →
    AtLine table mark line call → ∃ s s', runFrom (AtServer.receive table mark) before start = some s ∧
      runFrom (AtServer.receive table mark) (before ++ line) start = some s' ∧ s'.calls = s.calls ++ [call]

/-- The length of the name that `at_cmd_get_name` finds in a line. -/
def lineNameLength (text : List UInt8) : Nat := (text.findIdx? endsName).getD 0

/-- A byte that the parser can take: it edits the line, or it is no NUL, it leaves room for a NUL in
the array, and if it completes a line then the name fits its array. -/
def ByteFits (mark : AtEndMark) (s : AtServer) (ch : UInt8) : Prop :=
  (s.echoMode = true ∧ (ch = 8 ∨ ch = 127)) ∨
  (ch ≠ 0 ∧ s.curRecvLen + 1 < atServerRecvBuffLen ∧
    (mark.bytes <:+: cText s.recvBuffer ++ [ch] → lineNameLength (cText s.recvBuffer ++ [ch]) < atCmdNameLen))

instance (mark : AtEndMark) (s : AtServer) (ch : UInt8) : Decidable (ByteFits mark s ch) := by
  unfold ByteFits
  infer_instance

/-- The names of the table can be told from what follows them, and so can a line from the next one;
each byte of the stream fits. -/
structure StreamFits (table : List AtCmd) (mark : AtEndMark) (start : AtServer) (stream : List UInt8) : Prop where
  names : ∀ cmd ∈ table, ∀ ch ∈ cmd.name, isNameByte ch
  ending : mark ≠ .lf
  bytes : RunMeets (AtServer.receive table mark) (ByteFits mark) stream start

section
variable {table : List AtCmd} {mark : AtEndMark} {s s' : AtServer} {p text : List UInt8} {ch : UInt8}

/-- Between two bytes `p` is what the parser has of a line. -/
structure AtPending (mark : AtEndMark) (s : AtServer) (p : List UInt8) : Prop where
  buffer : s.recvBuffer = p ++ List.replicate (atServerRecvBuffLen - p.length) 0
  length : s.curRecvLen = p.length
  room : p.length < atServerRecvBuffLen
  clean : 0 ∉ p
  open_ : ¬ mark.bytes <:+: p
  name : s.curCmdName.length = atCmdNameLen

theorem atPending_start (mark : AtEndMark) (echoMode : Bool) : AtPending mark (atServerStart echoMode) [] where
  buffer := rfl
  length := rfl
  room := by decide
  clean := by simp
  open_ := by cases mark <;> decide
  name := rfl

theorem mark_not_nil (mark : AtEndMark) : ¬ mark.bytes <:+: [] := by cases mark <;> decide

theorem AtPending.cText (h : AtPending mark s p) : cText s.recvBuffer = p := by
  obtain ⟨n, hn⟩ : ∃ n, atServerRecvBuffLen - p.length = n + 1 :=
    ⟨atServerRecvBuffLen - p.length - 1, by have := h.room; omega⟩
  rw [h.buffer, hn, List.replicate_succ]
  exact cText_stop h.clean

/-- The array when a byte has been put behind the pending text. -/
theorem AtPending.put (h : AtPending mark s p) (hch : ch ≠ 0) (hroom : p.length + 1 < atServerRecvBuffLen) :
    s.recvBuffer.set s.curRecvLen ch =
      (p ++ [ch]) ++ List.replicate (atServerRecvBuffLen - (p ++ [ch]).length) 0 ∧
    cString (s.recvBuffer.set s.curRecvLen ch) = some (p ++ [ch]) := by
  have hlen : (p ++ [ch]).length = p.length + 1 := by simp
  obtain ⟨n, hn⟩ : ∃ n, atServerRecvBuffLen - p.length = n + 2 :=
    ⟨atServerRecvBuffLen - p.length - 2, by omega⟩
  have hn' : atServerRecvBuffLen - (p ++ [ch]).length = n + 1 := by omega
  have hset : s.recvBuffer.set s.curRecvLen ch = (p ++ [ch]) ++ List.replicate (n + 1) 0 := by
    rw [h.buffer, h.length, hn, List.replicate_succ, List.set_append_right _ _ (Nat.le_refl _), Nat.sub_self,
      List.set_cons_zero]
    simp
  rw [hn', hset]
  refine ⟨rfl, ?_⟩
  have hclean : 0 ∉ p ++ [ch] := by
    rw [List.mem_append, List.mem_singleton]
    exact not_or.mpr ⟨h.clean, Ne.symm hch⟩
  unfold cString
  rw [if_pos (by simp), List.replicate_succ, cText_stop hclean]

/-- A backspace takes the last byte of the pending text away. -/
theorem AtPending.edit (h : AtPending mark s p) (table : List AtCmd) (hedit : s.echoMode = true ∧ (ch = 8 ∨ ch = 127)) :
    ∃ s', s.receive table mark ch = some s' ∧ AtPending mark s' p.dropLast ∧ s'.calls = s.calls := by
  unfold AtServer.receive
  rw [if_pos hedit]
  have hlength := h.length
  have hroom := h.room
  rcases List.eq_nil_or_concat' p with rfl | ⟨q, c, rfl⟩
  · have hzero : s.curRecvLen = 0 := hlength
    rw [if_pos hzero]
    exact ⟨s, rfl, h, rfl⟩
  · rw [List.length_append, List.length_singleton] at hlength hroom
    have hsize : s.recvBuffer.length = atServerRecvBuffLen := by
      rw [h.buffer, List.length_append, List.length_replicate, List.length_append, List.length_singleton]
      omega
    rw [if_neg (by omega), if_pos (by omega), List.dropLast_concat]
    refine ⟨_, rfl, ⟨?_, ?_, ?_, ?_, ?_, h.name⟩, rfl⟩
    · show s.recvBuffer.set (s.curRecvLen - 1) 0 = _
      have hn : atServerRecvBuffLen - q.length = (atServerRecvBuffLen - (q ++ [c]).length) + 1 := by
        rw [List.length_append, List.length_singleton]
        omega
      have hplace : s.curRecvLen - 1 = q.length := by omega
      rw [h.buffer, hplace, List.append_assoc, List.set_append_right _ _ (Nat.le_refl _), Nat.sub_self, hn,
        List.replicate_succ]
      rfl
    · show s.curRecvLen - 1 = q.length
      omega
    · omega
    · exact fun hmem => h.clean (List.mem_append_left _ hmem)
    · exact fun hmark => h.open_ (hmark.trans (List.prefix_append q [c]).isInfix)

/-- A byte that completes no line is kept. -/
theorem AtPending.grow (h : AtPending mark s p) (table : List AtCmd) (hkey : ¬ (s.echoMode = true ∧ (ch = 8 ∨ ch = 127)))
    (hch : ch ≠ 0) (hroom : p.length + 1 < atServerRecvBuffLen) (hopen : ¬ mark.bytes <:+: p ++ [ch]) :
    ∃ s', s.receive table mark ch = some s' ∧ AtPending mark s' (p ++ [ch]) ∧ s'.calls = s.calls := by
  obtain ⟨hbuffer, htext⟩ := h.put hch hroom
  have hlength := h.length
  have hsize : s.recvBuffer.length = atServerRecvBuffLen := by
    rw [h.buffer, List.length_append, List.length_replicate]
    omega
  unfold AtServer.receive
  rw [if_neg hkey, if_neg (by omega)]
  simp only [htext, Option.bind_eq_bind, Option.bind_some, if_neg hopen]
  refine ⟨_, rfl, ⟨hbuffer, ?_, ?_, ?_, hopen, h.name⟩, rfl⟩
  · show s.curRecvLen + 1 = (p ++ [ch]).length
    rw [hlength, List.length_append, List.length_singleton]
  · rw [List.length_append, List.length_singleton]
    exact hroom
  · rw [List.mem_append, List.mem_singleton]
    exact not_or.mpr ⟨h.clean, Ne.symm hch⟩

/-- A byte that completes a line has the line run. -/
theorem AtPending.line (h : AtPending mark s p) (table : List AtCmd) (hkey : ¬ (s.echoMode = true ∧ (ch = 8 ∨ ch = 127)))
    (hch : ch ≠ 0) (hroom : p.length + 1 < atServerRecvBuffLen) (hmark : mark.bytes <:+: p ++ [ch]) :
    ∃ s1 : AtServer, s.receive table mark ch = s1.runLine table (p ++ [ch]) ∧ s1.curCmdName.length = atCmdNameLen ∧
      s1.calls = s.calls := by
  obtain ⟨-, htext⟩ := h.put hch hroom
  have hlength := h.length
  have hsize : s.recvBuffer.length = atServerRecvBuffLen := by
    rw [h.buffer, List.length_append, List.length_replicate]
    omega
  unfold AtServer.receive
  rw [if_neg hkey, if_neg (by omega)]
  simp only [htext, Option.bind_eq_bind, Option.bind_some, if_pos hmark]
  exact ⟨_, rfl, h.name, rfl⟩

theorem atPending_retry (h : s.curCmdName.length = atCmdNameLen) : AtPending mark s.retry [] where
  buffer := rfl
  length := rfl
  room := by decide
  clean := by simp
  open_ := mark_not_nil mark
  name := h

/-- A name that fits is copied, and its array keeps its size. -/
theorem atCmdGetName_fits {cmdName : List UInt8} (hname : cmdName.length = atCmdNameLen)
    (hfits : lineNameLength text < atCmdNameLen) :
    atCmdGetName text cmdName = some none ∨
      ∃ name, atCmdGetName text cmdName = some (some name) ∧ name.length = atCmdNameLen := by
  unfold atCmdGetName
  unfold lineNameLength at hfits
  cases hfind : text.findIdx? endsName with
  | none => exact .inl rfl
  | some i =>
    rw [hfind, Option.getD_some] at hfits
    obtain ⟨hlt, -⟩ := List.findIdx?_eq_some_iff_getElem.mp hfind
    simp only
    rw [if_pos (by omega)]
    refine .inr ⟨_, rfl, ?_⟩
    rw [List.length_append, List.length_append, List.length_take, List.length_drop, List.length_singleton]
    omega

/-- No table has a handler for `setup` whose arguments cannot be checked. -/
theorem atCmdProcess_returns (cmd : AtCmd) (args : List UInt8) : (atCmdProcess cmd args).isSome := by
  unfold atCmdProcess
  split
  · rfl
  · split
    · rfl
    · split
      · cases hsetup : cmd.setup with
        | none => rfl
        | some handler =>
          obtain ⟨expr, hexpr⟩ := Option.isSome_iff_exists.mp (cmd.exprGiven (by rw [hsetup]; rfl))
          simp only [hexpr]
          split
          · rfl
          · rfl
      · split
        · rfl
        · rfl

/-- Whatever the line holds, the parser begins anew behind it. -/
theorem runLine_fresh (table : List AtCmd) (hname : s.curCmdName.length = atCmdNameLen) (hfits : lineNameLength text < atCmdNameLen) :
    ∃ s', s.runLine table text = some s' ∧ ∀ mark, AtPending mark s' [] := by
  unfold AtServer.runLine
  rcases atCmdGetName_fits hname hfits with hget | ⟨name, hget, hlen⟩
  · simp only [hget, Option.bind_eq_bind, Option.bind_some]
    exact ⟨_, rfl, fun _ => atPending_retry hname⟩
  · simp only [hget, Option.bind_eq_bind, Option.bind_some]
    split
    next => exact ⟨_, rfl, fun _ => atPending_retry hlen⟩
    next cmd hfind =>
      obtain ⟨answer, hanswer⟩ := Option.isSome_iff_exists.mp
        (atCmdProcess_returns cmd (text.drop (RTThread.cText name).length))
      simp only [hanswer, Option.bind_some]
      cases answer with
      | none => exact ⟨_, rfl, fun _ => atPending_retry hlen⟩
      | some call => exact ⟨_, rfl, fun _ => atPending_retry hlen⟩

/-- A byte that fits keeps the parser in its arrays. -/
theorem AtPending.step (h : AtPending mark s p) (table : List AtCmd) (hfits : ByteFits mark s ch) :
    ∃ s' p', s.receive table mark ch = some s' ∧ AtPending mark s' p' := by
  by_cases hkey : s.echoMode = true ∧ (ch = 8 ∨ ch = 127)
  · obtain ⟨s', hrun, hs', -⟩ := h.edit table hkey
    exact ⟨s', p.dropLast, hrun, hs'⟩
  · obtain ⟨hch, hroom, hname⟩ := hfits.resolve_left hkey
    rw [h.length] at hroom
    rw [h.cText] at hname
    by_cases hmark : mark.bytes <:+: p ++ [ch]
    · obtain ⟨s1, hrun, hs1, -⟩ := h.line table hkey hch hroom hmark
      obtain ⟨s', hline, hs'⟩ := runLine_fresh table hs1 (hname hmark)
      exact ⟨s', [], hrun.trans hline, hs' mark⟩
    · obtain ⟨s', hrun, hs', -⟩ := h.grow table hkey hch hroom hmark
      exact ⟨s', p ++ [ch], hrun, hs'⟩

theorem AtPending.run {stream : List UInt8} (h : AtPending mark s p) (table : List AtCmd)
    (hfits : RunMeets (AtServer.receive table mark) (ByteFits mark) stream s) :
    ∃ s' p', runFrom (AtServer.receive table mark) stream s = some s' ∧ AtPending mark s' p' := by
  induction stream generalizing s p with
  | nil => exact ⟨s, p, rfl, h⟩
  | cons ch stream ih =>
    obtain ⟨s1, p1, hstep, h1⟩ := h.step table hfits.1
    obtain ⟨s', p', hrun, hs'⟩ := ih h1 (hfits.2 s1 hstep)
    exact ⟨s', p', Option.bind_eq_some_iff.mpr ⟨s1, hstep, hrun⟩, hs'⟩

def AtEndMark.last : AtEndMark → UInt8
  | .crlf => 10
  | .cr => 13
  | .lf => 10

/-- Without its last byte there is no end mark. -/
theorem no_mark_without_last (h : mark.last ∉ text) : ¬ mark.bytes <:+: text := by
  intro hmark
  have hlast : mark.last ∈ mark.bytes := by cases mark <;> decide
  exact h (hmark.subset hlast)

theorem mark_keys (mark : AtEndMark) : ∀ c ∈ mark.bytes, c ≠ 8 ∧ c ≠ 127 := by
  cases mark <;> simp [AtEndMark.bytes]

theorem mark_split (mark : AtEndMark) : mark.bytes = mark.bytes.dropLast ++ [mark.last] := by cases mark <;> rfl

/-- Bytes that edit nothing and complete no line are kept. -/
theorem AtPending.feed {q : List UInt8} (h : AtPending mark s p) (table : List AtCmd)
    (hkeys : ∀ ch ∈ q, ch ≠ 8 ∧ ch ≠ 127) (hopen : ¬ mark.bytes <:+: p ++ q)
    (hfits : RunMeets (AtServer.receive table mark) (ByteFits mark) q s) :
    ∃ s', runFrom (AtServer.receive table mark) q s = some s' ∧ AtPending mark s' (p ++ q) ∧
      s'.calls = s.calls := by
  induction q generalizing s p with
  | nil => exact ⟨s, rfl, by rwa [List.append_nil], rfl⟩
  | cons ch q ih =>
    obtain ⟨h8, h127⟩ := hkeys ch List.mem_cons_self
    have hkey : ¬ (s.echoMode = true ∧ (ch = 8 ∨ ch = 127)) := fun hk => hk.2.elim h8 h127
    have hsplit : p ++ ch :: q = p ++ [ch] ++ q := by simp
    rw [hsplit] at hopen ⊢
    obtain ⟨hch, hroom, -⟩ := hfits.1.resolve_left hkey
    rw [h.length] at hroom
    have hopen1 : ¬ mark.bytes <:+: p ++ [ch] :=
      fun hmark => hopen (hmark.trans (List.prefix_append _ _).isInfix)
    obtain ⟨s1, hstep, h1, hcalls⟩ := h.grow table hkey hch hroom hopen1
    obtain ⟨s', hrun, hs', hcalls'⟩ := ih h1 (fun c hc => hkeys c (List.mem_cons_of_mem _ hc)) hopen
      (hfits.2 s1 hstep)
    exact ⟨s', Option.bind_eq_some_iff.mpr ⟨s1, hstep, hrun⟩, hs', hcalls'.trans hcalls⟩

/-- A line without editing keys that ends with its first end mark is run as it is. -/
theorem AtPending.feedLine {q : List UInt8} (h : AtPending mark s p) (table : List AtCmd)
    (hkeys : ∀ c ∈ q ++ [ch], c ≠ 8 ∧ c ≠ 127) (hopen : ¬ mark.bytes <:+: p ++ q)
    (hmark : mark.bytes <:+: p ++ (q ++ [ch]))
    (hfits : RunMeets (AtServer.receive table mark) (ByteFits mark) (q ++ [ch]) s) :
    ∃ s1 : AtServer, runFrom (AtServer.receive table mark) (q ++ [ch]) s =
        s1.runLine table (p ++ (q ++ [ch])) ∧
      s1.curCmdName.length = atCmdNameLen ∧ s1.calls = s.calls ∧
      lineNameLength (p ++ (q ++ [ch])) < atCmdNameLen := by
  obtain ⟨hfront, hlast⟩ := runMeets_append_iff.mp hfits
  obtain ⟨s1, hrun, h1, hcalls⟩ := h.feed table (fun c hc => hkeys c (List.mem_append_left _ hc)) hopen hfront
  obtain ⟨h8, h127⟩ := hkeys ch (by simp)
  have hkey : ¬ (s1.echoMode = true ∧ (ch = 8 ∨ ch = 127)) := fun hk => hk.2.elim h8 h127
  obtain ⟨hch, hroom, hname⟩ := (hlast s1 hrun).1.resolve_left hkey
  rw [h1.length] at hroom
  rw [← List.append_assoc] at hmark ⊢
  rw [h1.cText] at hname
  obtain ⟨s2, hstep, h2, hcalls2⟩ := h1.line table hkey hch hroom hmark
  refine ⟨s2, ?_, h2, hcalls2.trans hcalls, hname hmark⟩
  rw [runFrom_append, hrun, ← hstep]
  show (s1.receive table mark ch).bind some = _
  exact Option.bind_fun_some _

/-- Right behind an end mark the parser begins a line. -/
theorem AtPending.ends (h : AtPending mark s p) (table : List AtCmd)
    (hfits : RunMeets (AtServer.receive table mark) (ByteFits mark) mark.bytes s) :
    ∃ s', runFrom (AtServer.receive table mark) mark.bytes s = some s' ∧ AtPending mark s' [] := by
  have hsplit := mark_split mark
  have hkeys := mark_keys mark
  have hopen : ¬ mark.bytes <:+: p ++ mark.bytes.dropLast := by
    have hp := h.open_
    cases mark with
    | crlf =>
      rintro ⟨front, back, heq⟩
      rcases List.eq_nil_or_concat' back with rfl | ⟨back, c, rfl⟩
      · have hlast := congrArg List.getLast? heq
        simp [AtEndMark.bytes] at hlast
      · apply hp
        have hwhole : front ++ [13, 10] ++ back ++ [c] = p ++ [13] := by
          rw [List.append_assoc _ back]
          exact heq
        obtain ⟨hfront, -⟩ := List.append_inj' hwhole rfl
        exact ⟨front, back, hfront⟩
    | cr => simpa [AtEndMark.bytes] using hp
    | lf => simpa [AtEndMark.bytes] using hp
  rw [hsplit] at hkeys hfits
  obtain ⟨s1, hrun, h1, -, hname⟩ := h.feedLine table hkeys hopen
    (by rw [← hsplit]; exact (List.suffix_append p _).isInfix) hfits
  obtain ⟨s', hline, hs'⟩ := runLine_fresh table h1 hname
  refine ⟨s', ?_, hs' mark⟩
  rw [hsplit]
  exact hrun.trans hline

/-- What the parser has read before a line is forgotten. -/
theorem AtPending.before {before : List UInt8} (h : AtPending mark s []) (table : List AtCmd)
    (hbefore : before = [] ∨ mark.bytes <:+ before)
    (hfits : RunMeets (AtServer.receive table mark) (ByteFits mark) before s) :
    ∃ s', runFrom (AtServer.receive table mark) before s = some s' ∧ AtPending mark s' [] := by
  rcases hbefore with rfl | ⟨front, rfl⟩
  · exact ⟨s, rfl, h⟩
  · obtain ⟨hfront, hlast⟩ := runMeets_append_iff.mp hfits
    obtain ⟨s1, p1, hrun, h1⟩ := h.run table hfront
    obtain ⟨s', hmark, hs'⟩ := h1.ends table (hlast s1 hrun)
    exact ⟨s', by rw [runFrom_append, hrun]; exact hmark, hs'⟩

set_option maxRecDepth 4000 in
theorem isNameByte_lowerCase (ch : UInt8) : isNameByte (lowerCase ch) = isNameByte ch := by
  revert ch
  apply forall_byte
  decide

/-- A name as it is typed is made of the same kind of bytes as in the table, and is as long. -/
theorem typed_name {name : List UInt8} {cmd : AtCmd} (hfind : atFindCmd table name = some cmd)
    (hnames : ∀ cmd ∈ table, ∀ ch ∈ cmd.name, isNameByte ch) :
    (∀ ch ∈ name, isNameByte ch = true) ∧ name.length < atCmdNameLen := by
  have hsame : name.map lowerCase = cmd.name.map lowerCase := by
    have hfound := List.find?_some hfind
    exact of_decide_eq_true hfound
  constructor
  · intro ch hch
    have hmem : lowerCase ch ∈ cmd.name.map lowerCase := by
      rw [← hsame]
      exact List.mem_map_of_mem hch
    obtain ⟨c, hc, heq⟩ := List.mem_map.mp hmem
    have hbyte := hnames cmd (List.mem_of_find?_eq_some hfind) c hc
    rw [← isNameByte_lowerCase, ← heq, isNameByte_lowerCase]
    exact hbyte
  · have hlen := congrArg List.length hsame
    rw [List.length_map, List.length_map] at hlen
    rw [hlen]
    exact cmd.nameFits

theorem nameByte_facts (h : isNameByte ch = true) :
    endsName ch = false ∧ ch ≠ 0 ∧ ch ≠ 8 ∧ ch ≠ 127 ∧ ch ≠ 10 ∧ ch ≠ 13 := by
  unfold isNameByte at h
  obtain ⟨hlow, hhigh, hends⟩ := of_decide_eq_true h
  refine ⟨hends, ?_, ?_, ?_, ?_, ?_⟩
  all_goals
    rintro rfl
    revert hlow hhigh
    decide

/-- The parser calls the handler that `at_cmd_process` finds for what is behind the name. -/
theorem runLine_calls {name tail : List UInt8} {cmd : AtCmd} {request : AtRequest} {handler : AtHandler}
    (hsize : s.curCmdName.length = atCmdNameLen) (hfind : atFindCmd table name = some cmd)
    (hbytes : ∀ ch ∈ name, isNameByte ch = true) (hlen : name.length < atCmdNameLen)
    (hdelim : ∃ c, tail.head? = some c ∧ endsName c = true)
    (hprocess : atCmdProcess cmd tail = some (some (request, handler))) :
    ∃ s', s.runLine table (name ++ tail) = some s' ∧ s'.calls = s.calls ++ [⟨cmd, request⟩] := by
  obtain ⟨c, hhead, hc⟩ := hdelim
  obtain ⟨rest, rfl⟩ : ∃ rest, tail = c :: rest := by
    cases tail with
    | nil => cases hhead
    | cons d rest =>
      obtain rfl := Option.some.inj hhead
      exact ⟨rest, rfl⟩
  have hindex : (name ++ c :: rest).findIdx? endsName = some name.length := by
    rw [List.findIdx?_append, List.findIdx?_eq_none_iff.mpr fun b hb => (nameByte_facts (hbytes b hb)).1]
    simp [List.findIdx?_cons, hc]
  have htake : (name ++ c :: rest).take name.length = name := List.take_left
  have hdrop : (name ++ c :: rest).drop name.length = c :: rest := List.drop_left
  have hget : atCmdGetName (name ++ c :: rest) s.curCmdName =
      some (some (name ++ [0] ++ s.curCmdName.drop (name.length + 1))) := by
    unfold atCmdGetName
    rw [hindex]
    simp only
    rw [if_pos (by omega), htake]
  have htext : RTThread.cText (name ++ [0] ++ s.curCmdName.drop (name.length + 1)) = name := by
    rw [List.append_assoc]
    exact cText_stop fun hzero => (nameByte_facts (hbytes 0 hzero)).2.1 rfl
  unfold AtServer.runLine
  simp only [hget, Option.bind_eq_bind, Option.bind_some, htext, hfind, hdrop, hprocess]
  exact ⟨_, rfl, rfl⟩

theorem mark_cr (h : mark ≠ .lf) : ∃ rest, mark.bytes = 13 :: rest := by
  cases mark with
  | crlf => exact ⟨[10], rfl⟩
  | cr => exact ⟨[], rfl⟩
  | lf => exact absurd rfl h

/-- What stands behind the name in a line that calls a handler. -/
structure LineTail (mark : AtEndMark) (cmd : AtCmd) (request : AtRequest) (selector : List UInt8) : Prop where
  bytes : ∀ ch ∈ selector, isArgsByte ch = true
  delimiter : ∃ c, (selector ++ mark.bytes).head? = some c ∧ endsName c = true
  process : ∃ handler, atCmdProcess cmd (selector ++ mark.bytes) = some (some (request, handler))

set_option maxRecDepth 4000 in
theorem digit_facts (h : 48 ≤ ch.toNat ∧ ch.toNat ≤ 57) :
    ch ≠ 61 ∧ ch ≠ 63 ∧ isArgsByte ch = true ∧ endsName ch = true := by
  revert ch
  apply forall_byte
  decide

/-- The texts behind a name select the handlers that they are meant for. -/
theorem AtLine.tail {line : List UInt8} {call : AtCall} (hmark : mark ≠ .lf) (h : AtLine table mark line call) :
    ∃ name selector, line = name ++ (selector ++ mark.bytes) ∧ atFindCmd table name = some call.cmd ∧
      LineTail mark call.cmd call.request selector := by
  obtain ⟨rest, hrest⟩ := mark_cr hmark
  cases h with
  | @test name cmd hname h =>
    obtain ⟨handler, hhandler⟩ := Option.isSome_iff_exists.mp h
    refine ⟨name, [61, 63], rfl, hname, by simp [isArgsByte], ⟨61, rfl, rfl⟩, handler, ?_⟩
    rw [hrest]
    simp [atCmdProcess, byteAt, hhandler]
  | @query name cmd hname h =>
    obtain ⟨handler, hhandler⟩ := Option.isSome_iff_exists.mp h
    refine ⟨name, [63], rfl, hname, by simp [isArgsByte], ⟨63, rfl, rfl⟩, handler, ?_⟩
    rw [hrest]
    simp [atCmdProcess, byteAt, hhandler]
  | @exec name cmd hname h =>
    obtain ⟨handler, hhandler⟩ := Option.isSome_iff_exists.mp h
    refine ⟨name, [], rfl, hname, by simp, ⟨13, by rw [hrest]; rfl, rfl⟩, handler, ?_⟩
    rw [hrest]
    simp [atCmdProcess, byteAt, hhandler]
  | @digit name cmd d expr hname h hd hexpr hcheck =>
    obtain ⟨handler, hhandler⟩ := Option.isSome_iff_exists.mp h
    obtain ⟨heq, hquestion, hargs, hends⟩ := digit_facts hd
    refine ⟨name, [d], rfl, hname, by simpa using hargs, ⟨d, rfl, hends⟩, handler ([d] ++ mark.bytes), ?_⟩
    have hzero : byteAt ([d] ++ mark.bytes) 0 = d := rfl
    have hone : byteAt ([d] ++ mark.bytes) 1 = 13 := by rw [hrest]; rfl
    unfold atCmdProcess
    rw [hzero, hone, if_neg (fun hc => heq hc.1), if_neg (fun hc => hquestion hc.1), if_pos (.inr ⟨hd, rfl⟩)]
    simp only [hhandler, hexpr, hcheck, if_true]
  | @setup name cmd args expr hname h hargs htest hexpr hcheck =>
    obtain ⟨handler, hhandler⟩ := Option.isSome_iff_exists.mp h
    refine ⟨name, 61 :: args, rfl, hname, ?_, ⟨61, rfl, rfl⟩, handler (61 :: args ++ mark.bytes), ?_⟩
    · intro ch hch
      rcases List.mem_cons.mp hch with rfl | hch
      · decide
      · exact hargs ch hch
    · have hnotest : ¬ (byteAt (61 :: args ++ mark.bytes) 1 = 63 ∧ byteAt (61 :: args ++ mark.bytes) 2 = 13) := by
        rw [hrest]
        rintro ⟨hone, htwo⟩
        match args, hargs, htest with
        | [], _, _ => exact absurd (show (13 : UInt8) = 63 from hone) (by decide)
        | [b], _, htest => exact htest (by rw [show b = 63 from hone])
        | b :: c :: args, hargs, _ =>
          have hc : c = 13 := htwo
          have := hargs c (by simp)
          rw [hc] at this
          exact absurd this (by decide)
      have hzero : byteAt (61 :: args ++ mark.bytes) 0 = 61 := rfl
      unfold atCmdProcess
      rw [if_neg (fun hc => hnotest hc.2), hzero, if_neg (fun hc => absurd hc.1 (by decide)), if_pos (.inl rfl)]
      simp only [hhandler, hexpr, hcheck, if_true]

/-- A line that calls a handler, fed to a parser that begins a line. -/
theorem AtPending.calls {line : List UInt8} {call : AtCall} (h : AtPending mark s [])
    (hnames : ∀ cmd ∈ table, ∀ ch ∈ cmd.name, isNameByte ch) (hmark : mark ≠ .lf)
    (hline : AtLine table mark line call)
    (hfits : RunMeets (AtServer.receive table mark) (ByteFits mark) line s) :
    ∃ s', runFrom (AtServer.receive table mark) line s = some s' ∧ s'.calls = s.calls ++ [call] := by
  obtain ⟨name, selector, rfl, hfind, htail⟩ := hline.tail hmark
  obtain ⟨hbytes, hlen⟩ := typed_name hfind hnames
  obtain ⟨handler, hprocess⟩ := htail.process
  have hsplit := mark_split mark
  have hwhole : name ++ (selector ++ mark.bytes) =
      (name ++ (selector ++ mark.bytes.dropLast)) ++ [mark.last] := by
    conv_lhs => rw [hsplit]
    simp only [List.append_assoc]
  have hargs : ∀ {c}, c ∈ selector → c ≠ 0 ∧ c ≠ 13 ∧ c ≠ 10 ∧ c ≠ 8 ∧ c ≠ 127 :=
    fun hc => of_decide_eq_true (htail.bytes _ hc)
  have hkeys : ∀ c ∈ name ++ (selector ++ mark.bytes), c ≠ 8 ∧ c ≠ 127 := by
    intro c hc
    rcases List.mem_append.mp hc with hc | hc
    · obtain ⟨-, -, h8, h127, -⟩ := nameByte_facts (hbytes c hc)
      exact ⟨h8, h127⟩
    · rcases List.mem_append.mp hc with hc | hc
      · exact (hargs hc).2.2.2
      · exact mark_keys mark c hc
  have hopen : ¬ mark.bytes <:+: [] ++ (name ++ (selector ++ mark.bytes.dropLast)) := by
    apply no_mark_without_last
    rw [List.nil_append, List.mem_append, List.mem_append]
    rintro (hc | hc | hc)
    · obtain ⟨-, -, -, -, h10, h13⟩ := nameByte_facts (hbytes _ hc)
      cases mark with
      | crlf => exact h10 rfl
      | cr => exact h13 rfl
      | lf => exact h10 rfl
    · obtain ⟨-, h13, h10, -⟩ := hargs hc
      cases mark with
      | crlf => exact h10 rfl
      | cr => exact h13 rfl
      | lf => exact h10 rfl
    · revert hc
      cases mark <;> decide
  have hclosed : mark.bytes <:+: [] ++ ((name ++ (selector ++ mark.bytes.dropLast)) ++ [mark.last]) := by
    rw [← hwhole, List.nil_append, ← List.append_assoc]
    exact (List.suffix_append _ _).isInfix
  rw [hwhole] at hkeys hfits
  obtain ⟨s1, hrun, h1, hcalls, -⟩ := h.feedLine table hkeys hopen hclosed hfits
  rw [List.nil_append, ← hwhole] at hrun
  obtain ⟨s', hs', hcall⟩ := runLine_calls h1 hfind hbytes hlen htail.delimiter hprocess
  exact ⟨s', hrun.trans hs', by rw [hcall, hcalls]⟩

end

/-- On a stream that fits the parser stays in its arrays and every line of a command calls its handler. -/
theorem at_server_resyncs (table : List AtCmd) (mark : AtEndMark) (echoMode : Bool) (stream : List UInt8)
    (h : StreamFits table mark (atServerStart echoMode) stream) :
    ServerRight table mark (atServerStart echoMode) stream := by
  have hstart := atPending_start mark echoMode
  constructor
  · obtain ⟨s', -, hrun, -⟩ := hstart.run table h.bytes
    rw [hrun]
    rfl
  · rintro before line call ⟨rest, rfl⟩ hbefore hline
    obtain ⟨hlines, -⟩ := runMeets_append_iff.mp h.bytes
    obtain ⟨hfront, hlast⟩ := runMeets_append_iff.mp hlines
    obtain ⟨s, hrun, hs⟩ := hstart.before table hbefore hfront
    obtain ⟨s', hrun', hcalls⟩ := hs.calls h.names h.ending hline (hlast s hrun)
    exact ⟨s, s', hrun, by rw [runFrom_append, hrun]; exact hrun', hcalls⟩

/-- The command `AT`, as the base commands export it. -/
def atTable : List AtCmd :=
  [⟨[65, 84], none, none, none, none, some fun echoMode => echoMode, by decide, by decide⟩]

theorem atCommand_resyncs : ServerRight atTable .crlf (atServerStart true) [120, 13, 10, 97, 116, 13, 10] :=
  at_server_resyncs atTable .crlf true _ ⟨by decide +kernel, by decide, by decide +kernel⟩

/-- A name of 16 letters is copied into `cur_cmd_name` with its NUL. -/
theorem longCommand_wrong :
    ¬ ServerRight atTable .crlf (atServerStart true) (List.replicate 16 65 ++ [13, 10]) := by
  rintro ⟨hruns, -⟩
  have hnone : (runFrom (AtServer.receive atTable .crlf) (List.replicate 16 65 ++ [13, 10])
      (atServerStart true)).isSome = false := by decide +kernel
  rw [hnone] at hruns
  cases hruns

end RTThread
