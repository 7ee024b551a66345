import Mathlib.Tactic

namespace RTThread

inductive AtRespStatus where
  | ok | error | timeout | buffFull
  deriving DecidableEq

/-- `struct at_response`; `buf_size` is the length of `buf`. -/
structure AtResponse where
  buf : List UInt8
  lineNum : Nat
  lineCounts : Nat
  timeout : Int
  deriving DecidableEq

/-- `struct at_urc`; its function touches nothing of the client. -/
structure AtUrc where
  cmdPrefix : List UInt8
  cmdSuffix : List UInt8
  deriving DecidableEq

/-- The line is what `recv_buffer` holds, up to `cur_recv_len`. -/
def getUrcObj (urcTable : List AtUrc) (line : List UInt8) : Option AtUrc :=
  urcTable.find? fun urc =>
    urc.cmdPrefix.length + urc.cmdSuffix.length ≤ line.length ∧ urc.cmdPrefix <+: line ∧
      urc.cmdSuffix <:+ line

/-- The line after the parser has put a NUL in the place of its last byte. -/
def respLine (line : List UInt8) : List UInt8 := line.dropLast ++ [0]

/-- A string as `strlen` sees it. -/
def cStringAt (buf : List UInt8) : List UInt8 := buf.takeWhile (· != 0)

/-- `OK` -/
def atRespEndOk : List UInt8 := [79, 75]

/-- `ERROR` -/
def atRespEndError : List UInt8 := [69, 82, 82, 79, 82]

/-- `FAIL` -/
def atRespEndFail : List UInt8 := [70, 65, 73, 76]

/-- The three tests of the parser: the status with which a line ends the response, where
`lineCounts` lines are stored. -/
def endStatus (recvBuffer : List UInt8) (lineNum lineCounts : Nat) : Option AtRespStatus :=
  if atRespEndOk <+: recvBuffer ∧ lineNum = 0 then some .ok
  else if atRespEndError <:+: cStringAt recvBuffer ∨ atRespEndFail <+: recvBuffer then some .error
  else if lineCounts = lineNum ∧ lineNum ≠ 0 then some .ok
  else none

/-- Where `at_obj_exec_cmd` is: before the reset of `line_counts`, in `rt_sem_take`, or after it
with the timeout. -/
inductive ExecPc where
  | idle | sent | waiting | expired
  deriving DecidableEq

inductive ExecResult where
  | eok | error | timeout
  deriving DecidableEq

/-- The client, the parser's two locals, and the command under way. `client->resp` is NULL or the
response of that command. The lines that the parser took for the response are kept beside it. -/
structure AtClient where
  resp : Bool
  respStatus : AtRespStatus
  respNotice : Nat
  respBufLen : Nat
  lineCounts : Nat
  pc : ExecPc
  response : AtResponse
  handled : List (List UInt8)
  deriving DecidableEq

inductive AtClientAction where
  /-- the lock is taken and the command sent, with a response or with NULL -/
  | send (resp : Option AtResponse)
  /-- `line_counts` is reset and `rt_sem_take` called -/
  | await
  /-- `rt_sem_take` gets a notice -/
  | notified
  /-- its time is over -/
  | expire
  | giveUp
  /-- the parser handles a line -/
  | line (bytes : List UInt8)

def execSend (s : AtClient) (resp : Option AtResponse) : Option AtClient :=
  if s.pc = .idle then
    match resp with
    | none => some { s with respStatus := .ok, resp := false }
    | some response =>
      some { s with
        respStatus := .ok
        resp := true
        pc := .sent
        response := response
        handled := [] }
  else none

def execAwait (s : AtClient) : Option AtClient :=
  if s.pc = .sent then
    some { s with pc := .waiting, response := { s.response with lineCounts := 0 } }
  else none

/-- `rt_sem_take` succeeds: what `at_obj_exec_cmd` returns. -/
def execNotified (s : AtClient) : Option (ExecResult × AtClient) :=
  if s.pc = .waiting ∧ 0 < s.respNotice then
    some (if s.respStatus = .ok then .eok else .error,
      { s with respNotice := s.respNotice - 1, resp := false, pc := .idle })
  else none

/-- A negative timeout waits for ever. -/
def execExpire (s : AtClient) : Option AtClient :=
  if s.pc = .waiting ∧ s.respNotice = 0 ∧ 0 ≤ s.response.timeout then
    some { s with pc := .expired }
  else none

def execGiveUp (s : AtClient) : Option (ExecResult × AtClient) :=
  if s.pc = .expired then
    some (.timeout, { s with respStatus := .timeout, resp := false, pc := .idle })
  else none

/-- The line fits behind those stored. Both buffers lie in memory, so the sum does not wrap. -/
def Fits (s : AtClient) (line : List UInt8) : Prop :=
  s.respBufLen + line.length < s.response.buf.length

instance (s : AtClient) (line : List UInt8) : Decidable (Fits s line) :=
  inferInstanceAs (Decidable (_ < _))

def storeLine (s : AtClient) (line : List UInt8) : AtClient :=
  if Fits s line then
    { s with
      response := { s.response with
        buf := s.response.buf.take s.respBufLen ++ respLine line ++
          s.response.buf.drop (s.respBufLen + line.length) }
      respBufLen := s.respBufLen + line.length
      lineCounts := s.lineCounts + 1 }
  else { s with respStatus := .buffFull }

def endResponse (s : AtClient) (status : AtRespStatus) : AtClient :=
  { s with
    respStatus := status
    response := { s.response with lineCounts := s.lineCounts }
    resp := false
    respNotice := (s.respNotice + 1) % 65536
    respBufLen := 0
    lineCounts := 0 }

/-- One turn of the loop of `client_parser`. -/
def clientParser (urcTable : List AtUrc) (s : AtClient) (line : List UInt8) : AtClient :=
  if getUrcObj urcTable line ≠ none then s
  else if s.resp then
    let s := { storeLine s line with handled := s.handled ++ [line] }
    match endStatus (respLine line) s.response.lineNum s.lineCounts with
    | some status => endResponse s status
    | none => s
  else s

def atClientStep (urcTable : List AtUrc) (s : AtClient) : AtClientAction → Option AtClient
  | .send resp => execSend s resp
  | .await => execAwait s
  | .notified => (execNotified s).map Prod.snd
  | .expire => execExpire s
  | .giveUp => (execGiveUp s).map Prod.snd
  | .line bytes => if bytes = [] then none else some (clientParser urcTable s bytes)

/-- `at_resp_get_line`, from the start of the string to its NUL. -/
def getLineFrom (buf : List UInt8) : Nat → List UInt8
  | 0 => cStringAt buf
  | n + 1 => getLineFrom (buf.drop ((cStringAt buf).length + 1)) n

def atRespGetLine (resp : AtResponse) (respLine : Nat) : Option (List UInt8) :=
  if resp.lineCounts < respLine ∨ respLine = 0 then none
  else some (getLineFrom resp.buf (respLine - 1))

end RTThread
