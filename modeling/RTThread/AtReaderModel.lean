import RTThread.Threads

namespace RTThread

/-- Where a reader is in its loop; `read`, `reset` and `take` are about to be called. -/
inductive ReaderPc where
  | outside | read | reset | take | blocked
  deriving DecidableEq

/-- A reader, the unread bytes of its device and the value of `rx_notice`. -/
structure AtReader where
  device : List UInt8
  notice : Nat
  pc : ReaderPc
  time : Int

def rtTickFromMillisecond (tickPerSecond : Nat) (ms : Int) : Int :=
  if ms < 0 then -1 else (Int.bmod (tickPerSecond * ms + 999) 4294967296).tdiv 1000

/-- The two loops differ in how long they wait. -/
def enterGetchar (s : AtReader) (time : Int) : Option AtReader :=
  if s.pc = .outside then some { s with pc := .read, time := time } else none

def atClientGetchar (tickPerSecond : Nat) (s : AtReader) (timeout : Int) : Option AtReader :=
  enterGetchar s (rtTickFromMillisecond tickPerSecond timeout)

def atServerGerchar (s : AtReader) : Option AtReader := enterGetchar s (-1)

inductive AtReaderAction where
  | clientGetchar (timeout : Int)
  | serverGerchar
  | read
  | reset
  | take
  | timeout
  /-- bytes become readable and the device indicates how many -/
  | indicate (bytes : List UInt8)

/-- What a call returned: the byte, or the error of `rt_sem_take`. -/
inductive GetcharAnswer where
  | char (ch : UInt8)
  | failed (result : Err)

/-- `at_client_rx_ind` and `at_rx_ind`; a blocked reader is resumed instead of counting. -/
def atRxInd (s : AtReader) (size : Nat) : AtReader :=
  if size = 0 then s
  else if s.pc = .blocked then { s with pc := .read }
  else { s with notice := (s.notice + 1) % 65536 }

def atReaderStep (tickPerSecond : Nat) (s : AtReader) :
    AtReaderAction → Option (AtReader × Option GetcharAnswer)
  | .clientGetchar timeout => (atClientGetchar tickPerSecond s timeout).map (·, none)
  | .serverGerchar => (atServerGerchar s).map (·, none)
  | .read =>
    if s.pc = .read then
      match s.device with
      | [] => some ({ s with pc := .reset }, none)
      | ch :: rest => some ({ s with device := rest, pc := .outside }, some (.char ch))
    else none
  | .reset => if s.pc = .reset then some ({ s with notice := 0, pc := .take }, none) else none
  | .take =>
    if s.pc = .take then
      if 0 < s.notice then some ({ s with notice := s.notice - 1, pc := .read }, none)
      else if s.time = 0 then some ({ s with pc := .outside }, some (.failed .etimeout))
      else some ({ s with pc := .blocked }, none)
    else none
  | .timeout =>
    if s.pc = .blocked ∧ 0 < s.time then
      some ({ s with pc := .outside }, some (.failed .etimeout))
    else none
  | .indicate bytes => some (atRxInd { s with device := s.device ++ bytes } bytes.length, none)

/-- The indications since the device was last found empty and since `rx_notice` was last reset,
beside the state of the code. -/
structure TimedReader where
  reader : AtReader
  sinceRead : Nat
  sinceReset : Nat

def TimedReader.count (s : TimedReader) (reader : AtReader) : AtReaderAction → TimedReader
  | .read => { s with reader := reader, sinceRead := 0 }
  | .reset => { s with reader := reader, sinceReset := 0 }
  | .indicate (_ :: _) => ⟨reader, s.sinceRead + 1, s.sinceReset + 1⟩
  | _ => { s with reader := reader }

def timedReaderStep (tickPerSecond : Nat) (s : TimedReader) (a : AtReaderAction) :
    Option TimedReader :=
  (atReaderStep tickPerSecond s.reader a).map fun (reader, _) => s.count reader a

end RTThread
