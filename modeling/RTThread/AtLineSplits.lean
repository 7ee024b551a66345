import RTThread.AtCommandModel

namespace RTThread

/-- What `at_recv_readline` uses of a client; `at_client_init` asserts a buffer of one byte at least. -/
structure AtLineClient where
  recvBufsz : Nat
  bufszPos : 0 < recvBufsz
  endSign : UInt8
  urcTable : List AtUrc

/-- `recv_buffer`, `cur_recv_len` and the locals of a call of `at_recv_readline`. -/
structure ReadLine where
  recvBuffer : List UInt8
  curRecvLen : Nat
  readLen : Nat
  lastCh : UInt8
  isFull : Bool
deriving DecidableEq, Repr

/-- The answer of a call, with the buffer it leaves. -/
structure LineRead where
  result : Int
  recvBuffer : List UInt8
  curRecvLen : Nat
deriving DecidableEq, Repr

def rtEfull : Int := 3

namespace AtLineClient

def readStart (c : AtLineClient) : ReadLine := ⟨List.replicate c.recvBufsz 0, 0, 0, 0, false⟩

/-- `none` is a write behind `recv_buffer`. -/
def storeByte (c : AtLineClient) (s : ReadLine) (ch : UInt8) : Option ReadLine :=
  if s.readLen < c.recvBufsz then
    if s.readLen < s.recvBuffer.length then
      some { s with recvBuffer := s.recvBuffer.set s.readLen ch,
                    readLen := s.readLen + 1, curRecvLen := s.readLen + 1 }
    else none
  else some { s with isFull := true }

/-- A newline, the end sign, or URC data in the buffer. -/
def lineEnds (c : AtLineClient) (s : ReadLine) (ch : UInt8) : Bool :=
  (ch = 10 ∧ s.lastCh = 13) ∨ (c.endSign ≠ 0 ∧ ch = c.endSign) ∨
    (getUrcObj c.urcTable (s.recvBuffer.take s.curRecvLen)).isSome

/-- `read_len` is returned as an `int`. -/
def endLine (c : AtLineClient) (s : ReadLine) : LineRead :=
  if s.isFull then ⟨-rtEfull, List.replicate c.recvBufsz 0, 0⟩
  else ⟨Int.bmod s.readLen 4294967296, s.recvBuffer, s.curRecvLen⟩

/-- One turn of the loop with the byte it got. -/
def readTurn (c : AtLineClient) (s : ReadLine) (ch : UInt8) : Option (ReadLine ⊕ LineRead) := do
  let s ← c.storeByte s ch
  if c.lineEnds s ch then some (.inr (c.endLine s)) else some (.inl { s with lastCh := ch })

/-- Calls of `at_recv_readline` one after the other: their answers, and how far the last one is
that waits for its next byte. -/
def atRecvReadline (c : AtLineClient) (s : ReadLine) : List UInt8 → Option (List LineRead × ReadLine)
  | [] => some ([], s)
  | ch :: chs => do
    match ← c.readTurn s ch with
    | .inl s => c.atRecvReadline s chs
    | .inr line =>
      let (lines, s) ← c.atRecvReadline c.readStart chs
      some (line :: lines, s)

end AtLineClient

namespace AtLineClient

/-- The bytes since the last stop are a line, end in the end sign, or are URC data that the buffer
holds whole. -/
def LineStop (c : AtLineClient) (read : List UInt8) : Prop :=
  [13, 10] <:+ read ∨ (c.endSign ≠ 0 ∧ [c.endSign] <:+ read) ∨
    (read.length ≤ c.recvBufsz ∧ ∃ urc ∈ c.urcTable,
      urc.cmdPrefix.length + urc.cmdSuffix.length ≤ read.length ∧
        urc.cmdPrefix <+: read ∧ urc.cmdSuffix <:+ read)

/-- Nothing read so far was a place to stop. -/
def Unstopped (c : AtLineClient) (read : List UInt8) : Prop :=
  ∀ p, p ≠ [] → p <+: read → ¬ c.LineStop p

/-- A piece ends at the first place to stop. -/
def IsPiece (c : AtLineClient) (piece : List UInt8) : Prop :=
  ∃ read ch, piece = read ++ [ch] ∧ c.Unstopped read ∧ c.LineStop piece

/-- A piece that fits is returned whole, a longer one as an error with an empty buffer. -/
def lineOf (c : AtLineClient) (piece : List UInt8) : LineRead :=
  if piece.length ≤ c.recvBufsz then
    ⟨Int.bmod piece.length 4294967296, piece ++ List.replicate (c.recvBufsz - piece.length) 0, piece.length⟩
  else ⟨-rtEfull, List.replicate c.recvBufsz 0, 0⟩

/-- The state of a call that has read these bytes. -/
def readState (c : AtLineClient) (read : List UInt8) : ReadLine :=
  ⟨read.take c.recvBufsz ++ List.replicate (c.recvBufsz - read.length) 0, min read.length c.recvBufsz,
    min read.length c.recvBufsz, read.getLast?.getD 0, decide (c.recvBufsz < read.length)⟩

variable {c : AtLineClient} {read : List UInt8} {ch : UInt8}

theorem readState_nil : c.readState [] = c.readStart := by
  simp [readState, readStart]

/-- The state once the byte is stored; `last_ch` is still the byte before it. -/
theorem storeByte_read : c.storeByte (c.readState read) ch =
    some { c.readState (read ++ [ch]) with lastCh := (c.readState read).lastCh } := by
  have hpos := c.bufszPos
  unfold storeByte
  by_cases hroom : read.length < c.recvBufsz
  · have hlen : min read.length c.recvBufsz = read.length := by omega
    have hset : (read ++ List.replicate (c.recvBufsz - read.length) 0).set read.length ch =
        read ++ ch :: List.replicate (c.recvBufsz - (read.length + 1)) 0 := by
      rw [show c.recvBufsz - read.length = (c.recvBufsz - (read.length + 1)) + 1 by omega,
        List.replicate_succ, List.set_append_right _ _ (Nat.le_refl _), Nat.sub_self]
      rfl
    have htake : (read ++ [ch]).take c.recvBufsz = read ++ [ch] :=
      List.take_of_length_le (by simp; omega)
    have hkeep : read.take c.recvBufsz = read := List.take_of_length_le (by omega)
    have hbuffer : (c.readState read).recvBuffer = read ++ List.replicate (c.recvBufsz - read.length) 0 := by
      simp [readState, hkeep]
    have hlt : (c.readState read).readLen < (c.readState read).recvBuffer.length := by
      rw [hbuffer]
      simp [readState]
      omega
    have hread : (c.readState read).readLen = read.length := hlen
    rw [if_pos (by omega), if_pos hlt, hbuffer, hread, hset]
    simp [readState, htake]
    omega
  · have htake : (read ++ [ch]).take c.recvBufsz = read.take c.recvBufsz :=
      List.take_append_of_le_length (by omega)
    have hread : (c.readState read).readLen = c.recvBufsz := by
      simp [readState]
      omega
    rw [if_neg (by omega)]
    simp [readState, htake]
    repeat' constructor
    all_goals omega

theorem getUrcObj_isSome {table : List AtUrc} {line : List UInt8} :
    (getUrcObj table line).isSome = true ↔ ∃ urc ∈ table,
      urc.cmdPrefix.length + urc.cmdSuffix.length ≤ line.length ∧
        urc.cmdPrefix <+: line ∧ urc.cmdSuffix <:+ line := by
  unfold getUrcObj
  rw [List.find?_isSome]
  simp

theorem singleton_suffix {b : UInt8} : [b] <:+ read ++ [ch] ↔ ch = b := by
  rw [List.suffix_concat_iff]
  constructor
  · rintro (h | ⟨t, ht, -⟩)
    · cases h
    · have hlist : [] ++ [b] = t ++ [ch] := ht
      exact (List.singleton_inj.mp (List.append_inj_right' hlist rfl)).symm
  · rintro rfl
    exact .inr ⟨[], rfl, List.nil_suffix⟩

theorem newline_suffix : [13, 10] <:+ read ++ [ch] ↔ ch = 10 ∧ read.getLast?.getD 0 = 13 := by
  rw [List.suffix_concat_iff]
  constructor
  · rintro (h | ⟨t, ht, hsuffix⟩)
    · cases h
    · obtain ⟨rfl, hch⟩ := List.append_inj' (show [13] ++ [10] = t ++ [ch] from ht) rfl
      obtain ⟨before, rfl⟩ := hsuffix
      obtain rfl := List.singleton_inj.mp hch
      simp
  · rintro ⟨rfl, hlast⟩
    rcases List.eq_nil_or_concat' read with rfl | ⟨before, last, rfl⟩
    · cases hlast
    · obtain rfl : last = 13 := by simpa using hlast
      exact .inr ⟨[13], rfl, List.suffix_append _ _⟩

/-- A place to stop is what the loop tests, the frozen buffer of a line too long included. -/
theorem lineEnds_iff (hread : c.Unstopped read) :
    c.lineEnds { c.readState (read ++ [ch]) with lastCh := (c.readState read).lastCh } ch = true ↔
      c.LineStop (read ++ [ch]) := by
  have hpos := c.bufszPos
  have hlast : (c.readState read).lastCh = read.getLast?.getD 0 := rfl
  unfold lineEnds LineStop
  rw [newline_suffix, singleton_suffix, hlast]
  simp only [decide_eq_true_eq]
  apply or_congr Iff.rfl
  apply or_congr Iff.rfl
  rw [getUrcObj_isSome]
  by_cases hfits : (read ++ [ch]).length ≤ c.recvBufsz
  · have htake : (read ++ [ch]).take c.recvBufsz = read ++ [ch] := List.take_of_length_le hfits
    have hline : (c.readState (read ++ [ch])).recvBuffer.take (c.readState (read ++ [ch])).curRecvLen =
        read ++ [ch] := by
      simp only [readState, htake, Nat.min_eq_left hfits, List.take_left]
    rw [hline]
    simp only [hfits, true_and]
  · -- the buffer still holds the first bytes, which were no place to stop
    have hlong : c.recvBufsz ≤ read.length := by
      simp only [List.length_append, List.length_singleton] at hfits
      omega
    have hline : (c.readState (read ++ [ch])).recvBuffer.take (c.readState (read ++ [ch])).curRecvLen =
        read.take c.recvBufsz := by
      have hlen : (read.take c.recvBufsz).length = c.recvBufsz := by simp [hlong]
      have hmin : min (read ++ [ch]).length c.recvBufsz = c.recvBufsz := by omega
      simp only [readState, List.take_append_of_le_length hlong, hmin]
      rw [List.take_append_of_le_length (by omega), List.take_take, Nat.min_self]
    rw [hline]
    constructor
    · intro hurc
      have hne : read.take c.recvBufsz ≠ [] := by
        intro hnil
        have hlen := congrArg List.length hnil
        rw [List.length_take, List.length_nil] at hlen
        omega
      have hstop : c.LineStop (read.take c.recvBufsz) := .inr (.inr ⟨List.length_take_le _ _, hurc⟩)
      exact absurd hstop (hread _ hne (List.take_prefix _ _))
    · intro h
      exact absurd h.1 hfits

theorem unstopped_concat (hread : c.Unstopped read) (hstop : ¬ c.LineStop (read ++ [ch])) :
    c.Unstopped (read ++ [ch]) := by
  intro p hp hprefix
  rcases List.prefix_concat_iff.mp hprefix with rfl | hbefore
  · exact hstop
  · exact hread p hp hbefore

theorem endLine_read : c.endLine { c.readState (read ++ [ch]) with lastCh := (c.readState read).lastCh } =
    c.lineOf (read ++ [ch]) := by
  unfold endLine lineOf
  by_cases hfits : (read ++ [ch]).length ≤ c.recvBufsz
  · have htake : (read ++ [ch]).take c.recvBufsz = read ++ [ch] := List.take_of_length_le hfits
    rw [if_pos hfits, if_neg (by simpa [readState] using hfits)]
    simp only [readState, htake, Nat.min_eq_left hfits]
  · rw [if_neg hfits, if_pos (by simpa [readState] using hfits)]

theorem readTurn_goes_on (hread : c.Unstopped read) (hstop : ¬ c.LineStop (read ++ [ch])) :
    c.readTurn (c.readState read) ch = some (.inl (c.readState (read ++ [ch]))) := by
  have hends := mt (lineEnds_iff hread).mp hstop
  unfold readTurn
  rw [storeByte_read]
  simp only [Option.bind_eq_bind, Option.bind_some, if_neg hends]
  simp [readState]

theorem readTurn_ends (hread : c.Unstopped read) (hstop : c.LineStop (read ++ [ch])) :
    c.readTurn (c.readState read) ch = some (.inr (c.lineOf (read ++ [ch]))) := by
  have hends := (lineEnds_iff hread).mpr hstop
  unfold readTurn
  rw [storeByte_read]
  simp only [Option.bind_eq_bind, Option.bind_some, if_pos hends, endLine_read]

theorem unstopped_nil : c.Unstopped [] := by
  intro p hp hprefix
  exact absurd (List.prefix_nil.mp hprefix) hp

/-- The calls from one that has already read some bytes on. -/
theorem atRecvReadline_from (stream : List UInt8) (hread : c.Unstopped read) :
    ∃ (pieces : List (List UInt8)) (rest : List UInt8), read ++ stream = pieces.flatten ++ rest ∧
      (∀ piece ∈ pieces, c.IsPiece piece) ∧ c.Unstopped rest ∧
      c.atRecvReadline (c.readState read) stream = some (pieces.map c.lineOf, c.readState rest) := by
  induction stream generalizing read with
  | nil => exact ⟨[], read, by simp, by simp, hread, rfl⟩
  | cons ch stream ih =>
    by_cases hstop : c.LineStop (read ++ [ch])
    · obtain ⟨pieces, rest, hsplit, hpieces, hrest, hrun⟩ := ih unstopped_nil
      refine ⟨(read ++ [ch]) :: pieces, rest, ?_, ?_, hrest, ?_⟩
      · rw [List.flatten_cons, List.append_assoc, ← hsplit]
        simp
      · intro piece hpiece
        rcases List.mem_cons.mp hpiece with rfl | hlater
        · exact ⟨read, ch, rfl, hread, hstop⟩
        · exact hpieces piece hlater
      · rw [readState_nil] at hrun
        simp [atRecvReadline, readTurn_ends hread hstop, hrun]
    · obtain ⟨pieces, rest, hsplit, hpieces, hrest, hrun⟩ := ih (unstopped_concat hread hstop)
      refine ⟨pieces, rest, ?_, hpieces, hrest, ?_⟩
      · rw [← hsplit]
        simp
      · simp [atRecvReadline, readTurn_goes_on hread hstop, hrun]

end AtLineClient

/-- The calls of `at_recv_readline` cut the received bytes into pieces that end at the first place
to stop, with no byte lost or repeated, and answer each piece whole or as too long. -/
theorem at_recv_readline_splits (c : AtLineClient) (stream : List UInt8) :
    ∃ (pieces : List (List UInt8)) (rest : List UInt8), stream = pieces.flatten ++ rest ∧
      (∀ piece ∈ pieces, c.IsPiece piece) ∧ c.Unstopped rest ∧
      c.atRecvReadline c.readStart stream = some (pieces.map c.lineOf, c.readState rest) := by
  have h := AtLineClient.atRecvReadline_from (c := c) stream AtLineClient.unstopped_nil
  rw [AtLineClient.readState_nil] at h
  exact h

end RTThread
