import Mathlib.Data.List.GetD
import Mathlib.Tactic

namespace RTThread

def aucCRCHi : List UInt8 :=
  [0x00,0xC1,0x81,0x40,0x01,0xC0,0x80,0x41,0x01,0xC0,0x80,0x41,0x00,0xC1,0x81,0x40,
    0x01,0xC0,0x80,0x41,0x00,0xC1,0x81,0x40,0x00,0xC1,0x81,0x40,0x01,0xC0,0x80,0x41,
    0x01,0xC0,0x80,0x41,0x00,0xC1,0x81,0x40,0x00,0xC1,0x81,0x40,0x01,0xC0,0x80,0x41,
    0x00,0xC1,0x81,0x40,0x01,0xC0,0x80,0x41,0x01,0xC0,0x80,0x41,0x00,0xC1,0x81,0x40,
    0x01,0xC0,0x80,0x41,0x00,0xC1,0x81,0x40,0x00,0xC1,0x81,0x40,0x01,0xC0,0x80,0x41,
    0x00,0xC1,0x81,0x40,0x01,0xC0,0x80,0x41,0x01,0xC0,0x80,0x41,0x00,0xC1,0x81,0x40,
    0x00,0xC1,0x81,0x40,0x01,0xC0,0x80,0x41,0x01,0xC0,0x80,0x41,0x00,0xC1,0x81,0x40,
    0x01,0xC0,0x80,0x41,0x00,0xC1,0x81,0x40,0x00,0xC1,0x81,0x40,0x01,0xC0,0x80,0x41,
    0x01,0xC0,0x80,0x41,0x00,0xC1,0x81,0x40,0x00,0xC1,0x81,0x40,0x01,0xC0,0x80,0x41,
    0x00,0xC1,0x81,0x40,0x01,0xC0,0x80,0x41,0x01,0xC0,0x80,0x41,0x00,0xC1,0x81,0x40,
    0x00,0xC1,0x81,0x40,0x01,0xC0,0x80,0x41,0x01,0xC0,0x80,0x41,0x00,0xC1,0x81,0x40,
    0x01,0xC0,0x80,0x41,0x00,0xC1,0x81,0x40,0x00,0xC1,0x81,0x40,0x01,0xC0,0x80,0x41,
    0x00,0xC1,0x81,0x40,0x01,0xC0,0x80,0x41,0x01,0xC0,0x80,0x41,0x00,0xC1,0x81,0x40,
    0x01,0xC0,0x80,0x41,0x00,0xC1,0x81,0x40,0x00,0xC1,0x81,0x40,0x01,0xC0,0x80,0x41,
    0x01,0xC0,0x80,0x41,0x00,0xC1,0x81,0x40,0x00,0xC1,0x81,0x40,0x01,0xC0,0x80,0x41,
    0x00,0xC1,0x81,0x40,0x01,0xC0,0x80,0x41,0x01,0xC0,0x80,0x41,0x00,0xC1,0x81,0x40]

def aucCRCLo : List UInt8 :=
  [0x00,0xC0,0xC1,0x01,0xC3,0x03,0x02,0xC2,0xC6,0x06,0x07,0xC7,0x05,0xC5,0xC4,0x04,
    0xCC,0x0C,0x0D,0xCD,0x0F,0xCF,0xCE,0x0E,0x0A,0xCA,0xCB,0x0B,0xC9,0x09,0x08,0xC8,
    0xD8,0x18,0x19,0xD9,0x1B,0xDB,0xDA,0x1A,0x1E,0xDE,0xDF,0x1F,0xDD,0x1D,0x1C,0xDC,
    0x14,0xD4,0xD5,0x15,0xD7,0x17,0x16,0xD6,0xD2,0x12,0x13,0xD3,0x11,0xD1,0xD0,0x10,
    0xF0,0x30,0x31,0xF1,0x33,0xF3,0xF2,0x32,0x36,0xF6,0xF7,0x37,0xF5,0x35,0x34,0xF4,
    0x3C,0xFC,0xFD,0x3D,0xFF,0x3F,0x3E,0xFE,0xFA,0x3A,0x3B,0xFB,0x39,0xF9,0xF8,0x38,
    0x28,0xE8,0xE9,0x29,0xEB,0x2B,0x2A,0xEA,0xEE,0x2E,0x2F,0xEF,0x2D,0xED,0xEC,0x2C,
    0xE4,0x24,0x25,0xE5,0x27,0xE7,0xE6,0x26,0x22,0xE2,0xE3,0x23,0xE1,0x21,0x20,0xE0,
    0xA0,0x60,0x61,0xA1,0x63,0xA3,0xA2,0x62,0x66,0xA6,0xA7,0x67,0xA5,0x65,0x64,0xA4,
    0x6C,0xAC,0xAD,0x6D,0xAF,0x6F,0x6E,0xAE,0xAA,0x6A,0x6B,0xAB,0x69,0xA9,0xA8,0x68,
    0x78,0xB8,0xB9,0x79,0xBB,0x7B,0x7A,0xBA,0xBE,0x7E,0x7F,0xBF,0x7D,0xBD,0xBC,0x7C,
    0xB4,0x74,0x75,0xB5,0x77,0xB7,0xB6,0x76,0x72,0xB2,0xB3,0x73,0xB1,0x71,0x70,0xB0,
    0x50,0x90,0x91,0x51,0x93,0x53,0x52,0x92,0x96,0x56,0x57,0x97,0x55,0x95,0x94,0x54,
    0x9C,0x5C,0x5D,0x9D,0x5F,0x9F,0x9E,0x5E,0x5A,0x9A,0x9B,0x5B,0x99,0x59,0x58,0x98,
    0x88,0x48,0x49,0x89,0x4B,0x8B,0x8A,0x4A,0x4E,0x8E,0x8F,0x4F,0x8D,0x4D,0x4C,0x8C,
    0x44,0x84,0x85,0x45,0x87,0x47,0x46,0x86,0x82,0x42,0x43,0x83,0x41,0x81,0x80,0x40]

/-- A turn of the loop of `usMBCRC16` on `ucCRCHi` and `ucCRCLo`. -/
def crcTurn (s : UInt8 × UInt8) (c : UInt8) : UInt8 × UInt8 :=
  let iIndex := (s.2 ^^^ c).toNat
  (aucCRCLo.getD iIndex 0, s.1 ^^^ aucCRCHi.getD iIndex 0)

def usMBCRC16 (frame : List UInt8) : Nat :=
  let s := frame.foldl crcTurn (0xFF, 0xFF)
  256 * s.1.toNat + s.2.toNat

inductive MbRcvState where
  | init
  | idle
  | rcv
  | error
deriving DecidableEq, Repr

inductive MbSndState where
  | idle
  | xmit
deriving DecidableEq, Repr

inductive MbEventType where
  | ready
  | frameReceived
  | frameSent
deriving DecidableEq, Repr

/-- The state of the RTU layer with the events posted; `sndCur` is `pucSndBufferCur` from the start of
`ucRTUBuf`, where the frame of `eMBRTUSend` begins. -/
structure MbRtu where
  rcvState : MbRcvState
  sndState : MbSndState
  buf : Nat → UInt8
  rcvPos : Nat
  sndCur : Nat
  sndCount : Nat
  posted : List MbEventType

def mbSerPduSizeMin : Nat := 4

def mbSerPduSizeMax : Nat := 256

/-- `none` is a failed assertion. -/
def xMBRTUReceiveFSM (s : MbRtu) (ucByte : UInt8) : Option MbRtu :=
  if s.sndState ≠ .idle then none
  else
    some (match s.rcvState with
      | .init | .error => s
      | .idle => { s with buf := Function.update s.buf 0 ucByte, rcvPos := 1, rcvState := .rcv }
      | .rcv =>
        if s.rcvPos < mbSerPduSizeMax then
          { s with buf := Function.update s.buf s.rcvPos ucByte, rcvPos := s.rcvPos + 1 }
        else { s with rcvState := .error })

/-- The byte is the one of `xMBPortSerialPutByte`. -/
def xMBRTUTransmitFSM (s : MbRtu) : Option (Option UInt8 × MbRtu) :=
  if s.rcvState ≠ .idle then none
  else
    some (match s.sndState with
      | .idle => (none, s)
      | .xmit =>
        if s.sndCount ≠ 0 then
          (some (s.buf s.sndCur), { s with sndCur := s.sndCur + 1, sndCount := s.sndCount - 1 })
        else (none, { s with posted := s.posted ++ [.frameSent], sndState := .idle }))

def xMBRTUTimerT35Expired (s : MbRtu) : Option MbRtu :=
  match s.rcvState with
  | .init => some { s with posted := s.posted ++ [.ready], rcvState := .idle }
  | .rcv => some { s with posted := s.posted ++ [.frameReceived], rcvState := .idle }
  | .error => some { s with rcvState := .idle }
  | .idle => none

/-- The first bytes of `ucRTUBuf`. -/
def MbRtu.frame (s : MbRtu) (n : Nat) : List UInt8 := (List.range n).map s.buf

/-- The answer is the address and the PDU, or `MB_EIO`. -/
def eMBRTUReceive (s : MbRtu) : Option (Option (UInt8 × List UInt8)) :=
  if s.rcvPos < mbSerPduSizeMax then
    some (if mbSerPduSizeMin ≤ s.rcvPos ∧ usMBCRC16 (s.frame s.rcvPos) = 0 then
      some (s.buf 0, (List.range (s.rcvPos - 3)).map fun i => s.buf (1 + i))
    else none)
  else none

/-- `none` is `MB_EIO`. The PDU is in `ucRTUBuf` behind the place of the address. -/
def eMBRTUSend (s : MbRtu) (ucSlaveAddress : UInt8) (usLength : Nat) : Option MbRtu :=
  if s.rcvState = .idle then
    let count := 1 + usLength
    let s := { s with buf := Function.update s.buf 0 ucSlaveAddress, sndCur := 0 }
    let usCRC16 := usMBCRC16 (s.frame count)
    let buf := Function.update s.buf count (UInt8.ofNat (usCRC16 % 256))
    some { s with
      buf := Function.update buf (count + 1) (UInt8.ofNat (usCRC16 / 256))
      sndCount := count + 2
      sndState := .xmit }
  else none

/-- What the layer makes of bytes and the silence behind them. -/
def MbRtu.hears (s : MbRtu) (bytes : List UInt8) : Option (Option (UInt8 × List UInt8) × MbRtu) := do
  let s ← bytes.foldlM xMBRTUReceiveFSM s
  let s ← xMBRTUTimerT35Expired s
  let answer ← eMBRTUReceive s
  some (answer, s)

def MbRtu.hearsAll (s : MbRtu) : List (List UInt8) → Option (List (Option (UInt8 × List UInt8)))
  | [] => some []
  | bytes :: rest => do
    let (answer, s) ← s.hears bytes
    let answers ← s.hearsAll rest
    some (answer :: answers)

/-- The bytes that so many transmitter interrupts put on the line. -/
def MbRtu.sends (s : MbRtu) : Nat → Option (List UInt8 × MbRtu)
  | 0 => some ([], s)
  | n + 1 => do
    let (byte, s) ← xMBRTUTransmitFSM s
    let (bytes, s) ← s.sends n
    some (byte.toList ++ bytes, s)

/-- What the bytes between two silences say. -/
def mbAnswer (bytes : List UInt8) : Option (UInt8 × List UInt8) :=
  if mbSerPduSizeMin ≤ bytes.length ∧ usMBCRC16 bytes = 0 then
    some (bytes.headD 0, (bytes.drop 1).take (bytes.length - 3))
  else none

section
variable {a b a' b' c d : UInt8} {pre post bs : List UInt8} {x y : UInt8 × UInt8}

set_option maxRecDepth 4000 in
theorem aucCRCLo_inj (h : aucCRCLo.getD a.toNat 0 = aucCRCLo.getD b.toNat 0) : a = b := by
  have hnodup : aucCRCLo.Nodup := .of_map UInt8.toNat (by decide +kernel)
  have ha : a.toNat < aucCRCLo.length := a.toNat_lt
  have hb : b.toNat < aucCRCLo.length := b.toNat_lt
  rw [List.getD_eq_getElem _ _ ha, List.getD_eq_getElem _ _ hb, hnodup.getElem_inj_iff] at h
  exact UInt8.toNat_inj.mp h

/-- The table of the low bytes has no byte twice, so a turn can be taken back. -/
theorem crcTurn_inj (h : crcTurn x c = crcTurn y d) : x.2 ^^^ c = y.2 ^^^ d ∧ x.1 = y.1 := by
  obtain ⟨hlo, hhi⟩ := Prod.mk.inj h
  have hindex := aucCRCLo_inj hlo
  rw [hindex] at hhi
  exact ⟨hindex, (UInt8.xor_left_inj _).mp hhi⟩

theorem crcFold_inj (h : bs.foldl crcTurn x = bs.foldl crcTurn y) : x = y := by
  induction bs generalizing x y with
  | nil => exact h
  | cons c bs ih =>
    obtain ⟨hlow, hhigh⟩ := crcTurn_inj (ih h)
    exact Prod.ext hhigh ((UInt8.xor_left_inj _).mp hlow)

theorem usMBCRC16_zero : usMBCRC16 bs = 0 ↔ bs.foldl crcTurn (0xFF, 0xFF) = (0, 0) := by
  unfold usMBCRC16
  dsimp only
  rw [Prod.ext_iff, ← UInt8.toNat_inj, ← UInt8.toNat_inj]
  show _ ↔ _ = 0 ∧ _ = 0
  omega

/-- Two frames that differ in two bytes side by side do not end in the same state. -/
theorem crc_damage (h : (pre ++ a :: b :: post).foldl crcTurn x = (pre ++ a' :: b' :: post).foldl crcTurn x) :
    a = a' ∧ b = b' := by
  rw [List.foldl_append, List.foldl_append] at h
  generalize pre.foldl crcTurn x = y at h
  obtain ⟨hlow, hhigh⟩ := crcTurn_inj (@crcFold_inj post _ _ h)
  have ha : a = a' := (UInt8.xor_right_inj _).mp (aucCRCLo_inj hhigh)
  rw [ha] at hlow
  exact ⟨ha, (UInt8.xor_right_inj _).mp hlow⟩

theorem crcTurn_self (hi lo : UInt8) : crcTurn (hi, lo) lo = (0, hi) := by
  unfold crcTurn
  dsimp only
  rw [UInt8.xor_self]
  exact congrArg (0, ·) UInt8.xor_zero

/-- The bytes of its own remainder take a frame to the remainder of nothing. -/
theorem crc_residue (h : bs.foldl crcTurn (0xFF, 0xFF) = x) : usMBCRC16 (bs ++ [x.2, x.1]) = 0 := by
  rw [usMBCRC16_zero, List.foldl_append, h]
  show crcTurn (crcTurn (x.1, x.2) x.2) x.1 = _
  rw [crcTurn_self, crcTurn_self]

theorem crc_bytes (h : bs.foldl crcTurn (0xFF, 0xFF) = x) :
    UInt8.ofNat (usMBCRC16 bs % 256) = x.2 ∧ UInt8.ofNat (usMBCRC16 bs / 256) = x.1 := by
  have hsum : usMBCRC16 bs = 256 * x.1.toNat + x.2.toNat := by rw [usMBCRC16, h]
  have hlow := x.2.toNat_lt
  constructor
  · rw [show usMBCRC16 bs % 256 = x.2.toNat by omega]
    exact UInt8.ofNat_toNat
  · rw [show usMBCRC16 bs / 256 = x.1.toNat by omega]
    exact UInt8.ofNat_toNat

theorem mbAnswer_damage (ha : mbAnswer (pre ++ a :: b :: post) ≠ none) (hne : (a, b) ≠ (a', b')) :
    mbAnswer (pre ++ a' :: b' :: post) = none := by
  unfold mbAnswer at ha ⊢
  rw [if_neg]
  intro h'
  have hzero : usMBCRC16 (pre ++ a :: b :: post) = 0 := by
    by_contra hz
    exact ha (if_neg fun h => hz h.2)
  rw [usMBCRC16_zero] at hzero
  have hsame := crc_damage (hzero.trans (usMBCRC16_zero.mp h'.2).symm)
  exact hne (Prod.ext hsame.1 hsame.2)

theorem mbAnswer_frame {pdu : List UInt8} (hpdu : pdu ≠ []) (h : (a :: pdu).foldl crcTurn (0xFF, 0xFF) = x) :
    mbAnswer (a :: pdu ++ [x.2, x.1]) = some (a, pdu) := by
  have hlen := List.length_pos_iff.mpr hpdu
  unfold mbAnswer
  rw [if_pos ⟨by simp [mbSerPduSizeMin]; omega, crc_residue h⟩]
  simp

end

section
variable {s t r : MbRtu} {a addr : UInt8} {bs pdu : List UInt8} {n : Nat}

theorem frame_push (h : t.buf = Function.update s.buf n a) : t.frame (n + 1) = s.frame n ++ [a] := by
  unfold MbRtu.frame
  rw [List.range_succ, List.map_append, h]
  congr 1
  · apply List.map_congr_left
    intro i hi
    have := List.mem_range.mp hi
    exact Function.update_of_ne (by omega) _ _
  · simp

theorem receive_all (hr : r.rcvState = .rcv) (hs : r.sndState = .idle)
    (hroom : r.rcvPos + bs.length ≤ mbSerPduSizeMax) :
    ∃ t, bs.foldlM xMBRTUReceiveFSM r = some t ∧ t.rcvState = .rcv ∧ t.sndState = .idle ∧
      t.rcvPos = r.rcvPos + bs.length ∧ t.frame t.rcvPos = r.frame r.rcvPos ++ bs := by
  induction bs generalizing r with
  | nil => exact ⟨r, rfl, hr, hs, rfl, (List.append_nil _).symm⟩
  | cons c bs ih =>
    rw [List.length_cons] at hroom
    let r' := { r with buf := Function.update r.buf r.rcvPos c, rcvPos := r.rcvPos + 1 }
    have hstep : xMBRTUReceiveFSM r c = some r' := by
      simp [xMBRTUReceiveFSM, hr, hs, r', show r.rcvPos < mbSerPduSizeMax by omega]
    obtain ⟨t, ht, hrcv, hsnd, hpos, hframe⟩ := ih (r := r') hr hs (by show r.rcvPos + 1 + _ ≤ _; omega)
    refine ⟨t, ?_, hrcv, hsnd, ?_, ?_⟩
    · rw [List.foldlM_cons, hstep]
      exact ht
    · rw [hpos, List.length_cons]
      show r.rcvPos + 1 + _ = _
      omega
    · rw [hframe]
      show r'.frame (r.rcvPos + 1) ++ bs = _
      rw [frame_push (s := r) rfl, List.append_assoc]
      rfl

theorem receive_answer (hpos : s.rcvPos < mbSerPduSizeMax) :
    eMBRTUReceive s = some (mbAnswer (s.frame s.rcvPos)) := by
  have hlen : (s.frame s.rcvPos).length = s.rcvPos := by simp [MbRtu.frame]
  have hpdu : ((List.range (s.rcvPos - 3)).map fun i => s.buf (1 + i)) =
      ((s.frame s.rcvPos).drop 1).take (s.rcvPos - 3) := by
    apply List.ext_getElem
    · simp [MbRtu.frame]
      omega
    · intro i hi hi'
      simp [MbRtu.frame, Nat.add_comm]
  have hfirst : 0 < s.rcvPos → (s.frame s.rcvPos).headD 0 = s.buf 0 := by
    intro h
    obtain ⟨n, hn⟩ := Nat.exists_eq_add_of_lt h
    rw [hn, MbRtu.frame, Nat.zero_add, List.range_succ_eq_map]
    rfl
  unfold eMBRTUReceive mbAnswer
  rw [if_pos hpos, hlen, hpdu]
  congr 1
  split
  next h => rw [hfirst (Nat.lt_of_lt_of_le (by decide) h.1)]
  next => rfl

theorem hears_eq (hr : r.rcvState = .idle) (hs : r.sndState = .idle) (hne : bs ≠ [])
    (hlen : bs.length < mbSerPduSizeMax) :
    ∃ t, r.hears bs = some (mbAnswer bs, t) ∧ t.rcvState = .idle ∧ t.sndState = .idle := by
  obtain ⟨c, bs, rfl⟩ := List.exists_cons_of_ne_nil hne
  rw [List.length_cons] at hlen
  let r' := { r with buf := Function.update r.buf 0 c, rcvPos := 1, rcvState := MbRcvState.rcv }
  have hstep : xMBRTUReceiveFSM r c = some r' := by simp [xMBRTUReceiveFSM, hr, hs, r']
  obtain ⟨t, ht, hrcv, hsnd, hpos, hframe⟩ :=
    @receive_all r' bs rfl hs (by show 1 + _ ≤ _; omega)
  have hpos : t.rcvPos = (c :: bs).length := hpos.trans (Nat.add_comm 1 _)
  have hframe : t.frame t.rcvPos = c :: bs :=
    hframe.trans (congrArg (· ++ bs) (frame_push (s := r) (n := 0) rfl))
  let t' := { t with posted := t.posted ++ [MbEventType.frameReceived], rcvState := MbRcvState.idle }
  have hsilence : xMBRTUTimerT35Expired t = some t' := by rw [xMBRTUTimerT35Expired, hrcv]
  have hanswer : eMBRTUReceive t' = some (mbAnswer (c :: bs)) :=
    (receive_answer (s := t') (by show t.rcvPos < _; rw [hpos]; exact hlen)).trans
      (congrArg (some ∘ mbAnswer) hframe)
  refine ⟨t', ?_, rfl, hsnd⟩
  rw [MbRtu.hears, List.foldlM_cons, hstep]
  simp only [Option.bind_eq_bind, Option.bind_some, ht, hsilence, hanswer]

theorem hearsAll_eq {fs : List (List UInt8)} (hr : r.rcvState = .idle) (hs : r.sndState = .idle)
    (hfs : ∀ bs ∈ fs, bs ≠ [] ∧ bs.length < mbSerPduSizeMax) :
    r.hearsAll fs = some (fs.map mbAnswer) := by
  induction fs generalizing r with
  | nil => rfl
  | cons bs fs ih =>
    obtain ⟨hne, hlen⟩ := hfs bs List.mem_cons_self
    obtain ⟨t, ht, hrcv, hsnd⟩ := hears_eq hr hs hne hlen
    rw [MbRtu.hearsAll, ht]
    simp only [Option.bind_eq_bind, Option.bind_some, ih hrcv hsnd fun x hx => hfs x (List.mem_cons_of_mem _ hx)]
    rfl

theorem sends_all (hr : s.rcvState = .idle) (hs : s.sndState = .xmit) (hn : s.sndCount = n) :
    ∃ t, s.sends (n + 1) = some ((List.range n).map fun i => s.buf (s.sndCur + i), t) ∧
      t.sndState = .idle ∧ t.posted = s.posted ++ [.frameSent] := by
  induction n generalizing s with
  | zero =>
    refine ⟨{ s with posted := s.posted ++ [.frameSent], sndState := .idle }, ?_, rfl, rfl⟩
    simp [MbRtu.sends, xMBRTUTransmitFSM, hr, hs, hn]
  | succ n ih =>
    let s' := { s with sndCur := s.sndCur + 1, sndCount := s.sndCount - 1 }
    have hstep : xMBRTUTransmitFSM s = some (some (s.buf s.sndCur), s') := by
      simp [xMBRTUTransmitFSM, hr, hs, hn, s']
    obtain ⟨t, ht, hidle, hpost⟩ := ih (s := s') hr hs (by show s.sndCount - 1 = n; omega)
    refine ⟨t, ?_, hidle, hpost⟩
    rw [MbRtu.sends, hstep]
    simp only [Option.bind_eq_bind, Option.bind_some, ht, List.range_succ_eq_map, List.map_cons, List.map_map]
    simp [s', Function.comp_def, Nat.add_assoc, Nat.add_comm 1]

theorem send_frame (hs : s.rcvState = .idle)
    (hbuf : ((List.range pdu.length).map fun i => s.buf (1 + i)) = pdu) :
    ∃ t x, eMBRTUSend s addr pdu.length = some t ∧ t.rcvState = .idle ∧ t.sndState = .xmit ∧
      t.sndCur = 0 ∧ t.sndCount = pdu.length + 3 ∧ t.posted = s.posted ∧
      (addr :: pdu).foldl crcTurn (0xFF, 0xFF) = x ∧
      t.frame (pdu.length + 3) = addr :: pdu ++ [x.2, x.1] := by
  let s' := { s with buf := Function.update s.buf 0 addr, sndCur := 0 }
  have hframe : s'.frame (1 + pdu.length) = addr :: pdu := by
    rw [MbRtu.frame, Nat.add_comm, List.range_succ_eq_map, List.map_cons, List.map_map]
    congr 1
    rw [← hbuf, List.length_map, List.length_range]
    apply List.map_congr_left
    intro i _
    show Function.update s.buf 0 addr (i + 1) = s.buf (1 + i)
    rw [Function.update_of_ne (Nat.succ_ne_zero i), Nat.add_comm]
  obtain ⟨x, hx⟩ : ∃ x, (addr :: pdu).foldl crcTurn (0xFF, 0xFF) = x := ⟨_, rfl⟩
  obtain ⟨hlow, hhigh⟩ := crc_bytes hx
  let t₁ := { s' with buf := Function.update s'.buf (1 + pdu.length) x.2 }
  let t := { s' with
    buf := Function.update t₁.buf (1 + pdu.length + 1) x.1
    sndCount := 1 + pdu.length + 2
    sndState := MbSndState.xmit }
  have hsend : eMBRTUSend s addr pdu.length = some t := by
    rw [eMBRTUSend, if_pos hs]
    show some { s' with
      buf := Function.update
        (Function.update s'.buf (1 + pdu.length) (UInt8.ofNat (usMBCRC16 (s'.frame (1 + pdu.length)) % 256)))
        (1 + pdu.length + 1) (UInt8.ofNat (usMBCRC16 (s'.frame (1 + pdu.length)) / 256))
      sndCount := 1 + pdu.length + 2
      sndState := .xmit } = some t
    rw [hframe, hlow, hhigh]
  refine ⟨t, x, hsend, hs, rfl, rfl, by show 1 + pdu.length + 2 = _; omega, rfl, hx, ?_⟩
  rw [show pdu.length + 3 = 1 + pdu.length + 1 + 1 by omega, frame_push (s := t₁) rfl,
    frame_push (s := s') (t := t₁) rfl, hframe, List.append_assoc]
  rfl

/-- A buffer full of sevens. -/
def mbIdle : MbRtu := ⟨.idle, .idle, fun _ => 7, 0, 0, 0, []⟩

/-- A receiver that took a frame does not take it with a byte, or two side by side, damaged. -/
theorem modbus_damage {f : UInt8 × List UInt8} {a b a' b' : UInt8} {pre post : List UInt8}
    {answer : Option (UInt8 × List UInt8)} (hr : r.rcvState = .idle) (hr' : r.sndState = .idle)
    (hlen : pre.length + post.length + 2 < mbSerPduSizeMax) (hne : (a, b) ≠ (a', b'))
    (h : r.hearsAll [pre ++ a :: b :: post, pre ++ a' :: b' :: post] = some [some f, answer]) :
    answer = none := by
  rw [hearsAll_eq hr hr'] at h
  · obtain ⟨hfirst, hsecond⟩ := List.cons.inj (Option.some.inj h)
    have hdamaged := mbAnswer_damage (by rw [hfirst]; exact Option.some_ne_none f) hne
    exact (List.cons.inj hsecond).1.symm.trans hdamaged
  · intro bs hbs
    have hlength : bs ≠ [] ∧ bs.length = pre.length + post.length + 2 := by
      rcases List.mem_pair.mp hbs with rfl | rfl
      all_goals
        refine ⟨List.append_ne_nil_of_right_ne_nil _ (List.cons_ne_nil _ _), ?_⟩
        simp only [List.length_append, List.length_cons]
        omega
    exact ⟨hlength.1, by omega⟩

/-- The frame of that PDU, and with another address. -/
theorem modbus_damage_first :
    (mbIdle.hearsAll [[1, 7, 7, 99, 242], [2, 7, 7, 99, 242]]).bind (·[1]?) = some none := by
  obtain ⟨answer, h⟩ : ∃ answer, mbIdle.hearsAll [[1, 7, 7, 99, 242], [2, 7, 7, 99, 242]] =
      some [some (1, [7, 7]), answer] := ⟨none, by decide +kernel⟩
  rw [h, @modbus_damage mbIdle (1, [7, 7]) 1 7 2 7 [] [7, 99, 242] answer rfl rfl (by decide) (by decide) h]
  rfl

end

end RTThread
