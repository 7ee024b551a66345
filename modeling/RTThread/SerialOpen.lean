import RTThread.Runs

namespace RTThread

/-- The words `flag`, `open_flag` and `oflag`. -/
abbrev DeviceFlags := BitVec 16

def flagStandalone : DeviceFlags := 0x008
def flagActivated : DeviceFlags := 0x010
def flagStream : DeviceFlags := 0x040
def flagIntRx : DeviceFlags := 0x100
def flagDmaRx : DeviceFlags := 0x200
def flagIntTx : DeviceFlags := 0x400
def flagDmaTx : DeviceFlags := 0x800
def oflagOpen : DeviceFlags := 0x008

def hasFlag (word flag : DeviceFlags) : Bool := word &&& flag != 0

inductive SerialMode where
  | int
  | dma
deriving DecidableEq, Repr

/-- Reception and transmission, which the code treats alike. -/
inductive SerialSide where
  | rx
  | tx
deriving DecidableEq, Repr

instance fintypeSerialSide : Fintype SerialSide where
  elems := {.rx, .tx}
  complete side := by cases side <;> simp

def SerialSide.flag : SerialSide → SerialMode → DeviceFlags
  | .rx, .int => flagIntRx
  | .rx, .dma => flagDmaRx
  | .tx, .int => flagIntTx
  | .tx, .dma => flagDmaTx

/-- The mode that a word of flags asks for; DMA comes first. -/
def SerialSide.mode (side : SerialSide) (word : DeviceFlags) : Option SerialMode :=
  if hasFlag word (side.flag .dma) then some .dma
  else if hasFlag word (side.flag .int) then some .int
  else none

/-- The flag that is set for a mode. -/
def SerialSide.modeFlag (side : SerialSide) : Option SerialMode → DeviceFlags
  | some mode => side.flag mode
  | none => 0

/-- What `serial_rx` or `serial_tx` points to: a structure allocated for a mode, and in
`struct rt_serial_tx_dma` the items of its data queue. -/
structure SerialBuffer where
  mode : SerialMode
  ptr : Nat
  items : Option Nat
deriving DecidableEq, Repr

/-- `struct rt_serial_device` and the blocks allocated for it. -/
structure SerialDevice where
  flag : DeviceFlags
  openFlag : DeviceFlags
  refCount : Nat
  buffer : SerialSide → Option SerialBuffer
  allocated : List Nat
  next : Nat

inductive DeviceCode where
  | eok
  | error
  | eio
  | ebusy
  | initFailed
deriving DecidableEq, Repr

def rtSerialInit (d : SerialDevice) : SerialDevice := { d with buffer := fun _ => none }

/-- A flag that the device does not support. -/
def unsupported (flag oflag : DeviceFlags) : Bool :=
  [flagDmaRx, flagDmaTx, flagIntRx, flagIntTx].any fun f => hasFlag oflag f && !hasFlag flag f

/-- The structure for a mode; `rt_data_queue_init` allocates as well. -/
def allocBuffer (d : SerialDevice) (side : SerialSide) (mode : SerialMode) : SerialDevice :=
  if side = .tx ∧ mode = .dma then
    { d with
      buffer := Function.update d.buffer side (some ⟨mode, d.next, some (d.next + 1)⟩)
      allocated := (d.next + 1) :: d.next :: d.allocated
      next := d.next + 2 }
  else
    { d with
      buffer := Function.update d.buffer side (some ⟨mode, d.next, none⟩)
      allocated := d.next :: d.allocated
      next := d.next + 1 }

/-- One half of `rt_serial_open`: a buffer that is there stays, the flag is set in any case. -/
def openSide (oflag : DeviceFlags) (side : SerialSide) (d : SerialDevice) : SerialDevice :=
  let d := match d.buffer side, side.mode oflag with
    | none, some mode => allocBuffer d side mode
    | _, _ => d
  { d with openFlag := d.openFlag ||| side.modeFlag (side.mode oflag) }

def rtSerialOpen (d : SerialDevice) (oflag : DeviceFlags) : DeviceCode × SerialDevice :=
  if unsupported d.flag oflag then (.eio, d)
  else
    let streamFlag :=
      if hasFlag oflag flagStream || hasFlag d.openFlag flagStream then flagStream else 0
    let d := { d with openFlag := oflag &&& 0xff }
    let d := openSide oflag .tx (openSide oflag .rx d)
    (.eok, { d with openFlag := d.openFlag ||| streamFlag })

/-- `rt_device_open` once the device is initialised; `none` is the failed assertion on a reference
count of 8 bits. -/
def openActivated (d : SerialDevice) (oflag : DeviceFlags) : Option (DeviceCode × SerialDevice) :=
  if hasFlag d.flag flagStandalone && hasFlag d.openFlag oflagOpen then some (.ebusy, d)
  else
    match rtSerialOpen d oflag with
    | (.eok, d) =>
      let d := { d with openFlag := d.openFlag ||| oflagOpen, refCount := (d.refCount + 1) % 256 }
      if d.refCount = 0 then none else some (.eok, d)
    | (code, d) => some (code, d)

/-- `configured` is whether `configure` succeeds. -/
def rtDeviceOpen (d : SerialDevice) (oflag : DeviceFlags) (configured : Bool) :
    Option (DeviceCode × SerialDevice) :=
  if hasFlag d.flag flagActivated then openActivated d oflag
  else if configured then
    openActivated { rtSerialInit d with flag := d.flag ||| flagActivated } oflag
  else some (.initFailed, rtSerialInit d)

/-- The branch of `rt_serial_close` for a mode; `none` is the failed assertion on a null pointer. -/
def closeMode (d : SerialDevice) (side : SerialSide) (mode : SerialMode) : Option SerialDevice :=
  (d.buffer side).map fun b =>
    { d with
      buffer := Function.update d.buffer side none
      allocated := d.allocated.erase b.ptr
      openFlag := d.openFlag &&& ~~~side.flag mode }

def closeSide (side : SerialSide) (d : SerialDevice) : Option SerialDevice :=
  if hasFlag d.openFlag (side.flag .int) then closeMode d side .int
  else if hasFlag d.openFlag (side.flag .dma) then closeMode d side .dma
  else some d

def rtSerialClose (d : SerialDevice) : Option SerialDevice :=
  if 1 < d.refCount then some d else (closeSide .rx d).bind (closeSide .tx)

def rtDeviceClose (d : SerialDevice) : Option (DeviceCode × SerialDevice) :=
  if d.refCount = 0 then some (.error, d)
  else
    let d := { d with refCount := d.refCount - 1 }
    if d.refCount ≠ 0 then some (.eok, d)
    else (rtSerialClose d).map fun d => (.eok, { d with openFlag := 0 })

inductive SerialOpenAction where
  | open (oflag : DeviceFlags) (configured : Bool)
  | close
deriving DecidableEq, Repr

def serialOpenCall (d : SerialDevice) : SerialOpenAction → Option (DeviceCode × SerialDevice)
  | .open oflag configured => rtDeviceOpen d oflag configured
  | .close => rtDeviceClose d

def serialOpenStep (d : SerialDevice) (a : SerialOpenAction) : Option SerialDevice :=
  (serialOpenCall d a).map Prod.snd

/-- Each flag tells which structure is there. -/
def ModesAgree (d : SerialDevice) : Prop :=
  ∀ side mode, hasFlag d.openFlag (side.flag mode) = true ↔
    (d.buffer side).map SerialBuffer.mode = some mode

/-- What holds between the calls, and what a call does not do to the modes in use. -/
def SerialFlagsRight (d d' : SerialDevice) : Prop :=
  (0 < d'.refCount → ModesAgree d') ∧
    (0 < d.refCount → 0 < d'.refCount → ∀ (side : SerialSide) mode,
      hasFlag d.openFlag (side.flag mode) = true → hasFlag d'.openFlag (side.flag mode) = true) ∧
    (d'.refCount = 0 → (∀ side, d'.buffer side = none) ∧ d'.allocated = [])

/-- The open is turned down before it touches the flags. -/
def OpenRefused (d : SerialDevice) (oflag : DeviceFlags) : Prop :=
  hasFlag d.flag flagStandalone && hasFlag d.openFlag oflagOpen ∨ unsupported d.flag oflag = true

/-- A further open asks for the modes of the buffers that are there, and the last close finds no
DMA transmitter. -/
def KeepsModes (d : SerialDevice) : SerialOpenAction → Prop
  | .open oflag _ =>
    OpenRefused d oflag ∨ ∀ side, ∀ b ∈ d.buffer side, side.mode oflag = some b.mode
  | .close => d.refCount = 1 → ∀ b ∈ d.buffer .tx, b.mode = .int

instance decidableOpenRefused (d : SerialDevice) (oflag : DeviceFlags) :
    Decidable (OpenRefused d oflag) :=
  inferInstanceAs (Decidable (_ ∨ _))

instance decidableKeepsModes : DecidableRel KeepsModes := fun d a =>
  match a with
  | .open oflag _ =>
    inferInstanceAs (Decidable (OpenRefused d oflag ∨
      ∀ side, ∀ b ∈ d.buffer side, SerialSide.mode side oflag = some b.mode))
  | .close => inferInstanceAs (Decidable (d.refCount = 1 → ∀ b ∈ d.buffer .tx, b.mode = .int))

/-- A registered device that nobody has opened. -/
structure SerialFresh (d : SerialDevice) : Prop where
  refCount : d.refCount = 0
  openFlag : d.openFlag = 0
  buffer : ∀ side, d.buffer side = none
  allocated : d.allocated = []

/-- The blocks that can still be reached. -/
def SerialBuffer.blocks : Option SerialBuffer → List Nat
  | none => []
  | some b => b.ptr :: b.items.toList

def SerialDevice.held (d : SerialDevice) : List Nat :=
  SerialBuffer.blocks (d.buffer .rx) ++ SerialBuffer.blocks (d.buffer .tx)

/-- Only DMA transmitters have a data queue. -/
def ItemsRight (d : SerialDevice) : Prop :=
  ∀ side, ∀ b ∈ d.buffer side, b.items.isSome = true ↔ side = .tx ∧ b.mode = .dma

structure SerialOpenInv (d : SerialDevice) : Prop where
  closed : d.refCount = 0 → SerialFresh d
  opened : 0 < d.refCount → ModesAgree d
  refCount : d.refCount < 256
  activated : 0 < d.refCount → hasFlag d.flag flagActivated = true
  held : d.allocated.Perm d.held
  items : ItemsRight d

section
variable {d d' : SerialDevice} {side side' : SerialSide} {mode : SerialMode} {oflag : DeviceFlags}
  {v w f : DeviceFlags} {m : Option SerialMode} {m' : SerialMode}

theorem hasFlag_or : hasFlag (v ||| w) f = (hasFlag v f || hasFlag w f) := by
  rw [Bool.eq_iff_iff]
  simp only [hasFlag, bne_iff_ne, Bool.or_eq_true, BitVec.and_or_distrib_right, ne_eq]
  have hzero := @BitVec.or_eq_zero_iff 16 (v &&& f) (w &&& f)
  tauto

theorem hasFlag_low : hasFlag (w &&& 0xff) (side.flag mode) = false := by
  have hmask : (0xff : DeviceFlags) &&& side.flag mode = 0 := by cases side <;> cases mode <;> decide
  have hzero : w &&& 0xff &&& side.flag mode = 0 := by rw [BitVec.and_assoc, hmask]; exact BitVec.and_zero
  unfold hasFlag
  rw [hzero]
  rfl

theorem hasFlag_other (hf : ~~~side'.flag m' &&& side.flag mode = side.flag mode) :
    hasFlag (w &&& ~~~side'.flag m') (side.flag mode) = hasFlag w (side.flag mode) := by
  rw [hasFlag, BitVec.and_assoc, hf]
  rfl

theorem hasFlag_modeFlag :
    hasFlag (side.modeFlag m) (side'.flag mode) = true ↔ side = side' ∧ m = some mode := by
  cases side <;> cases side' <;> cases mode <;> rcases m with _ | (_ | _) <;> decide

/-- What a side holds after a successful open. -/
theorem openSide_buffer : ((openSide oflag side d).buffer side).map SerialBuffer.mode =
    ((d.buffer side).map SerialBuffer.mode <|> side.mode oflag) := by
  unfold openSide
  cases hb : d.buffer side with
  | some b => simp [hb]
  | none =>
    cases hm : side.mode oflag with
    | none => simp [hb]
    | some mode =>
      simp only [allocBuffer]
      split <;> simp

theorem openSide_other (h : side' ≠ side) : (openSide oflag side d).buffer side' = d.buffer side' := by
  unfold openSide
  cases hb : d.buffer side <;> cases hm : side.mode oflag <;> simp only [allocBuffer]
  split <;> exact Function.update_of_ne h ..

theorem openSide_openFlag :
    (openSide oflag side d).openFlag = d.openFlag ||| side.modeFlag (side.mode oflag) := by
  unfold openSide
  cases d.buffer side <;> cases side.mode oflag <;> simp only [allocBuffer]
  split <;> rfl

theorem openSide_refCount : (openSide oflag side d).refCount = d.refCount ∧
    (openSide oflag side d).flag = d.flag := by
  unfold openSide
  cases d.buffer side <;> cases side.mode oflag <;> simp only [allocBuffer, and_self]
  split <;> exact ⟨rfl, rfl⟩

/-- The blocks that a side adds are those that it holds from then on. -/
theorem openSide_held (h : d.allocated.Perm d.held) :
    (openSide oflag side d).allocated.Perm (openSide oflag side d).held := by
  rw [List.perm_iff_count] at h ⊢
  intro x
  have hx := h x
  cases hb : d.buffer side with
  | some b =>
    have hsame : openSide oflag side d =
        { d with openFlag := d.openFlag ||| side.modeFlag (side.mode oflag) } := by
      simp [openSide, hb]
    rw [hsame]
    exact hx
  | none =>
    cases hm : side.mode oflag with
    | none =>
      have hsame : openSide oflag side d = { d with openFlag := d.openFlag ||| side.modeFlag none } := by
        simp [openSide, hb, hm]
      rw [hsame]
      exact hx
    | some mode =>
      cases side <;> cases mode <;>
        simp [openSide, hb, hm, allocBuffer, SerialDevice.held, SerialBuffer.blocks,
          List.count_append, List.count_cons] at hx ⊢ <;> omega

theorem openSide_items (h : ItemsRight d) : ItemsRight (openSide oflag side d) := by
  intro side' b hb
  by_cases hside : side' = side
  · subst hside
    revert hb
    unfold openSide
    cases hbuf : d.buffer side' with
    | some b1 =>
      intro hb
      exact h side' b (by simpa [hbuf] using hb)
    | none =>
      cases hm : side'.mode oflag with
      | none => simp [hbuf]
      | some mode =>
        simp only [allocBuffer]
        split
        · next hdma =>
          intro hb
          simp only [Option.mem_def, Function.update_self] at hb
          obtain rfl := Option.some.inj hb
          simpa using hdma
        · next hint =>
          intro hb
          simp only [Option.mem_def, Function.update_self] at hb
          obtain rfl := Option.some.inj hb
          simpa using hint
  · rw [openSide_other hside] at hb
    exact h side' b hb

/-- A successful `rt_serial_open` sets the flags of the modes it is asked for, and each side has a
buffer of the mode it had or else of that one. -/
theorem rtSerialOpen_ok (h : unsupported d.flag oflag = false) :
    ∃ d', rtSerialOpen d oflag = (.eok, d') ∧ d'.refCount = d.refCount ∧ d'.flag = d.flag ∧
      (∀ (side : SerialSide) mode,
        hasFlag d'.openFlag (side.flag mode) = true ↔ side.mode oflag = some mode) ∧
      (∀ side, (d'.buffer side).map SerialBuffer.mode =
        ((d.buffer side).map SerialBuffer.mode <|> side.mode oflag)) ∧
      (d.allocated.Perm d.held → d'.allocated.Perm d'.held) ∧ (ItemsRight d → ItemsRight d') := by
  refine ⟨(rtSerialOpen d oflag).2, ?_, ?_⟩
  · simp [rtSerialOpen, h]
  · simp only [rtSerialOpen, h, Bool.false_eq_true, if_false]
    generalize hstream : (if hasFlag oflag flagStream || hasFlag d.openFlag flagStream then flagStream
      else 0) = streamFlag
    refine ⟨?_, ?_, fun side mode => ?_, fun side => ?_, fun hheld => ?_, fun hitems => ?_⟩
    · rw [openSide_refCount.1, openSide_refCount.1]
    · rw [openSide_refCount.2, openSide_refCount.2]
    · have hnone : hasFlag streamFlag (side.flag mode) = false := by
        rw [← hstream]
        split <;> cases side <;> cases mode <;> decide
      rw [openSide_openFlag, openSide_openFlag, hasFlag_or, hasFlag_or, hasFlag_or, hasFlag_low, hnone,
        Bool.or_false, Bool.false_or, Bool.or_eq_true, hasFlag_modeFlag, hasFlag_modeFlag]
      cases side <;> simp
    · cases side with
      | rx =>
        show ((openSide oflag .tx _).buffer .rx).map _ = _
        rw [openSide_other (by decide), openSide_buffer]
      | tx =>
        show ((openSide oflag .tx _).buffer .tx).map _ = _
        rw [openSide_buffer, openSide_other (by decide)]
    · exact openSide_held (openSide_held hheld)
    · exact openSide_items (openSide_items hitems)

/-- A side is closed by the flag of the structure it holds. -/
theorem closeSide_agrees (h : ∀ mode, hasFlag d.openFlag (side.flag mode) = true ↔
    (d.buffer side).map SerialBuffer.mode = some mode) :
    ∃ d', closeSide side d = some d' ∧ d'.refCount = d.refCount ∧ d'.flag = d.flag ∧
      d'.buffer = Function.update d.buffer side none ∧
      (∀ side' mode, side' ≠ side → hasFlag d'.openFlag (side'.flag mode) =
        hasFlag d.openFlag (side'.flag mode)) ∧
      d'.allocated = match d.buffer side with
        | some b => d.allocated.erase b.ptr
        | none => d.allocated := by
  have hother : ∀ (side' : SerialSide) mode m, side' ≠ side →
      hasFlag (d.openFlag &&& ~~~side.flag m) (side'.flag mode) =
        hasFlag d.openFlag (side'.flag mode) := by
    intro side' mode m hne
    apply hasFlag_other
    revert hne
    cases side <;> cases side' <;> cases mode <;> cases m <;> decide
  unfold closeSide closeMode
  cases hb : d.buffer side with
  | none =>
    simp only [hb, Option.map_none, reduceCtorEq, iff_false] at h
    rw [if_neg (h .int), if_neg (h .dma)]
    exact ⟨d, rfl, rfl, rfl, by rw [← hb, Function.update_eq_self], fun _ _ _ => rfl, rfl⟩
  | some b =>
    simp only [hb, Option.map_some, Option.some.injEq] at h
    cases hmode : b.mode with
    | int =>
      rw [if_pos ((h .int).mpr hmode)]
      exact ⟨_, rfl, rfl, rfl, rfl, fun side' mode hne => hother side' mode .int hne, rfl⟩
    | dma =>
      rw [if_neg (fun hflag => by simpa [hmode] using (h .int).mp hflag), if_pos ((h .dma).mpr hmode)]
      exact ⟨_, rfl, rfl, rfl, rfl, fun side' mode hne => hother side' mode .dma hne, rfl⟩

/-- The last close frees the structures, but not the items of a DMA transmitter. -/
theorem rtSerialClose_agrees (h : ModesAgree d) (href : d.refCount ≤ 1)
    (hheld : d.allocated.Perm d.held) :
    ∃ d', rtSerialClose d = some d' ∧ d'.refCount = d.refCount ∧ (∀ side, d'.buffer side = none) ∧
      d'.allocated.Perm ((d.buffer .rx).toList.flatMap (·.items.toList) ++
        (d.buffer .tx).toList.flatMap (·.items.toList)) := by
  obtain ⟨d1, h1, href1, -, hbuf1, hflag1, halloc1⟩ := closeSide_agrees (h .rx)
  have htx1 : d1.buffer .tx = d.buffer .tx := by
    rw [hbuf1]
    exact Function.update_of_ne (by decide) ..
  have hagree1 : ∀ mode, hasFlag d1.openFlag (SerialSide.tx.flag mode) = true ↔
      (d1.buffer .tx).map SerialBuffer.mode = some mode := by
    intro mode
    rw [hflag1 .tx mode (by decide), htx1]
    exact h .tx mode
  obtain ⟨d2, h2, href2, -, hbuf2, -, halloc2⟩ := closeSide_agrees hagree1
  refine ⟨d2, ?_, href2.trans href1, fun side => ?_, ?_⟩
  · rw [rtSerialClose, if_neg (by omega), h1]
    exact h2
  · rw [hbuf2, hbuf1]
    cases side <;> simp
  · rw [htx1] at halloc2
    rw [List.perm_iff_count] at hheld ⊢
    intro x
    have hx := hheld x
    rw [halloc2, halloc1]
    unfold SerialDevice.held at hx
    cases hrx : d.buffer .rx <;> cases htx : d.buffer .tx <;>
      simp only [hrx, htx, SerialBuffer.blocks, List.count_append, List.count_cons, List.count_nil,
        List.count_erase, Option.toList_none, Option.toList_some, List.flatMap_nil, List.flatMap_cons,
        List.append_nil, List.nil_append, List.cons_append] at hx ⊢ <;> omega

/-- An open that is not refused counts one user more. -/
theorem openActivated_cases {code : DeviceCode} (h : openActivated d oflag = some (code, d'))
    (hlt : d.refCount < 256) :
    OpenRefused d oflag ∧ d' = d ∨
      ¬OpenRefused d oflag ∧ d'.refCount = d.refCount + 1 ∧ d'.refCount < 256 ∧ d'.flag = d.flag ∧
        (∀ (side : SerialSide) mode,
          hasFlag d'.openFlag (side.flag mode) = true ↔ side.mode oflag = some mode) ∧
        (∀ side, (d'.buffer side).map SerialBuffer.mode =
          ((d.buffer side).map SerialBuffer.mode <|> side.mode oflag)) ∧
        (d.allocated.Perm d.held → d'.allocated.Perm d'.held) ∧ (ItemsRight d → ItemsRight d') := by
  unfold openActivated at h
  unfold OpenRefused
  split at h
  · next hbusy =>
    cases h
    exact .inl ⟨.inl hbusy, rfl⟩
  · next hbusy =>
    cases hsupport : unsupported d.flag oflag with
    | true =>
      simp only [rtSerialOpen, hsupport, if_true] at h
      cases h
      exact .inl ⟨.inr rfl, rfl⟩
    | false =>
      obtain ⟨d1, h1, href, hflag, hmodes, hbuffer, hheld, hitems⟩ := rtSerialOpen_ok hsupport
      simp only [h1] at h
      split at h
      · cases h
      · next hne =>
        cases h
        refine .inr ⟨by simp [hbusy], ?_, Nat.mod_lt _ (by decide), hflag, fun side mode => ?_, hbuffer,
          hheld, hitems⟩
        · show (d1.refCount + 1) % 256 = _
          have hne : (d1.refCount + 1) % 256 ≠ 0 := hne
          omega
        · have hnone : hasFlag oflagOpen (side.flag mode) = false := by
            cases side <;> cases mode <;> decide
          rw [← hmodes side mode]
          show hasFlag (d1.openFlag ||| oflagOpen) _ = true ↔ _
          rw [hasFlag_or, hnone, Bool.or_false]

theorem openRefused_activated :
    OpenRefused { d with flag := d.flag ||| flagActivated } oflag ↔ OpenRefused d oflag := by
  have hother : ∀ f ∈ [flagStandalone, flagDmaRx, flagDmaTx, flagIntRx, flagIntTx],
      hasFlag (d.flag ||| flagActivated) f = hasFlag d.flag f := by
    intro f hf
    have hnone : hasFlag flagActivated f = false := by
      simp only [List.mem_cons, List.not_mem_nil, or_false] at hf
      rcases hf with rfl | rfl | rfl | rfl | rfl <;> decide
    rw [hasFlag_or, hnone, Bool.or_false]
  simp only [List.mem_cons, List.not_mem_nil, or_false, forall_eq_or_imp, forall_eq] at hother
  simp [OpenRefused, unsupported, hother]

/-- Either nothing but the state of initialisation changes, or there is one user more. -/
theorem rtDeviceOpen_cases {code : DeviceCode} {configured : Bool} (hd : SerialOpenInv d)
    (h : rtDeviceOpen d oflag configured = some (code, d')) :
    (OpenRefused d oflag ∨ d.refCount = 0) ∧ d' = { d with flag := d'.flag } ∧
        (0 < d.refCount → hasFlag d'.flag flagActivated = true) ∨
      ¬OpenRefused d oflag ∧ d'.refCount = d.refCount + 1 ∧ d'.refCount < 256 ∧
        hasFlag d'.flag flagActivated = true ∧
        (∀ (side : SerialSide) mode,
          hasFlag d'.openFlag (side.flag mode) = true ↔ side.mode oflag = some mode) ∧
        (∀ side, (d'.buffer side).map SerialBuffer.mode =
          ((d.buffer side).map SerialBuffer.mode <|> side.mode oflag)) ∧
        d'.allocated.Perm d'.held ∧ ItemsRight d' := by
  unfold rtDeviceOpen at h
  split at h
  · next hact =>
    obtain ⟨hrefused, rfl⟩ | ⟨hopen, href, hlt, hflag, hmodes, hbuffer, hheld, hitems⟩ :=
      openActivated_cases h hd.refCount
    · exact .inl ⟨.inl hrefused, rfl, fun _ => hact⟩
    · exact .inr ⟨hopen, href, hlt, hflag ▸ hact, hmodes, hbuffer, hheld hd.held, hitems hd.items⟩
  · next hact =>
    have hzero : d.refCount = 0 := by
      by_contra hne
      exact hact (hd.activated (Nat.pos_of_ne_zero hne))
    have hinit : rtSerialInit d = d := by
      have hnone : d.buffer = fun _ => none := funext (hd.closed hzero).buffer
      rw [rtSerialInit, ← hnone]
    rw [hinit] at h
    split at h
    · obtain ⟨-, rfl⟩ | ⟨hopen, href, hlt, hflag, hmodes, hbuffer, hheld, hitems⟩ :=
        openActivated_cases h hd.refCount
      · exact .inl ⟨.inr hzero, rfl, fun hpos => absurd hzero (Nat.pos_iff_ne_zero.mp hpos)⟩
      · have hactive : hasFlag (d.flag ||| flagActivated) flagActivated = true := by
          rw [hasFlag_or]
          exact Bool.or_eq_true_iff.mpr (.inr rfl)
        exact .inr ⟨fun hr => hopen (openRefused_activated.mpr hr), href, hlt, hflag ▸ hactive, hmodes,
          hbuffer, hheld hd.held, hitems hd.items⟩
    · cases h
      exact .inl ⟨.inr hzero, rfl, fun hpos => absurd hzero (Nat.pos_iff_ne_zero.mp hpos)⟩

theorem SerialOpenInv.flagsRight (hd : SerialOpenInv d) (hopen : d'.openFlag = d.openFlag)
    (hbuffer : d'.buffer = d.buffer) (halloc : d'.allocated = d.allocated)
    (href : d'.refCount = 0 ↔ d.refCount = 0) : SerialFlagsRight d d' := by
  refine ⟨fun hpos => ?_, fun _ _ side mode hflag => hopen ▸ hflag, fun hzero => ?_⟩
  · have hagree := hd.opened (by omega)
    unfold ModesAgree at hagree ⊢
    rwa [hopen, hbuffer]
  · have hclosed := hd.closed (href.mp hzero)
    rw [hbuffer, halloc]
    exact ⟨hclosed.buffer, hclosed.allocated⟩

theorem serialOpen_right {oflag : DeviceFlags} {configured : Bool} (hd : SerialOpenInv d)
    (hs : serialOpenStep d (.open oflag configured) = some d') :
    SerialFlagsRight d d' ↔ KeepsModes d (.open oflag configured) := by
  obtain ⟨⟨code, d1⟩, h, rfl⟩ := Option.map_eq_some_iff.mp hs
  obtain ⟨hor, hd1, -⟩ | ⟨hopen, href, -, -, hmodes, hbuffer, -, -⟩ := rtDeviceOpen_cases hd h
  · have hright : SerialFlagsRight d d1 :=
      hd.flagsRight (by rw [hd1]) (by rw [hd1]) (by rw [hd1]) (by rw [hd1])
    refine iff_of_true hright (hor.imp_right fun hzero side b hb => ?_)
    rw [(hd.closed hzero).buffer side] at hb
    cases hb
  · constructor
    · intro hright
      refine .inr fun side b hb => ?_
      have hagree := hright.1 (show 0 < d1.refCount by omega) side b.mode
      have hhas : (d1.buffer side).map SerialBuffer.mode = some b.mode := by
        rw [hbuffer side, Option.mem_def.mp hb]
        rfl
      exact (hmodes side b.mode).mp (hagree.mpr hhas)
    · intro hkeeps
      have hsame := hkeeps.resolve_left hopen
      refine ⟨fun _ side mode => ?_, fun hpos _ side mode hflag => ?_, fun hzero => ?_⟩
      · rw [hmodes, hbuffer]
        cases hb : d.buffer side with
        | none => rfl
        | some b => rw [hsame side b hb]; rfl
      · have hhad := (hd.opened hpos side mode).mp hflag
        obtain ⟨b, hb, rfl⟩ := Option.map_eq_some_iff.mp hhad
        exact (hmodes side b.mode).mpr (hsame side b hb)
      · have hpos : d1.refCount ≠ 0 := by omega
        exact absurd hzero hpos

/-- What the last close leaves. -/
theorem rtDeviceClose_last (hd : SerialOpenInv d) (hone : d.refCount = 1) :
    ∃ d', rtDeviceClose d = some (.eok, d') ∧ d'.refCount = 0 ∧ d'.openFlag = 0 ∧
      (∀ side, d'.buffer side = none) ∧
      (d'.allocated = [] ↔ ∀ b ∈ d.buffer .tx, b.mode = .int) := by
  obtain ⟨d1, h1, href, hbuffer, halloc⟩ := rtSerialClose_agrees (d := { d with refCount := 0 })
    (hd.opened (by omega)) (Nat.zero_le 1) hd.held
  refine ⟨{ d1 with openFlag := 0 }, ?_, href, rfl, hbuffer, ?_⟩
  · simp only [rtDeviceClose, hone, Nat.sub_self]
    rw [if_neg (by decide), if_neg (by decide), h1]
    rfl
  · show d1.allocated = [] ↔ _
    have hrx : ((d.buffer .rx).toList.flatMap fun b => b.items.toList) = [] := by
      cases hb : d.buffer .rx with
      | none => rfl
      | some b =>
        have hitems := hd.items .rx b hb
        simp at hitems
        simp [hitems]
    have htx : ((d.buffer .tx).toList.flatMap fun b => b.items.toList) = [] ↔
        ∀ b ∈ d.buffer .tx, b.mode = .int := by
      cases hb : d.buffer .tx with
      | none => simp
      | some b =>
        have hitems := hd.items .tx b hb
        cases hitem : b.items <;> cases hmode : b.mode <;> simp [hitem, hmode] at hitems ⊢
    rw [← htx, ← List.perm_nil.eq, halloc.congr_left, hrx, List.nil_append, List.perm_nil]

theorem serialClose_right (hd : SerialOpenInv d) (hs : serialOpenStep d .close = some d') :
    SerialFlagsRight d d' ↔ KeepsModes d .close := by
  obtain ⟨⟨code, d1⟩, h, rfl⟩ := Option.map_eq_some_iff.mp hs
  by_cases hone : d.refCount = 1
  · obtain ⟨d2, h2, href, hopen, hbuffer, halloc⟩ := rtDeviceClose_last hd hone
    obtain ⟨-, rfl⟩ := Prod.mk.inj (Option.some.inj (h2.symm.trans h))
    simp [SerialFlagsRight, KeepsModes, href, hbuffer, halloc, hone]
  · have hright : SerialFlagsRight d d1 := by
      change rtDeviceClose d = _ at h
      unfold rtDeviceClose at h
      split at h
      · cases h
        exact hd.flagsRight rfl rfl rfl Iff.rfl
      · next hpos =>
        rw [if_pos (show d.refCount - 1 ≠ 0 by omega)] at h
        cases h
        exact hd.flagsRight rfl rfl rfl (show d.refCount - 1 = 0 ↔ _ by omega)
    exact iff_of_true hright fun h1 => absurd h1 hone

theorem serialOpenStep_right {a : SerialOpenAction} (hd : SerialOpenInv d)
    (hs : serialOpenStep d a = some d') : SerialFlagsRight d d' ↔ KeepsModes d a := by
  cases a with
  | «open» oflag configured => exact serialOpen_right hd hs
  | close => exact serialClose_right hd hs

theorem serialOpenStep_inv {a : SerialOpenAction} (hd : SerialOpenInv d)
    (hright : SerialFlagsRight d d') (hs : serialOpenStep d a = some d') : SerialOpenInv d' := by
  obtain ⟨⟨code, d1⟩, h, rfl⟩ := Option.map_eq_some_iff.mp hs
  cases a with
  | «open» oflag configured =>
    obtain ⟨-, hd1, hact⟩ | ⟨-, href, hlt, hact, -, -, hheld, hitems⟩ := rtDeviceOpen_cases hd h
    · refine ⟨fun hzero => ?_, hright.1, ?_, fun hpos => hact ?_, ?_, ?_⟩
      · have hfresh := hd.closed (by rw [hd1] at hzero; exact hzero)
        rw [hd1]
        exact ⟨hfresh.refCount, hfresh.openFlag, hfresh.buffer, hfresh.allocated⟩
      · rw [hd1]
        exact hd.refCount
      · rw [hd1] at hpos
        exact hpos
      · rw [hd1]
        exact hd.held
      · rw [hd1]
        exact hd.items
    · have hpos : d1.refCount ≠ 0 := by omega
      exact ⟨fun hzero => absurd hzero hpos, hright.1, hlt, fun _ => hact, hheld, hitems⟩
  | close =>
    by_cases hone : d.refCount = 1
    · obtain ⟨d2, h2, href, hopen, hbuffer, -⟩ := rtDeviceClose_last hd hone
      obtain ⟨-, rfl⟩ := Prod.mk.inj (Option.some.inj (h2.symm.trans h))
      have halloc : d2.allocated = [] := (hright.2.2 href).2
      refine ⟨fun _ => ⟨href, hopen, hbuffer, halloc⟩, hright.1, ?_, fun hpos => ?_, ?_, ?_⟩
      · show d2.refCount < 256
        omega
      · have hpos : 0 < d2.refCount := hpos
        omega
      · show d2.allocated.Perm d2.held
        simp [halloc, SerialDevice.held, hbuffer, SerialBuffer.blocks]
      · intro side b hb
        rw [hbuffer side] at hb
        cases hb
    · change rtDeviceClose d = _ at h
      unfold rtDeviceClose at h
      split at h
      · cases h
        exact hd
      · next hpos =>
        rw [if_pos (show d.refCount - 1 ≠ 0 by omega)] at h
        cases h
        have hlt := hd.refCount
        exact ⟨fun hzero => absurd (show d.refCount - 1 = 0 from hzero) (by omega), hright.1,
          (show d.refCount - 1 < 256 by omega), fun _ => hd.activated (by omega), hd.held, hd.items⟩

theorem SerialFresh.inv (h : SerialFresh d) : SerialOpenInv d where
  closed _ := h
  opened hpos := absurd h.refCount (Nat.pos_iff_ne_zero.mp hpos)
  refCount := by rw [h.refCount]; decide
  activated hpos := absurd h.refCount (Nat.pos_iff_ne_zero.mp hpos)
  held := by simp [h.allocated, SerialDevice.held, h.buffer, SerialBuffer.blocks]
  items side b hb := by
    rw [h.buffer side] at hb
    cases hb

/-- The flags are right throughout a run exactly if each further open asks for the modes that are
there and no last close meets a DMA transmitter. -/
theorem serialRun_flagsRight_iff {as : List SerialOpenAction} (h : SerialFresh d)
    (hrun : runFrom serialOpenStep as d = some d') :
    RunMeets serialOpenStep (fun d a => ∀ d1 ∈ serialOpenStep d a, SerialFlagsRight d d1) as d ↔
      RunMeets serialOpenStep KeepsModes as d := by
  apply runMeets_iff (I := SerialOpenInv) _ _ h.inv hrun
  · intro d a d1 hd hs
    rw [← serialOpenStep_right hd hs]
    exact ⟨fun hall => hall d1 hs, fun hright d2 h2 => Option.some.inj (hs.symm.trans h2) ▸ hright⟩
  · intro d a d1 hd hok hs
    exact serialOpenStep_inv hd (hok d1 hs) hs

end

/-- A device with all modes. -/
def closedSerial : SerialDevice := ⟨0xf03, 0, 0, fun _ => none, [], 0⟩

theorem closedSerial_fresh : SerialFresh closedSerial := ⟨rfl, rfl, fun _ => rfl, rfl⟩

/-- Two users that read with interrupts. -/
def twoReaders : List SerialOpenAction :=
  [.open flagIntRx true, .open (flagIntRx ||| flagStream) true, .close, .close]

theorem serialRun_flagsRight_twoReaders : RunMeets serialOpenStep
    (fun d a => ∀ d1 ∈ serialOpenStep d a, SerialFlagsRight d d1) twoReaders closedSerial := by
  obtain ⟨d1, hrun⟩ : ∃ d1, runFrom serialOpenStep twoReaders closedSerial = some d1 := ⟨_, rfl⟩
  exact (serialRun_flagsRight_iff closedSerial_fresh hrun).mpr (by decide)

/-- A second user that only writes takes the flag from the one that reads. -/
theorem serialOpen_loses_mode : ∃ d1 d2,
    runFrom serialOpenStep [.open flagIntRx true] closedSerial = some d1 ∧
      serialOpenStep d1 (.open 0 true) = some d2 ∧ hasFlag d1.openFlag flagIntRx = true ∧
      hasFlag d2.openFlag flagIntRx = false ∧ (d2.buffer .rx).map SerialBuffer.mode = some .int ∧
      ¬SerialFlagsRight d1 d2 := by
  refine ⟨_, _, rfl, rfl, rfl, rfl, rfl, fun h => ?_⟩
  have hkept := h.2.1 (by decide) (by decide) .rx .int rfl
  exact absurd hkept (by decide)

end RTThread
