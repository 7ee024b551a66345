import RTThread.ByteStores
import RTThread.PrintfNumerals
import RTThread.UlogBackends

namespace RTThread

/-- The stores of `rt_vsnprintf`. -/
def printfStores (buf size : Nat) (ps : List Piece) : List (Nat × UInt8) :=
  (storesAt buf (storedOutput buf size ps)).filter (fun s => s.1 ≤ bufferEnd buf size) ++
    [(min (word (buf + (storedOutput buf size ps).length)) (bufferEnd buf size), 0)]

def printfResult (buf size : Nat) (ps : List Piece) : Int :=
  Int.bmod (wordSub (word (buf + (storedOutput buf size ps).length)) buf) 4294967296

section
variable {m : Memory} {buf size e : Nat} {ps : List Piece} {fmt : List UInt8}
  {args : List PrintfArg}

theorem putAll_stores (out : List UInt8) : (putAll e ⟨m, buf⟩ out).mem =
    storeAll m ((storesAt buf out).filter fun s => s.1 ≤ e) := by
  induction out generalizing m buf with
  | nil => rfl
  | cons ch out ih =>
    rw [putAll_cons, storesAt, List.filter_cons]
    by_cases hle : buf ≤ e
    · rw [if_pos (by simpa using hle), storeAll_cons, ← ih]
      simp only [put, if_pos hle]
    · rw [if_neg (by simpa using hle), ← ih]
      simp only [put, if_neg hle]

theorem rtVsnprintf_stores (hps : formatPieces fmt args = some ps) (hbuf : buf < 4294967296) :
    rtVsnprintf m buf size fmt args = some (storeAll m (printfStores buf size ps),
      printfResult buf size ps) := by
  rw [rtVsnprintf_eq hps hbuf, putAll_stores]
  unfold printfStores
  rw [storeAll_append]
  rfl

theorem printfStores_put {i : Nat} (hbuf : buf < 4294967296)
    (hi : i < (storedOutput buf size ps).length)
    (hle : word (buf + i) ≤ bufferEnd buf size) :
    Stored (printfStores buf size ps) (word (buf + i)) := by
  refine ⟨(word (buf + i), (storedOutput buf size ps)[i]), List.mem_append_left _ ?_, rfl⟩
  rw [List.mem_filter]
  exact ⟨(mem_storesAt hbuf).mpr ⟨i, List.getElem?_eq_getElem hi, rfl⟩, by simpa using hle⟩

variable (buf size ps) in
theorem printfStores_nul : Stored (printfStores buf size ps)
    (min (word (buf + (storedOutput buf size ps).length)) (bufferEnd buf size)) :=
  ⟨_, List.mem_append_right _ (List.mem_singleton.mpr rfl), rfl⟩

/-- A size of 0 does not stop the first store. -/
theorem printfStores_zero (hbuf : 0 < buf) (htop : buf < 4294967296) :
    Stored (printfStores buf 0 ps) buf := by
  have hend := bufferEnd_zero hbuf htop
  rcases Nat.eq_zero_or_pos (storedOutput buf 0 ps).length with hnil | hpos
  · have hnul := printfStores_nul buf 0 ps
    rwa [hnil, hend, Nat.add_zero, word_of_lt htop, Nat.min_eq_left (by omega)] at hnul
  · have hput := printfStores_put (i := 0) htop hpos
      (by rw [hend]; have := word_lt (buf + 0); omega)
    rwa [Nat.add_zero, word_of_lt htop] at hput

/-- An output past the top of the address space comes to the address 0. -/
theorem printfStores_wraps (htop : buf < 4294967296) (hsize : 0 < size) (hword : size < 4294967296)
    (hlong : ¬ buf + (sizedOutput size ps).length < 4294967296) :
    Stored (printfStores buf size ps) 0 := by
  have hstored : 4294967296 ≤ buf + (storedOutput buf size ps).length := by
    by_contra hshort
    rw [storedOutput_sized ps hsize hword htop (.inl (by omega))] at hshort
    omega
  have hwrap : word 4294967296 = 0 := rfl
  rcases Nat.eq_or_lt_of_le hstored with heq | hlt
  · have hnul := printfStores_nul buf size ps
    rwa [← heq, hwrap, Nat.zero_min] at hnul
  · have hput := @printfStores_put buf size ps (4294967296 - buf) htop (by omega)
      (by rw [Nat.add_sub_cancel' htop.le, hwrap]; exact Nat.zero_le _)
    rwa [Nat.add_sub_cancel' htop.le, hwrap] at hput

theorem printfStores_within (hps : formatPieces fmt args = some ps) (hsize : 0 < size)
    (hword : size < 4294967296) (hfits : buf + (sizedOutput size ps).length < 4294967296) :
    StoresWithin buf size (printfStores buf size ps) ∧
      ∀ m, HoldsBytes (storeAll m (printfStores buf size ps)) buf
        ((unboundedOutput ps).take (size - 1)) ∧
        (storeAll m (printfStores buf size ps)).byte
          (buf + min (size - 1) (unboundedOutput ps).length) = 0 := by
  have hbounded := fun m => outputBounded_of_fits hps hsize hword hfits m _ _
    (rtVsnprintf_stores hps (by omega))
  refine ⟨storesWithin_iff.mpr fun m => (hbounded m).1,
    fun m => ⟨fun i hi => ?_, ((hbounded m).2 hsize).1⟩⟩
  rw [List.length_take] at hi
  have hat := ((hbounded m).2 hsize).2 i hi
  rw [List.getElem_take]
  exact ((List.getElem?_eq_some_iff.mp hat).2).symm

theorem sizedOutput_min (size : Nat) (ps : List Piece) :
    min size (sizedOutput size ps).length = min size (unboundedOutput ps).length :=
  render_length_min size ps

theorem printfResult_fits (hsize : 0 < size) (hword : size < 4294967296)
    (hfits : buf + (sizedOutput size ps).length < 4294967296) :
    printfResult buf size ps = Int.bmod (sizedOutput size ps).length 4294967296 := by
  unfold printfResult
  rw [storedOutput_sized ps hsize hword (by omega) (.inr hfits), wordSub_word (by omega) (by omega)]

end

def levelOutputInfo : Fin 8 → Option (List UInt8) :=
  ![some [65, 47], none, none, some [69, 47], some [87, 47], none, some [73, 47], some [68, 47]]

/-- What the build prints in front of a line, with the values it has then. -/
inductive LogTime where
  | off
  | tick (n : UInt32)
  | date (mon mday hour min sec : Fin 100)
  | dateTick (mon mday hour min sec : Fin 100) (ms : Fin 1000)
deriving DecidableEq

structure UlogFilter where
  level : Nat
  tagLvlList : List (List UInt8 × Nat)
  tagMaxLen : Nat
  tag : List UInt8
  keyword : List UInt8

/-- The build and the state of ulog; `color` is `none` without `ULOG_USING_COLOR`, `filter` without
`ULOG_USING_FILTER`. -/
structure UlogConfig where
  lineBufSize : Nat
  newlineSign : List UInt8
  color : Option ColorTable
  outputLevel : Bool
  outputTag : Bool
  outputThreadName : Bool
  initOk : Bool
  filter : Option UlogFilter
  size_ge : 80 ≤ lineBufSize
  size_lt : lineBufSize < 2147483648
  newline_pos : 0 < newlineSign.length
  newline_fits : newlineSign.length + 4 ≤ lineBufSize
  color_short : ∀ table ∈ color, ∀ level, ∀ sign ∈ table level, sign.length ≤ 16

/-- The format of the time and its arguments. -/
def LogTime.format : LogTime → Option (List UInt8 × List PrintfArg)
  | .off => none
  | .tick n => some ([91, 37, 100, 93], [.word n])
  | .date mon mday hour min sec =>
    some ([37, 48, 50, 100, 45, 37, 48, 50, 100, 32, 37, 48, 50, 100, 58, 37, 48, 50, 100, 58, 37,
      48, 50, 100],
      [mon, mday, hour, min, sec].map fun n => .word (UInt32.ofNat n.val))
  | .dateTick mon mday hour min sec ms =>
    some ([37, 48, 50, 100, 45, 37, 48, 50, 100, 32, 37, 48, 50, 100, 58, 37, 48, 50, 100, 58, 37,
      48, 50, 100,
        46, 37, 48, 51, 100],
      [mon, mday, hour, min, sec].map (fun n => .word (UInt32.ofNat n.val)) ++
        [.word (UInt32.ofNat ms.val)])

def timeNumber (width : Int) (n : Nat) : Piece :=
  .number (UInt32.ofNat n) 10 width (-1) { PrintFlags.none with sign := true, zeropad := true }

def datePieces (mon mday hour min sec : Fin 100) : List Piece :=
  [timeNumber 2 mon.val, .char 45, timeNumber 2 mday.val, .char 32, timeNumber 2 hour.val, .char 58,
    timeNumber 2 min.val, .char 58, timeNumber 2 sec.val]

def LogTime.pieces : LogTime → List Piece
  | .off => []
  | .tick n => [.char 91, .number n 10 (-1) (-1) { PrintFlags.none with sign := true }, .char 93]
  | .date mon mday hour min sec => datePieces mon mday hour min sec
  | .dateTick mon mday hour min sec ms =>
    datePieces mon mday hour min sec ++ [.char 46, timeNumber 3 ms.val]

theorem LogTime.format_pieces (time : LogTime) :
    ∀ f ∈ time.format, formatPieces f.1 f.2 = some time.pieces := by
  intro f hf
  cases time with
  | off => cases hf
  | tick n =>
    obtain rfl := Option.some.inj hf
    rfl
  | date mon mday hour min sec =>
    obtain rfl := Option.some.inj hf
    rfl
  | dateTick mon mday hour min sec ms =>
    obtain rfl := Option.some.inj hf
    rfl

def LogTime.text (time : LogTime) : List UInt8 := unboundedOutput time.pieces

theorem numberTmp_spec {num k : Nat} (flags : PrintFlags) (hword : num < 4294967296)
    (h : num < 10 ^ (k + 1)) :
    (numberTmp flags 10 num).length ≤ k + 1 ∧ (0 : UInt8) ∉ numberTmp flags 10 num := by
  rw [numberTmp_eq flags hword]
  constructor
  · rw [List.length_map, numberVals]
    split
    next => exact Nat.succ_le_succ (Nat.zero_le k)
    next => exact (Nat.digits_length_le_iff (by decide) num).mpr h
  · intro hzero
    obtain ⟨v, hv, hch⟩ := List.mem_map.mp hzero
    have hdigit := digitOf_digitChar flags v ((numberVals_lt hv).trans_le (by decide))
    rw [hch] at hdigit
    exact absurd hdigit (by rw [show digitOf 0 = none from rfl]; exact fun hnone => by cases hnone)

theorem numberSign_list (flags : PrintFlags) (num : UInt32) :
    (numberSign flags num).1.toList.length ≤ 1 ∧ (0 : UInt8) ∉ (numberSign flags num).1.toList := by
  rcases numberSign_mem flags num with h | h | h | h
  · rw [h]
    decide
  · rw [h]
    decide
  · rw [h]
    decide
  · rw [h]
    decide

/-- A number of at most `k + 1` digits, in a field that is no wider, takes at most a sign more. -/
theorem number_spec {num : UInt32} {k : Nat} {s : Int} {flags : PrintFlags}
    (h : (numberSign flags num).2.toNat < 10 ^ (k + 1)) (hs : s ≤ k + 1) :
    (pieceOut true (.number num 10 s (-1) flags)).length ≤ k + 2 ∧
      (0 : UInt8) ∉ pieceOut true (.number num 10 s (-1) flags) := by
  obtain ⟨hsign, hsign0⟩ := numberSign_list flags num
  obtain ⟨htmp, htmp0⟩ := numberTmp_spec flags (UInt32.toNat_lt _) h
  have hdigits : numberDigits (numberTmp flags 10 (numberSign flags num).2.toNat) (-1) =
      (numberTmp flags 10 (numberSign flags num).2.toNat).reverse := by
    unfold numberDigits
    rw [Int.toNat_of_nonpos (by omega), List.replicate_zero, List.nil_append]
  simp only [pieceOut, numberField, hdigits]
  constructor
  · rw [signedField_length, List.length_reverse]
    unfold numberRoom
    rw [List.length_reverse]
    omega
  · rw [← List.mem_reverse] at htmp0
    have hpad : ∀ n : Nat, ∀ ch ∈ [ascii ' ', ascii '0'], (0 : UInt8) ∉ List.replicate n ch := by
      intro n ch hch hzero
      rw [← List.eq_of_mem_replicate hzero] at hch
      exact absurd hch (by decide)
    unfold signedField
    split
    next => simp only [List.mem_append, hsign0, htmp0, hpad _ (ascii ' ') (by decide), or_false,
      not_false_eq_true]
    next =>
      split
      next => simp only [List.mem_append, hsign0, htmp0, hpad _ (ascii '0') (by decide), or_false,
        not_false_eq_true]
      next => simp only [List.mem_append, hsign0, htmp0, hpad _ (ascii ' ') (by decide), or_false,
        not_false_eq_true]

theorem timeNumber_spec {width : Int} {n k : Nat}
    (h : n < 10 ^ (k + 1)) (hk : k ≤ 2) (hwidth : width ≤ k + 1) :
    (pieceOut true (timeNumber width n)).length ≤ k + 2 ∧
    (0 : UInt8) ∉ pieceOut true (timeNumber width n) := by
  have hpow : 10 ^ (k + 1) ≤ 10 ^ 3 := Nat.pow_le_pow_right (by decide) (by omega)
  have hword : (UInt32.ofNat n).toNat = n := by
    rw [UInt32.toNat_ofNat']
    exact Nat.mod_eq_of_lt (by omega)
  apply number_spec
  · have hsign :
        numberSign { PrintFlags.none with sign := true, zeropad := true } (UInt32.ofNat n) =
        (none, UInt32.ofNat n) := by
      unfold numberSign
      rw [if_pos rfl, if_neg (by rw [hword]; omega), if_neg (by decide), if_neg (by decide)]
    rw [hsign, hword]
    exact h
  · exact hwidth

/-- The time is short, and its end in the buffer is the NUL behind it. -/
theorem LogTime.text_spec (time : LogTime) : time.text.length ≤ 24 ∧ (0 : UInt8) ∉ time.text := by
  have hpair : ∀ n : Fin 100, (pieceOut true (timeNumber 2 n.val)).length ≤ 3 ∧
      (0 : UInt8) ∉ pieceOut true (timeNumber 2 n.val) :=
    fun n => timeNumber_spec (k := 1) n.isLt (by decide) (by decide)
  have hdate : ∀ mon mday hour min sec,
      (unboundedOutput (datePieces mon mday hour min sec)).length ≤ 19 ∧
      (0 : UInt8) ∉ unboundedOutput (datePieces mon mday hour min sec) := by
    intro mon mday hour min sec
    have h1 := hpair mon
    have h2 := hpair mday
    have h3 := hpair hour
    have h4 := hpair min
    have h5 := hpair sec
    simp only [datePieces, unboundedOutput, List.flatMap_cons, List.flatMap_nil, List.length_append,
      List.mem_append,
      List.length_nil, h1.2, h2.2, h3.2, h4.2, h5.2, false_or]
    refine ⟨?_, by simp [pieceOut]⟩
    simp only [pieceOut, List.length_singleton] at *
    omega
  cases time with
  | off => exact ⟨by decide, by decide⟩
  | tick n =>
    have hn := @number_spec n 9 (-1) { PrintFlags.none with sign := true }
      ((UInt32.toNat_lt _).trans (by decide)) (by decide)
    simp only [LogTime.text, LogTime.pieces, unboundedOutput, List.flatMap_cons, List.flatMap_nil,
      List.length_append, List.mem_append, List.length_nil, hn.2, false_or]
    refine ⟨?_, by simp [pieceOut]⟩
    have hlength := hn.1
    simp only [pieceOut, List.length_singleton] at hlength ⊢
    omega
  | date mon mday hour min sec =>
    have hd := hdate mon mday hour min sec
    exact ⟨hd.1.trans (by decide), hd.2⟩
  | dateTick mon mday hour min sec ms =>
    have hd := hdate mon mday hour min sec
    have hn := timeNumber_spec (k := 2) ms.isLt (by decide) (show (3 : Int) ≤ 2 + 1 by decide)
    simp only [LogTime.text, LogTime.pieces, unboundedOutput_append, unboundedOutput_cons,
      List.length_append,
      List.mem_append, hd.2, hn.2, false_or]
    refine ⟨?_, by simp [pieceOut, unboundedOutput]⟩
    have hlength := hn.1
    simp only [pieceOut, unboundedOutput, List.flatMap_nil, List.length_nil,
      List.length_singleton] at hd hlength ⊢
    omega

/-- The memory with the line buffer in it and the running `log_len`. -/
structure LogBuf where
  mem : Memory
  len : Nat

/-- `ulog_strcpy`: the memory and the number of bytes copied. -/
def ulogStrcpy (size : Nat) (m : Memory) (curLen dst : Nat) : List UInt8 → Memory × Nat
  | [] => (m, 0)
  | ch :: src =>
    if curLen ≤ size then
      let r := ulogStrcpy size (write8 m dst ch.toNat) (curLen + 1) (word (dst + 1)) src
      (r.1, r.2 + 1)
    else (m, 0)

/-- `rt_strlen`, with at most `fuel` bytes looked at. -/
def rtStrlen (m : Memory) : Nat → Nat → Option Nat
  | 0, _ => none
  | fuel + 1, s => if m.byte s = 0 then some 0 else (rtStrlen m fuel (word (s + 1))).map (· + 1)

/-- A call of `ulog_formater`; `threadName` is the name of the thread, or `ISR`. -/
structure LogCall where
  level : Fin 8
  tag : List UInt8
  newline : Bool
  format : List UInt8
  args : List PrintfArg
  time : LogTime
  threadName : List UInt8

namespace UlogConfig

variable (c : UlogConfig) (buf : Nat)

/-- `log_len += ulog_strcpy(log_len, log_buf + log_len, src);` -/
def append (b : LogBuf) (src : List UInt8) : LogBuf :=
  let r := ulogStrcpy c.lineBufSize b.mem b.len (word (buf + b.len)) src
  ⟨r.1, b.len + r.2⟩

def levelColor (level : Fin 8) : Option (List UInt8) := c.color.bind fun table => table level

def addColor (level : Fin 8) (b : LogBuf) : LogBuf :=
  match c.levelColor level with
  | some color => c.append buf (c.append buf b csiStart) color
  | none => b

/-- `rt_snprintf` behind what the line has so far. -/
def addTime (time : LogTime) (b : LogBuf) : Option LogBuf :=
  match time.format with
  | none => some b
  | some (fmt, args) => do
    let (m, _) ← rtVsnprintf b.mem (word (buf + b.len)) (wordSub c.lineBufSize b.len) fmt args
    let n ← rtStrlen m (c.lineBufSize + 1) (word (buf + b.len))
    some ⟨m, b.len + n⟩

def spaceAfter (p : Bool) (b : LogBuf) : LogBuf := if p then c.append buf b [32] else b

/-- `none` is the failed assertion of `ulog_strcpy` on a level without a name. -/
def addLevel (call : LogCall) (b : LogBuf) : Option LogBuf :=
  if c.outputLevel then
    (levelOutputInfo call.level).map (c.append buf (c.spaceAfter buf (call.time ≠ .off) b))
  else some b

def addTag (call : LogCall) (b : LogBuf) : LogBuf :=
  if c.outputTag then
    c.append buf (c.spaceAfter buf (!c.outputLevel && call.time ≠ .off) b) call.tag
  else b

def addName (call : LogCall) (b : LogBuf) : LogBuf :=
  if c.outputThreadName then
    let b := c.spaceAfter buf (call.time ≠ .off || c.outputLevel || c.outputTag) b
    c.append buf b call.threadName
  else b

/-- What is kept free for the newline sign and the end of the colours. -/
def reserve : Nat := (if c.color.isSome then csiEnd.length else 0) + c.newlineSign.length

def addText (call : LogCall) (b : LogBuf) : Option LogBuf := do
  let (m, fmtResult) ← rtVsnprintf b.mem (word (buf + b.len))
    (wordSub c.lineBufSize b.len) call.format call.args
  let len :=
    if b.len + fmtResult ≤ c.lineBufSize ∧ fmtResult > -1 then b.len + fmtResult.toNat
    else c.lineBufSize
  some ⟨m, if c.lineBufSize < len + c.reserve then c.lineBufSize - c.reserve else len⟩

def addEnd (call : LogCall) (b : LogBuf) : LogBuf :=
  let b := if call.newline then c.append buf b c.newlineSign else b
  if (c.levelColor call.level).isSome then c.append buf b csiEnd else b

/-- `ulog_formater`. -/
def ulogFormater (call : LogCall) (m : Memory) : Option LogBuf := do
  let b ← c.addTime buf call.time (c.addColor buf call.level ⟨m, 0⟩)
  let b ← c.addLevel buf call b
  let b := c.addName buf call (c.addTag buf call b)
  let b ← c.addText buf call (c.append buf b [58, 32])
  some (c.addEnd buf call b)

/-- `ulog_tag_lvl_filter_get`. -/
def tagLvlFilterGet (f : UlogFilter) (tag : List UInt8) : Nat :=
  ((f.tagLvlList.find? fun e => e.1.take f.tagMaxLen == tag.take f.tagMaxLen).map Prod.snd).getD 7

/-- Whether the level filters or the tag filter stop the call. -/
def filtered (call : LogCall) : Bool :=
  c.filter.any fun f =>
    f.level < call.level.val || tagLvlFilterGet f call.tag < call.level.val ||
      !decide (f.tag <:+: call.tag)

/-- The first `n` bytes of the buffer, up to a NUL. -/
def bufferText (m : Memory) (buf n : Nat) : List UInt8 :=
  ((List.range n).map fun i => m.byte (word (buf + i))).takeWhile (· ≠ 0)

/-- The memory and the length that `do_output` is called with, if it is. -/
def keywordFilter (b : LogBuf) : Memory × Option Nat :=
  match c.filter with
  | some f =>
    if f.keyword ≠ [] then
      let m := write8 b.mem (word (buf + b.len)) 0
      (m, if f.keyword <:+: bufferText m buf b.len then some b.len else none)
    else (b.mem, some b.len)
  | none => (b.mem, some b.len)

/-- `ulog_voutput`. -/
def ulogVoutput (call : LogCall) (m : Memory) : Option (Memory × Option Nat) :=
  if !c.initOk || c.filtered call then some (m, none)
  else (c.ulogFormater buf call m).map (c.keywordFilter buf)

/-- `log_len` from the result of a print into the whole buffer. -/
def printedLen (fmtResult : Int) : Nat :=
  if fmtResult > -1 ∧ fmtResult ≤ (c.lineBufSize : Int) then fmtResult.toNat else c.lineBufSize

/-- `ulog_raw`. -/
def ulogRaw (format : List UInt8) (args : List PrintfArg) (m : Memory) :
    Option (Memory × Option Nat) :=
  (rtVsnprintf m buf c.lineBufSize format args).map fun r =>
    (r.1, some (c.printedLen r.2))

/-- Two upper-case digits and a space. -/
def hexByte (b : UInt8) : List UInt8 := [largeDigits (b.toNat / 16), largeDigits (b.toNat % 16), 32]

def printable (b : UInt8) : UInt8 := if 32 ≤ b ∧ b < 127 then b else 46

/-- `"D/HEX %s: %04X-%04X: "` -/
def hexFormat : List UInt8 :=
  [68, 47, 72, 69, 88, 32, 37, 115, 58, 32, 37, 48, 52, 88, 45, 37, 48, 52, 88, 58, 32]

/-- The body of the first loop over a line of data. -/
def dumpHex (data : List UInt8) (i : Nat) (b : LogBuf) (j : Nat) : LogBuf :=
  let b := c.append buf b ((data[word (i + j)]?).elim [32, 32, 32] hexByte)
  if (j + 1) % 8 = 0 then c.append buf b [32] else b

def dumpChar (data : List UInt8) (i : Nat) (b : LogBuf) (j : Nat) : LogBuf :=
  match data[word (i + j)]? with
  | some ch => c.append buf b [printable ch]
  | none => b

/-- One turn of the loop of `ulog_hexdump`. -/
def hexdumpLine (name : Option (List UInt8)) (width : Nat) (data : List UInt8) (i : Nat)
    (m : Memory) : Option LogBuf := do
  let (m, fmtResult) ← rtVsnprintf m buf c.lineBufSize hexFormat
    [.string name, .word (UInt32.ofNat i), .word (UInt32.ofNat (i + width))]
  let b := (List.range width).foldl (c.dumpHex buf data i) ⟨m, c.printedLen fmtResult⟩
  let b := (List.range width).foldl (c.dumpChar buf data i) (c.append buf b [32, 32])
  let len :=
    if c.lineBufSize < b.len + c.newlineSign.length then c.lineBufSize - c.newlineSign.length
    else b.len
  some (c.append buf ⟨b.mem, len⟩ c.newlineSign)

/-- The first `fuel` lines of `ulog_hexdump` from `i` on, each as `do_output` is called with it. -/
def ulogHexdump (name : Option (List UInt8)) (width : Nat) (data : List UInt8) :
    Nat → Nat → Memory → Option (List LogBuf)
  | 0, _, _ => some []
  | fuel + 1, i, m =>
    if i < data.length then do
      let b ← c.hexdumpLine buf name width data i m
      let rest ← ulogHexdump name width data fuel (word (i + width)) b.mem
      some (b :: rest)
    else some []

end UlogConfig

section
variable {c : UlogConfig} {buf : Nat} {b : LogBuf} {call : LogCall} {m : Memory}
  {src rest : List UInt8}

theorem ulogStrcpy_eq (size cur dst : Nat) : ulogStrcpy size m cur dst src =
    (storeAll m (storesAt dst (src.take (size + 1 - cur))), min src.length (size + 1 - cur)) := by
  induction src generalizing m cur dst with
  | nil => rw [List.take_nil, List.length_nil, Nat.zero_min]; rfl
  | cons ch src ih =>
    unfold ulogStrcpy
    split
    next hle =>
      rw [show size + 1 - cur = size + 1 - (cur + 1) + 1 by omega, List.take_succ_cons,
        List.length_cons, ih]
      simp only [storesAt, storeAll_cons, Nat.succ_min_succ]
    next hgt =>
      rw [show size + 1 - cur = 0 by omega, List.take_zero, Nat.min_zero]
      rfl

def UlogConfig.copyStores (c : UlogConfig) (buf len : Nat) (src : List UInt8) :
    List (Nat × UInt8) :=
  storesAt (word (buf + len)) (src.take (c.lineBufSize + 1 - len))

theorem ulogAppend_eq : c.append buf b src =
    ⟨storeAll b.mem (c.copyStores buf b.len src),
      b.len + min src.length (c.lineBufSize + 1 - b.len)⟩ := by
  unfold UlogConfig.append
  rw [ulogStrcpy_eq]
  rfl

theorem ulogAppend_nil : c.append buf b [] = b := rfl

/-- Two copies stop where the copy of both strings would. -/
theorem ulogAppend_append : c.append buf (c.append buf b src) rest = c.append buf b (src ++ rest) := by
  have hroom : c.lineBufSize + 1 - (b.len + min src.length (c.lineBufSize + 1 - b.len)) =
      c.lineBufSize + 1 - b.len - src.length := by omega
  simp only [ulogAppend_eq, UlogConfig.copyStores, hroom]
  congr 1
  · rw [← storeAll_append, List.take_append, storesAt_append (word_lt _), word_word,
      List.length_take,
      Nat.min_comm, Nat.add_assoc]
  · rw [List.length_append]
    omega

theorem foldl_ulogAppend {f : Nat → List UInt8} (l : List Nat) :
    l.foldl (fun b j => c.append buf b (f j)) b = c.append buf b (l.flatMap f) := by
  induction l generalizing b with
  | nil => rfl
  | cons j l ih => rw [List.foldl_cons, ih, ulogAppend_append, List.flatMap_cons]

namespace UlogConfig

/-- The pieces of the line in front of the text, where `p` says whether they are there. -/
def spaceText (p : Bool) : List UInt8 := if p then [32] else []

def colorText (c : UlogConfig) (level : Fin 8) : List UInt8 :=
  (c.levelColor level).elim [] (csiStart ++ ·)

def levelText (c : UlogConfig) (call : LogCall) : Option (List UInt8) :=
  if c.outputLevel then
    (levelOutputInfo call.level).map (spaceText (call.time ≠ .off) ++ ·)
  else some []

def tagText (c : UlogConfig) (call : LogCall) : List UInt8 :=
  if c.outputTag then spaceText (!c.outputLevel && call.time ≠ .off) ++ call.tag else []

def nameText (c : UlogConfig) (call : LogCall) : List UInt8 :=
  if c.outputThreadName then
    spaceText (call.time ≠ .off || c.outputLevel || c.outputTag) ++ call.threadName
  else []

/-- What stands between the time and the text. -/
def labelText (c : UlogConfig) (call : LogCall) (levelText : List UInt8) : List UInt8 :=
  levelText ++ (c.tagText call ++ (c.nameText call ++ [58, 32]))

def headText (c : UlogConfig) (call : LogCall) (levelText : List UInt8) : List UInt8 :=
  c.colorText call.level ++ call.time.text ++ c.labelText call levelText

end UlogConfig

theorem spaceAfter_eq (p : Bool) :
    c.spaceAfter buf p b = c.append buf b (UlogConfig.spaceText p) := by
  cases p <;> rfl

theorem addColor_eq (level : Fin 8) :
    c.addColor buf level b = c.append buf b (c.colorText level) := by
  unfold UlogConfig.addColor UlogConfig.colorText
  cases c.levelColor level with
  | none => rfl
  | some color => exact ulogAppend_append

theorem addLevel_eq : c.addLevel buf call b = (c.levelText call).map (c.append buf b) := by
  unfold UlogConfig.addLevel UlogConfig.levelText
  split
  next =>
    rw [Option.map_map, spaceAfter_eq]
    exact congrArg (fun f => Option.map f _) (funext fun _ => ulogAppend_append)
  next => rfl

theorem addTag_eq : c.addTag buf call b = c.append buf b (c.tagText call) := by
  unfold UlogConfig.addTag UlogConfig.tagText
  split
  next => rw [spaceAfter_eq, ulogAppend_append]
  next => rfl

theorem addName_eq : c.addName buf call b = c.append buf b (c.nameText call) := by
  unfold UlogConfig.addName UlogConfig.nameText
  split
  next => rw [spaceAfter_eq, ulogAppend_append]
  next => rfl

/-- The copies behind the time are one copy. -/
theorem ulogFormater_eq : c.ulogFormater buf call m = (do
    let b ← c.addTime buf call.time (c.append buf ⟨m, 0⟩ (c.colorText call.level))
    let level ← c.levelText call
    let b ← c.addText buf call (c.append buf b (c.labelText call level))
    some (c.addEnd buf call b)) := by
  unfold UlogConfig.ulogFormater
  rw [addColor_eq]
  refine congrArg (Option.bind _) (funext fun b => ?_)
  rw [addLevel_eq]
  cases c.levelText call with
  | none => rfl
  | some level =>
    simp only [Option.map_some, Option.bind_eq_bind, Option.bind_some, addTag_eq, addName_eq,
      ulogAppend_append]
    simp only [UlogConfig.labelText, List.append_assoc]

theorem rtStrlen_holds {a fuel : Nat} (hholds : HoldsBytes m a src) (hnul : m.byte (a + src.length) = 0)
    (hzero : (0 : UInt8) ∉ src) (htop : a + src.length < 4294967296) (hfuel : src.length < fuel) :
    rtStrlen m fuel a = some src.length := by
  induction src generalizing a fuel with
  | nil =>
    obtain ⟨k, rfl⟩ := Nat.exists_eq_add_one.mpr hfuel
    exact if_pos hnul
  | cons ch src ih =>
    obtain ⟨k, rfl⟩ := Nat.exists_eq_add_one.mpr (Nat.zero_lt_of_lt hfuel)
    rw [List.length_cons] at hnul htop hfuel
    have hfirst : m.byte a ≠ 0 := by
      have := hholds 0 (Nat.succ_pos _)
      rw [Nat.add_zero] at this
      rw [this]
      exact fun heq => hzero (heq ▸ List.mem_cons_self)
    have hrest : HoldsBytes m (a + 1) src := by
      intro i hi
      have := hholds (i + 1) (Nat.succ_lt_succ hi)
      rwa [show a + 1 + i = a + (i + 1) by omega]
    unfold rtStrlen
    rw [if_neg hfirst, word_of_lt (by omega),
      ih hrest (by rwa [show a + 1 + src.length = a + (src.length + 1) by omega])
      (fun h => hzero (List.mem_cons_of_mem _ h)) (by omega) (by omega)]
    rfl

namespace UlogConfig

/-- The stores of the time behind `len` bytes. -/
def timeStores (c : UlogConfig) (buf len : Nat) (time : LogTime) : List (Nat × UInt8) :=
  if time = .off then [] else printfStores (buf + len) (c.lineBufSize - len) time.pieces

/-- `log_len` behind the text, with the reserve kept free. -/
def keptLen (c : UlogConfig) (len : Nat) (fmtResult : Int) : Nat :=
  let len :=
    if len + fmtResult ≤ c.lineBufSize ∧ fmtResult > -1 then len + fmtResult.toNat
    else c.lineBufSize
  if c.lineBufSize < len + c.reserve then c.lineBufSize - c.reserve else len

def endText (c : UlogConfig) (call : LogCall) : List UInt8 :=
  (if call.newline then c.newlineSign else []) ++
    if (c.levelColor call.level).isSome then csiEnd else []

end UlogConfig

theorem sizedOutput_eq {size : Nat} {ps : List Piece} (h : (unboundedOutput ps).length < size) :
    (sizedOutput size ps).length = (unboundedOutput ps).length := by
  have hmin := sizedOutput_min size ps
  omega

theorem addTime_eq (htop : buf + c.lineBufSize < 4294967296) (hlen : b.len ≤ 24) (time : LogTime) :
    c.addTime buf time b = some ⟨storeAll b.mem (c.timeStores buf b.len time),
      b.len + time.text.length⟩ ∧
      StoresWithin (buf + b.len) (c.lineBufSize - b.len) (c.timeStores buf b.len time) ∧
      ∀ m, HoldsBytes (storeAll m (c.timeStores buf b.len time)) (buf + b.len) time.text := by
  have hsize := c.size_ge
  have hword : word (buf + b.len) = buf + b.len := word_of_lt (by omega)
  have hsub : wordSub c.lineBufSize b.len = c.lineBufSize - b.len :=
    wordSub_of_le (by omega) (by omega)
  obtain ⟨hshort, hzero⟩ := time.text_spec
  unfold UlogConfig.addTime UlogConfig.timeStores
  cases hformat : time.format with
  | none =>
    obtain rfl : time = .off := by
      cases time with
      | off => rfl
      | _ => cases hformat
    exact ⟨rfl, fun s hs => absurd hs List.not_mem_nil, fun m i hi => absurd hi (Nat.not_lt_zero i)⟩
  | some f =>
    have hps := time.format_pieces f hformat
    have hoff : time ≠ .off := by
      rintro rfl
      cases hformat
    rw [if_neg hoff]
    have hsized : (sizedOutput (c.lineBufSize - b.len) time.pieces).length = time.text.length :=
      sizedOutput_eq (by show time.text.length < _; omega)
    obtain ⟨hwithin, hprinted⟩ := printfStores_within hps (show 0 < c.lineBufSize - b.len by omega)
      (by omega)
      (show buf + b.len + _ < _ by omega)
    rw [show unboundedOutput time.pieces = time.text from rfl] at hprinted
    have hholds : ∀ m, HoldsBytes (storeAll m (printfStores (buf + b.len)
      (c.lineBufSize - b.len) time.pieces))
        (buf + b.len) time.text := by
      intro m
      have h := (hprinted m).1
      rwa [List.take_of_length_le (by omega)] at h
    refine ⟨?_, hwithin, hholds⟩
    · obtain ⟨fmt, args⟩ := f
      have hnul := (hprinted b.mem).2
      rw [Nat.min_eq_right (by omega)] at hnul
      have hstrlen := rtStrlen_holds (hholds b.mem) hnul hzero (by omega)
        (show time.text.length < c.lineBufSize + 1 by omega)
      simp only [hword, hsub, rtVsnprintf_stores hps (show buf + b.len < 4294967296 by omega),
        Option.bind_eq_bind,
        Option.bind_some, hstrlen]

theorem addText_eq {ps : List Piece} (hps : formatPieces call.format call.args = some ps) :
    c.addText buf call b = some
      ⟨storeAll b.mem (printfStores (word (buf + b.len)) (wordSub c.lineBufSize b.len) ps),
        c.keptLen b.len (printfResult (word (buf + b.len)) (wordSub c.lineBufSize b.len) ps)⟩ := by
  unfold UlogConfig.addText
  rw [rtVsnprintf_stores hps (word_lt _)]
  rfl

theorem addEnd_eq : c.addEnd buf call b = c.append buf b (c.endText call) := by
  unfold UlogConfig.addEnd UlogConfig.endText
  rw [← ulogAppend_append]
  cases call.newline <;> cases (c.levelColor call.level).isSome <;> rfl

theorem colorText_length (c : UlogConfig) (level : Fin 8) : (c.colorText level).length ≤ 18 := by
  unfold UlogConfig.colorText UlogConfig.levelColor
  cases hc : c.color with
  | none => exact Nat.zero_le _
  | some table =>
    cases hl : table level with
    | none => simp [hl]
    | some sign =>
      have := c.color_short table hc level sign hl
      simp [hl, csiStart]
      omega

namespace UlogConfig

/-- How far the copies in front of the text come, one byte behind the buffer at most. -/
def headLen (c : UlogConfig) (call : LogCall) (level : List UInt8) : Nat :=
  min (c.headText call level).length (c.lineBufSize + 1)

def lineLen (c : UlogConfig) (buf : Nat) (call : LogCall) (level : List UInt8) (ps : List Piece) :
    Nat :=
  c.keptLen (c.headLen call level) (printfResult (word (buf + c.headLen call level))
    (wordSub c.lineBufSize (c.headLen call level)) ps)

/-- All stores of `ulog_formater`. -/
def lineStores (c : UlogConfig) (buf : Nat) (call : LogCall) (level : List UInt8)
    (ps : List Piece) :
    List (Nat × UInt8) :=
  storesAt buf (c.colorText call.level) ++
    c.timeStores buf (c.colorText call.level).length call.time ++
    c.copyStores buf ((c.colorText call.level).length + call.time.text.length)
      (c.labelText call level) ++
    printfStores (word (buf + c.headLen call level))
      (wordSub c.lineBufSize (c.headLen call level)) ps ++
    c.copyStores buf (c.lineLen buf call level ps) (c.endText call)

end UlogConfig

theorem ulogFormater_stores {ps : List Piece} {level : List UInt8}
    (htop : buf + c.lineBufSize < 4294967296)
    (hps : formatPieces call.format call.args = some ps) (hlevel : c.levelText call = some level)
    (m : Memory) :
    c.ulogFormater buf call m = some ⟨storeAll m (c.lineStores buf call level ps),
      c.lineLen buf call level ps +
      min (c.endText call).length (c.lineBufSize + 1 - c.lineLen buf call level ps)⟩ := by
  have hsize := c.size_ge
  have hcolor := colorText_length c call.level
  have hfirst : c.append buf ⟨m, 0⟩ (c.colorText call.level) =
      ⟨storeAll m (storesAt buf (c.colorText call.level)), (c.colorText call.level).length⟩ := by
    rw [ulogAppend_eq, UlogConfig.copyStores, List.take_of_length_le
      (by show _ ≤ c.lineBufSize + 1 - 0; omega),
      Nat.zero_add, Nat.min_eq_left (by show _ ≤ c.lineBufSize + 1 - 0; omega), Nat.add_zero,
        word_of_lt (by omega)]
  have hshort := call.time.text_spec.1
  have htime := (addTime_eq (b := ⟨storeAll m (storesAt buf (c.colorText call.level)),
    (c.colorText call.level).length⟩)
    htop (hcolor.trans (by decide)) call.time).1
  have hhead : (c.colorText call.level).length + call.time.text.length +
      min (c.labelText call level).length
        (c.lineBufSize + 1 - ((c.colorText call.level).length + call.time.text.length)) =
      c.headLen call level := by
    unfold UlogConfig.headLen UlogConfig.headText
    rw [List.length_append, List.length_append]
    omega
  rw [ulogFormater_eq, hfirst, htime, hlevel]
  simp only [Option.bind_eq_bind, Option.bind_some, ulogAppend_eq, addText_eq hps, addEnd_eq, hhead]
  unfold UlogConfig.lineStores
  simp only [storeAll_append]
  rfl

/-- What stands in front of the message leaves room for it, and the message does not reach the top of
the address space. -/
def UlogConfig.HeadFits (c : UlogConfig) (buf : Nat) (call : LogCall) (level : List UInt8)
    (ps : List Piece) : Prop :=
  (c.headText call level).length < c.lineBufSize ∧
    buf + (c.headText call level).length +
      (sizedOutput (c.lineBufSize - (c.headText call level).length) ps).length < 4294967296

section
variable {ps : List Piece} {level : List UInt8}

theorem copyStores_last {len : Nat} (htop : buf + c.lineBufSize < 4294967296)
    (hlen : len ≤ c.lineBufSize)
    (hlong : c.lineBufSize < len + src.length) :
    Stored (c.copyStores buf len src) (buf + c.lineBufSize) := by
  have hat : c.lineBufSize - len < (src.take (c.lineBufSize + 1 - len)).length := by
    rw [List.length_take]
    omega
  refine ⟨(buf + c.lineBufSize, (src.take (c.lineBufSize + 1 - len))[c.lineBufSize - len]), ?_, rfl⟩
  refine (mem_storesAt (word_lt _)).mpr ⟨c.lineBufSize - len, List.getElem?_eq_getElem hat, ?_⟩
  rw [word_word, word_of_lt (by omega)]
  show buf + c.lineBufSize = _
  omega

variable (c call level) in
theorem headText_length : (c.headText call level).length =
    (c.colorText call.level).length + call.time.text.length + (c.labelText call level).length := by
  rw [UlogConfig.headText, List.length_append, List.length_append]

/-- Otherwise a byte is stored behind the buffer, or at the bottom of the address space. -/
theorem lineStores_outside (hbuf : 0 < buf) (htop : buf + c.lineBufSize < 4294967296)
    (h : ¬ c.HeadFits buf call level ps) :
    ¬ StoresWithin buf c.lineBufSize (c.lineStores buf call level ps) := by
  have hcolor := colorText_length c call.level
  have hshort := call.time.text_spec.1
  have hsize := c.size_ge
  have hlength := headText_length c call level
  unfold UlogConfig.HeadFits at h
  rcases Nat.lt_trichotomy c.lineBufSize (c.headText call level).length with hlong | hfull | hroom
  · have hlast := @copyStores_last c buf (c.labelText call level)
      ((c.colorText call.level).length + call.time.text.length) htop (by omega) (by omega)
    exact not_storesWithin hlast.append_right.append_left.append_left (.inr le_rfl)
  · have hreached : c.headLen call level = c.lineBufSize := by
      rw [UlogConfig.headLen, ← hfull]
      exact Nat.min_eq_left (Nat.le_succ _)
    have hzero := @printfStores_zero (buf + c.lineBufSize) ps (show 0 < buf + c.lineBufSize by omega) htop
    refine not_storesWithin (x := buf + c.lineBufSize) ?_ (.inr le_rfl)
    refine Stored.append_left (Stored.append_right ?_)
    rw [hreached, word_of_lt htop, wordSub_of_le (by omega) le_rfl, Nat.sub_self]
    exact hzero
  · have hreached : c.headLen call level = (c.headText call level).length :=
      Nat.min_eq_left (by omega)
    have hwraps := @printfStores_wraps (buf + (c.headText call level).length)
      (c.lineBufSize - (c.headText call level).length) ps (by omega) (by omega) (by omega)
      fun hfits => h ⟨hroom, hfits⟩
    refine not_storesWithin (x := 0) ?_ (.inl hbuf)
    refine Stored.append_left (Stored.append_right ?_)
    rw [hreached, word_of_lt (by omega), wordSub_of_le (by omega) hroom.le]
    exact hwraps

theorem bmod_nonneg_iff {n : Nat} (h : n < 4294967296) :
    -1 < Int.bmod n 4294967296 ↔ n < 2147483648 := by
  rw [Int.bmod_def]
  omega

variable (c call) in
theorem endText_length : (c.endText call).length ≤ c.reserve := by
  have hnewline : (if call.newline then c.newlineSign else []).length ≤ c.newlineSign.length := by
    split
    next => exact le_rfl
    next => exact Nat.zero_le _
  have hcolor : (if (c.levelColor call.level).isSome then csiEnd else []).length ≤
      if c.color.isSome then csiEnd.length else 0 := by
    unfold UlogConfig.levelColor
    cases c.color with
    | none => exact le_rfl
    | some table =>
      split
      next => exact le_rfl
      next => exact Nat.zero_le _
  unfold UlogConfig.endText UlogConfig.reserve
  rw [List.length_append]
  omega

theorem reserve_fits : 0 < c.reserve ∧ c.reserve ≤ c.lineBufSize := by
  have hpos := c.newline_pos
  have hfits := c.newline_fits
  unfold UlogConfig.reserve
  split
  next => exact ⟨by omega, by show 4 + _ ≤ _; omega⟩
  next => omega

theorem keptLen_min (len : Nat) (r : Int) : c.keptLen len r =
    min (if len + r ≤ c.lineBufSize ∧ r > -1 then len + r.toNat else c.lineBufSize)
      (c.lineBufSize - c.reserve) := by
  obtain ⟨-, hreserve⟩ := reserve_fits (c := c)
  unfold UlogConfig.keptLen
  generalize (if len + r ≤ c.lineBufSize ∧ r > -1 then len + r.toNat else c.lineBufSize) = k
  show (if c.lineBufSize < k + c.reserve then c.lineBufSize - c.reserve else k) = _
  split <;> omega

/-- The length kept of the head and the message, as if nothing had been cut. -/
theorem keptLen_eq (hfits : c.HeadFits buf call level ps) : c.lineLen buf call level ps =
    min ((c.headText call level).length + (unboundedOutput ps).length)
      (c.lineBufSize - c.reserve) := by
  obtain ⟨hroom, hfits⟩ := hfits
  have hsize := c.size_lt
  have hreached : c.headLen call level = (c.headText call level).length :=
    Nat.min_eq_left (by omega)
  have hmin := sizedOutput_min (c.lineBufSize - (c.headText call level).length) ps
  obtain ⟨-, hreserve⟩ := reserve_fits (c := c)
  unfold UlogConfig.lineLen
  rw [hreached, word_of_lt (by omega), wordSub_of_le (by omega) hroom.le,
    printfResult_fits (by omega) (by omega) hfits]
  have hsmall := bmod_nonneg_iff (n := (sizedOutput
    (c.lineBufSize - (c.headText call level).length) ps).length) (by omega)
  rw [keptLen_min]
  by_cases h : (sizedOutput (c.lineBufSize - (c.headText call level).length) ps).length < 2147483648
  · rw [bmod_small h]
    split <;> omega
  · rw [if_neg fun hle => h (hsmall.mp hle.2)]
    omega

/-- The line as it is meant: the head and the message, cut in front of the reserve, and the signs. -/
def UlogConfig.line (c : UlogConfig) (call : LogCall) (level : List UInt8) (ps : List Piece) :
    List UInt8 :=
  (c.headText call level ++ unboundedOutput ps).take (c.lineBufSize - c.reserve) ++ c.endText call

theorem lineStores_right (htop : buf + c.lineBufSize < 4294967296)
    (hps : formatPieces call.format call.args = some ps) (h : c.HeadFits buf call level ps) :
    StoresWithin buf c.lineBufSize (c.lineStores buf call level ps) ∧
      ∀ m, HoldsBytes (storeAll m (c.lineStores buf call level ps)) buf (c.line call level ps) := by
  have hcolor := colorText_length c call.level
  have hshort := call.time.text_spec.1
  have hsize := c.size_ge
  have hlength := headText_length c call level
  have hkept := keptLen_eq h
  have hend := endText_length c call
  obtain ⟨hpos, hreserve⟩ := reserve_fits (c := c)
  obtain ⟨hroom, hfits⟩ := h
  have hreached : c.headLen call level = (c.headText call level).length :=
    Nat.min_eq_left (by omega)
  -- The stores one after the other, each behind what the line holds by then.
  have hcolorIn : StoresWithin buf c.lineBufSize (storesAt buf (c.colorText call.level)) :=
    storesAt_within le_rfl (by omega) htop.le (by omega)
  obtain ⟨-, htimeIn, htime⟩ := addTime_eq (b := ⟨⟨fun _ => 0⟩,
    (c.colorText call.level).length⟩) htop
    (hcolor.trans (by decide)) call.time
  have hlabel : c.copyStores buf ((c.colorText call.level).length + call.time.text.length)
      (c.labelText call level) =
      storesAt (buf + (c.colorText call.level ++ call.time.text).length)
        (c.labelText call level) := by
    rw [UlogConfig.copyStores, List.take_of_length_le (by omega), word_of_lt (by omega),
      List.length_append]
  have hlabelIn : StoresWithin (buf + (c.colorText call.level ++ call.time.text).length)
      (c.lineBufSize - (c.colorText call.level ++ call.time.text).length)
      (storesAt (buf + (c.colorText call.level ++ call.time.text).length)
        (c.labelText call level)) := by
    rw [List.length_append]
    exact storesAt_within le_rfl (by omega) (by omega) (by omega)
  obtain ⟨htextIn, htext⟩ := @printfStores_within
    (buf + (c.headText call level).length) _ _ _ _ hps
    (show 0 < c.lineBufSize - (c.headText call level).length by omega) (by omega) (by omega)
  have hendStores : c.copyStores buf (c.lineLen buf call level ps) (c.endText call) =
      storesAt (buf + c.lineLen buf call level ps) (c.endText call) := by
    rw [UlogConfig.copyStores, List.take_of_length_le (by omega), word_of_lt (by omega)]
  have hendIn : StoresWithin (buf + c.lineLen buf call level ps)
    (c.lineBufSize - c.lineLen buf call level ps)
      (storesAt (buf + c.lineLen buf call level ps) (c.endText call)) :=
    storesAt_within le_rfl (by omega) (by omega) (by omega)
  have hkeptText : ((c.headText call level ++ (unboundedOutput ps).take
      (c.lineBufSize - (c.headText call level).length - 1)).take (c.lineLen buf call level ps)) =
      (c.headText call level ++ unboundedOutput ps).take (c.lineBufSize - c.reserve) := by
    rw [← List.take_length_add_append, List.take_take, List.take_eq_take_iff, List.length_append,
      hkept]
    omega
  unfold UlogConfig.lineStores
  rw [hreached, hlabel, hendStores, word_of_lt
    (show buf + (c.headText call level).length < _ by omega),
    wordSub_of_le (by omega) hroom.le]
  constructor
  · refine ((((hcolorIn.append ?_).append ?_).append ?_).append ?_)
    · exact htimeIn.from_above (by show (c.colorText call.level).length ≤ _; omega)
    · exact hlabelIn.from_above (by rw [List.length_append]; omega)
    · exact htextIn.from_above hroom.le
    · exact hendIn.from_above (by omega)
  · intro m
    simp only [storeAll_append]
    have h1 : HoldsBytes (storeAll m (storesAt buf (c.colorText call.level))) buf
      (c.colorText call.level) :=
      HoldsBytes.storesAt_self (by omega) (by omega)
    have h2 := h1.extend htimeIn (htime _)
    have h3 := h2.extend hlabelIn (HoldsBytes.storesAt_self (by rw [List.length_append]; omega)
      (by rw [List.length_append]; omega))
    have h4 := h3.extend htextIn (htext _).1
    have h5 := h4.take (c.lineLen buf call level ps)
    change HoldsBytes _ buf ((c.headText call level ++ (unboundedOutput ps).take _).take _) at h5
    rw [hkeptText] at h5
    have hlen :
        ((c.headText call level ++ unboundedOutput ps).take (c.lineBufSize - c.reserve)).length =
        c.lineLen buf call level ps := by
      rw [List.length_take, List.length_append, hkept, Nat.min_comm]
    rw [← hlen] at hendIn ⊢
    exact h5.extend hendIn (HoldsBytes.storesAt_self (by rw [hlen]; omega) (by rw [hlen]; omega))

theorem line_length : (c.line call level ps).length =
    min ((c.headText call level).length + (unboundedOutput ps).length) (c.lineBufSize - c.reserve) +
      (c.endText call).length := by
  rw [UlogConfig.line, List.length_append, List.length_take, List.length_append, Nat.min_comm]

theorem ulogFormater_line (htop : buf + c.lineBufSize < 4294967296)
    (hps : formatPieces call.format call.args = some ps) (hlevel : c.levelText call = some level)
    (h : c.HeadFits buf call level ps) (m : Memory) : c.ulogFormater buf call m =
      some ⟨storeAll m (c.lineStores buf call level ps), (c.line call level ps).length⟩ := by
  have hend := endText_length c call
  have hreserve := reserve_fits (c := c)
  have hkept := keptLen_eq h
  rw [ulogFormater_stores htop hps hlevel, line_length, ← hkept, Nat.min_eq_left (by omega)]

theorem ulogFormater_none (hlevel : c.levelText call = none) :
    c.ulogFormater buf call m = none := by
  rw [ulogFormater_eq, hlevel]
  cases c.addTime buf call.time (c.append buf ⟨m, 0⟩ (c.colorText call.level)) <;> rfl

/-- What is asked of a line: it is a string of at most `size` bytes that ends with the sign and is
there whatever memory the call is made in, and nothing outside of the buffer is written. `none` is no
line. -/
def LineRight (size buf : Nat) (sign : List UInt8) (run : Memory → Option (Memory × Option Nat)) :
    Prop :=
  ∃ r : Option (List UInt8), (∀ line ∈ r, line.length ≤ size ∧ sign <:+ line) ∧
    ∀ m, ∃ m', run m = some (m', r.map List.length) ∧ (∀ line ∈ r, HoldsBytes m' buf line) ∧
      ∀ x, x < buf ∨ buf + size ≤ x → m'.byte x = m.byte x

section
variable {size : Nat} {sign line : List UInt8} {run : Memory → Option (Memory × Option Nat)}
  {stores : List (Nat × UInt8)}

theorem LineRight.within (h : LineRight size buf sign run)
    (hrun : ∀ m, ∃ r, run m = some (storeAll m stores, r)) : StoresWithin buf size stores := by
  obtain ⟨r, -, hline⟩ := h
  refine storesWithin_iff.mpr fun m x hx => ?_
  obtain ⟨m', hm', -, hframe⟩ := hline m
  obtain ⟨r', hr'⟩ := hrun m
  obtain ⟨rfl, -⟩ := Prod.mk.inj (Option.some.inj (hr'.symm.trans hm'))
  exact hframe x hx

theorem LineRight.of_within (hwithin : StoresWithin buf size stores) {r : Option (List UInt8)}
    (hr : ∀ line ∈ r, line.length ≤ size ∧ sign <:+ line)
    (hrun : ∀ m, run m = some (storeAll m stores, r.map List.length))
    (hholds : ∀ m, ∀ line ∈ r, HoldsBytes (storeAll m stores) buf line) : LineRight size buf sign run :=
  ⟨r, hr, fun m => ⟨_, hrun m, hholds m, storesWithin_iff.mp hwithin m⟩⟩

end

variable (c call ps level) in
theorem line_right : (c.line call level ps).length ≤ c.lineBufSize ∧
    c.endText call <:+ c.line call level ps := by
  have hend := endText_length c call
  have hreserve := reserve_fits (c := c)
  refine ⟨?_, List.suffix_append _ _⟩
  rw [line_length]
  omega

def UlogConfig.formaterRun (c : UlogConfig) (buf : Nat) (call : LogCall) (m : Memory) :
    Option (Memory × Option Nat) :=
  (c.ulogFormater buf call m).map fun b => (b.mem, some b.len)

theorem ulogFormater_right_iff (hbuf : 0 < buf) (htop : buf + c.lineBufSize < 4294967296)
    (hps : formatPieces call.format call.args = some ps) :
    LineRight c.lineBufSize buf (c.endText call) (c.formaterRun buf call) ↔
      ∃ level, c.levelText call = some level ∧ c.HeadFits buf call level ps := by
  constructor
  · intro h
    cases hlevel : c.levelText call with
    | none =>
      obtain ⟨r, -, hline⟩ := h
      obtain ⟨m', hm', -⟩ := hline ⟨fun _ => 0⟩
      rw [UlogConfig.formaterRun, ulogFormater_none hlevel] at hm'
      cases hm'
    | some level =>
      refine ⟨level, rfl, ?_⟩
      by_contra hnot
      refine lineStores_outside hbuf htop hnot (h.within fun m => ?_)
      exact ⟨_, congrArg (Option.map _) (ulogFormater_stores htop hps hlevel m)⟩
  · rintro ⟨level, hlevel, hfits⟩
    obtain ⟨hwithin, hholds⟩ := lineStores_right htop hps hfits
    refine LineRight.of_within (r := some (c.line call level ps)) hwithin ?_ ?_ ?_
    · intro line hline
      obtain rfl := Option.some.inj hline
      exact line_right c call ps level
    · exact fun m => congrArg (Option.map _) (ulogFormater_line htop hps hlevel hfits m)
    · intro m line hline
      obtain rfl := Option.some.inj hline
      exact hholds m

namespace UlogConfig

/-- Whether a keyword is looked for. -/
def hasKeyword (c : UlogConfig) : Bool := c.filter.any fun f => f.keyword ≠ []

/-- The line leaves a byte of the buffer for the NUL of the keyword filter. -/
def NulFits (c : UlogConfig) (call : LogCall) (level : List UInt8) (ps : List Piece) : Prop :=
  (c.headText call level).length + (unboundedOutput ps).length + c.reserve < c.lineBufSize ∨
    call.newline = false ∨ c.color.isSome = true ∧ c.levelColor call.level = none

end UlogConfig

theorem line_short_iff : (c.line call level ps).length < c.lineBufSize ↔
    c.NulFits call level ps := by
  have hreserve := reserve_fits (c := c)
  have hnewline := c.newline_pos
  have hsign : (if call.newline then c.newlineSign else []).length =
      if call.newline then c.newlineSign.length else 0 := by split <;> rfl
  have hcolor : (if (c.levelColor call.level).isSome then csiEnd else []).length =
      if (c.levelColor call.level).isSome then 4 else 0 := by split <;> rfl
  rw [line_length]
  unfold UlogConfig.NulFits
  rw [UlogConfig.endText, List.length_append, hsign, hcolor]
  cases hc : c.color with
  | none =>
    have hl : c.levelColor call.level = none := by rw [UlogConfig.levelColor, hc]; rfl
    cases hn : call.newline <;> simp [UlogConfig.reserve, hc, hl] at * <;> omega
  | some table =>
    cases hl : c.levelColor call.level <;> cases hn : call.newline <;>
      simp [UlogConfig.reserve, hc, csiEnd] at * <;> omega

/-- The NUL behind the line. -/
def UlogConfig.nulStores (c : UlogConfig) (buf len : Nat) : List (Nat × UInt8) :=
  if c.hasKeyword then [(word (buf + len), 0)] else []

theorem keywordFilter_mem (len : Nat) : (c.keywordFilter buf ⟨m, len⟩).1 =
    storeAll m (c.nulStores buf len) := by
  unfold UlogConfig.keywordFilter UlogConfig.nulStores UlogConfig.hasKeyword
  cases c.filter with
  | none => rfl
  | some f =>
    by_cases h : f.keyword ≠ []
    · simp only [Option.any_some, decide_eq_true h, if_pos h, if_true]
      rfl
    · simp only [Option.any_some, decide_eq_false h, if_neg h, Bool.false_eq_true, if_false]
      rfl

theorem bufferText_holds (h : HoldsBytes m buf src) (htop : buf + src.length ≤ 4294967296) :
    UlogConfig.bufferText m buf src.length = src.takeWhile (· ≠ 0) := by
  unfold UlogConfig.bufferText
  congr 1
  refine List.ext_getElem (by simp) fun i hi hi' => ?_
  rw [List.getElem_map, List.getElem_range, word_of_lt (by omega), h i hi']

/-- The line if the filter lets it pass. -/
def UlogConfig.passed (c : UlogConfig) (line : List UInt8) : Option (List UInt8) :=
  match c.filter with
  | some f => if f.keyword ≠ [] ∧ ¬ f.keyword <:+: line.takeWhile (· ≠ 0) then none else some line
  | none => some line

theorem keywordFilter_passed (hholds : HoldsBytes m buf src) (hroom : buf + src.length < 4294967296) :
    (c.keywordFilter buf ⟨m, src.length⟩).2 = (c.passed src).map List.length := by
  unfold UlogConfig.keywordFilter UlogConfig.passed
  cases c.filter with
  | none => rfl
  | some f =>
    by_cases hk : f.keyword ≠ []
    · have hsame : HoldsBytes (write8 m (word (buf + src.length)) 0) buf src := by
        refine hholds.congr fun x _ hx => if_neg ?_
        rw [word_of_lt hroom]
        omega
      simp only [if_pos hk, bufferText_holds hsame hroom.le]
      by_cases hin : f.keyword <:+: src.takeWhile (· ≠ 0)
      · rw [if_pos hin, if_neg fun h => h.2 hin]
        rfl
      · rw [if_neg hin, if_pos ⟨hk, hin⟩]
        rfl
    · simp only [if_neg hk]
      rw [if_neg fun h => hk h.1]
      rfl

theorem passed_mem {line : List UInt8} (h : line ∈ c.passed src) : line = src := by
  unfold UlogConfig.passed at h
  split at h
  next =>
    split at h
    next => cases h
    next => exact (Option.some.inj h).symm
  next => exact (Option.some.inj h).symm

theorem ulogVoutput_right_iff (hbuf : 0 < buf) (htop : buf + c.lineBufSize < 4294967296)
    (hps : formatPieces call.format call.args = some ps) :
    LineRight c.lineBufSize buf (c.endText call) (c.ulogVoutput buf call) ↔
      c.initOk = false ∨ c.filtered call = true ∨
        ∃ level, c.levelText call = some level ∧ c.HeadFits buf call level ps ∧
          (c.hasKeyword = true → c.NulFits call level ps) := by
  by_cases hstopped : c.initOk = false ∨ c.filtered call = true
  · refine ⟨fun _ => hstopped.imp_right .inl, fun _ => ?_⟩
    refine ⟨none, fun line hline => absurd hline (Option.not_mem_none line),
      fun m => ⟨m, ?_, ?_, fun x _ => rfl⟩⟩
    · exact if_pos (by simpa using hstopped)
    · exact fun line hline => absurd hline (Option.not_mem_none line)
  have hrun : ∀ m, c.ulogVoutput buf call m =
    (c.ulogFormater buf call m).map (c.keywordFilter buf) :=
    fun m => if_neg (by simpa using hstopped)
  constructor
  · intro h
    right; right
    cases hlevel : c.levelText call with
    | none =>
      obtain ⟨r, -, hline⟩ := h
      obtain ⟨m', hm', -⟩ := hline ⟨fun _ => 0⟩
      rw [hrun, ulogFormater_none hlevel] at hm'
      cases hm'
    | some level =>
      have hstores : ∀ m, ∃ r, c.ulogVoutput buf call m = some (storeAll m
          (c.lineStores buf call level ps ++ c.nulStores buf (c.lineLen buf call level ps +
            min (c.endText call).length (c.lineBufSize + 1 - c.lineLen buf call level ps))), r) := by
        intro m
        rw [hrun, ulogFormater_stores htop hps hlevel, storeAll_append, ← keywordFilter_mem]
        exact ⟨_, rfl⟩
      have hwithin := h.within hstores
      have hfits : c.HeadFits buf call level ps := by
        by_contra hnot
        exact lineStores_outside hbuf htop hnot fun s hs => hwithin s (List.mem_append_left _ hs)
      refine ⟨level, rfl, hfits, fun hkeyword => line_short_iff.mp ?_⟩
      have hlen : c.lineLen buf call level ps + min (c.endText call).length (c.lineBufSize + 1 -
          c.lineLen buf call level ps) = (c.line call level ps).length :=
        congrArg LogBuf.len (Option.some.inj ((ulogFormater_stores htop hps hlevel
          ⟨fun _ => 0⟩).symm.trans
          (ulogFormater_line htop hps hlevel hfits ⟨fun _ => 0⟩)))
      have hnul := hwithin (word (buf + (c.line call level ps).length),
        0) (List.mem_append_right _ (by
        rw [hlen, UlogConfig.nulStores, if_pos hkeyword]
        exact List.mem_singleton.mpr rfl))
      have hmax := (line_right c call ps level).1
      rw [word_of_lt (by omega)] at hnul
      omega
  · rintro (hinit | hfiltered | ⟨level, hlevel, hfits, hnul⟩)
    · exact absurd (.inl hinit) hstopped
    · exact absurd (.inr hfiltered) hstopped
    · obtain ⟨hwithin, hholds⟩ := lineStores_right htop hps hfits
      have hmax := (line_right c call ps level).1
      have hnulIn : StoresWithin (buf + (c.line call level ps).length)
          (c.lineBufSize - (c.line call level ps).length)
            (c.nulStores buf (c.line call level ps).length) := by
        unfold UlogConfig.nulStores
        split
        next hkeyword =>
          have hshort := line_short_iff.mpr (hnul hkeyword)
          intro s hs
          obtain rfl := List.mem_singleton.mp hs
          rw [word_of_lt (by omega)]
          omega
        next => exact fun s hs => absurd hs List.not_mem_nil
      refine LineRight.of_within (r := c.passed (c.line call level ps))
        (hwithin.append (hnulIn.from_above hmax)) ?_ ?_ ?_
      · intro line hline
        rw [passed_mem hline]
        exact line_right c call ps level
      · intro m
        rw [hrun, ulogFormater_line htop hps hlevel hfits, storeAll_append, ← keywordFilter_mem,
          ← keywordFilter_passed (hholds m) (by omega)]
        rfl
      · intro m line hline
        rw [passed_mem hline, storeAll_append]
        exact (hholds m).keep hnulIn

/-- The length of a result of `rt_vsnprintf` as `ulog_raw` and `ulog_hexdump` take it. -/
theorem printedLen_eq (hfits : buf + (sizedOutput c.lineBufSize ps).length < 4294967296) :
    c.printedLen (printfResult buf c.lineBufSize ps) =
      min (unboundedOutput ps).length c.lineBufSize := by
  have hsize := c.size_ge
  have hsize' := c.size_lt
  have hmin := sizedOutput_min c.lineBufSize ps
  rw [printfResult_fits (by omega) (by omega) hfits, UlogConfig.printedLen]
  have hsmall := bmod_nonneg_iff (n := (sizedOutput c.lineBufSize ps).length) (by omega)
  by_cases h : (sizedOutput c.lineBufSize ps).length < 2147483648
  · rw [bmod_small h]
    split <;> omega
  · rw [if_neg fun hle => h (hsmall.mp hle.1)]
    omega

/-- A raw line is right unless the text reaches the top of the address space. -/
theorem ulogRaw_right_iff {format : List UInt8} {args : List PrintfArg} (hbuf : 0 < buf)
    (htop : buf + c.lineBufSize < 4294967296) (hps : formatPieces format args = some ps) :
    LineRight c.lineBufSize buf [] (c.ulogRaw buf format args) ↔
      buf + (sizedOutput c.lineBufSize ps).length < 4294967296 := by
  have hsize := c.size_ge
  have hrun : ∀ m, c.ulogRaw buf format args m =
    some (storeAll m (printfStores buf c.lineBufSize ps),
      some (c.printedLen (printfResult buf c.lineBufSize ps))) := by
    intro m
    unfold UlogConfig.ulogRaw
    rw [rtVsnprintf_stores hps (by omega), Option.map_some]
  constructor
  · intro h
    by_contra hlong
    have hwraps := @printfStores_wraps buf c.lineBufSize ps (by omega) (by omega) (by omega) hlong
    exact not_storesWithin hwraps (.inl hbuf) (h.within fun m => ⟨_, hrun m⟩)
  · intro hfits
    obtain ⟨hwithin, hprinted⟩ := printfStores_within hps (show 0 < c.lineBufSize by omega)
      (by omega) hfits
    simp only [printedLen_eq hfits] at hrun
    by_cases hcut : (unboundedOutput ps).length < c.lineBufSize
    · refine LineRight.of_within (r := some (unboundedOutput ps)) hwithin ?_ ?_ ?_
      · intro line hline
        obtain rfl := Option.some.inj hline
        exact ⟨hcut.le, List.nil_suffix⟩
      · intro m
        rw [hrun, Nat.min_eq_left hcut.le]
        rfl
      · intro m line hline
        obtain rfl := Option.some.inj hline
        have hholds := (hprinted m).1
        rwa [List.take_of_length_le (by omega)] at hholds
    · -- The length counts the NUL that ended the cut text.
      have hlength : ((unboundedOutput ps).take (c.lineBufSize - 1)).length = c.lineBufSize - 1 :=
        List.length_take_of_le (by omega)
      refine LineRight.of_within (r := some ((unboundedOutput ps).take (c.lineBufSize - 1) ++
        [0])) hwithin ?_ ?_ ?_
      · intro line hline
        obtain rfl := Option.some.inj hline
        refine ⟨?_, List.nil_suffix⟩
        rw [List.length_append, hlength, List.length_singleton]
        omega
      · intro m
        rw [hrun, Nat.min_eq_right (by omega), Option.map_some, List.length_append, hlength,
          List.length_singleton]
        congr 3
        omega
      · intro m line hline
        obtain rfl := Option.some.inj hline
        refine (hprinted m).1.append ?_
        intro i hi
        obtain rfl := Nat.lt_one_iff.mp hi
        have hnul := (hprinted m).2
        rwa [Nat.min_eq_left (by omega), ← hlength] at hnul

namespace UlogConfig

def hexNumber (n : Nat) : Piece :=
  .number (UInt32.ofNat n) 16 4 (-1) { PrintFlags.none with zeropad := true, large := true }

def hexPieces (name : Option (List UInt8)) (width i : Nat) : List Piece :=
  [.char 68, .char 47, .char 72, .char 69, .char 88, .char 32,
    .string false (-1) (name.getD [40, 78, 85, 76, 76, 41]), .char 58, .char 32, hexNumber i,
    .char 45, hexNumber (i + width), .char 58, .char 32]

def hexText (data : List UInt8) (i j : Nat) : List UInt8 :=
  (data[word (i + j)]?).elim [32, 32, 32] hexByte ++ if (j + 1) % 8 = 0 then [32] else []

def charText (data : List UInt8) (i j : Nat) : List UInt8 :=
  (data[word (i + j)]?).elim [] fun ch => [printable ch]

def dumpText (data : List UInt8) (width i : Nat) : List UInt8 :=
  (List.range width).flatMap (hexText data i) ++ [32, 32] ++
    (List.range width).flatMap (charText data i)

/-- A line of a dump that nothing has been cut from, without the newline sign. -/
def hexdumpText (name : Option (List UInt8)) (width : Nat) (data : List UInt8) (i : Nat) :
    List UInt8 :=
  unboundedOutput (hexPieces name width i) ++ dumpText data width i

end UlogConfig

open UlogConfig

variable {name : Option (List UInt8)} {width i fuel : Nat} {data : List UInt8}

variable (name width i) in
theorem hexFormat_pieces : formatPieces hexFormat [.string name, .word (UInt32.ofNat i),
    .word (UInt32.ofNat (i + width))] = some (hexPieces name width i) := rfl

theorem dumpHex_eq (j : Nat) : c.dumpHex buf data i b j = c.append buf b (hexText data i j) := by
  unfold UlogConfig.dumpHex hexText
  rw [← ulogAppend_append]
  split <;> rfl

theorem dumpChar_eq (j : Nat) : c.dumpChar buf data i b j = c.append buf b (charText data i j) := by
  unfold UlogConfig.dumpChar charText
  cases data[word (i + j)]? <;> rfl

namespace UlogConfig

/-- `log_len` behind the header of a line. -/
def headerLen (c : UlogConfig) (buf : Nat) (name : Option (List UInt8)) (width i : Nat) : Nat :=
  c.printedLen (printfResult buf c.lineBufSize (hexPieces name width i))

def dumpLen (c : UlogConfig) (buf : Nat)
    (name : Option (List UInt8)) (width : Nat) (data : List UInt8) (i : Nat) : Nat :=
  let len := c.headerLen buf name width i
  min (len + min (dumpText data width i).length (c.lineBufSize + 1 - len))
    (c.lineBufSize - c.newlineSign.length)

def hexStores (c : UlogConfig) (buf : Nat)
    (name : Option (List UInt8)) (width : Nat) (data : List UInt8) (i : Nat) :
    List (Nat × UInt8) :=
  printfStores buf c.lineBufSize (hexPieces name width i) ++
    c.copyStores buf (c.headerLen buf name width i) (dumpText data width i) ++
    c.copyStores buf (c.dumpLen buf name width data i) c.newlineSign

end UlogConfig

theorem hexdumpLine_stores (htop : buf < 4294967296) (m : Memory) :
    c.hexdumpLine buf name width data i m =
    some ⟨storeAll m (c.hexStores buf name width data i), c.dumpLen buf name width data i +
      min c.newlineSign.length (c.lineBufSize + 1 - c.dumpLen buf name width data i)⟩ := by
  have hfits := c.newline_fits
  have hhex : ∀ b, (List.range width).foldl (c.dumpHex buf data i) b =
      c.append buf b ((List.range width).flatMap (hexText data i)) := by
    intro b
    rw [← foldl_ulogAppend]
    exact congrArg (fun f => List.foldl f b _) (funext fun b => funext fun j => dumpHex_eq j)
  have hchar : ∀ b, (List.range width).foldl (c.dumpChar buf data i) b =
      c.append buf b ((List.range width).flatMap (charText data i)) := by
    intro b
    rw [← foldl_ulogAppend]
    exact congrArg (fun f => List.foldl f b _) (funext fun b => funext fun j => dumpChar_eq j)
  unfold UlogConfig.hexdumpLine
  rw [rtVsnprintf_stores (hexFormat_pieces name width i) htop]
  simp only [Option.bind_eq_bind, Option.bind_some, hhex, hchar, ulogAppend_append]
  rw [ulogAppend_eq, ulogAppend_eq]
  -- The cut leaves room for the newline sign.
  have hcut : ∀ len : Nat, (if c.lineBufSize <
    len + c.newlineSign.length then c.lineBufSize - c.newlineSign.length
      else len) = min len (c.lineBufSize - c.newlineSign.length) := by
    intro len
    split <;> omega
  unfold hexStores
  simp only [hcut, storeAll_append]
  rfl

theorem headerLen_eq (hfits : buf + (sizedOutput c.lineBufSize (hexPieces name width i)).length <
    4294967296) :
    c.headerLen buf name width i = min (unboundedOutput
      (hexPieces name width i)).length c.lineBufSize :=
  printedLen_eq hfits

variable (name width i data) in
theorem hexdumpText_length : (hexdumpText name width data i).length =
    (unboundedOutput (hexPieces name width i)).length + (dumpText data width i).length :=
    List.length_append

variable (width i data) in
theorem dumpText_length : 2 ≤ (dumpText data width i).length := by
  rw [dumpText, List.length_append, List.length_append]
  show 2 ≤ _ + 2 + _
  omega

/-- A line that is too long is stored one byte behind the buffer. -/
theorem hexStores_outside (hbuf : 0 < buf) (htop : buf + c.lineBufSize < 4294967296)
    (hlong : c.lineBufSize < (hexdumpText name width data i).length) :
    ¬ StoresWithin buf c.lineBufSize (c.hexStores buf name width data i) := by
  have hsize := c.size_ge
  rw [hexdumpText_length] at hlong
  by_cases hfits : buf + (sizedOutput c.lineBufSize (hexPieces name width i)).length < 4294967296
  · have hlen := headerLen_eq hfits
    have hbody := dumpText_length width i data
    have hlast := @copyStores_last c buf (dumpText data width i)
      (c.headerLen buf name width i) htop (by omega) (by omega)
    exact not_storesWithin hlast.append_right.append_left (.inr le_rfl)
  · have hwraps := @printfStores_wraps buf c.lineBufSize (hexPieces name width i) (by omega) (by omega)
      (by omega) hfits
    exact not_storesWithin hwraps.append_left.append_left (.inl hbuf)

/-- A line of a dump as it is meant. -/
def UlogConfig.hexdumpOut (c : UlogConfig)
    (name : Option (List UInt8)) (width : Nat) (data : List UInt8) (i : Nat) :
    List UInt8 :=
  (hexdumpText name width data i).take (c.lineBufSize - c.newlineSign.length) ++ c.newlineSign

theorem hexStores_right (htop : buf + c.lineBufSize < 4294967296)
    (hfits : (hexdumpText name width data i).length ≤ c.lineBufSize) :
    StoresWithin buf c.lineBufSize (c.hexStores buf name width data i) ∧
      c.dumpLen buf name width data i + min c.newlineSign.length
        (c.lineBufSize + 1 - c.dumpLen buf name width data i) =
        (c.hexdumpOut name width data i).length ∧
      ∀ m, HoldsBytes (storeAll m (c.hexStores buf name width data i)) buf
        (c.hexdumpOut name width data i) := by
  have hsize := c.size_ge
  have hnewline := c.newline_fits
  have hlength := hexdumpText_length name width i data
  have hbody := dumpText_length width i data
  have hsized : (sizedOutput c.lineBufSize (hexPieces name width i)).length =
      (unboundedOutput (hexPieces name width i)).length := sizedOutput_eq (by omega)
  have hheader : c.headerLen buf name width i =
    (unboundedOutput (hexPieces name width i)).length := by
    rw [headerLen_eq (by omega)]
    omega
  have hdump : c.dumpLen buf name width data i =
      min (hexdumpText name width data i).length (c.lineBufSize - c.newlineSign.length) := by
    show min (c.headerLen buf name width i + min _ (_ - c.headerLen buf name width i)) _ = _
    rw [hheader]
    omega
  have hout : (c.hexdumpOut name width data i).length =
    c.dumpLen buf name width data i + c.newlineSign.length := by
    rw [hdump, UlogConfig.hexdumpOut, List.length_append, List.length_take, Nat.min_comm]
  obtain ⟨hheadIn, hhead⟩ := @printfStores_within buf _ _ _ _
    (hexFormat_pieces name width i)
    (show 0 < c.lineBufSize by omega) (by omega) (by omega)
  have hbodyStores : c.copyStores buf (c.headerLen buf name width i) (dumpText data width i) =
      storesAt (buf + (unboundedOutput (hexPieces name width i)).length)
        (dumpText data width i) := by
    rw [UlogConfig.copyStores, hheader, List.take_of_length_le (by omega), word_of_lt (by omega)]
  have hbodyIn : StoresWithin (buf + (unboundedOutput (hexPieces name width i)).length)
      (c.lineBufSize - (unboundedOutput (hexPieces name width i)).length)
      (storesAt (buf + (unboundedOutput (hexPieces name width i)).length)
        (dumpText data width i)) :=
    storesAt_within le_rfl (by omega) (by omega) (by omega)
  have hendStores : c.copyStores buf (c.dumpLen buf name width data i) c.newlineSign =
      storesAt (buf + c.dumpLen buf name width data i) c.newlineSign := by
    rw [UlogConfig.copyStores, List.take_of_length_le (by omega), word_of_lt (by omega)]
  have hendIn : StoresWithin (buf + c.dumpLen buf name width data i)
      (c.lineBufSize - c.dumpLen buf name width data i)
      (storesAt (buf + c.dumpLen buf name width data i) c.newlineSign) :=
    storesAt_within le_rfl (by omega) (by omega) (by omega)
  unfold UlogConfig.hexStores
  rw [hbodyStores, hendStores]
  refine ⟨?_, by rw [hout]; omega, fun m => ?_⟩
  · exact (hheadIn.append (hbodyIn.from_above (by omega))).append (hendIn.from_above (by omega))
  · simp only [storeAll_append]
    have h1 := (hhead m).1
    rw [List.take_of_length_le (by omega)] at h1
    have h2 := h1.extend hbodyIn (HoldsBytes.storesAt_self (by omega) (by omega))
    have h3 := h2.take (c.dumpLen buf name width data i)
    change HoldsBytes _ buf ((hexdumpText name width data i).take _) at h3
    have htake : (hexdumpText name width data i).take (c.dumpLen buf name width data i) =
        (hexdumpText name width data i).take (c.lineBufSize - c.newlineSign.length) := by
      rw [List.take_eq_take_iff, hdump]
      omega
    have hlen : ((hexdumpText name width data i).take
      (c.lineBufSize - c.newlineSign.length)).length =
        c.dumpLen buf name width data i := by
      rw [List.length_take, hdump, Nat.min_comm]
    rw [htake] at h3
    rw [← hlen] at hendIn ⊢
    exact h3.extend hendIn (HoldsBytes.storesAt_self (by omega) (by omega))

/-- The offsets of the first `fuel` lines of a dump from `i` on. -/
def hexdumpStarts (width size : Nat) : Nat → Nat → List Nat
  | 0, _ => []
  | fuel + 1, i => if i < size then i :: hexdumpStarts width size fuel (word (i + width)) else []

/-- A line of a run that began in the memory `m`. -/
def OutputRight (size buf : Nat) (sign : List UInt8) (m : Memory) (out : LogBuf)
    (line : List UInt8) : Prop :=
  (line.length ≤ size ∧ sign <:+ line) ∧ out.len = line.length ∧ HoldsBytes out.mem buf line ∧
    ∀ x, x < buf ∨ buf + size ≤ x → out.mem.byte x = m.byte x

/-- What is asked of all lines of a dump, as of one line. -/
def UlogConfig.HexdumpRight (c : UlogConfig) (buf : Nat)
    (name : Option (List UInt8)) (width : Nat) (data : List UInt8)
    (fuel i : Nat) : Prop :=
  ∃ lines, ∀ m, ∃ outs, c.ulogHexdump buf name width data fuel i m = some outs ∧
    List.Forall₂ (OutputRight c.lineBufSize buf c.newlineSign m) outs lines

/-- Each line reached is made of its stores. -/
theorem ulogHexdump_outs (htop : buf < 4294967296) {j : Nat}
    (hj : j ∈ hexdumpStarts width data.length fuel i)
    {outs : List LogBuf} (h : c.ulogHexdump buf name width data fuel i m = some outs) :
    ∃ out ∈ outs, ∃ m1, out.mem = storeAll m1 (c.hexStores buf name width data j) := by
  induction fuel generalizing i m outs with
  | zero => cases hj
  | succ fuel ih =>
    unfold hexdumpStarts at hj
    unfold UlogConfig.ulogHexdump at h
    split at hj
    next hlt =>
      rw [if_pos hlt, hexdumpLine_stores htop] at h
      obtain ⟨first, hfirst, h⟩ := Option.bind_eq_some_iff.mp h
      obtain rfl := Option.some.inj hfirst
      obtain ⟨rest, hrest, h⟩ := Option.bind_eq_some_iff.mp h
      obtain rfl := Option.some.inj h
      rcases List.mem_cons.mp hj with rfl | hj
      · exact ⟨_, List.mem_cons_self, m, rfl⟩
      · obtain ⟨out, hout, hm1⟩ := ih hj hrest
        exact ⟨out, List.mem_cons_of_mem _ hout, hm1⟩
    next => cases hj

theorem outputs_frame {size : Nat} {sign : List UInt8} {outs : List LogBuf}
    {lines : List (List UInt8)}
    (hall : List.Forall₂ (OutputRight size buf sign m) outs lines) :
    ∀ out ∈ outs, ∀ x, x < buf ∨ buf + size ≤ x → out.mem.byte x = m.byte x := by
  induction hall with
  | nil => exact fun out hout => absurd hout List.not_mem_nil
  | cons hright _ ih => exact List.forall_mem_cons.mpr ⟨hright.2.2.2, ih⟩

theorem ulogHexdump_right_iff (hbuf : 0 < buf) (htop : buf + c.lineBufSize < 4294967296) :
    c.HexdumpRight buf name width data fuel i ↔
      ∀ j ∈ hexdumpStarts width data.length fuel i,
        (hexdumpText name width data j).length ≤ c.lineBufSize := by
  constructor
  · rintro ⟨lines, hlines⟩ j hj
    by_contra hlong
    refine hexStores_outside hbuf htop (Nat.lt_of_not_le hlong) (storesWithin_of fun m => ?_)
    obtain ⟨outs, houts, hall⟩ := hlines m
    obtain ⟨out, hout, m1, hm1⟩ := ulogHexdump_outs (by omega) hj houts
    exact ⟨m1, fun x hx => by rw [← hm1]; exact outputs_frame hall out hout x hx⟩
  · intro h
    induction fuel generalizing i with
    | zero => exact ⟨[], fun m => ⟨[], rfl, .nil⟩⟩
    | succ fuel ih =>
      unfold hexdumpStarts at h
      unfold UlogConfig.HexdumpRight UlogConfig.ulogHexdump
      split at h
      next hlt =>
        obtain ⟨hfits, hrest⟩ := List.forall_mem_cons.mp h
        obtain ⟨lines, hlines⟩ := ih hrest
        obtain ⟨hwithin, hlen, hholds⟩ := hexStores_right htop hfits
        refine ⟨c.hexdumpOut name width data i :: lines, fun m => ?_⟩
        obtain ⟨outs, houts, hall⟩ := hlines (storeAll m (c.hexStores buf name width data i))
        rw [if_pos hlt, hexdumpLine_stores (by omega), Option.bind_eq_bind, Option.bind_some, houts,
          hlen]
        refine ⟨_, rfl, .cons ⟨⟨?_, List.suffix_append _ _⟩, rfl, hholds m,
          storesWithin_iff.mp hwithin m⟩ ?_⟩
        · have hnewline := c.newline_fits
          rw [UlogConfig.hexdumpOut, List.length_append, List.length_take]
          omega
        · refine hall.imp fun out line hright => ⟨hright.1, hright.2.1, hright.2.2.1,
            fun x hx => ?_⟩
          exact (hright.2.2.2 x hx).trans (storesWithin_iff.mp hwithin m x hx)
      next hge => exact ⟨[], fun m => ⟨[], if_neg hge, .nil⟩⟩

/-- Every log line is right unless what stands in front of the message fills the buffer, a line of a
dump is longer than the buffer, the NUL of the keyword filter has no room, a printed level has no name,
or a message reaches the top of the address space. -/
theorem log_lines_right_iff (c : UlogConfig) (buf : Nat) (hbuf : 0 < buf)
    (htop : buf + c.lineBufSize < 4294967296) :
    (∀ call ps, formatPieces call.format call.args = some ps →
      (LineRight c.lineBufSize buf (c.endText call) (c.formaterRun buf call) ↔
        ∃ level, c.levelText call = some level ∧ c.HeadFits buf call level ps) ∧
      (LineRight c.lineBufSize buf (c.endText call) (c.ulogVoutput buf call) ↔
        c.initOk = false ∨ c.filtered call = true ∨
          ∃ level, c.levelText call = some level ∧ c.HeadFits buf call level ps ∧
            (c.hasKeyword = true → c.NulFits call level ps))) ∧
    (∀ format args ps, formatPieces format args = some ps →
      (LineRight c.lineBufSize buf [] (c.ulogRaw buf format args) ↔
        buf + (sizedOutput c.lineBufSize ps).length < 4294967296)) ∧
    ∀ name width data fuel, c.HexdumpRight buf name width data fuel 0 ↔
      ∀ i ∈ hexdumpStarts width data.length fuel 0,
        (hexdumpText name width data i).length ≤ c.lineBufSize :=
  ⟨fun _ _ hps => ⟨ulogFormater_right_iff hbuf htop hps, ulogVoutput_right_iff hbuf htop hps⟩,
    fun _ _ _ hps => ulogRaw_right_iff hbuf htop hps,
      fun _ _ _ _ => ulogHexdump_right_iff hbuf htop⟩

/-- The default line buffer and newline sign, with colours, the level and the tag. -/
def defaultUlog : UlogConfig where
  lineBufSize := 128
  newlineSign := [13, 10]
  color := some defaultColors
  outputLevel := true
  outputTag := true
  outputThreadName := false
  initOk := true
  filter := none
  size_ge := by decide
  size_lt := by decide
  newline_pos := by decide
  newline_fits := by decide
  color_short := by
    intro table htable
    obtain rfl := Option.some.inj htable
    decide

def hiCall : LogCall := ⟨6, [109], true, [104, 105], [], .off, []⟩

theorem log_lines_right_hi :
    LineRight 128 4096 [13, 10, 27, 91, 48, 109] (defaultUlog.ulogVoutput 4096 hiCall) ∧
    LineRight 128 4096 [] (defaultUlog.ulogRaw 4096 [104, 105] []) := by
  have h := log_lines_right_iff defaultUlog 4096 (by decide) (by decide)
  refine ⟨((h.1 hiCall [.char 104, .char 105] rfl).2).mpr
    (.inr (.inr ⟨[73, 47], rfl, ⟨by decide, by decide⟩, ?_⟩)),
    (h.2.1 [104, 105] [] [.char 104, .char 105] rfl).mpr (by decide)⟩
  exact fun hkeyword => absurd hkeyword (by decide)

/-- A line for 32 bytes does not fit the default line buffer: the byte behind the buffer is written. -/
theorem hexdump_width_32_outside :
    (hexdumpText (some [98, 117, 102]) 32 (List.replicate 32 0) 0).length = 156 ∧
      ¬ defaultUlog.HexdumpRight 4096 (some [98, 117, 102]) 32 (List.replicate 32 0) 1 0 := by
  have hlength : (hexdumpText (some [98, 117, 102]) 32 (List.replicate 32 0) 0).length =
    156 := by decide +kernel
  refine ⟨hlength, fun h => ?_⟩
  have hfits := (ulogHexdump_right_iff (by decide) (by decide)).mp h 0 (by decide)
  rw [hlength] at hfits
  exact absurd hfits (by decide)

end

end

end RTThread
