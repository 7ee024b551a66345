import RTThread.PrintfModel

namespace RTThread

theorem skipAtoi_length (fmt : List UInt8) (i : Nat) : (skipAtoi fmt i).2.length ≤ fmt.length := by
  induction fmt generalizing i with
  | nil => exact Nat.le_refl 0
  | cons c fmt ih =>
    unfold skipAtoi
    split
    · exact (ih _).trans (Nat.le_succ _)
    · exact Nat.le_refl _

theorem readFlags_length (fmt : List UInt8) (flags : PrintFlags) :
    (readFlags fmt flags).2.length ≤ fmt.length := by
  induction fmt generalizing flags with
  | nil => exact Nat.le_refl 0
  | cons c fmt ih =>
    unfold readFlags
    grind

theorem readWidth_length {flags flags' : PrintFlags} {r r' : FormatRest} {w : Int}
    (h : readWidth flags r = some (w, flags', r')) : r'.fmt.length ≤ r.fmt.length := by
  have hskip := skipAtoi_length r.fmt 0
  unfold readWidth readInt at h
  grind

theorem readPrecision_length {r r' : FormatRest} {p : Int} (h : readPrecision r = some (p, r')) :
    r'.fmt.length ≤ r.fmt.length := by
  have hskip := skipAtoi_length r.fmt.tail 0
  unfold readPrecision readInt at h
  grind

theorem readQualifier_length (fmt : List UInt8) : (readQualifier fmt).2.length ≤ fmt.length := by
  unfold readQualifier
  grind

theorem conversionCase_fmt {c : UInt8} {flags : PrintFlags} {w p : Int} {q : Option UInt8}
    {r r' : FormatRest} {piece : Piece} (h : conversionCase c flags w p q r = some (piece, r')) :
    r'.fmt = r.fmt := by
  unfold conversionCase readInt readNumber at h
  grind

theorem readConversion_length {r r' : FormatRest} {p : Piece} (h : readConversion r = some (p, r')) :
    r'.fmt.length ≤ r.fmt.length := by
  unfold readConversion at h
  have hflags := readFlags_length r.fmt .none
  obtain ⟨w, hw, h⟩ := Option.bind_eq_some_iff.mp h
  obtain ⟨w, flags, r1⟩ := w
  obtain ⟨pr, hp, h⟩ := Option.bind_eq_some_iff.mp h
  obtain ⟨pr, r2⟩ := pr
  have hwidth := readWidth_length hw
  have hprecision := readPrecision_length hp
  have hqualifier := readQualifier_length r2.fmt
  simp only at h hwidth
  split at h
  next =>
    obtain ⟨-, rfl⟩ := Prod.mk.inj (Option.some.inj h)
    exact Nat.zero_le _
  next c fmt hq =>
    rw [hq, List.length_cons] at hqualifier
    rw [conversionCase_fmt h]
    show fmt.length ≤ _
    omega

/-- Each turn of the loop reads a character, so that the fuel of `formatPieces` lasts. -/
theorem readPieces_fuel {n k : Nat} {r : FormatRest} (hn : r.fmt.length ≤ n) (hk : r.fmt.length ≤ k) :
    readPieces n r = readPieces k r := by
  induction n generalizing k r with
  | zero => cases k <;> grind [readPieces]
  | succ n ih =>
    cases k with
    | zero => grind [readPieces]
    | succ k =>
      unfold readPieces
      split
      next => rfl
      next c fmt heq =>
        rw [heq, List.length_cons] at hn hk
        split
        next =>
          cases hr : readConversion ⟨fmt, r.args⟩ with
          | none => rfl
          | some pr =>
            obtain ⟨p, r'⟩ := pr
            have hlen : r'.fmt.length ≤ fmt.length := readConversion_length hr
            show (readPieces n r').map _ = (readPieces k r').map _
            rw [ih (k := k) (by omega) (by omega)]
        next => rw [ih (k := k) (by show fmt.length ≤ n; omega) (by show fmt.length ≤ k; omega)]

theorem putAll_append (e : Nat) (b : PrintBuf) (xs ys : List UInt8) :
    putAll e b (xs ++ ys) = putAll e (putAll e b xs) ys := List.foldl_append

theorem putAll_cons (e : Nat) (b : PrintBuf) (c : UInt8) (out : List UInt8) :
    putAll e b (c :: out) = putAll e (put e b c) out := rfl

theorem putAll_nil (e : Nat) (b : PrintBuf) : putAll e b [] = b := rfl

theorem put_eq (e : Nat) (b : PrintBuf) (c : UInt8) : put e b c = putAll e b [c] := rfl

theorem putAll_str (out : List UInt8) {e : Nat} {b : PrintBuf} (hb : b.str < 4294967296) :
    (putAll e b out).str = word (b.str + out.length) := by
  induction out generalizing b with
  | nil => exact (word_of_lt hb).symm
  | cons c out ih =>
    rw [putAll_cons, ih (word_lt _)]
    show word (word (b.str + 1) + out.length) = word (b.str + (out.length + 1))
    rw [word_word]
    congr 1
    omega

/-- The blanks that the width leaves next to a number: one less where the sign is counted. -/
def numberRoom (signFits : Bool) (sign : Option UInt8) (s : Int) (digits : List UInt8) : Nat :=
  (s - digits.length - if sign.isSome && signFits then 1 else 0).toNat

def numberDigits (tmp : List UInt8) (precision : Int) : List UInt8 :=
  List.replicate (precision - tmp.length).toNat (ascii '0') ++ tmp.reverse

/-- The field of a number; `signFits` says whether a sign in front of it would be stored. -/
def signedField (signFits : Bool) (sign : Option UInt8) (digits : List UInt8) (s : Int)
    (zeropad left : Bool) : List UInt8 :=
  if left then
    sign.toList ++ digits ++ List.replicate (numberRoom signFits sign s digits) (ascii ' ')
  else if zeropad then
    sign.toList ++ List.replicate (numberRoom signFits sign s digits) (ascii '0') ++ digits
  else List.replicate (numberRoom true sign s digits) (ascii ' ') ++ sign.toList ++ digits

def numberField (signFits : Bool) (num : UInt32) (base : Nat) (s precision : Int) (flags : PrintFlags) :
    List UInt8 :=
  signedField signFits (numberSign flags num).1
    (numberDigits (numberTmp flags base (numberSign flags num).2.toNat) precision) s flags.zeropad flags.left

theorem padWhile_done {e : Nat} {c : UInt8} {size : Int} (h : size ≤ 0) (b : PrintBuf) :
    (padWhile e c size b).1 = b := by
  show putAll e b (List.replicate size.toNat c) = b
  rw [Int.toNat_of_nonpos h]
  rfl

theorem padWhile_snd_nonpos (e : Nat) (c : UInt8) (size : Int) (b : PrintBuf) :
    (padWhile e c size b).2 ≤ 0 := by
  show min size 0 - 1 ≤ 0
  omega

theorem numberDigits_length (tmp : List UInt8) (precision : Int) :
    ((numberDigits tmp precision).length : Int) =
      if (tmp.length : Int) > precision then (tmp.length : Int) else precision := by
  unfold numberDigits
  rw [List.length_append, List.length_replicate, List.length_reverse]
  split
  · omega
  · omega

theorem numberDigits_put (e : Nat) (b : PrintBuf) (tmp : List UInt8) (precision : Int) :
    putAll e (padWhile e (ascii '0') ((numberDigits tmp precision).length - tmp.length) b).1 tmp.reverse =
      putAll e b (numberDigits tmp precision) := by
  have hcount : ((numberDigits tmp precision).length - tmp.length : Int).toNat =
      (precision - tmp.length).toNat := by
    rw [numberDigits_length]
    split
    · omega
    · rfl
  unfold padWhile
  rw [hcount, numberDigits, putAll_append]

theorem putSign_eq (e : Nat) (b : PrintBuf) (size : Int) (sign : Option UInt8) :
    putSign e sign size b =
      (putAll e b sign.toList, size - if sign.isSome && decide (b.str ≤ e) then 1 else 0) := by
  cases sign with
  | none => simp [putSign, putAll_nil]
  | some ch =>
    by_cases h : b.str ≤ e
    · simp [putSign, h, put_eq]
    · simp [putSign, h, put_eq]

theorem putNumber_eq (e : Nat) (b : PrintBuf) (sign : Option UInt8) (tmp : List UInt8) (s precision : Int)
    (zeropad left : Bool) (hboth : left = true → zeropad = false) :
    putNumber e b sign tmp s precision zeropad left =
      putAll e b (signedField (decide (b.str ≤ e)) sign (numberDigits tmp precision) s zeropad left) := by
  unfold putNumber
  simp only [← numberDigits_length, putSign_eq, numberDigits_put]
  cases left with
  | true =>
    obtain rfl := hboth rfl
    simp only [Bool.or_true, if_true, signedField, padWhile, putAll_append,
      numberRoom]
  | false =>
    cases zeropad with
    | true =>
      simp only [Bool.or_false, if_true, Bool.false_eq_true, if_false]
      rw [padWhile_done (padWhile_snd_nonpos _ _ _ _)]
      simp only [signedField, padWhile, putAll_append, numberRoom, Bool.false_eq_true, if_false, if_true]
    | false =>
      have hlead : ∀ size : Int, (if sign.isSome ∧ 0 < size then size - 1 else size).toNat =
          (size - if sign.isSome && true then 1 else 0).toNat := by
        intro size
        cases sign with
        | none => simp
        | some ch =>
          simp only [Option.isSome_some, true_and, Bool.and_true, if_true]
          split
          · rfl
          · omega
      have hrest := padWhile_snd_nonpos e (ascii ' ')
        (if sign.isSome ∧ 0 < s - (numberDigits tmp precision).length
          then s - (numberDigits tmp precision).length - 1 else s - (numberDigits tmp precision).length) b
      simp only [Bool.or_false, Bool.false_eq_true, if_false]
      rw [padWhile_done (padWhile_snd_nonpos _ _ _ _), padWhile_done]
      · unfold padWhile
        rw [hlead]
        simp only [signedField, putAll_append, numberRoom, Bool.false_eq_true, if_false]
      · have hcount : ∀ fits : Bool, (0 : Int) ≤ if fits = true then 1 else 0 := by decide
        exact (Int.sub_le_self _ (hcount _)).trans hrest

theorem printNumber_eq (e : Nat) (b : PrintBuf) (num : UInt32) (base : Nat) (s precision : Int)
    (flags : PrintFlags) :
    printNumber e b num base s precision flags =
      putAll e b (numberField (decide (b.str ≤ e)) num base s precision flags) := by
  unfold printNumber numberField
  split
  next h =>
    rw [putNumber_eq _ _ _ _ _ _ _ _ fun _ => rfl]
    simp only [signedField, h, if_true]
    rfl
  next h => exact putNumber_eq e b _ _ _ _ _ _ fun hl => absurd hl h

/-- The output of a piece that starts where `fits` tells if a character is stored. -/
def pieceOut (fits : Bool) : Piece → List UInt8
  | .char c => [c]
  | .unknown c => ascii '%' :: c.toList
  | .character left fieldWidth c =>
    let pad := List.replicate (fieldWidth - 1).toNat (ascii ' ')
    if left then c :: pad else pad ++ [c]
  | .string left fieldWidth s =>
    let pad := List.replicate (fieldWidth - s.length).toNat (ascii ' ')
    if left then s ++ pad else pad ++ s
  | .number num base fieldWidth precision flags => numberField fits num base fieldWidth precision flags

theorem printPiece_eq (e : Nat) (b : PrintBuf) (p : Piece) :
    printPiece e b p = putAll e b (pieceOut (decide (b.str ≤ e)) p) := by
  cases p with
  | char c => rfl
  | unknown c => rfl
  | character left fieldWidth c =>
    cases left with
    | true => rfl
    | false =>
      show (padDown e (ascii ' ') (min (fieldWidth - 1) 0) _).1 = _
      have hdone : (min (fieldWidth - 1) 0 - 1).toNat = 0 := by omega
      unfold padDown
      rw [hdone]
      simp only [pieceOut, Bool.false_eq_true, if_false, putAll_append]
      rfl
  | string left fieldWidth s =>
    cases left with
    | true =>
      simp only [printPiece, pieceOut, if_true, putAll_append]
      rfl
    | false =>
      simp only [printPiece, pieceOut, Bool.false_eq_true, if_false, putAll_append]
      exact padWhile_done (padWhile_snd_nonpos _ _ _ _) _
  | number num base fieldWidth precision flags => exact printNumber_eq e b num base fieldWidth precision flags

/-- The output of the pieces from position `pos` on, where `fits` tells which positions are stored. -/
def renderFrom (fits : Nat → Bool) : Nat → List Piece → List UInt8
  | _, [] => []
  | pos, p :: ps =>
    pieceOut (fits pos) p ++ renderFrom fits (pos + (pieceOut (fits pos) p).length) ps

/-- The output into a buffer without an end. -/
def unboundedOutput (ps : List Piece) : List UInt8 := ps.flatMap (pieceOut true)

theorem printPieces_eq (e : Nat) {b : PrintBuf} (ps : List Piece) {a pos : Nat}
    (hb : b.str = word (a + pos)) :
    ps.foldl (printPiece e) b =
      putAll e b (renderFrom (fun k => decide (word (a + k) ≤ e)) pos ps) := by
  induction ps generalizing b pos with
  | nil => rfl
  | cons p ps ih =>
    rw [List.foldl_cons, printPiece_eq, hb]
    simp only [renderFrom]
    rw [putAll_append, ih]
    rw [putAll_str _ (hb ▸ word_lt _), hb, word_word, Nat.add_assoc]

theorem printPieces_start {e buf : Nat} (m : Memory) (ps : List Piece) (hbuf : buf < 4294967296) :
    ps.foldl (printPiece e) ⟨m, buf⟩ =
      putAll e ⟨m, buf⟩ (renderFrom (fun k => decide (word (buf + k) ≤ e)) 0 ps) :=
  printPieces_eq e ps (word_of_lt hbuf).symm

/-- The output depends on `fits` at the positions that it reaches. -/
theorem renderFrom_congr {fits fits' : Nat → Bool} (ps : List Piece) {pos : Nat}
    (h : ∀ k, pos ≤ k → k ≤ pos + (renderFrom fits pos ps).length → fits k = fits' k) :
    renderFrom fits pos ps = renderFrom fits' pos ps := by
  induction ps generalizing pos with
  | nil => rfl
  | cons p ps ih =>
    simp only [renderFrom, List.length_append] at h ⊢
    rw [← h pos (by omega) (by omega)]
    congr 1
    apply ih
    intro k hpos hk
    exact h k (by omega) (by omega)

/-- A buffer of `size` bytes shows what a buffer without an end would. -/
theorem renderFrom_take (size : Nat) (ps : List Piece) (pos : Nat) :
    (renderFrom (fun k => decide (k < size)) pos ps).take (size - pos) =
      (unboundedOutput ps).take (size - pos) := by
  induction ps generalizing pos with
  | nil => rfl
  | cons p ps ih =>
    by_cases hpos : pos < size
    · have hnext := ih (pos + (pieceOut true p).length)
      show (renderFrom _ pos (p :: ps)).take _ = ((p :: ps).flatMap (pieceOut true)).take _
      simp only [renderFrom, hpos, decide_true, List.flatMap_cons]
      rw [List.take_append, List.take_append, Nat.sub_sub, hnext]
      rfl
    · rw [Nat.sub_eq_zero_of_le (by omega)]
      rfl

theorem render_length_min (size : Nat) (ps : List Piece) :
    min size (renderFrom (fun k => decide (k < size)) 0 ps).length = min size (unboundedOutput ps).length := by
  have h := congrArg List.length (renderFrom_take size ps 0)
  rwa [List.length_take, List.length_take, Nat.sub_zero] at h

theorem put_byte (e : Nat) (b : PrintBuf) (c : UInt8) (x : Nat) :
    (put e b c).mem.byte x = if x = b.str ∧ b.str ≤ e then c else b.mem.byte x := by
  unfold put
  by_cases he : b.str ≤ e
  · simp only [he, if_true, and_true, write8, UInt8.ofNat_toNat]
  · simp only [he, if_false, and_false]

/-- What is behind the output does not depend on what was at the address before. -/
theorem putAll_congr (out : List UInt8) {e x : Nat} {b b' : PrintBuf} (hstr : b.str = b'.str)
    (hx : b.mem.byte x = b'.mem.byte x) :
    (putAll e b out).str = (putAll e b' out).str ∧
      (putAll e b out).mem.byte x = (putAll e b' out).mem.byte x := by
  induction out generalizing b b' with
  | nil => exact ⟨hstr, hx⟩
  | cons c out ih =>
    apply ih
    · show word (b.str + 1) = word (b'.str + 1)
      rw [hstr]
    · rw [put_byte, put_byte, hstr, hx]

theorem putAll_outside (out : List UInt8) {e x : Nat} {b : PrintBuf}
    (hroom : b.str + out.length ≤ 4294967296) (hx : x < b.str ∨ e < x ∨ b.str + out.length ≤ x) :
    (putAll e b out).mem.byte x = b.mem.byte x := by
  induction out using List.reverseRecOn with
  | nil => rfl
  | append_singleton out c ih =>
    rw [List.length_append] at hroom hx
    simp only [List.length_singleton] at hroom hx
    have hstr := putAll_str out (e := e) (b := b) (by omega)
    rw [word_of_lt (by omega)] at hstr
    rw [putAll_append, ← put_eq, put_byte, if_neg (by omega), ih (by omega) (by omega)]

theorem putAll_inside (out : List UInt8) {e i : Nat} {b : PrintBuf}
    (hroom : b.str + out.length ≤ 4294967296) (hi : i < out.length) (he : b.str + i ≤ e) :
    out[i]? = some ((putAll e b out).mem.byte (b.str + i)) := by
  induction out using List.reverseRecOn with
  | nil => simp at hi
  | append_singleton out c ih =>
    rw [List.length_append] at hroom hi
    simp only [List.length_singleton] at hroom hi
    have hstr := putAll_str out (e := e) (b := b) (by omega)
    rw [word_of_lt (by omega)] at hstr
    rw [putAll_append, ← put_eq, put_byte]
    by_cases hlast : i = out.length
    · subst hlast
      rw [if_pos ⟨hstr.symm, by omega⟩, List.getElem?_concat_length]
    · rw [if_neg (by omega), List.getElem?_append_left (by omega)]
      exact ih (by omega) (by omega)

/-- Past the top of the address space the output comes back to address 0. -/
theorem putAll_wraps (out : List UInt8) {e : Nat} {b : PrintBuf} (hb : b.str < 4294967296)
    (hroom : 4294967296 < b.str + out.length) (m : Memory) :
    (putAll e b out).mem.byte 0 = (putAll e ⟨m, b.str⟩ out).mem.byte 0 := by
  have hsplit := List.take_append_drop (4294967296 - b.str) out
  have hlen : (out.take (4294967296 - b.str)).length = 4294967296 - b.str :=
    List.length_take_of_le (by omega)
  have htop : ∀ b' : PrintBuf, b'.str = b.str → (putAll e b' (out.take (4294967296 - b.str))).str = 0 := by
    intro b' hb'
    rw [putAll_str _ (by omega), hlen, hb', Nat.add_sub_cancel' (by omega)]
    rfl
  cases hd : out.drop (4294967296 - b.str) with
  | nil =>
    have h := congrArg List.length hd
    rw [List.length_drop] at h
    simp at h
    omega
  | cons c rest =>
    rw [← hsplit, hd, putAll_append, putAll_append, putAll_cons, putAll_cons]
    apply (putAll_congr rest _ _).2
    · show word (_ + 1) = word (_ + 1)
      rw [htop b rfl, htop ⟨m, b.str⟩ rfl]
    · have hzero : 0 = 0 ∧ 0 ≤ e := ⟨rfl, Nat.zero_le e⟩
      rw [put_byte, put_byte, htop b rfl, htop ⟨m, b.str⟩ rfl, if_pos hzero, if_pos hzero]

end RTThread
