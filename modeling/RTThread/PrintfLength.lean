import RTThread.PrintfBounds

namespace RTThread

/-- A number whose field is longer by one when its sign is not stored. -/
def Piece.signShifts : Piece → Bool
  | .number num base fieldWidth precision flags =>
    (numberSign flags num).1.isSome && (flags.left || flags.zeropad) &&
      decide ((numberDigits (numberTmp flags base (numberSign flags num).2.toNat) precision).length <
        fieldWidth)
  | _ => false

theorem signedField_length (fits : Bool) (sign : Option UInt8) (digits : List UInt8) (s : Int)
    (zeropad left : Bool) :
    (signedField fits sign digits s zeropad left).length =
      sign.toList.length + digits.length + numberRoom (fits || !(left || zeropad)) sign s digits := by
  cases left with
  | true =>
    simp [signedField]
    omega
  | false =>
    cases zeropad with
    | true =>
      simp [signedField]
      omega
    | false =>
      simp [signedField]
      omega

theorem signedField_false_length (sign : Option UInt8) (digits : List UInt8) (s : Int)
    (zeropad left : Bool) :
    (signedField false sign digits s zeropad left).length =
      (signedField true sign digits s zeropad left).length +
        if (sign.isSome && (left || zeropad) && decide ((digits.length : Int) < s)) = true then 1 else 0 := by
  simp only [signedField_length, numberRoom]
  cases sign with
  | none => simp
  | some ch =>
    cases left || zeropad with
    | false => simp
    | true =>
      simp only [Bool.not_true, Bool.or_false, Option.isSome_some, Bool.true_and, Bool.and_true,
        decide_eq_true_eq, Bool.false_eq_true, if_false, if_true]
      split
      · omega
      · omega

theorem pieceOut_false_length (p : Piece) :
    (pieceOut false p).length = (pieceOut true p).length + if p.signShifts = true then 1 else 0 := by
  cases p with
  | number num base fieldWidth precision flags => exact signedField_false_length _ _ _ _ _
  | _ => rfl

theorem pieceOut_length_pos {p : Piece} (h : p.signShifts = true) : 0 < (pieceOut true p).length := by
  cases p with
  | number num base fieldWidth precision flags =>
    simp only [Piece.signShifts, Bool.and_eq_true] at h
    obtain ⟨ch, hch⟩ := Option.isSome_iff_exists.mp h.1.1
    simp only [pieceOut, numberField, signedField_length, hch, Option.toList_some, List.length_singleton]
    omega
  | _ => exact absurd h Bool.false_ne_true

theorem pieceOut_steady {p : Piece} (h : p.signShifts = false) (fits : Bool) :
    pieceOut fits p = pieceOut true p := by
  cases fits with
  | true => rfl
  | false =>
    cases p with
    | number num base fieldWidth precision flags =>
      have hlen := pieceOut_false_length (.number num base fieldWidth precision flags)
      rw [h] at hlen
      simp only [pieceOut, numberField, signedField] at hlen ⊢
      cases hl : flags.left with
      | true =>
        simp only [hl, if_true, List.length_append, List.length_replicate] at hlen ⊢
        congr 2
        simpa using hlen
      | false =>
        cases hz : flags.zeropad with
        | true =>
          simp only [hl, hz, if_true, Bool.false_eq_true, if_false, List.length_append,
            List.length_replicate] at hlen ⊢
          congr 3
          simpa using hlen
        | false => rfl
    | _ => rfl

theorem renderFrom_append (fits : Nat → Bool) (ps qs : List Piece) (pos : Nat) :
    renderFrom fits pos (ps ++ qs) =
      renderFrom fits pos ps ++ renderFrom fits (pos + (renderFrom fits pos ps).length) qs := by
  induction ps generalizing pos with
  | nil => rfl
  | cons p ps ih =>
    simp only [List.cons_append, renderFrom]
    rw [ih, List.append_assoc, List.length_append, Nat.add_assoc]

theorem unboundedOutput_append (ps qs : List Piece) :
    unboundedOutput (ps ++ qs) = unboundedOutput ps ++ unboundedOutput qs := List.flatMap_append

theorem unboundedOutput_cons (p : Piece) (ps : List Piece) :
    unboundedOutput (p :: ps) = pieceOut true p ++ unboundedOutput ps := List.flatMap_cons

theorem renderFrom_length_le (fits : Nat → Bool) (ps : List Piece) (pos : Nat) :
    (unboundedOutput ps).length ≤ (renderFrom fits pos ps).length ∧
      (renderFrom fits pos ps).length ≤ 2 * (unboundedOutput ps).length := by
  induction ps generalizing pos with
  | nil => exact ⟨Nat.le_refl _, Nat.zero_le _⟩
  | cons p ps ih =>
    have hrest := ih (pos + (pieceOut (fits pos) p).length)
    have hfalse := pieceOut_false_length p
    have hpos := pieceOut_length_pos (p := p)
    simp only [renderFrom, unboundedOutput_cons, List.length_append]
    cases hf : fits pos with
    | true =>
      rw [hf] at hrest
      omega
    | false =>
      rw [hf] at hrest
      split at hfalse
      next hs =>
        have := hpos hs
        omega
      next => omega

/-- Every number that a missing sign would lengthen stands in front of all other output. -/
def SignsInFront (ps : List Piece) : Prop :=
  ∀ ps1 p ps2, ps = ps1 ++ p :: ps2 → p.signShifts = true → unboundedOutput ps1 = []

theorem renderFrom_signsInFront {fits : Nat → Bool} (hfits : fits 0 = true) (ps : List Piece) (pos : Nat)
    (h : ∀ ps1 p ps2, ps = ps1 ++ p :: ps2 → p.signShifts = true → pos + (unboundedOutput ps1).length = 0) :
    renderFrom fits pos ps = unboundedOutput ps := by
  induction ps generalizing pos with
  | nil => rfl
  | cons p ps ih =>
    have hhere : pieceOut (fits pos) p = pieceOut true p := by
      cases hs : p.signShifts with
      | true =>
        have hpos := h [] p ps rfl hs
        rw [show pos = 0 by omega, hfits]
      | false => exact pieceOut_steady hs _
    simp only [renderFrom, unboundedOutput_cons, hhere]
    rw [ih]
    intro ps1 q ps2 heq hq
    have hlen := h (p :: ps1) q ps2 (by rw [heq]; rfl) hq
    rw [unboundedOutput_cons, List.length_append] at hlen
    omega

/-- The call returns `n` into every buffer of at least one byte. -/
def LengthReturned (fmt : List UInt8) (args : List PrintfArg) (n : Nat) : Prop :=
  ∀ m buf size, 0 < buf → buf < 4294967296 → 1 ≤ size → size < 4294967296 →
    (rtVsnprintf m buf size fmt args).map Prod.snd = some (n : Int)

theorem bmod_eq_nat {L n : Nat} (hL : L < 4294967296) (hn : n < 4294967296)
    (h : Int.bmod L 4294967296 = n) : L = n := by
  have hmod : Int.bmod (L : Int) 4294967296 % (4294967296 : Nat) = L % (4294967296 : Nat) := Int.bmod_emod
  rw [h] at hmod
  omega

theorem bmod_small {n : Nat} (hn : n < 2147483648) : Int.bmod n 4294967296 = n := by
  rw [Int.bmod_def]
  omega

theorem wordSub_word {buf n : Nat} (hbuf : buf < 4294967296) (hn : n < 4294967296) :
    wordSub (word (buf + n)) buf = n := by
  unfold wordSub word
  omega

/-- The padding behind a sign is counted down only where the sign is stored, so that a sign that falls
behind the end of the buffer makes the result one too large. -/
theorem rtVsnprintf_length_iff {fmt : List UInt8} {args : List PrintfArg} {ps : List Piece}
    (hps : formatPieces fmt args = some ps) :
    LengthReturned fmt args (unboundedOutput ps).length ↔
      (unboundedOutput ps).length < 2147483648 ∧ SignsInFront ps := by
  constructor
  · intro h
    have hsmall : (unboundedOutput ps).length < 2147483648 := by
      have hone := h ⟨fun _ => 0⟩ 1 1 (by decide) (by decide) (by decide) (by decide)
      rw [rtVsnprintf_eq hps (by decide)] at hone
      have hlt := Int.bmod_lt (x := wordSub (word (1 + (storedOutput 1 1 ps).length)) 1)
        (m := 4294967296) (by decide)
      rw [Option.map_some, Option.some.injEq] at hone
      omega
    refine ⟨hsmall, ?_⟩
    intro ps1 p ps2 heq hshifts
    by_contra hne
    have hpos := List.length_pos_iff.mpr hne
    have hlen1 : (unboundedOutput ps1).length ≤ (unboundedOutput ps).length := by
      rw [heq, unboundedOutput_append, List.length_append]
      omega
    have hbound := renderFrom_length_le (fun k => decide (k < (unboundedOutput ps1).length)) ps 0
    have hlonger : (unboundedOutput ps).length < (sizedOutput (unboundedOutput ps1).length ps).length := by
      have hfront := renderFrom_length_le (fun k => decide (k < (unboundedOutput ps1).length)) ps1 0
      unfold sizedOutput
      rw [heq, renderFrom_append, unboundedOutput_append, unboundedOutput_cons]
      simp only [renderFrom, List.length_append, Nat.zero_add]
      have hback := renderFrom_length_le (fun k => decide (k < (unboundedOutput ps1).length)) ps2
      have hfalse := pieceOut_false_length p
      rw [hshifts, if_pos rfl] at hfalse
      rw [decide_eq_false (by omega), hfalse]
      have := hback ((renderFrom (fun k => decide (k < (unboundedOutput ps1).length)) 0 ps1).length +
        ((pieceOut true p).length + 1))
      omega
    change _ ∧ (sizedOutput (unboundedOutput ps1).length ps).length ≤ _ at hbound
    have hcall := h ⟨fun _ => 0⟩ 1 (unboundedOutput ps1).length (by decide) (by decide) hpos (by omega)
    rw [rtVsnprintf_eq hps (by decide), storedOutput_sized ps hpos (by omega) (by decide) (.inr (by omega)),
      wordSub_word (by decide) (by omega)] at hcall
    simp only [Option.map_some, Option.some.injEq] at hcall
    have hsame := bmod_eq_nat (by omega) (by omega) hcall
    omega
  · rintro ⟨hsmall, hfront⟩ m buf size hbuf htop hsize hword
    have hall : storedOutput buf size ps = unboundedOutput ps := by
      apply renderFrom_signsInFront
      · have hend := bufferEnd_size hsize hword htop
        apply decide_eq_true
        rw [word_of_lt (by omega)]
        omega
      · intro ps1 p ps2 heq hp
        rw [hfront ps1 p ps2 heq hp]
        rfl
    rw [rtVsnprintf_eq hps (by omega), hall, wordSub_word (by omega) (by omega), bmod_small hsmall]
    rfl

/-- Minus 7 in five places and a bar: six characters into every buffer. -/
theorem rtVsnprintf_length_six :
    LengthReturned [37, 48, 53, 100, 124] [.word 4294967289] 6 := by
  have hps : formatPieces [37, 48, 53, 100, 124] [.word 4294967289] =
      some [.number 4294967289 10 5 (-1) { PrintFlags.none with sign := true, zeropad := true },
        .char 124] := by decide +kernel
  apply (rtVsnprintf_length_iff hps).2
  refine ⟨by decide +kernel, ?_⟩
  intro ps1 p ps2 heq hshifts
  cases ps1 with
  | nil => rfl
  | cons q ps1 =>
    exfalso
    have htail := (List.cons.inj heq).2
    cases ps1 with
    | nil =>
      obtain ⟨rfl, -⟩ := List.cons.inj htail
      exact absurd hshifts (by decide)
    | cons r ps1 => exact absurd (congrArg List.length htail) (by simp)

/-- One byte of room does not store the sign of minus 7: the padding gets a character more. -/
theorem rtVsnprintf_length_depends :
    (formatPieces [120, 37, 48, 53, 100] [.word 4294967289]).map (fun ps => (unboundedOutput ps).length) =
        some 6 ∧
      ¬LengthReturned [120, 37, 48, 53, 100] [.word 4294967289] 6 := by
  refine ⟨by decide +kernel, ?_⟩
  intro h
  have hone := h ⟨fun _ => 0⟩ 4096 1 (by decide) (by decide) (by decide) (by decide)
  exact absurd hone (by decide +kernel)

end RTThread
