import Mathlib.Data.List.TakeWhile
import RTThread.FinshScans

namespace RTThread

/-- The word that `token_get_string` takes where `r` is left of the line. -/
def leadingWord (r : List UInt8) : List UInt8 :=
  if isDigit (firstChar r) then [] else r.takeWhile fun ch => !isSeparator ch

/-- The digits that `token_proc_number` collects behind a prefix. -/
def prefixedDigits (r : List UInt8) : List UInt8 :=
  if r.head? = some 48 then
    if firstChar r.tail = 120 ∨ firstChar r.tail = 88 then
      r.tail.tail.takeWhile fun ch => isDigit ch || isAlpha ch
    else if firstChar r.tail = 98 ∨ firstChar r.tail = 66 then r.tail.tail.takeWhile isBinary
    else r.tail.takeWhile isOctal
  else []

/-- The digits that `token_proc_char` collects behind a backslash. -/
def escapeDigits (r : List UInt8) : List UInt8 :=
  if r.head? = some 39 ∧ r.tail.head? = some 92 then r.tail.tail.takeWhile isDigit else []

/-- The token at the head of `r` fits the buffers, and if it is a word then the line goes on behind it. -/
structure TokenFits (r : List UInt8) : Prop where
  word : leadingWord r ≠ [] →
    (leadingWord r).length < finshStringMax ∧ ¬ LineEnds (r.drop (leadingWord r).length)
  number : (prefixedDigits r).length < 128
  escape : (escapeDigits r).length < 4

namespace FinshLexer

/-- The lexer has its whole string buffer and stands inside its line. -/
structure Inside (s : FinshLexer) : Prop where
  position : s.position ≤ s.line.length
  room : s.string.length = finshStringMax

/-- From `s` to `t` the lexer has come at least `k` characters further, or to the end of the line. -/
structure Reads (k : Nat) (s t : FinshLexer) : Prop where
  line : t.line = s.line
  inside : t.Inside
  further : t.eof = false → s.eof = false ∧ s.position + k ≤ t.position

variable {s t u : FinshLexer} {k j : Nat} {kind : UInt8 → Bool} {ch : UInt8}

theorem Reads.trans (h : Reads k s t) (h' : Reads j t u) : Reads (k + j) s u where
  line := h'.line.trans h.line
  inside := h'.inside
  further := by
    intro he
    obtain ⟨ht, hj⟩ := h'.further he
    obtain ⟨hs, hk⟩ := h.further ht
    exact ⟨hs, by omega⟩

theorem Reads.mono (h : Reads k s t) (hle : j ≤ k) : Reads j s t where
  line := h.line
  inside := h.inside
  further := by
    intro he
    obtain ⟨hs, hk⟩ := h.further he
    exact ⟨hs, by omega⟩

theorem Inside.reads (h : s.Inside) : Reads 0 s s := ⟨rfl, h, fun he => ⟨he, by omega⟩⟩

theorem Inside.nextChar (h : s.Inside) : Reads 1 s s.nextChar.2 := by
  unfold FinshLexer.nextChar
  split
  next he => exact ⟨rfl, h, fun hf => absurd (he.symm.trans hf) (by simp)⟩
  next he =>
    split
    next => exact ⟨rfl, ⟨Nat.zero_le _, h.room⟩, fun hf => absurd hf (by simp)⟩
    next c hc =>
      have hlt := (List.getElem?_eq_some_iff.mp hc).1
      split
      next => exact ⟨rfl, ⟨Nat.zero_le _, h.room⟩, fun hf => absurd hf (by simp)⟩
      next => exact ⟨rfl, ⟨hlt, h.room⟩, fun _ => ⟨by simpa using he, Nat.le_refl _⟩⟩

/-- Behind the end of the line only NUL is read. -/
theorem nextChar_eof (he : s.nextChar.2.eof = true) : s.nextChar.1 = 0 := by
  unfold FinshLexer.nextChar at he ⊢
  split
  next => rfl
  next hs =>
    rw [if_neg hs] at he
    split
    next => rfl
    next c hc =>
      rw [hc] at he
      simp only at he
      split
      next => rfl
      next hne =>
        rw [if_neg hne] at he
        exact absurd he hs

theorem Reads.prevChar (h : Reads (k + 1) s t) : Reads k s t.prevChar := by
  unfold FinshLexer.prevChar
  split
  next => exact h.mono (by omega)
  next =>
    have hpos := h.inside.position
    refine ⟨h.line, ⟨by show t.position - 1 ≤ t.line.length; omega, h.inside.room⟩, ?_⟩
    intro he
    obtain ⟨hs, hk⟩ := h.further he
    exact ⟨hs, by show s.position + k ≤ t.position - 1; omega⟩

theorem Reads.errorSet (h : Reads k s t) (err : FinshLexErr) : Reads k s (t.errorSet err) :=
  ⟨h.line, ⟨h.inside.position, h.inside.room⟩, h.further⟩

/-- What is left of the line, and the NUL behind it. -/
def left (s : FinshLexer) : Nat := if s.eof then 0 else s.line.length + 1 - s.position

theorem Reads.left (h : Reads 1 s t) (he : t.eof = false) : t.left < s.left := by
  obtain ⟨hs, hk⟩ := h.further he
  have hpos := h.inside.position
  have hline := h.line
  unfold FinshLexer.left
  rw [if_neg (by simp [he]), if_neg (by simp [hs]), hline]
  rw [hline] at hpos
  omega

/-- A scan comes to its end, at the latest at the NUL behind the line. -/
theorem scan_ends (hnul : kind 0 = false) {fuel : Nat} (h : Reads 1 t s)
    (hch : s.eof = true → ch = 0) (hfuel : s.left < fuel) :
    ∃ chars stop u, scan kind fuel ch s = some (chars, stop, u) ∧ Reads (chars.length + 1) t u := by
  induction fuel generalizing ch s t with
  | zero => omega
  | succ fuel ih =>
    unfold scan
    split
    next hkind =>
      have hs : s.eof = false := by
        cases he : s.eof with
        | false => rfl
        | true =>
          rw [hch he, hnul] at hkind
          exact absurd hkind (by simp)
      have hnext := h.inside.nextChar
      have hlt : s.nextChar.2.left < fuel := by
        cases he : s.nextChar.2.eof with
        | true =>
          have hpos := h.inside.position
          unfold left at hfuel ⊢
          rw [if_neg (by simp [hs])] at hfuel
          rw [if_pos he]
          omega
        | false =>
          have := hnext.left he
          omega
      obtain ⟨chars, stop, u, hscan, hu⟩ := ih hnext nextChar_eof hlt
      refine ⟨ch :: chars, stop, u, ?_, ?_⟩
      · show ((scan kind fuel s.nextChar.1 s.nextChar.2).map _) = _
        rw [hscan]
        rfl
      · have hall := h.trans hu
        rw [List.length_cons]
        exact hall.mono (by omega)
    next => exact ⟨[], ch, s, rfl, h⟩

theorem Inside.scanFrom (h : s.Inside) (hnul : kind 0 = false) :
    ∃ chars stop u, s.nextChar.2.scanFrom kind s.nextChar.1 = some (chars, stop, u) ∧
      Reads (chars.length + 1) s u := by
  have hleft : s.nextChar.2.left < s.nextChar.2.line.length + 2 := by
    unfold left
    split
    · omega
    · omega
  exact scan_ends hnul h.nextChar nextChar_eof hleft

theorem Inside.putString (h : s.Inside) {bytes : List UInt8} (hlen : bytes.length ≤ finshStringMax) :
    ∃ t, s.putString bytes = some t ∧ Reads 0 s t := by
  have hroom := h.room
  unfold FinshLexer.putString
  rw [if_pos (by omega)]
  refine ⟨_, rfl, rfl, ⟨h.position, ?_⟩, fun he => ⟨he, Nat.le_refl _⟩⟩
  show (bytes ++ s.string.drop bytes.length).length = finshStringMax
  rw [List.length_append, List.length_drop]
  omega

/-- `twice` reads the second character or gives it back. -/
theorem Reads.twice (h : Reads 1 s t) (both single : FinshToken) :
    Reads 1 s (t.twice ch both single).2 := by
  have hnext := h.trans h.inside.nextChar
  unfold FinshLexer.twice
  simp only
  split
  · exact hnext.mono (by omega)
  · exact hnext.prevChar

theorem Reads.numberSuffix (h : Reads (k + 1) s t) (value : Nat) :
    Reads k s (t.numberSuffix value ch).2 := by
  unfold FinshLexer.numberSuffix
  split
  · exact h.mono (by omega)
  · exact h.prevChar

/-- The escapes of a string end wherever the line does. -/
theorem Inside.procEscape_ends (h : s.Inside) : ∃ c t, s.procEscape = some (c, t) ∧ Reads 0 s t := by
  have hnext := h.nextChar
  have hsimple := hnext.mono (Nat.zero_le 1)
  unfold FinshLexer.procEscape
  simp only
  split
  iterate 8 exact ⟨_, _, rfl, hsimple⟩
  iterate 2
    obtain ⟨digits, stop, u, hscan, hu⟩ := hnext.inside.scanFrom (show isXdigit 0 = false from rfl)
    simp only [hscan, Option.bind_eq_bind, Option.bind_some]
    exact ⟨_, _, rfl, ((hnext.trans hu).mono (by omega : 0 + 1 ≤ _)).prevChar⟩
  split
  next =>
    obtain ⟨digits, stop, u, hscan, hu⟩ := h.scanFrom (show isOctal 0 = false from rfl)
    simp only [hscan, Option.bind_eq_bind, Option.bind_some]
    exact ⟨_, _, rfl, (hu.mono (by omega : 0 + 1 ≤ _)).prevChar⟩
  next => exact ⟨_, _, rfl, hsimple⟩

theorem Inside.stringLoop_ends (h : s.Inside) (room : Nat) :
    ∃ bytes closed t, stringLoop room s = some (bytes, closed, t) ∧ Reads 0 s t ∧
      bytes.length + (if closed then 1 else 0) ≤ room := by
  induction room generalizing s with
  | zero => exact ⟨[], false, s, rfl, h.reads, Nat.le_refl _⟩
  | succ room ih =>
    have hnext := h.nextChar
    have hread := hnext.mono (Nat.zero_le 1)
    unfold FinshLexer.stringLoop
    simp only
    split
    next => exact ⟨[], false, _, rfl, hread.errorSet _, Nat.zero_le _⟩
    next =>
      split
      next => exact ⟨[], true, _, rfl, hread, by simp⟩
      next =>
        split
        next =>
          obtain ⟨c, t, hc, ht⟩ := hnext.inside.procEscape_ends
          obtain ⟨bytes, closed, u, hloop, hu, hlen⟩ := ih ht.inside
          simp only [hc, hloop, Option.bind_eq_bind, Option.bind_some]
          exact ⟨c :: bytes, closed, u, rfl, hread.trans (ht.trans hu), by rw [List.length_cons]; omega⟩
        next =>
          obtain ⟨bytes, closed, u, hloop, hu, hlen⟩ := ih hnext.inside
          simp only [hloop, Option.bind_eq_bind, Option.bind_some]
          exact ⟨_, closed, u, rfl, hread.trans hu, by rw [List.length_cons]; omega⟩

theorem Inside.procString_ends (h : s.Inside) : ∃ text t, s.procString = some (text, t) ∧ Reads 0 s t := by
  obtain ⟨bytes, closed, t, hloop, ht, hlen⟩ := h.stringLoop_ends finshStringMax
  unfold FinshLexer.procString
  simp only [hloop, Option.bind_eq_bind, Option.bind_some]
  split
  next hclosed =>
    rw [if_pos hclosed] at hlen
    have hfits : (bytes ++ [0]).length ≤ finshStringMax := by
      rw [List.length_append]
      exact hlen
    obtain ⟨u, hput, hu⟩ := ht.inside.putString hfits
    simp only [hput, Option.bind_some]
    exact ⟨_, u, rfl, ht.trans hu⟩
  next =>
    have hfits : bytes.length ≤ finshStringMax := by omega
    obtain ⟨u, hput, hu⟩ := ht.inside.putString hfits
    simp only [hput, Option.bind_some]
    exact ⟨_, u, rfl, ht.trans hu⟩

variable {r : List UInt8} {c : UInt8}

theorem At.inside (h : s.At r) : s.Inside := ⟨h.position, h.room⟩

theorem At.skip_reads (h : s.At r) (ht : (s.skip k).Inside) : Reads k s (s.skip k) :=
  ⟨rfl, ht, fun _ => ⟨h.eof, Nat.le_refl _⟩⟩

/-- A scan takes all characters of its kind. -/
theorem At.scanAll (h : s.At r) (hk : Kind kind) :
    s.nextChar.2.scanFrom kind s.nextChar.1 = some (r.takeWhile kind, firstChar (r.dropWhile kind),
      (s.skip (r.takeWhile kind).length).nextChar.2) := by
  have happend : r.takeWhile kind ++ r.dropWhile kind = r := List.takeWhile_append_dropWhile
  have hstop : kind (firstChar (r.dropWhile kind)) = false := by
    unfold firstChar
    split
    next => exact hk.nul
    next hends =>
      cases hr : r.dropWhile kind with
      | nil => exact absurd (.inl hr) hends
      | cons d ds =>
        have hhead := List.head_dropWhile_not kind (l := r) (by rw [hr]; exact List.cons_ne_nil d ds)
        simpa [hr] using hhead
  have hat : s.At (r.takeWhile kind ++ r.dropWhile kind) := by rw [happend]; exact h
  exact hat.scanFrom hk (fun d hd => List.mem_takeWhile_imp hd) hstop

theorem At.charEscape_ends (h : s.At r) (hfits : (r.takeWhile isDigit).length < 4) :
    ∃ d t, s.charEscape = some (d, t) ∧ Reads 0 s t := by
  have hsimple := h.inside.nextChar.mono (Nat.zero_le 1)
  unfold FinshLexer.charEscape
  simp only
  split
  iterate 7 exact ⟨_, _, rfl, hsimple⟩
  obtain ⟨digits, stop, u, hscan, hu⟩ := h.inside.scanFrom (show isDigit 0 = false from rfl)
  have hall := h.scanAll (⟨rfl, rfl⟩ : Kind isDigit)
  obtain ⟨rfl, -⟩ := Prod.mk.inj (Option.some.inj (hscan.symm.trans hall))
  simp only [hscan, Option.bind_eq_bind, Option.bind_some, if_pos hfits]
  exact ⟨_, _, rfl, (hu.mono (by omega : 0 + 1 ≤ _)).prevChar⟩

theorem At.procChar_ends (h : s.At r) (hfits : r.head? = some 92 → (r.tail.takeWhile isDigit).length < 4) :
    ∃ d t, s.procChar = some (d, t) ∧ Reads 0 s t := by
  have hnext := h.inside.nextChar
  have hclose : ∀ {d : UInt8} {u : FinshLexer}, Reads 0 s u →
      ∃ d' t, (if u.nextChar.1 = 39 then some (d, u.nextChar.2)
        else some (d, u.nextChar.2.prevChar.errorSet .expectChar)) = some (d', t) ∧ Reads 0 s t := by
    intro d u hu
    have hquote := hu.trans hu.inside.nextChar
    split
    · exact ⟨_, _, rfl, hquote.mono (Nat.zero_le _)⟩
    · exact ⟨_, _, rfl, hquote.prevChar.errorSet _⟩
  unfold FinshLexer.procChar
  simp only
  split
  next hback =>
    have hread := h.nextChar
    have hends : ¬ LineEnds r := by
      intro he
      rw [hread, firstChar, if_pos he] at hback
      exact absurd (show (0 : UInt8) = 92 from hback) (by decide)
    rw [hread, firstChar, if_neg hends] at hback
    cases r with
    | nil => exact absurd (.inl rfl) hends
    | cons b r =>
      obtain rfl : b = 92 := hback
      rw [h.nextChar_cons (by decide)]
      obtain ⟨d, t, hrun, ht⟩ := At.charEscape_ends h.next (hfits rfl)
      simp only [hrun, Option.bind_eq_bind, Option.bind_some]
      exact hclose (((h.skip_reads h.next.inside).trans ht).mono (Nat.zero_le _))
  next => exact hclose (hnext.mono (Nat.zero_le _))

theorem At.prefixedNumber_ends (h : s.At r) (hk : Kind kind) (hfits : (r.takeWhile kind).length < 128)
    (shift : Nat) : ∃ token t, s.nextChar.2.prefixedNumber kind shift s.nextChar.1 = some (token, t) ∧
      Reads 0 s t := by
  obtain ⟨digits, stop, u, hscan, hu⟩ := h.inside.scanFrom hk.nul
  have hall := h.scanAll hk
  obtain ⟨rfl, -⟩ := Prod.mk.inj (Option.some.inj (hscan.symm.trans hall))
  unfold FinshLexer.prefixedNumber
  simp only [hscan, Option.bind_eq_bind, Option.bind_some, if_pos hfits]
  exact ⟨_, _, rfl, (hu.mono (by omega : 0 + 1 ≤ _)).numberSuffix _⟩

/-- Behind a character that has been read the lexer stands before the rest, or it has met the end. -/
theorem At.second (h : s.At r) (hends : ¬ LineEnds r) : s.nextChar = (firstChar r, s.skip 1) ∧
    (s.skip 1).At r.tail := by
  have hnext := h.nextChar
  rw [if_neg hends] at hnext
  refine ⟨hnext, ?_⟩
  cases r with
  | nil => exact absurd (.inl rfl) hends
  | cons c r => exact At.next h

theorem At.procNumber_ends (h : s.At (c :: r)) (hdigit : isDigit c = true)
    (hfits : (prefixedDigits (c :: r)).length < 128) :
    ∃ token t, s.procNumber = some (token, t) ∧ Reads 1 s t := by
  have hc : c ≠ 10 := by
    rintro rfl
    exact absurd hdigit (by decide)
  have hfirst := h.skip_reads h.next.inside
  unfold FinshLexer.procNumber
  rw [h.nextChar_cons hc]
  simp only
  split
  next hzero =>
    subst hzero
    have hdigits : prefixedDigits (48 :: r) = if firstChar r = 120 ∨ firstChar r = 88 then
        r.tail.takeWhile (fun ch => isDigit ch || isAlpha ch)
      else if firstChar r = 98 ∨ firstChar r = 66 then r.tail.takeWhile isBinary
      else r.takeWhile isOctal := rfl
    rw [hdigits] at hfits
    have hread := h.next.nextChar
    have hpast : firstChar r ≠ 0 → (s.skip 1).nextChar = (firstChar r, (s.skip 1).skip 1) ∧
        ((s.skip 1).skip 1).At r.tail := by
      intro hne
      have hends : ¬ LineEnds r := fun he => hne (if_pos he)
      exact h.next.second hends
    have hchar : (s.skip 1).nextChar.1 = firstChar r := by rw [hread]
    rw [hchar]
    split
    next hx =>
      obtain ⟨hnext, hat⟩ := hpast (by rcases hx with hx | hx <;> rw [hx] <;> decide)
      rw [if_pos hx] at hfits
      obtain ⟨token, t, hrun, ht⟩ := hat.prefixedNumber_ends ⟨rfl, rfl⟩ hfits 4
      rw [hnext]
      refine ⟨token, t, hrun, (hfirst.trans ((h.next.skip_reads hat.inside).trans ht)).mono (by omega)⟩
    next hx =>
      rw [if_neg hx] at hfits
      split
      next hb =>
        obtain ⟨hnext, hat⟩ := hpast (by rcases hb with hb | hb <;> rw [hb] <;> decide)
        rw [if_pos hb] at hfits
        obtain ⟨token, t, hrun, ht⟩ := hat.prefixedNumber_ends ⟨rfl, rfl⟩ hfits 1
        rw [hnext]
        refine ⟨token, t, hrun, (hfirst.trans ((h.next.skip_reads hat.inside).trans ht)).mono (by omega)⟩
      next hb =>
        rw [if_neg hb] at hfits
        split
        next =>
          obtain ⟨token, t, hrun, ht⟩ := h.next.prefixedNumber_ends (⟨rfl, rfl⟩ : Kind isOctal) hfits 3
          rw [hchar] at hrun
          exact ⟨token, t, hrun, hfirst.trans ht⟩
        next =>
          exact ⟨_, _, rfl, (hfirst.trans h.next.inside.nextChar).prevChar⟩
  next =>
    obtain ⟨digits, stop, u, hscan, hu⟩ := h.inside.scanFrom (show isDigit 0 = false from rfl)
    have hall := h.scanAll (⟨rfl, rfl⟩ : Kind isDigit)
    obtain ⟨hds, -⟩ := Prod.mk.inj (Option.some.inj (hscan.symm.trans hall))
    have hlen : 1 ≤ digits.length := by
      rw [hds, List.takeWhile_cons, if_pos hdigit, List.length_cons]
      omega
    rw [h.nextChar_cons hc] at hscan
    simp only [hscan, Option.bind_eq_bind, Option.bind_some]
    exact ⟨_, _, rfl, (hu.mono (by omega : 1 + 1 ≤ _)).numberSuffix _⟩

/-- The operators, and the literals that begin with no letter. -/
theorem At.runOperator_ends (h : s.At (c :: r)) (hc : c ≠ 10) (hfits : TokenFits (c :: r)) :
    ∃ token t, s.runOperator = some (token, t) ∧ Reads 1 s t := by
  have hfirst := h.skip_reads h.next.inside
  unfold FinshLexer.runOperator
  rw [h.nextChar_cons hc]
  simp only
  split
  iterate 6 exact ⟨_, _, rfl, hfirst⟩
  iterate 5 exact ⟨_, _, rfl, hfirst.twice _ _⟩
  iterate 5 exact ⟨_, _, rfl, hfirst⟩
  next hquote =>
    have hc : c = 39 := by
      have := congrArg Char.toNat hquote
      exact UInt8.toNat.inj ((UInt8.toNat_toUInt32 c).symm.trans this)
    obtain ⟨d, t, hrun, ht⟩ := h.next.procChar_ends (by
      intro hback
      have hescape := hfits.escape
      rw [hc] at hescape
      unfold escapeDigits at hescape
      rw [if_pos ⟨rfl, hback⟩] at hescape
      exact hescape)
    simp only [hrun, Option.bind_eq_bind, Option.bind_some]
    exact ⟨_, t, rfl, hfirst.trans ht⟩
  next =>
    obtain ⟨text, t, hrun, ht⟩ := h.next.inside.procString_ends
    simp only [hrun, Option.bind_eq_bind, Option.bind_some]
    exact ⟨_, t, rfl, hfirst.trans ht⟩
  next =>
    split
    next hdigit =>
      have hprev : (s.skip 1).prevChar = s := prevChar_skip (n := 0) h.eof
      rw [hprev]
      exact h.procNumber_ends hdigit hfits.number
    next => exact ⟨_, _, rfl, hfirst.errorSet _⟩

/-- A word that does not reach the end of the line is stored, and the lexer stands behind it. -/
theorem At.getWord (h : s.At (c :: r)) (hc : c ≠ 10) (hdigit : isDigit c = false)
    (hsep : isSeparator c = false) (hfits : TokenFits (c :: r)) :
    ∃ t, s.getString = some t ∧ Reads 1 s t ∧ t.eof = false ∧ cText t.string ≠ [] := by
  let inWord : UInt8 → Bool := fun ch => !isSeparator ch
  have hword : leadingWord (c :: r) = (c :: r).takeWhile inWord := by
    unfold leadingWord
    rw [firstChar_cons hc, if_neg (by simp [hdigit])]
  have hhead : (c :: r).takeWhile inWord = c :: r.takeWhile inWord := by
    rw [List.takeWhile_cons, if_pos (by simp [inWord, hsep])]
  obtain ⟨hlen, hends⟩ := hfits.word (by rw [hword, hhead]; exact List.cons_ne_nil _ _)
  rw [hword] at hlen hends
  have hat : s.cleared.At (c :: r) := h.cleared
  have hscan := hat.scanAll (⟨rfl, rfl⟩ : Kind inWord)
  rw [hat.nextChar_cons hc] at hscan
  generalize hds : (c :: r).takeWhile inWord = ds at hlen hends hscan
  have happend : ds ++ (c :: r).drop ds.length = c :: r := by
    rw [← hds]
    have hdrop : (c :: r).drop ((c :: r).takeWhile inWord).length = (c :: r).dropWhile inWord := by
      have hsplit : ((c :: r).takeWhile inWord ++ (c :: r).dropWhile inWord).drop
          ((c :: r).takeWhile inWord).length = (c :: r).dropWhile inWord := List.drop_left
      rwa [List.takeWhile_append_dropWhile] at hsplit
    rw [hdrop, List.takeWhile_append_dropWhile]
  have hbehind : (s.cleared.skip ds.length).At ((c :: r).drop ds.length) :=
    At.skip (by rw [happend]; exact hat)
  obtain ⟨hpast, -⟩ := hbehind.second hends
  have hopen : { (s.cleared.skip ds.length).skip 1 with eof := false } =
      (s.cleared.skip ds.length).skip 1 := by
    have heof := h.eof
    cases s
    subst heof
    rfl
  have hback : ((s.cleared.skip ds.length).skip 1).prevChar = s.cleared.skip ds.length :=
    prevChar_skip (n := 0) hbehind.eof
  have hroom : (ds ++ [0]).length ≤ finshStringMax := by
    rw [List.length_append]
    exact hlen
  have hput := hbehind.putString hroom
  rw [List.length_append, List.length_singleton] at hput
  refine ⟨{ s.cleared.skip ds.length with
    string := (ds ++ [0]) ++ s.cleared.string.drop (ds.length + 1) }, ?_, ?_, ?_, ?_⟩
  · have hfirst : (s.skip 1).putString [0] = some (s.cleared.skip 1) := cleared_putString h.next
    unfold FinshLexer.getString
    simp only [h.nextChar_cons hc, if_neg (show ¬ (s.skip 1).eof = true by simp [h.next.eof]), hfirst,
      if_neg (show ¬ isDigit c = true by simp [hdigit]), Option.bind_eq_bind, Option.bind_some]
    rw [hscan, hpast]
    simp only [Option.bind_some, hopen, hback, hput]
    rfl
  · have hone : 1 ≤ ds.length := by
      rw [← hds, hhead, List.length_cons]
      omega
    refine ⟨rfl, ⟨hbehind.position, ?_⟩, fun _ => ⟨h.eof, ?_⟩⟩
    · have hroom := hbehind.room
      rw [skip_string] at hroom
      show ((ds ++ [0]) ++ s.cleared.string.drop (ds.length + 1)).length = finshStringMax
      rw [List.length_append, List.length_drop, hroom, List.length_append, List.length_singleton]
      omega
    · show s.position + 1 ≤ s.position + ds.length
      omega
  · exact h.eof
  · show cText ((ds ++ [0]) ++ s.cleared.string.drop (ds.length + 1)) ≠ []
    rw [← hds, hhead]
    have hnul : c ≠ 0 := by
      rintro rfl
      exact absurd hsep (by decide)
    unfold cText
    simp [hnul]

/-- When the end of the line is met no more is read. -/
theorem trimSpace_eof (he : s.eof = true) : s.trimSpace = some s := by
  have hnext : s.nextChar = (0, s) := if_pos he
  have hprev : s.prevChar = s := if_pos he
  have hscan : s.scanFrom isTrimmed 0 = some ([], 0, s) := rfl
  unfold FinshLexer.trimSpace
  simp only [hnext, hscan, Option.bind_eq_bind, Option.bind_some, hprev]

theorem getString_eof (he : s.eof = true) : s.getString = some s := by
  have hnext : s.nextChar = (0, s) := if_pos he
  unfold FinshLexer.getString
  simp only [hnext, if_pos he]

theorem tokenRun_eof (he : s.eof = true) : s.tokenRun = some (.eof, s) := by
  unfold FinshLexer.tokenRun
  simp only [trimSpace_eof he, getString_eof he, Option.bind_eq_bind, Option.bind_some, if_pos he]

/-- `token_trim_space` stops before the first character that is no blank, or at the end of the line. -/
theorem At.trimSpace_skips (h : s.At r) :
    s.trimSpace = some ((s.skip (r.takeWhile isTrimmed).length).behind 0 (r.dropWhile isTrimmed)) := by
  have hscan := h.scanAll (⟨rfl, rfl⟩ : Kind isTrimmed)
  have hat : (s.skip (r.takeWhile isTrimmed).length).At (r.dropWhile isTrimmed) :=
    At.skip (by rw [List.takeWhile_append_dropWhile]; exact h)
  unfold FinshLexer.trimSpace
  simp only [hscan, Option.bind_eq_bind, Option.bind_some, hat.peek]

/-- A call on a token that fits comes further, or gives the end of the line. -/
theorem At.tokenRun_ends (h : s.At r) (hfits : TokenFits (r.dropWhile isTrimmed)) :
    ∃ token t, s.tokenRun = some (token, t) ∧
      ((token = .eof ∧ t.eof = true) ∨ (r ≠ [] ∧ Reads 1 s t)) := by
  have hat : (s.skip (r.takeWhile isTrimmed).length).At (r.dropWhile isTrimmed) :=
    At.skip (by rw [List.takeWhile_append_dropWhile]; exact h)
  have htrim := h.trimSpace_skips
  have hblanks := h.skip_reads hat.inside
  generalize s.skip (r.takeWhile isTrimmed).length = b at hat htrim hblanks
  unfold FinshLexer.tokenRun
  simp only [htrim, Option.bind_eq_bind, Option.bind_some]
  by_cases hends : LineEnds (r.dropWhile isTrimmed)
  · have hbehind : b.behind 0 (r.dropWhile isTrimmed) = b.ended := if_pos hends
    have heof : b.ended.eof = true := rfl
    rw [hbehind]
    simp only [getString_eof heof, Option.bind_some, if_pos heof]
    exact ⟨.eof, b.ended, rfl, .inl ⟨rfl, heof⟩⟩
  have hbehind : b.behind 0 (r.dropWhile isTrimmed) = b := if_neg hends
  have hr : r ≠ [] := by
    rintro rfl
    exact hends (.inl rfl)
  rw [hbehind]
  cases hrest : r.dropWhile isTrimmed with
  | nil => exact absurd (.inl hrest) hends
  | cons c rest =>
    rw [hrest] at hat hfits hends
    have hc : c ≠ 10 := by
      rintro rfl
      exact hends (.inr rfl)
    by_cases hword : isDigit c = true ∨ isSeparator c = true
    · have hstring := hat.getString hc hword
      have heof : ¬ b.cleared.eof = true := by simp [hat.cleared.eof]
      have hempty : cText b.cleared.string = [] := rfl
      obtain ⟨token, t, hrun, ht⟩ := hat.cleared.runOperator_ends hc hfits
      simp only [hstring, Option.bind_some, if_neg heof, if_pos hempty]
      have hread : Reads 1 b t := ⟨ht.line, ht.inside, ht.further⟩
      exact ⟨token, t, hrun, .inr ⟨hr, (hblanks.trans hread).mono (by omega)⟩⟩
    · obtain ⟨hdigit, hsep⟩ := not_or.mp hword
      obtain ⟨t, hstring, ht, heof, htext⟩ :=
        hat.getWord hc (by simpa using hdigit) (by simpa using hsep) hfits
      have hopen : ¬ t.eof = true := by simp [heof]
      simp only [hstring, Option.bind_some, if_neg hopen, if_neg htext]
      exact ⟨_, t, rfl, .inr ⟨hr, (hblanks.trans ht).mono (by omega)⟩⟩

/-- So many calls of `finsh_token_token`, none of them behind a `finsh_token_replay`. -/
def lexerRun : Nat → FinshLexer → Option (List FinshToken × FinshLexer)
  | 0, s => some ([], s)
  | n + 1, s => do
    let (token, s) ← s.tokenRun
    let (tokens, s) ← lexerRun n s
    some (token :: tokens, s)

theorem lexerRun_succ {token : FinshToken} {tokens : List FinshToken} {n : Nat}
    (hcall : s.tokenRun = some (token, t)) (hrun : lexerRun n t = some (tokens, u)) :
    lexerRun (n + 1) s = some (token :: tokens, u) := by
  unfold lexerRun
  simp only [hcall, hrun, Option.bind_eq_bind, Option.bind_some]

theorem lexerRun_eof (he : s.eof = true) (n : Nat) : lexerRun n s = some (List.replicate n .eof, s) := by
  induction n with
  | zero => rfl
  | succ n ih => exact lexerRun_succ (tokenRun_eof he) ih

/-- Every call from `s` on finds, before the end of the line, a token that fits. -/
def CallsFit (s : FinshLexer) : Prop :=
  ∀ n tokens t, lexerRun n s = some (tokens, t) → t.eof = false →
    TokenFits ((t.line.drop t.position).dropWhile isTrimmed)

theorem CallsFit.next (h : CallsFit s) {token : FinshToken} (hcall : s.tokenRun = some (token, t)) :
    CallsFit t :=
  fun n tokens u hrun => h (n + 1) (token :: tokens) u (lexerRun_succ hcall hrun)

/-- The calls come to the end of the line after at most one token for each character of the rest. -/
theorem At.lexerRun_ends (h : s.At r) (hfit : CallsFit s) :
    ∃ n ≤ r.length, ∃ tokens t, lexerRun (n + 1) s = some (tokens ++ [.eof], t) ∧ t.eof = true := by
  induction hlen : r.length using Nat.strong_induction_on generalizing s r with
  | _ m ih =>
    have hfits := hfit 0 [] s rfl h.eof
    rw [h.rest] at hfits
    obtain ⟨token, t, hcall, ⟨rfl, he⟩ | ⟨hr, hread⟩⟩ := h.tokenRun_ends hfits
    · exact ⟨0, Nat.zero_le _, [], t, lexerRun_succ hcall rfl, he⟩
    · have hpos : 0 < r.length := List.length_pos_of_ne_nil hr
      cases he : t.eof with
      | true =>
        exact ⟨1, by omega, [token], t, lexerRun_succ hcall (lexerRun_eof he 1), he⟩
      | false =>
        obtain ⟨-, hfurther⟩ := hread.further he
        have hat : t.At (t.line.drop t.position) := ⟨he, hread.inside.position, rfl, hread.inside.room⟩
        have hrest := congrArg List.length h.rest
        have hle := h.position
        have hline := hread.line
        rw [List.length_drop] at hrest
        have hlt : (t.line.drop t.position).length < m := by
          rw [List.length_drop, hline]
          omega
        obtain ⟨n, hn, tokens, u, hrun, hu⟩ := ih _ hlt hat (hfit.next hcall) rfl
        exact ⟨n + 1, by omega, token :: tokens, u, lexerRun_succ hcall hrun, hu⟩

end FinshLexer

end RTThread
