import RTThread.FinshNumbers

namespace RTThread

/-- One character of a literal: itself, a simple escape, octal digits or hexadecimal digits. -/
inductive CElement where
  | ordinary (c : UInt8)
  | simple (c : UInt8)
  | octal (digits : List UInt8)
  | hex (digits : List UInt8)
deriving DecidableEq, Repr

/-- The simple escapes of C and what they stand for. -/
def simpleEscapes : List (UInt8 × UInt8) :=
  [(110, 10), (116, 9), (118, 11), (98, 8), (114, 13), (102, 12), (97, 7), (92, 92), (39, 39), (34, 34), (63, 63)]

namespace CElement

def text : CElement → List UInt8
  | ordinary c => [c]
  | simple c => [92, c]
  | octal digits => 92 :: digits
  | hex digits => 92 :: 120 :: digits

/-- The value of the digits of an escape. -/
def number (radix : Nat) (digits : List UInt8) : Nat := (digitsValue radix digits).getD 0

/-- The byte that C assigns to the element. -/
def byte : CElement → UInt8
  | ordinary c => c
  | simple c => (simpleEscapes.lookup c).getD 0
  | octal digits => UInt8.ofNat (number 8 digits)
  | hex digits => UInt8.ofNat (number 16 digits)

/-- An element of a literal between `quote`s; an octal escape has three digits at most, and the value
of an escape is one of a byte. -/
def Valid (quote : UInt8) : CElement → Prop
  | ordinary c => c ≠ 0 ∧ c ≠ 10 ∧ c ≠ 92 ∧ c ≠ quote
  | simple c => (simpleEscapes.lookup c).isSome = true
  | octal digits => digits ≠ [] ∧ digits.length ≤ 3 ∧ (∀ d ∈ digits, isOctal d = true) ∧ number 8 digits < 256
  | hex digits => digits ≠ [] ∧ (∀ d ∈ digits, isXdigit d = true) ∧ number 16 digits < 256

/-- The digits of the element end before this character. -/
def EndsBefore (c : UInt8) : CElement → Prop
  | octal digits => digits.length < 3 → isOctal c = false
  | hex _ => isXdigit c = false
  | _ => True

/-- `token_proc_escape` takes more than three octal digits, and no backslash, quote or question mark. -/
def InString (c : UInt8) : CElement → Prop
  | ordinary _ => True
  | simple e => e ≠ 92 ∧ e ≠ 39 ∧ e ≠ 63
  | octal _ => isOctal c = false
  | hex _ => True

/-- `token_proc_char` has no hexadecimal escapes, not all simple ones, and octal ones of value zero. -/
def InChar : CElement → Prop
  | ordinary _ => True
  | simple e => e ≠ 102 ∧ e ≠ 97 ∧ e ≠ 34 ∧ e ≠ 63
  | octal digits => number 8 digits = 0
  | hex _ => False

end CElement

def elementsText (es : List CElement) : List UInt8 := es.flatMap CElement.text

/-- Each element ends before what follows it, be it the closing quote. -/
def Separated : List CElement → Prop
  | [] => True
  | e :: es => e.EndsBefore ((elementsText es ++ [34]).headD 0) ∧ Separated es

def AllInString : List CElement → Prop
  | [] => True
  | e :: es => e.InString ((elementsText es ++ [34]).headD 0) ∧ AllInString es

/-- A character constant or a string literal. -/
inductive TextLiteral where
  | char (e : CElement)
  | string (es : List CElement)

namespace TextLiteral

def Valid : TextLiteral → Prop
  | char e => e.Valid 39
  | string es => (∀ e ∈ es, e.Valid 34) ∧ Separated es ∧ es.length < finshStringMax

def text : TextLiteral → List UInt8
  | char e => 39 :: (e.text ++ [39])
  | string es => 34 :: (elementsText es ++ [34])

/-- The token is the byte of the constant, or the bytes of the literal are stored with a NUL behind
them, and the lexer goes on behind the literal with no error. -/
def Right (s : FinshLexer) : TextLiteral → Prop
  | char e => s.tokenRun = some (.valueChar e.byte.toNat, s.cleared.skip (text (char e)).length)
  | string es =>
    let bytes := es.map CElement.byte
    let s' := { s.skip (text (string es)).length with
      string := bytes ++ 0 :: s.string.drop (bytes.length + 1) }
    s.tokenRun = some (.valueString (cText bytes), s') ∧
      (s.cleared.skip 1).procString = some (some bytes, s')

def Fits : TextLiteral → Prop
  | char e => e.InChar
  | string es => AllInString es

end TextLiteral

section
variable {ds : List UInt8} {c : UInt8}

set_option maxRecDepth 4000 in
theorem octal_value (d : UInt8) (hd : isOctal d = true) :
    digitOf d = some (digitValue d) ∧ digitValue d < 8 := by
  revert d
  apply forall_byte
  decide

set_option maxRecDepth 4000 in
theorem xdigit_value (d : UInt8) (hd : isXdigit d = true) :
    digitOf d = some (digitValue d) ∧ digitValue d < 16 := by
  revert d
  apply forall_byte
  decide

theorem number_octal (hne : ds ≠ []) (hds : ∀ d ∈ ds, isOctal d = true) :
    CElement.number 8 ds = escapeValue 8 ds := by
  unfold CElement.number
  rw [digitsValue_foldl hne fun d hd => octal_value d (hds d hd)]
  rfl

theorem number_hex (hne : ds ≠ []) (hds : ∀ d ∈ ds, isXdigit d = true) :
    CElement.number 16 ds = escapeValue 16 ds := by
  unfold CElement.number
  rw [digitsValue_foldl hne fun d hd => xdigit_value d (hds d hd)]
  rfl

set_option maxRecDepth 4000 in
theorem octal_cases (hc : isOctal c = true) : c = 48 ∨ c = 49 ∨ c = 50 ∨ c = 51 ∨ c = 52 ∨ c = 53 ∨
    c = 54 ∨ c = 55 := by
  revert c
  apply forall_byte
  decide

theorem simple_cases (hc : (simpleEscapes.lookup c).isSome = true) : c = 110 ∨ c = 116 ∨ c = 118 ∨ c = 98 ∨
    c = 114 ∨ c = 102 ∨ c = 97 ∨ c = 92 ∨ c = 39 ∨ c = 34 ∨ c = 63 := by
  obtain ⟨p, hp, hcp⟩ := List.lookup_isSome_iff.mp hc
  obtain rfl := eq_of_beq hcp
  simp only [simpleEscapes, List.mem_cons, List.not_mem_nil, or_false] at hp
  rcases hp with rfl | rfl | rfl | rfl | rfl | rfl | rfl | rfl | rfl | rfl | rfl <;> simp

end

namespace FinshLexer

variable {s : FinshLexer} {r ds : List UInt8} {c : UInt8}

/-- Before a character of the line that is looked at and given back, the lexer stands there. -/
theorem behind_cons (hc : c ≠ 10) (n : Nat) : s.behind n (c :: r) = s.skip n :=
  if_neg (by simp [LineEnds, hc])

theorem At.procEscape_octal (h : s.At (ds ++ c :: r)) (hne : ds ≠ []) (hds : ∀ d ∈ ds, isOctal d = true)
    (hc : isOctal c = false) (hnl : c ≠ 10) :
    s.procEscape = some (UInt8.ofNat (escapeValue 8 ds), s.skip ds.length) := by
  have hscan := h.scanFrom ⟨rfl, rfl⟩ hds (by rw [firstChar_cons hnl, hc])
  have hpeek := h.skip.peek
  rw [behind_cons hnl, skip_zero] at hpeek
  obtain ⟨d, ds', rfl⟩ := List.exists_cons_of_ne_nil hne
  have hd := hds d List.mem_cons_self
  have hfirst : s.nextChar.1 = d := by rw [At.nextChar_cons h (octal_not_letter hd).2.2]
  rw [hfirst] at hscan
  unfold FinshLexer.procEscape
  simp only [hfirst, hd, if_true, hscan, Option.bind_eq_bind, Option.bind_some, hpeek]
  rcases octal_cases hd with rfl | rfl | rfl | rfl | rfl | rfl | rfl | rfl <;> rfl

theorem At.procEscape_hex (h : s.At (120 :: (ds ++ c :: r))) (hds : ∀ d ∈ ds, isXdigit d = true)
    (hc : isXdigit c = false) (hnl : c ≠ 10) :
    s.procEscape = some (UInt8.ofNat (escapeValue 16 ds), s.skip (1 + ds.length)) := by
  have hscan := h.next.scanFrom ⟨rfl, rfl⟩ hds (by rw [firstChar_cons hnl, hc])
  have hpeek := h.next.skip.peek
  rw [behind_cons hnl, skip_zero, skip_skip] at hpeek
  rw [skip_skip] at hscan
  have hmatch : Char.ofUInt8 120 = 'x' := rfl
  unfold FinshLexer.procEscape
  simp only [h.nextChar_cons (by decide), hmatch, hscan, Option.bind_eq_bind, Option.bind_some, hpeek]

/-- What `token_proc_escape` makes of a simple escape. -/
def simpleByte (c : UInt8) : UInt8 :=
  if c = 92 ∨ c = 39 ∨ c = 63 then 0 else (simpleEscapes.lookup c).getD 0

theorem simpleByte_eq_iff (hc : (simpleEscapes.lookup c).isSome = true) :
    simpleByte c = (CElement.simple c).byte ↔ c ≠ 92 ∧ c ≠ 39 ∧ c ≠ 63 := by
  rcases simple_cases hc with rfl | rfl | rfl | rfl | rfl | rfl | rfl | rfl | rfl | rfl | rfl <;> decide

theorem cText_zero (bytes rest : List UInt8) : cText (bytes ++ 0 :: rest) = cText bytes := by
  induction bytes with
  | nil => simp [cText]
  | cons b bytes ih =>
    unfold cText at ih ⊢
    by_cases hb : b = 0
    · simp [hb]
    · simpa [hb] using ih

theorem At.procEscape_simple (h : s.At (c :: r)) (hc : (simpleEscapes.lookup c).isSome = true) :
    s.procEscape = some (simpleByte c, s.skip 1) := by
  have hnl : c ≠ 10 := by
    rintro rfl
    cases hc
  unfold FinshLexer.procEscape
  simp only [h.nextChar_cons hnl]
  rcases simple_cases hc with rfl | rfl | rfl | rfl | rfl | rfl | rfl | rfl | rfl | rfl | rfl <;> rfl

/-- A quote begins a token of its own. -/
theorem At.tokenRun_quote (h : s.At (39 :: r)) : s.tokenRun = (do
    let (c, s) ← (s.cleared.skip 1).procChar
    some (.valueChar c.toNat, s)) := by
  have hmatch : Char.ofUInt8 39 = '\'' := rfl
  rw [h.tokenRun_operator (by decide) rfl (.inr rfl)]
  unfold FinshLexer.runOperator
  simp only [h.cleared.nextChar_cons (by decide), hmatch]

theorem At.tokenRun_string (h : s.At (34 :: r)) : s.tokenRun = (do
    let (_, s) ← (s.cleared.skip 1).procString
    some (.valueString (cText s.string), s)) := by
  have hmatch : Char.ofUInt8 34 = '"' := rfl
  rw [h.tokenRun_operator (by decide) rfl (.inr rfl)]
  unfold FinshLexer.runOperator
  simp only [h.cleared.nextChar_cons (by decide), hmatch]

/-- The constant without an escape. -/
theorem At.procChar_ordinary (h : s.At (c :: 39 :: r)) (hc : c ≠ 10 ∧ c ≠ 92) :
    s.procChar = some (c, s.skip 2) := by
  unfold FinshLexer.procChar
  simp only [h.nextChar_cons hc.1, if_neg hc.2, Option.bind_eq_bind, Option.bind_some,
    h.next.nextChar_cons (by decide), if_true, skip_skip]

/-- The constant with an escape that is decoded up to the closing quote. -/
theorem At.procChar_escape {b : UInt8} {n : Nat} (h : s.At (92 :: r))
    (hescape : (s.skip 1).charEscape = some (b, s.skip (1 + n)))
    (hquote : (s.skip (1 + n)).nextChar = (39, s.skip (n + 2))) : s.procChar = some (b, s.skip (n + 2)) := by
  unfold FinshLexer.procChar
  simp only [h.nextChar_cons (by decide), if_true, hescape, Option.bind_eq_bind, Option.bind_some, hquote]

theorem At.charEscape_octal (h : s.At (ds ++ 39 :: r)) (hne : ds ≠ []) (hlen : ds.length ≤ 3)
    (hds : ∀ d ∈ ds, isOctal d = true) : s.charEscape = some (0, s.skip ds.length) := by
  have hdigit : ∀ d ∈ ds, isDigit d = true := by
    intro d hd
    rcases octal_cases (hds d hd) with rfl | rfl | rfl | rfl | rfl | rfl | rfl | rfl <;> rfl
  have hscan := h.scanFrom ⟨rfl, rfl⟩ hdigit (by rw [firstChar_cons (by decide)]; rfl)
  have hpeek := h.skip.peek
  rw [behind_cons (by decide), skip_zero] at hpeek
  obtain ⟨d, ds', rfl⟩ := List.exists_cons_of_ne_nil hne
  have hd := hds d List.mem_cons_self
  have hfirst : s.nextChar.1 = d := by rw [At.nextChar_cons h (octal_not_letter hd).2.2]
  rw [hfirst] at hscan
  unfold FinshLexer.charEscape
  simp only [hfirst, hscan, Option.bind_eq_bind, Option.bind_some, hpeek, if_pos (Nat.lt_succ_of_le hlen)]
  rcases octal_cases hd with rfl | rfl | rfl | rfl | rfl | rfl | rfl | rfl <;> rfl

theorem At.charEscape_simple (h : s.At (c :: r)) (hc : (simpleEscapes.lookup c).isSome = true)
    (hin : c ≠ 102 ∧ c ≠ 97 ∧ c ≠ 34 ∧ c ≠ 63) :
    s.charEscape = some ((simpleEscapes.lookup c).getD 0, s.skip 1) := by
  obtain ⟨h102, h97, h34, h63⟩ := hin
  have hnl : c ≠ 10 := by
    rintro rfl
    cases hc
  unfold FinshLexer.charEscape
  simp only [h.nextChar_cons hnl]
  rcases simple_cases hc with rfl | rfl | rfl | rfl | rfl | rfl | rfl | rfl | rfl | rfl | rfl
  · rfl
  · rfl
  · rfl
  · rfl
  · rfl
  · exact absurd rfl h102
  · exact absurd rfl h97
  · rfl
  · rfl
  · exact absurd rfl h34
  · exact absurd rfl h63

/-- An escape that `token_proc_char` does not know is left where it is. -/
theorem At.procChar_unknown (h : s.At (92 :: c :: r)) (hc : c = 102 ∨ c = 97 ∨ c = 34 ∨ c = 63 ∨ c = 120) :
    s.procChar = some (0, (s.skip 1).errorSet .expectChar) := by
  have hnl : c ≠ 10 ∧ isDigit c = false ∧ c ≠ 39 := by
    rcases hc with rfl | rfl | rfl | rfl | rfl <;> decide
  have hdigit : isDigit (firstChar (c :: r)) = false := by rw [firstChar_cons hnl.1, hnl.2.1]
  have hscan := At.scanNone ⟨rfl, rfl⟩ h.next hdigit
  have hpeek := h.next.peek
  rw [behind_cons hnl.1, skip_zero] at hpeek
  have hfirst : (s.skip 1).nextChar.1 = c := by rw [h.next.nextChar_cons hnl.1]
  have hescape : (s.skip 1).charEscape = some (0, s.skip 1) := by
    rw [hfirst] at hscan
    unfold FinshLexer.charEscape
    simp only [hfirst, hscan, Option.bind_eq_bind, Option.bind_some, List.length_nil, hpeek,
      show (0 : Nat) < 4 by decide, if_true]
    rcases hc with rfl | rfl | rfl | rfl | rfl <;> rfl
  unfold FinshLexer.procChar
  simp only [h.nextChar_cons (by decide), if_true, hescape, Option.bind_eq_bind, Option.bind_some, hfirst,
    if_neg hnl.2.2, hpeek]

end FinshLexer

namespace TextLiteral

open FinshLexer

variable {s : FinshLexer} {rest : List UInt8}

/-- Behind an escape that is not known the token is not the constant. -/
theorem char_unknown {c : UInt8} {r : List UInt8} {e : CElement} (h : s.At (39 :: 92 :: c :: r))
    (hc : c = 102 ∨ c = 97 ∨ c = 34 ∨ c = 63 ∨ c = 120) (hlen : 2 ≤ e.text.length) : ¬ Right s (char e) := by
  intro hright
  have hproc := h.cleared.next.procChar_unknown hc
  have hrun : s.tokenRun = _ := hright
  rw [h.tokenRun_quote, hproc] at hrun
  have hposition := congrArg (fun r => FinshLexer.position (Prod.snd r)) (Option.some.inj hrun)
  have htext : (text (char e)).length = e.text.length + 2 := by simp [text]
  rw [htext] at hposition
  simp only [FinshLexer.errorSet, FinshLexer.skip, FinshLexer.cleared] at hposition
  omega

/-- An escape that is decoded up to the closing quote gives its byte. -/
theorem char_decoded {e : CElement} {b : UInt8} {t : List UInt8} (htext : e.text = 92 :: t)
    (h : s.At (text (char e) ++ rest))
    (hescape : (s.cleared.skip 2).charEscape = some (b, (s.cleared.skip 2).skip t.length)) :
    s.tokenRun = some (.valueChar b.toNat, s.cleared.skip (text (char e)).length) := by
  have h : s.At (39 :: (92 :: t ++ 39 :: rest)) := by simpa [text, htext] using h
  have hlen : (text (char e)).length = 1 + (t.length + 2) := by
    simp [text, htext]
    omega
  have hat : ((s.cleared.skip 1).skip (1 + t.length)).At (39 :: rest) := by
    have hbehind : (s.cleared.skip 1).At ((92 :: t) ++ 39 :: rest) := h.cleared.next
    have hskip := hbehind.skip
    rw [List.length_cons, Nat.add_comm t.length 1] at hskip
    exact hskip
  have hquote := hat.nextChar_cons (by decide)
  have hproc : (s.cleared.skip 1).procChar = some (b, (s.cleared.skip 1).skip (t.length + 2)) := by
    apply At.procChar_escape (r := t ++ 39 :: rest) h.cleared.next
    · rw [skip_skip, hescape]
      simp only [skip_skip]
      exact congrArg (fun n => some (b, s.cleared.skip n)) (by omega)
    · rw [hquote]
      simp only [skip_skip]
      exact congrArg (fun n => ((39 : UInt8), s.cleared.skip n)) (by omega)
  rw [h.tokenRun_quote, hproc, hlen, skip_skip]
  rfl

theorem char_iff {e : CElement} (hvalid : e.Valid 39) (h : s.At (text (char e) ++ rest)) :
    Right s (char e) ↔ e.InChar := by
  cases e with
  | ordinary c =>
    obtain ⟨-, hnl, hback, -⟩ := hvalid
    have h : s.At (39 :: c :: 39 :: rest) := h
    have hproc := h.cleared.next.procChar_ordinary ⟨hnl, hback⟩
    refine ⟨fun _ => trivial, fun _ => ?_⟩
    show s.tokenRun = _
    rw [h.tokenRun_quote, hproc, skip_skip]
    rfl
  | simple c =>
    have hat : s.At (39 :: 92 :: c :: 39 :: rest) := h
    constructor
    · intro hright
      have hno : ∀ d, d = 102 ∨ d = 97 ∨ d = 34 ∨ d = 63 ∨ d = 120 → c ≠ d := by
        rintro d hd rfl
        exact char_unknown hat hd (by simp [CElement.text]) hright
      exact ⟨hno _ (by simp), hno _ (by simp), hno _ (by simp), hno _ (by simp)⟩
    · intro hin
      apply char_decoded (t := [c]) rfl h
      exact At.charEscape_simple (r := 39 :: rest) hat.cleared.next.next hvalid hin
  | octal ds =>
    obtain ⟨hne, hlen, hds, hlt⟩ := hvalid
    have hat : s.cleared.At (39 :: 92 :: (ds ++ 39 :: rest)) := by simpa [text, CElement.text] using h.cleared
    have hescape := At.charEscape_octal hat.next.next hne hlen hds
    have hrun := char_decoded (t := ds) rfl h hescape
    have hbyte : (CElement.octal ds).byte.toNat = CElement.number 8 ds := by
      simp [CElement.byte, Nat.mod_eq_of_lt hlt]
    show s.tokenRun = _ ↔ CElement.number 8 ds = 0
    rw [hrun, hbyte]
    constructor
    · intro heq
      have hvalue := congrArg Prod.fst (Option.some.inj heq)
      exact (FinshToken.valueChar.inj hvalue).symm
    · intro hzero
      rw [hzero]
      rfl
  | hex ds =>
    have hat : s.At (39 :: 92 :: 120 :: (ds ++ 39 :: rest)) := by simpa [text, CElement.text] using h
    constructor
    · exact char_unknown hat (by simp) (by simp [CElement.text])
    · intro hfalse
      cases hfalse

end TextLiteral

/-- The character behind these elements and the quote that closes them. -/
def following (es : List CElement) : UInt8 := (elementsText es ++ [34]).headD 0

section
variable {es es' : List CElement} {e : CElement} {rest : List UInt8}

theorem following_cons (es : List CElement) (rest : List UInt8) :
    ∃ r, elementsText es ++ 34 :: rest = following es :: r := by
  unfold following
  cases hes : elementsText es with
  | nil => exact ⟨rest, rfl⟩
  | cons c t => exact ⟨t ++ 34 :: rest, rfl⟩

theorem elementsText_cons : elementsText (e :: es) = e.text ++ elementsText es := rfl

theorem following_ne (hes : ∀ e ∈ es, e.Valid 34) : following es ≠ 10 := by
  cases es with
  | nil => decide
  | cons e es =>
    have hvalid := hes e List.mem_cons_self
    cases e with
    | ordinary c => exact hvalid.2.1
    | simple c => exact (by decide : (92 : UInt8) ≠ 10)
    | octal ds => exact (by decide : (92 : UInt8) ≠ 10)
    | hex ds => exact (by decide : (92 : UInt8) ≠ 10)

theorem Separated.append (h : Separated (es ++ es')) : Separated es' := by
  induction es with
  | nil => exact h
  | cons e es ih => exact ih h.2

/-- The octal digits that stand as ordinary characters at the front. -/
theorem octal_front (es : List CElement) : ∃ (cs : List UInt8) (es' : List CElement),
    es = cs.map CElement.ordinary ++ es' ∧ (∀ c ∈ cs, isOctal c = true) ∧ isOctal (following es') = false := by
  induction es with
  | nil => exact ⟨[], [], rfl, by simp, rfl⟩
  | cons e es ih =>
    cases hoctal : isOctal (following (e :: es)) with
    | false => exact ⟨[], e :: es, rfl, by simp, hoctal⟩
    | true =>
      cases e with
      | ordinary c =>
        obtain ⟨cs, es', rfl, hcs, hend⟩ := ih
        have hc : isOctal c = true := hoctal
        refine ⟨c :: cs, es', rfl, ?_, hend⟩
        intro d hd
        rcases List.mem_cons.mp hd with rfl | hd
        · exact hc
        · exact hcs d hd
      | simple c => cases hoctal
      | octal ds => cases hoctal
      | hex ds => cases hoctal

theorem elementsText_ordinary (cs : List UInt8) :
    elementsText (cs.map CElement.ordinary ++ es) = cs ++ elementsText es := by
  induction cs with
  | nil => rfl
  | cons c cs ih => exact congrArg (c :: ·) ih

end

namespace FinshLexer

variable {s s1 s2 : FinshLexer} {r : List UInt8} {c b : UInt8} {room : Nat} {bytes : List UInt8} {closed : Bool}

theorem stringLoop_ordinary (h : s.At (c :: r)) (hc : c ≠ 10 ∧ c ≠ 92 ∧ c ≠ 34)
    (hloop : stringLoop room (s.skip 1) = some (bytes, closed, s2)) :
    stringLoop (room + 1) s = some (c :: bytes, closed, s2) := by
  have heof : ¬ (s.skip 1).eof = true := by simp [h.next.eof]
  unfold stringLoop
  simp only [h.nextChar_cons hc.1, if_neg heof, if_neg hc.2.1, if_neg hc.2.2, Option.bind_eq_bind,
    Option.bind_some, hloop]

theorem stringLoop_escape (h : s.At (92 :: r)) (hescape : (s.skip 1).procEscape = some (b, s1))
    (hloop : stringLoop room s1 = some (bytes, closed, s2)) :
    stringLoop (room + 1) s = some (b :: bytes, closed, s2) := by
  have heof : ¬ (s.skip 1).eof = true := by simp [h.next.eof]
  have hquote : ¬ (92 : UInt8) = 34 := by decide
  unfold stringLoop
  simp only [h.nextChar_cons (by decide), if_neg heof, if_neg hquote, if_true, hescape, Option.bind_eq_bind,
    Option.bind_some, hloop]

theorem stringLoop_end (h : s.At (34 :: r)) : stringLoop (room + 1) s = some ([], true, s.skip 1) := by
  have heof : ¬ (s.skip 1).eof = true := by simp [h.next.eof]
  unfold stringLoop
  simp only [h.nextChar_cons (by decide), if_neg heof, if_true]

end FinshLexer

namespace TextLiteral

open FinshLexer

variable {s : FinshLexer} {rest : List UInt8}

/-- What the loop stores of a string literal: never more bytes than elements, and the bytes of the
elements exactly if it decodes them all. -/
theorem stringLoop_elements (n : Nat) {es : List CElement} {room : Nat} (hn : es.length ≤ n)
    (hes : ∀ e ∈ es, e.Valid 34) (hsep : Separated es) (hroom : es.length < room)
    (h : s.At (elementsText es ++ 34 :: rest)) :
    ∃ bytes, stringLoop room s = some (bytes, true, s.skip ((elementsText es).length + 1)) ∧
      bytes.length ≤ es.length ∧ (bytes = es.map CElement.byte ↔ AllInString es) := by
  induction n generalizing es room s with
  | zero =>
    obtain rfl : es = [] := List.length_eq_zero_iff.mp (by omega)
    obtain ⟨room, rfl⟩ := Nat.exists_eq_add_one_of_ne_zero (Nat.ne_of_gt hroom)
    exact ⟨[], stringLoop_end h, Nat.le_refl 0, by simp [AllInString]⟩
  | succ n ih =>
    cases es with
    | nil =>
      obtain ⟨room, rfl⟩ := Nat.exists_eq_add_one_of_ne_zero (Nat.ne_of_gt hroom)
      exact ⟨[], stringLoop_end h, Nat.le_refl 0, by simp [AllInString]⟩
    | cons e es =>
      obtain ⟨room, rfl⟩ := Nat.exists_eq_add_one_of_ne_zero (by omega : room ≠ 0)
      rw [List.length_cons] at hn hroom
      have hvalid := hes e List.mem_cons_self
      have hrest : ∀ e ∈ es, e.Valid 34 := fun e he => hes e (List.mem_cons_of_mem _ he)
      rw [elementsText_cons, List.append_assoc] at h
      have hat := h.skip
      cases e with
      | ordinary c =>
        obtain ⟨bytes, hloop, hlen, hiff⟩ := ih (by omega) hrest hsep.2 (by omega : es.length < room) hat
        refine ⟨c :: bytes, ?_, by simpa using hlen, ?_⟩
        · rw [stringLoop_ordinary (r := elementsText es ++ 34 :: rest) h ⟨hvalid.2.1, hvalid.2.2.1, hvalid.2.2.2⟩
            hloop, skip_skip, elementsText_cons]
          exact congrArg (fun n => some (c :: bytes, true, s.skip n)) (by simp [CElement.text]; omega)
        · rw [List.map_cons, List.cons.injEq, hiff]
          exact ⟨fun hb => ⟨trivial, hb.2⟩, fun hb => ⟨rfl, hb.2⟩⟩
      | simple c =>
        have hback : s.At (92 :: (c :: (elementsText es ++ 34 :: rest))) := h
        obtain ⟨bytes, hloop, hlen, hiff⟩ := ih (by omega) hrest hsep.2 (by omega : es.length < room) hat
        refine ⟨simpleByte c :: bytes, ?_, by simpa using hlen, ?_⟩
        · have hescape := hback.next.procEscape_simple hvalid
          rw [stringLoop_escape hback hescape hloop, skip_skip, elementsText_cons]
          exact congrArg (fun n => some (simpleByte c :: bytes, true, s.skip n)) (by simp [CElement.text]; omega)
        · rw [List.map_cons, List.cons.injEq, hiff, simpleByte_eq_iff hvalid]
          exact Iff.rfl
      | hex ds =>
        obtain ⟨hne, hds, -⟩ := hvalid
        obtain ⟨r, hfollow⟩ := following_cons es rest
        have hback : s.At (92 :: (120 :: (ds ++ following es :: r))) := by
          rw [← hfollow]
          simpa [CElement.text] using h
        obtain ⟨bytes, hloop, hlen, hiff⟩ := ih (by omega) hrest hsep.2 (by omega : es.length < room) hat
        have hescape := hback.next.procEscape_hex hds hsep.1 (following_ne hrest)
        have hskip : (s.skip 1).skip (1 + ds.length) = s.skip (CElement.hex ds).text.length := by
          rw [skip_skip]
          exact congrArg s.skip (by simp [CElement.text]; omega)
        rw [hskip] at hescape
        refine ⟨UInt8.ofNat (escapeValue 16 ds) :: bytes, ?_, by simpa using hlen, ?_⟩
        · rw [stringLoop_escape hback hescape hloop, skip_skip, elementsText_cons, List.length_append]
          exact congrArg (fun n => some (UInt8.ofNat (escapeValue 16 ds) :: bytes, true, s.skip n)) (by omega)
        · rw [List.map_cons, List.cons.injEq, hiff, ← number_hex hne hds]
          exact ⟨fun hb => ⟨trivial, hb.2⟩, fun hb => ⟨rfl, hb.2⟩⟩
      | octal ds =>
        obtain ⟨hne, -, hds, -⟩ := hvalid
        obtain ⟨cs, es', rfl, hcs, hend⟩ := octal_front es
        rw [List.length_append, List.length_map] at hn hroom
        have hrest' : ∀ e ∈ es', e.Valid 34 := fun e he => hrest e (List.mem_append_right _ he)
        obtain ⟨r, hfollow⟩ := following_cons es' rest
        have hback : s.At (92 :: ((ds ++ cs) ++ following es' :: r)) := by
          rw [← hfollow]
          simpa [CElement.text, elementsText_ordinary] using h
        have hall : ∀ d ∈ ds ++ cs, isOctal d = true := by
          intro d hd
          rcases List.mem_append.mp hd with hd | hd
          · exact hds d hd
          · exact hcs d hd
        have hescape := hback.next.procEscape_octal (by simp [hne]) hall hend (following_ne hrest')
        have hat' := hback.next.skip
        rw [← hfollow] at hat'
        obtain ⟨bytes, hloop, hlen, hiff⟩ := ih (by omega) hrest' hsep.2.append (by omega : es'.length < room) hat'
        refine ⟨UInt8.ofNat (escapeValue 8 (ds ++ cs)) :: bytes, ?_, ?_, ?_⟩
        · rw [stringLoop_escape hback hescape hloop, skip_skip, skip_skip, elementsText_cons, List.length_append,
            elementsText_ordinary]
          exact congrArg (fun n => some (UInt8.ofNat (escapeValue 8 (ds ++ cs)) :: bytes, true, s.skip n))
            (by simp [CElement.text]; omega)
        · simp only [List.length_cons, List.length_append, List.length_map]
          omega
        · cases cs with
          | nil =>
            rw [List.append_nil, List.map_cons, List.cons.injEq, List.map_nil, List.nil_append, hiff,
              ← number_octal hne hds]
            exact ⟨fun hb => ⟨hend, hb.2⟩, fun hb => ⟨rfl, hb.2⟩⟩
          | cons c cs =>
            constructor
            · -- digits that stand for themselves were taken into the escape
              intro heq
              have hlength := congrArg List.length heq
              simp only [List.length_cons, List.length_map, List.length_append] at hlength
              omega
            · intro hin
              have hoctal : isOctal c = false := hin.1
              rw [hcs c List.mem_cons_self] at hoctal
              cases hoctal

theorem string_iff {es : List CElement} (hvalid : (string es).Valid) (h : s.At (text (string es) ++ rest)) :
    Right s (string es) ↔ AllInString es := by
  obtain ⟨hes, hsep, hlt⟩ := hvalid
  have hat : s.At (34 :: (elementsText es ++ 34 :: rest)) := by simpa [text] using h
  obtain ⟨bytes, hloop, hlen, hiff⟩ := stringLoop_elements es.length (Nat.le_refl _) hes hsep hlt hat.cleared.next
  have htext : 1 + ((elementsText es).length + 1) = (text (string es)).length := by
    simp [text]
    omega
  rw [skip_skip, htext] at hloop
  have hproc : (s.cleared.skip 1).procString = some (some bytes, { s.skip (text (string es)).length with
      string := bytes ++ 0 :: s.string.drop (bytes.length + 1) }) := by
    have hput : (s.cleared.skip (text (string es)).length).putString (bytes ++ [0]) =
        some { s.skip (text (string es)).length with
          string := bytes ++ 0 :: s.string.drop (bytes.length + 1) } := by
      unfold FinshLexer.putString
      have hroom : (s.cleared.skip (text (string es)).length).string.length = finshStringMax := hat.cleared.room
      rw [if_pos (by rw [hroom, List.length_append, List.length_singleton]; omega)]
      simp [FinshLexer.cleared, FinshLexer.skip]
    unfold FinshLexer.procString
    simp only [hloop, Option.bind_eq_bind, Option.bind_some, if_true, hput]
  have hrun : s.tokenRun = some (.valueString (cText bytes), { s.skip (text (string es)).length with
      string := bytes ++ 0 :: s.string.drop (bytes.length + 1) }) := by
    rw [hat.tokenRun_string, hproc]
    simp [cText_zero]
  rw [← hiff]
  constructor
  · intro hright
    have heq := hright.2
    rw [hproc] at heq
    exact Option.some.inj (congrArg Prod.fst (Option.some.inj heq))
  · rintro rfl
    exact ⟨hrun, hproc⟩

end TextLiteral

/-- A character constant or a string literal is decoded as in C exactly if each of its elements is
one that its decoder knows. -/
theorem finsh_text_right_iff (l : TextLiteral) (hl : l.Valid) (s : FinshLexer) (rest : List UInt8)
    (h : s.At (l.text ++ rest)) : l.Right s ↔ l.Fits := by
  cases l with
  | char e => exact TextLiteral.char_iff hl h
  | string es => exact TextLiteral.string_iff hl h

/-- `"a\n";` -/
theorem newline_right : (TextLiteral.string [.ordinary 97, .simple 110]).Right
    (finshTokenInit ((TextLiteral.string [.ordinary 97, .simple 110]).text ++ [59])) := by
  apply (finsh_text_right_iff (.string [.ordinary 97, .simple 110]) ?_ _ [59] (FinshLexer.init_at _)).mpr
  · exact ⟨trivial, ⟨by decide, by decide, by decide⟩, trivial⟩
  · refine ⟨?_, ⟨trivial, trivial, trivial⟩, by decide⟩
    intro e he
    simp only [List.mem_cons, List.not_mem_nil, or_false] at he
    rcases he with rfl | rfl
    · exact ⟨by decide, by decide, by decide, by decide⟩
    · exact rfl

/-- `'\101'` is read as a NUL. -/
theorem octalChar_wrong : ¬ (TextLiteral.char (.octal [49, 48, 49])).Right
    (finshTokenInit ((TextLiteral.char (.octal [49, 48, 49])).text ++ [59])) := by
  have hrun : (finshTokenInit ((TextLiteral.char (.octal [49, 48, 49])).text ++ [59])).tokenRun =
      some (.valueChar 0, { finshTokenInit ((TextLiteral.char (.octal [49, 48, 49])).text ++ [59]) with
        position := 6 }) := by decide +kernel
  intro hright
  have heq := hrun.symm.trans hright
  have hvalue := FinshToken.valueChar.inj (congrArg Prod.fst (Option.some.inj heq))
  exact absurd hvalue (by decide +kernel)

end RTThread
