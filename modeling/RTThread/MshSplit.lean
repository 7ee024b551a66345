import RTThread.ShellModel

namespace RTThread

def finshArgMax : Nat := 10

/-- `' '` and `'\t'`. -/
def isBlank (c : UInt8) : Bool := c == 32 || c == 9

def quoteMark : UInt8 := 34

def backslash : UInt8 := 92

/-- `*ptr`, where `ptr` points to a place of the command. -/
def byteAt (cmd : List UInt8) (position : Nat) : UInt8 := (cmd[position]?).getD 0

section
variable (length : Nat)

/-- `strip bank and tab`; a turn takes a byte, and no loop of the function needs more fuel than the
bytes that are left. -/
def stripBlanks : Nat → List UInt8 → Nat → List UInt8 × Nat
  | 0, cmd, position => (cmd, position)
  | fuel + 1, cmd, position =>
    if isBlank (byteAt cmd position) ∧ position < length then
      stripBlanks fuel (cmd.set position 0) (position + 1)
    else (cmd, position)

/-- `skip this string`. -/
def skipQuoted (cmd : List UInt8) : Nat → Nat → Nat
  | 0, position => position
  | fuel + 1, position =>
    if byteAt cmd position ≠ quoteMark ∧ position < length then
      if byteAt cmd position = backslash ∧ byteAt cmd (position + 1) = quoteMark then
        skipQuoted cmd fuel (position + 2)
      else skipQuoted cmd fuel (position + 1)
    else position

def skipWord (cmd : List UInt8) : Nat → Nat → Nat
  | 0, position => position
  | fuel + 1, position =>
    if isBlank (byteAt cmd position) = false ∧ position < length then skipWord cmd fuel (position + 1)
    else position

/-- The loop of `msh_split`; `argv` holds the places the pointers point to. -/
def splitLoop : Nat → List UInt8 → Nat → List Nat → List UInt8 × List Nat
  | 0, cmd, _, argv => (cmd, argv)
  | fuel + 1, cmd, position, argv =>
    if position < length then
      let (cmd, position) := stripBlanks length (length - position) cmd position
      if finshArgMax ≤ argv.length then (cmd, argv)
      else if length ≤ position then (cmd, argv)
      else if byteAt cmd position = quoteMark then
        let start := position + 1
        let position := skipQuoted length cmd (length - start) start
        if length ≤ position then (cmd, argv ++ [start])
        else splitLoop fuel (cmd.set position 0) (position + 1) (argv ++ [start])
      else
        let start := position
        let position := skipWord length cmd (length - start) start
        if length ≤ position then (cmd, argv ++ [start])
        else splitLoop fuel cmd position (argv ++ [start])
    else (cmd, argv)

def mshSplit (cmd : List UInt8) : List UInt8 × List Nat := splitLoop length (length + 1) cmd 0 []

end

/-- The strings that the pointers point to. -/
def argStrings (r : List UInt8 × List Nat) : List (List UInt8) :=
  r.2.map fun start => cText (r.1.drop start)

/-- An argument as it is written: the blanks in front of it, and whether it stands in quotes. -/
structure MshWord where
  blanks : List UInt8
  quoted : Bool
  text : List UInt8

def MshWord.body (w : MshWord) : List UInt8 :=
  if w.quoted then quoteMark :: w.text ++ [quoteMark] else w.text

def writeWords (ws : List MshWord) : List UInt8 := ws.flatMap fun w => w.blanks ++ w.body

/-- An argument without a quotation mark that does not end in a backslash, in quotes at least where
it is empty or holds a blank. -/
structure MshWord.Written (w : MshWord) : Prop where
  blanks : ∀ c ∈ w.blanks, isBlank c = true
  nonzero : 0 ∉ w.text
  unquoted : quoteMark ∉ w.text
  ending : w.text.getLast? ≠ some backslash
  quotes : w.quoted = false → w.text ≠ [] ∧ ∀ c ∈ w.text, isBlank c = false

/-- What is left of the text when `n` more arguments are split off. -/
def splitText : Nat → List MshWord → List UInt8
  | _, [] => [0]
  | 0, w :: ws => List.replicate w.blanks.length 0 ++ (w.body ++ (writeWords ws ++ [0]))
  | n + 1, w :: ws =>
    List.replicate w.blanks.length 0 ++
      ((if w.quoted then quoteMark :: w.text ++ [0] else w.text) ++ splitText n ws)

def splitStarts : Nat → Nat → List MshWord → List Nat
  | _, _, [] => []
  | 0, _, _ :: _ => []
  | n + 1, position, w :: ws =>
    (position + w.blanks.length + if w.quoted then 1 else 0) ::
      splitStarts n (position + w.blanks.length + w.body.length) ws

section
variable {length : Nat} {pre rest bl text : List UInt8} {c : UInt8}

theorem byteAt_append (k : Nat) : byteAt (pre ++ rest) (pre.length + k) = byteAt rest k := by
  unfold byteAt
  rw [List.getElem?_append_right (Nat.le_add_right _ _), Nat.add_sub_cancel_left]

theorem byteAt_here : byteAt (pre ++ rest) pre.length = byteAt rest 0 := byteAt_append 0

theorem append_cons_shift : pre ++ c :: rest = (pre ++ [c]) ++ rest := by
  rw [List.append_assoc]
  rfl

theorem stripBlanks_eq (hbl : ∀ c ∈ bl, isBlank c = true)
    (hstop : length ≤ pre.length + bl.length ∨ isBlank (byteAt rest 0) = false)
    (hlen : pre.length + bl.length ≤ length) :
    stripBlanks length (length - pre.length) (pre ++ (bl ++ rest)) pre.length =
      (pre ++ (List.replicate bl.length 0 ++ rest), pre.length + bl.length) := by
  induction bl generalizing pre with
  | nil =>
    simp only [List.nil_append, List.length_nil, Nat.add_zero, List.replicate_zero] at hstop ⊢
    cases hfuel : length - pre.length with
    | zero => rfl
    | succ fuel =>
      have hnot : isBlank (byteAt rest 0) = false := hstop.resolve_left (by omega)
      rw [stripBlanks, byteAt_here, hnot, if_neg (by simp)]
  | cons b bl ih =>
    rw [List.length_cons] at hlen hstop
    have hnext := @ih (pre ++ [0]) (fun c hc => hbl c (List.mem_cons_of_mem b hc))
      (hstop.imp_left fun h => by rw [List.length_append, List.length_singleton]; omega)
      (by rw [List.length_append, List.length_singleton]; omega)
    obtain ⟨fuel, hfuel⟩ : ∃ fuel, length - pre.length = fuel + 1 := ⟨length - pre.length - 1, by omega⟩
    have hset : (pre ++ (b :: bl ++ rest)).set pre.length 0 = (pre ++ [0]) ++ (bl ++ rest) := by
      rw [List.set_append_right _ _ (Nat.le_refl _), Nat.sub_self, ← append_cons_shift]
      rfl
    have hblank : isBlank (byteAt (pre ++ (b :: bl ++ rest)) pre.length) = true := by
      rw [byteAt_here]
      exact hbl b List.mem_cons_self
    rw [hfuel, stripBlanks, if_pos ⟨hblank, by omega⟩, hset]
    rw [List.length_append, List.length_singleton] at hnext
    have hleft : length - (pre.length + 1) = fuel := by omega
    rw [hleft] at hnext
    rw [hnext, List.length_cons, List.replicate_succ, ← append_cons_shift, Nat.add_right_comm, Nat.add_assoc]
    rfl

/-- A string that holds no quotation mark and does not end in a backslash is skipped to the quotation
mark behind it. -/
theorem skipQuoted_eq (htext : quoteMark ∉ text) (hend : text.getLast? ≠ some backslash)
    (hlen : pre.length + text.length < length) :
    skipQuoted length (pre ++ (text ++ quoteMark :: rest)) (length - pre.length) pre.length =
      pre.length + text.length := by
  induction text generalizing pre with
  | nil =>
    obtain ⟨fuel, hfuel⟩ : ∃ fuel, length - pre.length = fuel + 1 := ⟨length - pre.length - 1, by omega⟩
    rw [hfuel, skipQuoted, byteAt_here, if_neg]
    · rfl
    · rintro ⟨hne, -⟩
      exact hne rfl
  | cons c text ih =>
    rw [List.length_cons] at hlen
    have hc : c ≠ quoteMark := fun h => htext (h ▸ List.mem_cons_self)
    have hnext := @ih (pre ++ [c]) (fun h => htext (List.mem_cons_of_mem c h))
      (by
        cases text with
        | nil => simp
        | cons d text => rwa [List.getLast?_cons_cons] at hend)
      (by rw [List.length_append, List.length_singleton]; omega)
    rw [List.length_append, List.length_singleton] at hnext
    obtain ⟨fuel, hfuel⟩ : ∃ fuel, length - pre.length = fuel + 1 := ⟨length - pre.length - 1, by omega⟩
    have hleft : length - (pre.length + 1) = fuel := by omega
    rw [hleft] at hnext
    have hescape : ¬(byteAt (pre ++ (c :: text ++ quoteMark :: rest)) pre.length = backslash ∧
        byteAt (pre ++ (c :: text ++ quoteMark :: rest)) (pre.length + 1) = quoteMark) := by
      rw [byteAt_here, byteAt_append]
      rintro ⟨hback, hmark⟩
      cases text with
      | nil => exact hend (congrArg some hback)
      | cons d text => exact htext (hmark ▸ List.mem_cons_of_mem c List.mem_cons_self)
    rw [hfuel, skipQuoted, if_pos ⟨by rw [byteAt_here]; exact hc, by omega⟩, if_neg hescape,
      List.cons_append, append_cons_shift, hnext, List.length_cons, Nat.add_right_comm, Nat.add_assoc]

theorem skipWord_eq (htext : ∀ c ∈ text, isBlank c = false)
    (hstop : length ≤ pre.length + text.length ∨ isBlank (byteAt rest 0) = true)
    (hlen : pre.length + text.length ≤ length) :
    skipWord length (pre ++ (text ++ rest)) (length - pre.length) pre.length =
      pre.length + text.length := by
  induction text generalizing pre with
  | nil =>
    simp only [List.nil_append, List.length_nil, Nat.add_zero] at hstop ⊢
    cases hfuel : length - pre.length with
    | zero => rfl
    | succ fuel =>
      have hblank : isBlank (byteAt rest 0) = true := hstop.resolve_left (by omega)
      rw [skipWord, byteAt_here, hblank, if_neg (by simp)]
  | cons c text ih =>
    rw [List.length_cons] at hlen hstop
    have hnext := @ih (pre ++ [c]) (fun b hb => htext b (List.mem_cons_of_mem c hb))
      (hstop.imp_left fun h => by rw [List.length_append, List.length_singleton]; omega)
      (by rw [List.length_append, List.length_singleton]; omega)
    rw [List.length_append, List.length_singleton] at hnext
    obtain ⟨fuel, hfuel⟩ : ∃ fuel, length - pre.length = fuel + 1 := ⟨length - pre.length - 1, by omega⟩
    have hleft : length - (pre.length + 1) = fuel := by omega
    rw [hleft] at hnext
    have hword : isBlank (byteAt (pre ++ (c :: text ++ rest)) pre.length) = false := by
      rw [byteAt_here]
      exact htext c List.mem_cons_self
    rw [hfuel, skipWord, if_pos ⟨hword, by omega⟩, List.cons_append, append_cons_shift, hnext,
      List.length_cons, Nat.add_right_comm, Nat.add_assoc]

variable {w : MshWord} {ws : List MshWord} {argv : List Nat}

theorem MshWord.Written.body_head (hw : w.Written) :
    ∃ c tail, w.body = c :: tail ∧ isBlank c = false ∧ (c = quoteMark ↔ w.quoted = true) := by
  unfold MshWord.body
  by_cases hq : w.quoted = true
  · rw [if_pos hq]
    exact ⟨quoteMark, _, rfl, rfl, fun _ => hq, fun _ => rfl⟩
  · rw [if_neg hq]
    obtain ⟨hne, hword⟩ := hw.quotes (Bool.not_eq_true _ ▸ hq)
    obtain ⟨c, tail, htext⟩ := List.exists_cons_of_ne_nil hne
    refine ⟨c, tail, htext, hword c (htext ▸ List.mem_cons_self), fun h => ?_, fun h => absurd h hq⟩
    exact absurd (htext ▸ h ▸ List.mem_cons_self) hw.unquoted

theorem writeWords_blank (hw : ∀ w ∈ ws, w.Written) (hsep : ∀ w ∈ ws, w.blanks ≠ []) (hne : ws ≠ []) :
    isBlank (byteAt (writeWords ws ++ [0]) 0) = true := by
  obtain ⟨w, ws, rfl⟩ := List.exists_cons_of_ne_nil hne
  obtain ⟨c, tail, hblanks⟩ := List.exists_cons_of_ne_nil (hsep w List.mem_cons_self)
  have hc := (hw w List.mem_cons_self).blanks c (hblanks ▸ List.mem_cons_self)
  simp only [writeWords, List.flatMap_cons, hblanks, List.cons_append]
  exact hc

theorem splitLoop_eq {fuel : Nat} (hw : ∀ w ∈ ws, w.Written) (hsep : ∀ w ∈ ws.tail, w.blanks ≠ [])
    (hfuel : ws.length < fuel) (hlen : length = pre.length + (writeWords ws).length) :
    splitLoop length fuel (pre ++ (writeWords ws ++ [0])) pre.length argv =
      (pre ++ splitText (finshArgMax - argv.length) ws,
        argv ++ splitStarts (finshArgMax - argv.length) pre.length ws) := by
  induction ws generalizing fuel pre argv with
  | nil =>
    obtain ⟨fuel, rfl⟩ : ∃ f, fuel = f + 1 := ⟨fuel - 1, by omega⟩
    have hend : length = pre.length := hlen
    rw [splitLoop, if_neg (by omega)]
    cases finshArgMax - argv.length with
    | zero => rw [splitText, splitStarts, List.append_nil]; rfl
    | succ n => rw [splitText, splitStarts, List.append_nil]; rfl
  | cons w ws ih =>
    obtain ⟨fuel, rfl⟩ : ∃ f, fuel = f + 1 := ⟨fuel - 1, by omega⟩
    have hword := hw w List.mem_cons_self
    have hrest : ∀ w ∈ ws, w.Written := fun v hv => hw v (List.mem_cons_of_mem w hv)
    obtain ⟨c, tail, hbody, hblank, hquote⟩ := hword.body_head
    have hwrite : writeWords (w :: ws) = w.blanks ++ (w.body ++ writeWords ws) := by
      simp only [writeWords, List.flatMap_cons, List.append_assoc]
    rw [hwrite, List.length_append, List.length_append, hbody, List.length_cons] at hlen
    have hstrip := @stripBlanks_eq length pre (w.body ++ (writeWords ws ++ [0])) w.blanks hword.blanks
      (.inr (by rw [hbody]; exact hblank)) (by omega)
    rw [hwrite, List.append_assoc, List.append_assoc, splitLoop, if_pos (by omega), hstrip]
    simp only
    split
    next hfull =>
      rw [Nat.sub_eq_zero_of_le hfull, splitText, splitStarts, List.append_nil]
    next hroom =>
      obtain ⟨n, hn⟩ : ∃ n, finshArgMax - argv.length = n + 1 :=
        ⟨finshArgMax - argv.length - 1, by omega⟩
      have hargs : ∀ start, finshArgMax - (argv ++ [start]).length = n := by
        intro start
        rw [List.length_append, List.length_singleton]
        omega
      rw [if_neg (by omega), hn, splitText, splitStarts]
      -- the blanks are behind now
      obtain ⟨pre1, hpre1⟩ : ∃ pre1, pre ++ List.replicate w.blanks.length 0 = pre1 := ⟨_, rfl⟩
      have hat : pre.length + w.blanks.length = pre1.length := by
        rw [← hpre1, List.length_append, List.length_replicate]
      rw [← List.append_assoc, hpre1, ← List.append_assoc pre, hpre1, hat, byteAt_here]
      have hfirst : byteAt (w.body ++ (writeWords ws ++ [0])) 0 = c := by
        rw [hbody]
        rfl
      rw [hfirst]
      by_cases hq : w.quoted = true
      · have hmark : w.body = quoteMark :: (w.text ++ [quoteMark]) := if_pos hq
        have hsize : tail.length = w.text.length + 1 := by
          have heq := congrArg List.length (hbody.symm.trans hmark)
          simpa using heq
        rw [if_pos (hquote.mpr hq), if_pos hq, if_pos hq, hmark]
        obtain ⟨pre2, hpre2⟩ : ∃ pre2, pre1 ++ [quoteMark] = pre2 := ⟨_, rfl⟩
        have hat2 : pre1.length + 1 = pre2.length := by
          rw [← hpre2, List.length_append, List.length_singleton]
        have hskip := @skipQuoted_eq length pre2 (writeWords ws ++ [0]) w.text hword.unquoted hword.ending
          (by omega)
        have hbuffer : pre1 ++ (quoteMark :: (w.text ++ [quoteMark]) ++ (writeWords ws ++ [0])) =
            pre2 ++ (w.text ++ quoteMark :: (writeWords ws ++ [0])) := by
          rw [← hpre2]
          simp only [List.cons_append, List.append_assoc, List.nil_append]
        obtain ⟨pre3, hpre3⟩ : ∃ pre3, pre2 ++ (w.text ++ [0]) = pre3 := ⟨_, rfl⟩
        have hat3 : pre2.length + w.text.length + 1 = pre3.length := by
          rw [← hpre3, List.length_append, List.length_append, List.length_singleton, Nat.add_assoc]
        have hset : (pre2 ++ (w.text ++ quoteMark :: (writeWords ws ++ [0]))).set
            (pre2.length + w.text.length) 0 = pre3 ++ (writeWords ws ++ [0]) := by
          rw [List.set_append_right _ _ (Nat.le_add_right _ _), Nat.add_sub_cancel_left,
            List.set_append_right _ _ (Nat.le_refl _), Nat.sub_self, ← hpre3]
          simp only [List.set_cons_zero, List.append_assoc, List.cons_append, List.nil_append]
        have hnext := @ih pre3 (argv ++ [pre2.length]) fuel hrest
          (fun v hv => hsep v (List.mem_of_mem_tail hv)) (by rw [List.length_cons] at hfuel; omega) (by omega)
        have hend : pre1.length + (quoteMark :: (w.text ++ [quoteMark])).length = pre3.length := by
          rw [List.length_cons, List.length_append, List.length_singleton]
          omega
        rw [hbuffer, hat2, hskip, if_neg (by omega), hset, hat3, hnext, hargs, hend, ← hpre3, ← hpre2]
        simp only [List.cons_append, List.append_assoc, List.nil_append]
      · have hplain : w.body = w.text := if_neg hq
        have hsize : tail.length + 1 = w.text.length := by
          rw [← hplain, hbody, List.length_cons]
        have hchars := (hword.quotes (Bool.not_eq_true _ ▸ hq)).2
        rw [if_neg (mt hquote.mp hq), if_neg hq, if_neg hq, hplain, Nat.add_zero]
        obtain ⟨pre2, hpre2⟩ : ∃ pre2, pre1 ++ w.text = pre2 := ⟨_, rfl⟩
        have hat2 : pre1.length + w.text.length = pre2.length := by
          rw [← hpre2, List.length_append]
        have hskip := @skipWord_eq length pre1 (writeWords ws ++ [0]) w.text hchars
          (by
            by_cases hws : ws = []
            · subst hws
              rw [writeWords, List.flatMap_nil, List.length_nil] at hlen
              exact .inl (by omega)
            · exact .inr (writeWords_blank hrest hsep hws)) (by omega)
        rw [hskip]
        split
        next hlast =>
          have hws : ws = [] := by
            cases ws with
            | nil => rfl
            | cons v ws =>
              obtain ⟨d, vtail, hv, -⟩ := (hrest v List.mem_cons_self).body_head
              simp only [writeWords, List.flatMap_cons, List.length_append, hv, List.length_cons] at hlen
              omega
          subst hws
          cases n with
          | zero => rfl
          | succ n => rfl
        next hmore =>
          have hnext := @ih pre2 (argv ++ [pre1.length]) fuel hrest
            (fun v hv => hsep v (List.mem_of_mem_tail hv)) (by rw [List.length_cons] at hfuel; omega)
            (by omega)
          rw [← List.append_assoc, hpre2, hat2, hnext, hargs, ← hpre2]
          simp only [List.append_assoc, List.cons_append, List.nil_append]

theorem cText_stop {rest : List UInt8} (h : 0 ∉ text) : cText (text ++ 0 :: rest) = text := by
  unfold cText
  rw [List.takeWhile_append_of_pos fun b hb => by simpa using ne_of_mem_of_not_mem hb h]
  simp

/-- What is left begins with a zero, the end of the argument in front. -/
theorem splitText_zero (n : Nat) (hsep : ∀ w ∈ ws, w.blanks ≠ []) :
    ∃ after, splitText n ws = 0 :: after := by
  cases ws with
  | nil =>
    cases n with
    | zero => exact ⟨[], rfl⟩
    | succ n => exact ⟨[], rfl⟩
  | cons w ws =>
    obtain ⟨k, hk⟩ : ∃ k, w.blanks.length = k + 1 :=
      ⟨w.blanks.length - 1, by have := List.length_pos_iff.mpr (hsep w List.mem_cons_self); omega⟩
    cases n with
    | zero =>
      rw [splitText, hk, List.replicate_succ]
      exact ⟨_, rfl⟩
    | succ n =>
      rw [splitText, hk, List.replicate_succ]
      exact ⟨_, rfl⟩

theorem splitStarts_strings (n : Nat) (hw : ∀ w ∈ ws, w.Written) (hsep : ∀ w ∈ ws.tail, w.blanks ≠ []) :
    argStrings (pre ++ splitText n ws, splitStarts n pre.length ws) = (ws.map MshWord.text).take n := by
  induction ws generalizing n pre with
  | nil =>
    cases n with
    | zero => rfl
    | succ n => rfl
  | cons w ws ih =>
    have hword := hw w List.mem_cons_self
    have hrest : ∀ w ∈ ws, w.Written := fun v hv => hw v (List.mem_cons_of_mem w hv)
    cases n with
    | zero => rfl
    | succ n =>
      obtain ⟨after, hafter⟩ := @splitText_zero ws n hsep
      unfold argStrings at ih ⊢
      rw [splitText, splitStarts, List.map_cons, List.map_cons, List.take_succ_cons]
      by_cases hq : w.quoted = true
      · have hmark : w.body.length = w.text.length + 2 := by
          rw [MshWord.body, if_pos hq, List.length_append, List.length_cons, List.length_singleton]
        obtain ⟨pre1, hpre1⟩ : ∃ pre1, pre ++ (List.replicate w.blanks.length 0 ++ [quoteMark]) = pre1 :=
          ⟨_, rfl⟩
        have hat1 : pre.length + w.blanks.length + 1 = pre1.length := by
          rw [← hpre1, List.length_append, List.length_append, List.length_replicate, List.length_singleton,
            Nat.add_assoc]
        have hbuffer : pre ++ (List.replicate w.blanks.length 0 ++
            (quoteMark :: w.text ++ [0] ++ splitText n ws)) = pre1 ++ (w.text ++ 0 :: splitText n ws) := by
          rw [← hpre1]
          simp only [List.cons_append, List.append_assoc, List.nil_append]
        have hat2 : pre.length + w.blanks.length + w.body.length = (pre1 ++ (w.text ++ [0])).length := by
          rw [List.length_append, List.length_append, List.length_singleton, hmark]
          omega
        rw [if_pos hq, if_pos hq, hbuffer, hat1, List.drop_left, cText_stop hword.nonzero]
        have htail := @ih (pre1 ++ (w.text ++ [0])) n hrest fun v hv => hsep v (List.mem_of_mem_tail hv)
        rw [hat2, ← htail]
        simp only [List.append_assoc, List.cons_append, List.nil_append]
      · have hplain : w.body.length = w.text.length := by rw [MshWord.body, if_neg hq]
        obtain ⟨pre1, hpre1⟩ : ∃ pre1, pre ++ List.replicate w.blanks.length 0 = pre1 := ⟨_, rfl⟩
        have hat1 : pre.length + w.blanks.length = pre1.length := by
          rw [← hpre1, List.length_append, List.length_replicate]
        have hat2 : pre1.length + w.body.length = (pre1 ++ w.text).length := by
          rw [List.length_append, hplain]
        have htail := @ih (pre1 ++ w.text) n hrest fun v hv => hsep v (List.mem_of_mem_tail hv)
        rw [if_neg hq, if_neg hq, ← List.append_assoc pre, hpre1, Nat.add_zero, hat1, hat2,
          List.drop_left, ← htail]
        rw [hafter, cText_stop hword.nonzero]
        simp only [List.append_assoc]

theorem writeWords_length (hw : ∀ w ∈ ws, w.Written) : ws.length ≤ (writeWords ws).length := by
  induction ws with
  | nil => exact Nat.le_refl 0
  | cons w ws ih =>
    have hrest := ih fun v hv => hw v (List.mem_cons_of_mem w hv)
    obtain ⟨c, tail, hbody, -⟩ := (hw w List.mem_cons_self).body_head
    have hwrite : writeWords (w :: ws) = w.blanks ++ w.body ++ writeWords ws := rfl
    rw [hwrite, List.length_append, List.length_append, hbody, List.length_cons, List.length_cons]
    omega

/-- Splitting gives back the arguments that were written, the first ones if there are too many. -/
theorem mshSplit_written (ws : List MshWord) (hw : ∀ w ∈ ws, w.Written)
    (hsep : ∀ w ∈ ws.tail, w.blanks ≠ []) :
    argStrings (mshSplit (writeWords ws).length (writeWords ws ++ [0])) =
      (ws.map MshWord.text).take finshArgMax := by
  have hbodies := writeWords_length hw
  have hsplit := @splitLoop_eq (writeWords ws).length [] ws [] ((writeWords ws).length + 1) hw hsep
    (by omega) (Nat.zero_add _).symm
  unfold mshSplit
  rw [List.nil_append] at hsplit
  rw [List.length_nil] at hsplit
  rw [hsplit]
  exact splitStarts_strings finshArgMax hw hsep

end

/-- `ls "a b" ""` with a tab in it. -/
theorem mshSplit_written_three :
    argStrings (mshSplit 11 [108, 115, 32, 34, 97, 32, 98, 34, 9, 34, 34, 0]) =
      [[108, 115], [97, 32, 98], []] := by
  apply mshSplit_written [⟨[], false, [108, 115]⟩, ⟨[32], true, [97, 32, 98]⟩, ⟨[9], true, []⟩]
  · intro w hw
    simp only [List.mem_cons, List.not_mem_nil, or_false] at hw
    rcases hw with rfl | rfl | rfl
    · exact ⟨by simp, by decide, by decide, by decide, by simp [isBlank]⟩
    · exact ⟨by simp [isBlank], by decide, by decide, by decide, by simp⟩
    · exact ⟨by simp [isBlank], by decide, by decide, by decide, by simp⟩
  · decide

end RTThread
