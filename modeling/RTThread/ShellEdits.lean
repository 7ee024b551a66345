import Mathlib.Data.List.GetD
import RTThread.ShellModel

namespace RTThread

section
variable {text a b z : List UInt8} {ch x : UInt8} {size : Nat}

theorem cText_append (h : ∀ b ∈ text, b ≠ 0) (n : Nat) :
    cText (text ++ List.replicate n 0) = text := by
  induction text with
  | nil =>
    cases n with
    | zero => rfl
    | succ n => simp [cText, List.replicate_succ]
  | cons b text ih =>
    have hb : b ≠ 0 := h b List.mem_cons_self
    have hrest := ih fun d hd => h d (List.mem_cons_of_mem b hd)
    show List.takeWhile _ (b :: (text ++ List.replicate n 0)) = b :: text
    rw [List.takeWhile_cons_of_pos (by simpa using hb)]
    exact congrArg (b :: ·) hrest

theorem cString_append (h : ∀ b ∈ text, b ≠ 0) {n : Nat} :
    cString (text ++ List.replicate n 0) = if 0 < n then some text else none := by
  unfold cString
  rw [cText_append h]
  by_cases hn : 0 < n
  · rw [if_pos hn, if_pos]
    simp [List.mem_replicate]
    omega
  · rw [if_neg hn, if_neg]
    intro hmem
    rcases List.mem_append.mp hmem with hmem | hmem
    · exact h 0 hmem rfl
    · have hzero := (List.mem_replicate.mp hmem).1
      omega

/-- The bytes from the cursor on move up by one. -/
theorem moveBytes_insert :
    (moveBytes (a ++ b ++ x :: z) (a.length + 1) a.length b.length).set a.length ch =
      a ++ ch :: b ++ z := by
  have hmoved : moveBytes (a ++ b ++ x :: z) (a.length + 1) a.length b.length =
      (a ++ (b ++ x :: z).take 1) ++ b ++ z := by
    have hhead : (a ++ b ++ x :: z).take (a.length + 1) = a ++ (b ++ x :: z).take 1 := by
      rw [List.append_assoc, List.take_length_add_append]
    have hmiddle : ((a ++ b ++ x :: z).drop a.length).take b.length = b := by
      simp
    have htail : (a ++ b ++ x :: z).drop (a.length + 1 + b.length) = z := by
      rw [show a.length + 1 + b.length = (a ++ b).length + 1 by simp; omega,
        List.drop_length_add_append]
      rfl
    unfold moveBytes
    rw [hhead, hmiddle, htail]
  obtain ⟨y, hy⟩ : ∃ y, (b ++ x :: z).take 1 = [y] := by
    cases b with
    | nil => exact ⟨x, rfl⟩
    | cons y b => exact ⟨y, rfl⟩
  rw [hmoved, hy]
  simp

/-- The bytes after the cursor move down by one. -/
theorem moveBytes_delete :
    (moveBytes (a ++ x :: b ++ z) a.length (a.length + 1) b.length).set (a.length + b.length) 0 =
      a ++ b ++ 0 :: z := by
  have hmoved : moveBytes (a ++ x :: b ++ z) a.length (a.length + 1) b.length =
      a ++ b ++ (x :: b ++ z).drop b.length := by
    have hhead : (a ++ x :: b ++ z).take a.length = a := by simp
    have hmiddle : ((a ++ x :: b ++ z).drop (a.length + 1)).take b.length = b := by
      rw [List.append_assoc, List.drop_length_add_append]
      simp
    have htail : (a ++ x :: b ++ z).drop (a.length + b.length) = (x :: b ++ z).drop b.length := by
      rw [List.append_assoc, List.drop_length_add_append]
    unfold moveBytes
    rw [hhead, hmiddle, htail]
  obtain ⟨y, hy⟩ : ∃ y, (x :: b ++ z).drop b.length = y :: z := by
    have hlast : (x :: b).drop b.length = [(x :: b).getLast (by simp)] := by
      have h := List.drop_length_sub_one (l := x :: b) (by simp)
      simpa using h
    refine ⟨(x :: b).getLast (by simp), ?_⟩
    rw [List.drop_append_of_le_length (by simp), hlast]
    rfl
  rw [hmoved, hy]
  simp

end

theorem take_set_succ {α : Type} {l : List α} {n : Nat} {x : α} (hn : n < l.length) :
    (l.set n x).take (n + 1) = l.take n ++ [x] := by
  induction l generalizing n with
  | nil => exact absurd hn (Nat.not_lt_zero n)
  | cons y l ih =>
    cases n with
    | zero => simp
    | succ n =>
      have hrest := ih (Nat.lt_of_succ_lt_succ hn)
      simpa using hrest

/-- The line is a text without NUL and zeros, and so are the lines in the history. -/
structure ShellRight (c : ShellConfig) (s : Shell) : Prop where
  stat : s.stat = .normal
  line : s.line = historyRow c.size (s.line.take s.position)
  position : s.position < c.size
  narrow : s.position < 256
  length : (s.line.take s.position).length = s.position
  curpos : s.curpos ≤ s.position
  text : ∀ b ∈ s.line.take s.position, b ≠ 0
  rows : s.history.length = c.lines
  count : s.historyCount ≤ c.lines
  current : s.currentHistory ≤ s.historyCount
  entries : ∀ row ∈ s.history.take s.historyCount, row = historyRow c.size (cText row) ∧
    (cText row).length < c.size ∧ (cText row).length < 256 ∧ ∀ b ∈ cText row, b ≠ 0

/-- The keys' handlers, without the characters of the keys. -/
def shellHandle (c : ShellConfig) (s : Shell) : ShellKey → Option Executed × Shell
  | .char ch => (none, shellInsert c s ch)
  | .backspace _ => (none, shellBackspace s)
  | .up => (none, shellUp c s)
  | .down => (none, shellDown c s)
  | .left => (none, shellLeft s)
  | .right => (none, shellRight s)
  | .lineEnd _ msh => shellLineEnd c msh s

section
variable {c : ShellConfig} {s : Shell} {k : ShellKey} {msh : Bool} {ch : UInt8}
  {text : List UInt8}

theorem shellKey_eq (h : s.stat = .normal) :
    shellKey c s k = (⟨(shellHandle c s k).2.line.drop (shellHandle c s k).2.position,
      (shellHandle c s k).1⟩, (shellHandle c s k).2) := by
  have hs : { s with stat := .normal } = s := by rw [← h]
  have hone : ∀ {ch msh}, ch ≠ 27 → shellChars c msh s [ch] = shellPlain c msh s ch := by
    intro ch msh hch
    simp only [shellChars, shellChar, if_neg hch, h]
  cases k with
  | char ch =>
    obtain ⟨ch, hlow, hhigh⟩ := ch
    have hbounds : ∀ {x : UInt8}, ¬(32 ≤ x ∧ x < 127) → ch ≠ x :=
      fun hx heq => hx (heq ▸ ⟨hlow, hhigh⟩)
    have hplain : shellPlain c false s ch = (none, shellInsert c s ch) := by
      unfold shellPlain
      rw [if_neg, if_neg, if_neg, if_neg]
      · rintro (heq | heq)
        · exact hbounds (by decide) heq
        · exact hbounds (by decide) heq
      · rintro (heq | heq)
        · exact hbounds (by decide) heq
        · exact hbounds (by decide) heq
      · exact hbounds (by decide)
      · rintro (heq | heq)
        · exact hbounds (by decide) heq
        · exact hbounds (by decide) heq
    simp only [shellKey, ShellKey.bytes, ShellKey.msh, hone (hbounds (x := 27) (by decide)), hplain,
      shellHandle]
  | backspace del =>
    have hplain : shellPlain c false s (if del then 127 else 8) = (none, shellBackspace s) := by
      cases del <;> rfl
    simp only [shellKey, ShellKey.bytes, ShellKey.msh,
      hone (show (if del then 127 else 8 : UInt8) ≠ 27 by cases del <;> decide), hplain,
      shellHandle]
  | up => simp [shellKey, ShellKey.bytes, ShellKey.msh, shellChars, shellChar, shellHandle, hs]
  | down => simp [shellKey, ShellKey.bytes, ShellKey.msh, shellChars, shellChar, shellHandle, hs]
  | left => simp [shellKey, ShellKey.bytes, ShellKey.msh, shellChars, shellChar, shellHandle, hs]
  | right => simp [shellKey, ShellKey.bytes, ShellKey.msh, shellChars, shellChar, shellHandle, hs]
  | lineEnd cr msh =>
    have hplain : shellPlain c msh s (if cr then 13 else 10) = shellLineEnd c msh s := by
      cases cr <;> rfl
    simp only [shellKey, ShellKey.bytes, ShellKey.msh,
      hone (show (if cr then 13 else 10 : UInt8) ≠ 27 by cases cr <;> decide), hplain, shellHandle]

theorem ShellRight.rest (h : ShellRight c s) :
    s.line.drop s.position = List.replicate (c.size - s.position) 0 := by
  have hlen := h.length
  have hline := h.line
  generalize s.line.take s.position = text at hlen hline
  rw [hline, historyRow, ← hlen, List.drop_left]

/-- A state whose line is this text. -/
theorem ShellRight.ofText (h : ShellRight c s) (text : List UInt8) (curpos position : Nat)
    (hlen : text.length = position) (hsize : position < c.size) (hnarrow : position < 256)
    (hcurpos : curpos ≤ position) (htext : ∀ b ∈ text, b ≠ 0) :
    ShellRight c { s with line := historyRow c.size text, position := position, curpos := curpos } ∧
      Shell.view
          { s with line := historyRow c.size text, position := position, curpos := curpos } =
        { s.view with text := text, cursor := curpos } := by
  have htake : (historyRow c.size text).take position = text := by
    rw [historyRow, ← hlen, List.take_left]
  refine ⟨⟨h.stat, ?_, hsize, hnarrow, ?_, hcurpos, ?_, h.rows, h.count, h.current, h.entries⟩, ?_⟩
  · exact congrArg (historyRow c.size) htake.symm
  · exact (congrArg List.length htake).trans hlen
  · intro b hb
    exact htext b (htake ▸ hb)
  · exact congrArg (Editor.mk · curpos s.view.history s.view.recalled) htake

theorem ShellRight.keys (h : ShellRight c s) :
    ∃ text, s.line.take s.position = text ∧ text.length = s.position ∧
      s.line = text ++ List.replicate (c.size - s.position) 0 ∧ ∀ b ∈ text, b ≠ 0 := by
  refine ⟨_, rfl, h.length, ?_, h.text⟩
  have hline := h.line
  have hlen := h.length
  generalize s.line.take s.position = text at hline hlen
  rw [hline, historyRow, hlen]

theorem ShellRight.insert (h : ShellRight c s) (hch : ch ≠ 0) (hsize : s.position + 1 < c.size)
    (hnarrow : s.position < 255) :
    ShellRight c (shellInsert c s ch) ∧ (shellInsert c s ch).view = s.view.insert c.size ch := by
  obtain ⟨text, htake, hlen, hline, htext⟩ := h.keys
  have hcurpos := h.curpos
  obtain ⟨n, hn⟩ : ∃ n, c.size - s.position = n + 1 := ⟨c.size - s.position - 1, by omega⟩
  rw [hn, List.replicate_succ] at hline
  have hparts : text.take s.curpos ++ text.drop s.curpos = text := List.take_append_drop ..
  have hleft : (text.take s.curpos).length = s.curpos := by
    rw [List.length_take]
    omega
  have hright : (text.drop s.curpos).length = s.position - s.curpos := by
    rw [List.length_drop]
    omega
  have hrow : historyRow c.size (text.take s.curpos ++ ch :: text.drop s.curpos) =
      text.take s.curpos ++ ch :: text.drop s.curpos ++ List.replicate n 0 := by
    unfold historyRow
    rw [List.length_append, List.length_cons, hleft, hright,
      show c.size - (s.curpos + (s.position - s.curpos + 1)) = n by omega]
  have hmoved : (if s.curpos < s.position then
        (moveBytes s.line (s.curpos + 1) s.curpos (s.position - s.curpos)).set s.curpos ch
      else s.line.set s.position ch) =
      historyRow c.size (text.take s.curpos ++ ch :: text.drop s.curpos) := by
    rw [hrow]
    split
    next =>
      have hmove := @moveBytes_insert (text.take s.curpos) (text.drop s.curpos)
        (List.replicate n 0) ch 0
      rw [hparts, hleft, hright] at hmove
      rw [hline]
      exact hmove
    next hend =>
      have hall : text.length = s.curpos := by omega
      rw [hline, ← hlen, List.take_of_length_le hall.le, List.drop_of_length_le hall.le]
      simp
  have hinserted : shellInsert c s ch =
      { s with
        line := historyRow c.size (text.take s.curpos ++ ch :: text.drop s.curpos)
        position := s.position + 1, curpos := s.curpos + 1 } := by
    unfold shellInsert
    rw [if_neg (show ¬c.size ≤ s.position by omega)]
    dsimp only
    rw [hmoved, Nat.mod_eq_of_lt (show s.position + 1 < 256 by omega),
      Nat.mod_eq_of_lt (show s.curpos + 1 < 256 by omega), if_neg (by omega)]
  have hnew : ∀ b ∈ text.take s.curpos ++ ch :: text.drop s.curpos, b ≠ 0 := by
    intro b hb
    rcases List.mem_append.mp hb with hb | hb
    · exact htext b (List.mem_of_mem_take hb)
    · rcases List.mem_cons.mp hb with rfl | hb
      · exact hch
      · exact htext b (List.mem_of_mem_drop hb)
  have hedited : s.view.insert c.size ch =
      { s.view with
        text := text.take s.curpos ++ ch :: text.drop s.curpos, cursor := s.curpos + 1 } := by
    unfold Editor.insert Shell.view
    rw [htake, if_pos (by rw [hlen]; exact hsize)]
  rw [hinserted, hedited]
  apply h.ofText _ _ _ _ hsize (by omega) (by omega) hnew
  rw [List.length_append, List.length_cons, hleft, hright]
  omega

theorem ShellRight.delete (h : ShellRight c s) :
    ShellRight c (shellBackspace s) ∧ (shellBackspace s).view = s.view.delete := by
  obtain ⟨text, htake, hlen, hline, htext⟩ := h.keys
  have hcurpos := h.curpos
  have hsize := h.position
  by_cases hzero : s.curpos = 0
  · unfold shellBackspace Editor.delete
    rw [if_pos hzero, if_pos (show s.view.cursor = 0 from hzero)]
    exact ⟨h, rfl⟩
  · have hleft : (text.take (s.curpos - 1)).length = s.curpos - 1 := by
      rw [List.length_take]
      omega
    have hright : (text.drop s.curpos).length = s.position - s.curpos := by
      rw [List.length_drop]
      omega
    have hrow : historyRow c.size (text.take (s.curpos - 1) ++ text.drop s.curpos) =
        text.take (s.curpos - 1) ++ text.drop s.curpos ++
          0 :: List.replicate (c.size - s.position) 0 := by
      unfold historyRow
      rw [List.length_append, hleft, hright, ← List.replicate_succ,
        show c.size - (s.curpos - 1 + (s.position - s.curpos)) = c.size - s.position + 1 by omega]
    obtain ⟨x, hx⟩ : ∃ x, text = text.take (s.curpos - 1) ++ x :: text.drop s.curpos := by
      have hlt : s.curpos - 1 < text.length := by omega
      refine ⟨text[s.curpos - 1], ?_⟩
      have hdrop := List.drop_eq_getElem_cons hlt
      rw [show s.curpos - 1 + 1 = s.curpos by omega] at hdrop
      rw [← hdrop, List.take_append_drop]
    have hmoved : (if s.curpos - 1 < s.position - 1 then
          (moveBytes s.line (s.curpos - 1) (s.curpos - 1 + 1)
            (s.position - 1 - (s.curpos - 1))).set (s.position - 1) 0
        else s.line.set (s.position - 1) 0) =
        historyRow c.size (text.take (s.curpos - 1) ++ text.drop s.curpos) := by
      rw [hrow]
      split
      next =>
        have hmove := @moveBytes_delete (text.take (s.curpos - 1)) (text.drop s.curpos)
          (List.replicate (c.size - s.position) 0) x
        rw [← hx, hleft, hright] at hmove
        rw [hline, show s.position - 1 - (s.curpos - 1) = s.position - s.curpos by omega,
          show s.position - 1 = s.curpos - 1 + (s.position - s.curpos) by omega]
        exact hmove
      next hend =>
        have hend : text.drop s.curpos = [] := List.drop_of_length_le (by omega)
        rw [hend] at hx ⊢
        rw [hline]
        generalize text.take (s.curpos - 1) = a at hx hleft ⊢
        rw [hx, show s.position - 1 = a.length by omega]
        simp
    have hdeleted : shellBackspace s =
        { s with
          line := historyRow c.size (text.take (s.curpos - 1) ++ text.drop s.curpos)
          position := s.position - 1, curpos := s.curpos - 1 } := by
      unfold shellBackspace
      rw [if_neg hzero, ← hmoved]
      dsimp only
      split <;> rfl
    have hedited : s.view.delete =
        { s.view with
          text := text.take (s.curpos - 1) ++ text.drop s.curpos, cursor := s.curpos - 1 } := by
      unfold Editor.delete Shell.view
      rw [htake, if_neg hzero]
    have hnew : ∀ b ∈ text.take (s.curpos - 1) ++ text.drop s.curpos, b ≠ 0 := by
      intro b hb
      rcases List.mem_append.mp hb with hb | hb
      · exact htext b (List.mem_of_mem_take hb)
      · exact htext b (List.mem_of_mem_drop hb)
    rw [hdeleted, hedited]
    apply h.ofText _ _ _ _ (by omega) _ (by omega) hnew
    · rw [List.length_append, hleft, hright]
      omega
    · have hnarrow := h.narrow
      omega

theorem ShellRight.row (h : ShellRight c s) {i : Nat} (hi : i < s.historyCount) :
    s.history.getD i [] ∈ s.history.take s.historyCount ∧
      s.view.history.getD i [] = cText (s.history.getD i []) := by
  have hin : i < s.history.length := by
    have hcount := h.count
    have hrows := h.rows
    omega
  have htake : i < (s.history.take s.historyCount).length := by
    rw [List.length_take]
    omega
  have hget : (s.history.take s.historyCount)[i] = s.history[i] := List.getElem_take
  have hrow : s.history.getD i [] = s.history[i] := List.getD_eq_getElem _ _ hin
  constructor
  · rw [hrow, ← hget]
    exact List.getElem_mem htake
  · have hmap : i < s.view.history.length := by
      show i < ((s.history.take s.historyCount).map cText).length
      rw [List.length_map]
      exact htake
    rw [hrow, List.getD_eq_getElem _ _ hmap, ← hget]
    exact List.getElem_map cText

theorem ShellRight.historyLength (h : ShellRight c s) :
    s.view.history.length = s.historyCount := by
  have hcount := h.count
  have hrows := h.rows
  show ((s.history.take s.historyCount).map cText).length = s.historyCount
  rw [List.length_map, List.length_take]
  omega

/-- A line of the history is brought back. -/
theorem ShellRight.recall (h : ShellRight c s) {i : Nat} (hi : i < s.historyCount) :
    ShellRight c (s.recall i) ∧ (s.recall i).view = s.view.bringBack i := by
  obtain ⟨hmem, hview⟩ := h.row hi
  obtain ⟨hrow, hsize, hnarrow, htext⟩ := h.entries _ hmem
  have hmoved : ShellRight c { s with currentHistory := i } :=
    ⟨h.stat, h.line, h.position, h.narrow, h.length, h.curpos, h.text, h.rows, h.count, hi.le,
      h.entries⟩
  have hrecalled : s.recall i =
      { s with
        currentHistory := i, line := historyRow c.size (cText (s.history.getD i []))
        position := (cText (s.history.getD i [])).length
        curpos := (cText (s.history.getD i [])).length } := by
    unfold Shell.recall
    dsimp only
    rw [Nat.mod_eq_of_lt hnarrow, ← hrow]
  have hedited : s.view.bringBack i =
      { s.view with
        recalled := i, text := cText (s.history.getD i [])
        cursor := (cText (s.history.getD i [])).length } := by
    unfold Editor.bringBack
    rw [hview]
  rw [hrecalled, hedited]
  exact hmoved.ofText _ _ _ rfl hsize hnarrow le_rfl htext

theorem ShellRight.up (h : ShellRight c s) :
    ShellRight c (shellUp c s) ∧ (shellUp c s).view = (s.view.key c .up).2 := by
  have hcurrent := h.current
  have hcount := h.count
  unfold shellUp
  show _ ∧ _ = if 0 < s.currentHistory then s.view.bringBack (s.currentHistory - 1) else s.view
  by_cases hpos : 0 < s.currentHistory
  · rw [if_pos ⟨by omega, hpos⟩, if_pos hpos]
    exact h.recall (by omega)
  · rw [if_neg fun hboth => hpos hboth.2, if_neg hpos]
    exact ⟨h, rfl⟩

theorem ShellRight.down (h : ShellRight c s) :
    ShellRight c (shellDown c s) ∧ (shellDown c s).view = (s.view.key c .down).2 := by
  have hcount := h.count
  have hlength := h.historyLength
  have hempty : s.view.history = [] ↔ s.historyCount = 0 := by
    rw [← hlength]
    exact List.length_eq_zero_iff.symm
  unfold shellDown
  show _ ∧ _ = if s.view.history = [] then s.view
    else s.view.bringBack (if s.currentHistory + 1 < s.view.history.length then
      s.currentHistory + 1 else s.view.history.length - 1)
  rw [hlength]
  by_cases hzero : s.historyCount = 0
  · rw [if_pos (hempty.mpr hzero), if_neg (show ¬s.currentHistory + 1 < s.historyCount by omega),
      if_neg (not_not.mpr hzero), ite_self]
    exact ⟨h, rfl⟩
  · rw [if_pos (show 0 < c.lines by omega), if_neg fun hno => hzero (hempty.mp hno)]
    split
    next hlt => exact h.recall hlt
    next => exact h.recall (by omega)

/-- The line is the last one entered exactly if the bytes are. -/
theorem ShellRight.sameLast (h : ShellRight c s) (hpos : s.historyCount ≠ 0) :
    s.history.getD (s.historyCount - 1) [] = s.line ↔
      s.view.history.getLast? = some s.view.text := by
  obtain ⟨hmem, hview⟩ := h.row (i := s.historyCount - 1) (by omega)
  obtain ⟨hrow, -⟩ := h.entries _ hmem
  have hlast : s.view.history.getLast? = some (cText (s.history.getD (s.historyCount - 1) [])) := by
    have hlength := h.historyLength
    rw [List.getLast?_eq_getElem?, hlength, ← hview,
      List.getD_eq_getElem _ _ (show s.historyCount - 1 < s.view.history.length by omega)]
    exact List.getElem?_eq_getElem _
  rw [hlast, Option.some_inj]
  constructor
  · intro heq
    rw [heq, h.line]
    exact cText_append h.text _
  · intro heq
    rw [hrow, heq]
    exact h.line.symm

theorem ShellRight.push (h : ShellRight c s) (hlines : 0 < c.lines) :
    ShellRight c (shellPushHistory c s) ∧ (shellPushHistory c s).line = s.line ∧
      (shellPushHistory c s).position = s.position ∧
      (shellPushHistory c s).view = s.view.remember c.lines := by
  have hcount := h.count
  have hrows := h.rows
  have hlength := h.historyLength
  have htextNil : s.view.text = [] ↔ s.position = 0 := by
    rw [← List.length_eq_zero_iff]
    exact h.length ▸ Iff.rfl
  -- the history and its count decide everything else
  have hwith : ∀ {history n}, history.length = c.lines → n ≤ c.lines →
      (∀ row ∈ history.take n, row ∈ s.history.take s.historyCount ∨
        row = historyRow c.size (s.line.take s.position)) →
      ShellRight c { s with history := history, historyCount := n, currentHistory := n } := by
    intro history n hlen hn hmem
    refine ⟨h.stat, h.line, h.position, h.narrow, h.length, h.curpos, h.text, hlen, hn, le_rfl, ?_⟩
    intro row hrow
    rcases hmem row hrow with hold | rfl
    · exact h.entries row hold
    · have htext := cText_append h.text (c.size - (s.line.take s.position).length)
      have hsame : cText (historyRow c.size (s.line.take s.position)) =
          s.line.take s.position := htext
      rw [hsame, h.length]
      exact ⟨rfl, h.position, h.narrow, h.text⟩
  have hkept : ShellRight c { s with currentHistory := s.historyCount } :=
    hwith hrows hcount fun row hrow => .inl hrow
  have hrowText : cText (historyRow c.size (s.line.take s.position)) = s.view.text :=
    cText_append h.text _
  unfold shellPushHistory Editor.remember
  dsimp only
  by_cases hpos : s.position ≠ 0
  · rw [if_pos hpos]
    have hne : s.view.text ≠ [] := fun hno => hpos (htextNil.mp hno)
    by_cases hfull : c.lines ≤ s.historyCount
    · have heq : s.historyCount = c.lines := by omega
      have hlast := h.sameLast (by omega)
      rw [if_pos hfull]
      rw [heq] at hlast
      by_cases hdiffer : s.history.getD (c.lines - 1) [] ≠ s.line
      · have hnot : ¬(s.view.text = [] ∨ s.view.history.getLast? = some s.view.text) := by
          rintro (hno | hno)
          · exact hne hno
          · exact hdiffer (hlast.mpr hno)
        have hnewLength : (s.history.tail ++ [historyRow c.size (s.line.take s.position)]).length =
            c.lines := by
          rw [List.length_append, List.length_tail, hrows]
          show c.lines - 1 + 1 = c.lines
          omega
        have hall : s.history.take s.historyCount = s.history :=
          List.take_of_length_le (by omega)
        rw [if_pos hdiffer, if_neg hnot]
        refine ⟨hwith hnewLength le_rfl fun row hrow => ?_, rfl, rfl, ?_⟩
        · rcases List.mem_append.mp (List.mem_of_mem_take hrow) with hold | hnew
          · left
            rw [hall]
            exact List.mem_of_mem_tail hold
          · exact .inr (List.mem_singleton.mp hnew)
        · have hhistory : ((s.history.tail ++ [historyRow c.size (s.line.take s.position)]).take
              c.lines).map cText =
              (s.view.history ++ [s.view.text]).drop (s.view.history.length + 1 - c.lines) := by
            have hview : s.view.history = s.history.map cText := congrArg (List.map cText) hall
            rw [List.take_of_length_le hnewLength.le, hlength, heq, Nat.add_sub_cancel_left,
              List.map_append, List.map_tail, List.map_singleton, hrowText, ← hview,
              List.drop_one, List.tail_append_of_ne_nil]
            intro hnil
            rw [hnil] at hlength
            simp only [List.length_nil] at hlength
            omega
          have hnewCount : ((s.view.history ++ [s.view.text]).drop
              (s.view.history.length + 1 - c.lines)).length = c.lines := by
            rw [List.length_drop, List.length_append, hlength, heq]
            simp
          show Editor.mk _ _ _ c.lines = Editor.mk _ _ _ _
          rw [hnewCount]
          exact congrArg (Editor.mk s.view.text s.view.cursor · c.lines) hhistory
      · have hsame : s.view.history.getLast? = some s.view.text := hlast.mp (not_not.mp hdiffer)
        rw [if_neg hdiffer, if_pos (.inr hsame)]
        refine ⟨hkept, rfl, rfl, ?_⟩
        show Editor.mk _ _ _ s.historyCount = Editor.mk _ _ _ s.view.history.length
        rw [hlength]
        rfl
    · rw [if_neg hfull]
      by_cases hdiffer : s.historyCount = 0 ∨ s.history.getD (s.historyCount - 1) [] ≠ s.line
      · have hnot : ¬(s.view.text = [] ∨ s.view.history.getLast? = some s.view.text) := by
          rintro (hno | hno)
          · exact hne hno
          · rcases hdiffer with hzero | hdiffer
            · rw [hzero] at hlength
              rw [List.length_eq_zero_iff.mp hlength] at hno
              simp at hno
            · by_cases hzero : s.historyCount = 0
              · rw [hzero] at hlength
                rw [List.length_eq_zero_iff.mp hlength] at hno
                simp at hno
              · exact hdiffer ((h.sameLast hzero).mpr hno)
        have htake : (s.history.set s.historyCount
            (historyRow c.size (s.line.take s.position))).take (s.historyCount + 1) =
            s.history.take s.historyCount ++ [historyRow c.size (s.line.take s.position)] := by
          apply take_set_succ
          omega
        rw [if_pos hdiffer, if_neg hnot]
        have hnext : s.historyCount + 1 ≤ c.lines := by omega
        refine ⟨hwith (by rw [List.length_set, hrows]) hnext fun row hrow => ?_, rfl, rfl, ?_⟩
        · rw [htake] at hrow
          rcases List.mem_append.mp hrow with hold | hnew
          · exact .inl hold
          · exact .inr (List.mem_singleton.mp hnew)
        · have hhistory : ((s.history.set s.historyCount
              (historyRow c.size (s.line.take s.position))).take (s.historyCount + 1)).map cText =
              (s.view.history ++ [s.view.text]).drop (s.view.history.length + 1 - c.lines) := by
            rw [htake, List.map_append, List.map_singleton, hrowText, hlength,
              show s.historyCount + 1 - c.lines = 0 by omega]
            rfl
          have hnewCount : ((s.view.history ++ [s.view.text]).drop
              (s.view.history.length + 1 - c.lines)).length = s.historyCount + 1 := by
            rw [hlength, show s.historyCount + 1 - c.lines = 0 by omega, List.drop_zero,
              List.length_append, hlength]
            rfl
          show Editor.mk _ _ _ (s.historyCount + 1) = Editor.mk _ _ _ _
          rw [hnewCount]
          exact congrArg (Editor.mk s.view.text s.view.cursor · (s.historyCount + 1)) hhistory
      · have hsame : s.view.history.getLast? = some s.view.text := by
          have hzero : s.historyCount ≠ 0 := fun hzero => hdiffer (.inl hzero)
          exact (h.sameLast hzero).mp (not_not.mp fun hno => hdiffer (.inr hno))
        rw [if_neg hdiffer, if_pos (.inr hsame)]
        refine ⟨hkept, rfl, rfl, ?_⟩
        show Editor.mk _ _ _ s.historyCount = Editor.mk _ _ _ s.view.history.length
        rw [hlength]
        rfl
  · rw [if_neg hpos, if_pos (.inl (htextNil.mpr (not_not.mp hpos)))]
    refine ⟨hkept, rfl, rfl, ?_⟩
    show Editor.mk _ _ _ s.historyCount = Editor.mk _ _ _ s.view.history.length
    rw [hlength]
    rfl

theorem ShellRight.remembered (h : ShellRight c s) :
    ∃ s', (if 0 < c.lines then shellPushHistory c s else s) = s' ∧ ShellRight c s' ∧
      s'.line = s.line ∧ s'.position = s.position ∧ s'.view = s.view.remember c.lines := by
  refine ⟨_, rfl, ?_⟩
  split
  next hlines => exact h.push hlines
  next hnone =>
    have hcount := h.count
    have hcurrent := h.current
    have hlength := h.historyLength
    have hempty : s.view.history = [] := List.length_eq_zero_iff.mp (by omega)
    have hzero : s.view.recalled = 0 := by
      show s.currentHistory = 0
      omega
    refine ⟨h, rfl, rfl, ?_⟩
    unfold Editor.remember
    rw [hempty]
    have hdrop : ([] ++ [s.view.text]).drop (0 + 1 - c.lines) = ([] : List (List UInt8)) := by
      rw [show 0 + 1 - c.lines = 1 by omega]
      rfl
    simp only [List.length_nil, hdrop, ite_self]
    rw [← hzero, ← hempty]

theorem ShellRight.lineEnd (h : ShellRight c s)
    (hroom : msh = false → s.position = 0 ∨ s.position + 1 < c.size) :
    ShellRight c (shellLineEnd c msh s).2 ∧
      (shellLineEnd c msh s).2.view = { s.view.remember c.lines with text := [], cursor := 0 } ∧
      (shellLineEnd c msh s).1 = s.view.execute msh := by
  obtain ⟨s', hpush, h', hline, hposition, hview⟩ := h.remembered
  obtain ⟨text, htake, hlen, hbytes, htext⟩ := h.keys
  have hsize := h.position
  unfold shellLineEnd
  dsimp only
  rw [hpush, hline, hposition, ← hview]
  have hcleared := h'.ofText [] 0 0 rfl c.sizePos (by omega)
    le_rfl (by simp)
  have hempty : historyRow c.size [] = List.replicate c.size 0 := rfl
  rw [hempty] at hcleared
  refine ⟨hcleared.1, hcleared.2, ?_⟩
  have hviewText : s.view.text = text := htake
  unfold Editor.execute
  rw [hviewText, hlen]
  cases msh with
  | true =>
    rw [if_pos rfl, if_pos rfl, hbytes, cString_append htext, if_pos (by omega)]
  | false =>
    rw [if_neg Bool.false_ne_true, if_neg Bool.false_ne_true]
    by_cases hzero : s.position = 0
    · have hnil : text = [] := List.length_eq_zero_iff.mp (hlen.trans hzero)
      rw [if_neg (not_not.mpr hzero), if_pos hnil]
    · have hlt := (hroom rfl).resolve_left hzero
      have hne : text ≠ [] := fun hnil => hzero (hlen ▸ List.length_eq_zero_iff.mpr hnil)
      obtain ⟨n, hn⟩ : ∃ n, c.size - s.position = n + 1 + 1 :=
        ⟨c.size - s.position - 2, by omega⟩
      have hset : s.line.set s.position 59 = text ++ [59] ++ List.replicate (n + 1) 0 := by
        rw [hbytes, hn, ← hlen, List.replicate_succ]
        simp
      have hall : ∀ b ∈ text ++ [59], b ≠ 0 := by
        intro b hb
        rcases List.mem_append.mp hb with hb | hb
        · exact htext b hb
        · rw [List.mem_singleton.mp hb]
          decide
      rw [if_pos hzero, if_neg hne, hset, cString_append hall, if_pos (Nat.succ_pos n)]

/-- A key that is safe does what it does to the editor. -/
theorem ShellRight.handle (h : ShellRight c s) (hok : ShellSafe c s k) :
    ShellRight c (shellHandle c s k).2 ∧ (shellHandle c s k).2.view = (s.view.key c k).2 ∧
      (shellHandle c s k).1 = (s.view.key c k).1 := by
  have hcurpos := h.curpos
  cases k with
  | char ch =>
    have hne : ch.val ≠ 0 := by
      intro hzero
      have hlow := ch.property.1
      rw [hzero] at hlow
      exact absurd hlow (by decide)
    obtain ⟨hright, hview⟩ := h.insert hne hok.1 hok.2
    exact ⟨hright, hview, rfl⟩
  | backspace del => exact ⟨h.delete.1, h.delete.2, rfl⟩
  | up => exact ⟨h.up.1, h.up.2, rfl⟩
  | down => exact ⟨h.down.1, h.down.2, rfl⟩
  | left =>
    have hle : s.curpos - 1 ≤ s.position := by omega
    have hmoved : ShellRight c { s with curpos := s.curpos - 1 } :=
      ⟨h.stat, h.line, h.position, h.narrow, h.length, hle, h.text, h.rows, h.count,
        h.current, h.entries⟩
    have hleft : shellLeft s = { s with curpos := s.curpos - 1 } := by
      unfold shellLeft
      split
      next => rfl
      next hzero =>
        have hsame : s.curpos - 1 = s.curpos := by omega
        rw [hsame]
    show ShellRight c (shellLeft s) ∧ (shellLeft s).view = _ ∧ _
    rw [hleft]
    exact ⟨hmoved, rfl, rfl⟩
  | right =>
    have hlen : s.view.text.length = s.position := h.length
    show ShellRight c (shellRight s) ∧ (shellRight s).view = { s.view with
      cursor := if s.curpos < s.view.text.length then s.curpos + 1 else s.curpos } ∧ _
    unfold shellRight
    rw [hlen]
    split
    next hlt =>
      have hmoved : ShellRight c { s with curpos := s.curpos + 1 } :=
        ⟨h.stat, h.line, h.position, h.narrow, h.length, hlt, h.text, h.rows, h.count, h.current,
          h.entries⟩
      exact ⟨hmoved, rfl, rfl⟩
    next => exact ⟨h, rfl, rfl⟩
  | lineEnd cr msh => exact h.lineEnd hok

theorem shellRight_start (c : ShellConfig) : ShellRight c (shellStart c) where
  stat := rfl
  line := rfl
  position := c.sizePos
  narrow := by simp [shellStart]
  length := rfl
  curpos := le_rfl
  text := by simp [shellStart]
  rows := by simp [shellStart]
  count := Nat.zero_le _
  current := le_rfl
  entries := by simp [shellStart]

/-- With one byte left the line for finsh has no NUL. -/
theorem ShellRight.noRoom (h : ShellRight c s) (hpos : s.position ≠ 0)
    (hfull : ¬s.position + 1 < c.size) :
    (shellLineEnd c false s).1 = some (.finsh none) := by
  obtain ⟨s', hpush, -, hline, hposition, -⟩ := h.remembered
  obtain ⟨text, -, hlen, hbytes, htext⟩ := h.keys
  have hsize := h.position
  have hset : s.line.set s.position 59 = text ++ [59] ++ List.replicate 0 0 := by
    rw [hbytes, show c.size - s.position = 1 by omega, ← hlen]
    simp
  have hall : ∀ b ∈ text ++ [59], b ≠ 0 := by
    intro b hb
    rcases List.mem_append.mp hb with hb | hb
    · exact htext b hb
    · rw [List.mem_singleton.mp hb]
      decide
  unfold shellLineEnd
  dsimp only
  rw [hpush, hline, hposition, if_neg Bool.false_ne_true, if_pos hpos, hset,
    cString_append hall, if_neg (Nat.lt_irrefl 0)]

/-- A character that fills the line stays in it behind the positions. -/
theorem ShellRight.overflow (h : ShellRight c s) (ch : UInt8)
    (hno : ¬(s.position + 1 < c.size ∧ s.position < 255)) :
    (shellInsert c s ch).position = 0 ∧ ch ∈ (shellInsert c s ch).line := by
  have hsize := h.position
  have hnarrow := h.narrow
  have hcurpos := h.curpos
  have hlength : s.line.length = c.size := by
    rw [h.line, historyRow, List.length_append, h.length, List.length_replicate]
    omega
  have hmem : ch ∈ (if s.curpos < s.position then
      (moveBytes s.line (s.curpos + 1) s.curpos (s.position - s.curpos)).set s.curpos ch
      else s.line.set s.position ch) := by
    split
    · apply List.mem_set
      unfold moveBytes
      rw [List.append_assoc, List.length_append, List.length_take]
      omega
    · exact List.mem_set (by omega) _
  unfold shellInsert
  rw [if_neg (show ¬c.size ≤ s.position by omega)]
  dsimp only
  split
  next => exact ⟨rfl, hmem⟩
  next hlt =>
    refine ⟨?_, hmem⟩
    show (s.position + 1) % 256 = 0
    have hlt : ¬c.size ≤ (s.position + 1) % 256 := hlt
    omega

/-- A key is seen as the editor's exactly if it is safe. -/
theorem ShellRight.key_iff (h : ShellRight c s) :
    (shellKey c s k).1 = (editorKey c s.view k).1 ∧
      (shellKey c s k).2.view = (editorKey c s.view k).2 ↔ ShellSafe c s k := by
  rw [shellKey_eq h.stat]
  constructor
  · rintro ⟨hseen, -⟩
    by_contra hno
    have hrest := congrArg KeySeen.rest hseen
    have hexecuted := congrArg KeySeen.executed hseen
    cases k with
    | char ch =>
      obtain ⟨hzero, hmem⟩ := h.overflow ch.val hno
      have hrest : (shellInsert c s ch).line.drop (shellInsert c s ch).position =
        List.replicate _ 0 := hrest
      rw [hzero, List.drop_zero] at hrest
      rw [hrest] at hmem
      have hlow := ch.property.1
      rw [(List.mem_replicate.mp hmem).2] at hlow
      exact absurd hlow (by decide)
    | lineEnd cr msh =>
      obtain ⟨hmsh, hroom⟩ := Classical.not_imp.mp hno
      obtain ⟨hpos, hfull⟩ := not_or.mp hroom
      have hexecuted : (shellLineEnd c msh s).1 = s.view.execute msh := hexecuted
      rw [hmsh, h.noRoom hpos hfull] at hexecuted
      unfold Editor.execute at hexecuted
      rw [if_neg Bool.false_ne_true] at hexecuted
      split at hexecuted <;> simp at hexecuted
    | _ => exact hno trivial
  · intro hok
    obtain ⟨hright, hview, hexecuted⟩ := h.handle hok
    refine ⟨?_, hview⟩
    show KeySeen.mk _ _ =
      KeySeen.mk (List.replicate (c.size - (s.view.key c k).2.text.length) 0) (s.view.key c k).1
    rw [hright.rest, hexecuted]
    have hlen : (s.view.key c k).2.text.length = (shellHandle c s k).2.position := by
      rw [← hview]
      exact hright.length
    rw [hlen]

theorem shellRun_edits_iff (c : ShellConfig) (keys : List ShellKey) :
    ShellEdits c keys ↔
      RunMeets (fun s k => some (shellKey c s k).2) (ShellSafe c) keys (shellStart c) := by
  have hempty : (⟨[], 0, [], 0⟩ : Editor) = (shellStart c).view := by
    simp [shellStart, Shell.view]
  unfold ShellEdits
  rw [hempty, runAnswers_eq_iff]
  apply runMeets_congr (I := ShellRight c)
  · intro s k _ hright
    exact hright.key_iff
  · rintro s k - s' hright hseen hs
    obtain rfl := Option.some.inj hs
    have hok := hright.key_iff.mp hseen
    rw [shellKey_eq hright.stat]
    exact (hright.handle hok).1
  · exact shellRight_start c

end

/-- The default sizes. -/
def finshConfig : ShellConfig := ⟨80, 5, id, by decide, by decide⟩

def keyA : ShellKey := .char ⟨97, by decide⟩

/-- A line of 80 characters is not cleared, and a line of 79 leaves no room for the NUL. -/
theorem shellRun_not_edits :
    ¬ShellEdits finshConfig (List.replicate 80 keyA) ∧
      ¬ShellEdits finshConfig (List.replicate 79 keyA ++ [.lineEnd true false]) := by
  constructor
  · intro h
    exact absurd (h 80).1 (by decide +kernel)
  · intro h
    exact absurd (h 80).1 (by decide +kernel)

end RTThread
