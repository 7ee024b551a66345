import RTThread.FinshLexer

namespace RTThread

/-- The line ends here for the lexer. -/
def LineEnds (r : List UInt8) : Prop := r = [] ∨ r.head? = some 10

instance (r : List UInt8) : Decidable (LineEnds r) := by unfold LineEnds; infer_instance

/-- What `token_next_char` gives of the rest of a line. -/
def firstChar (r : List UInt8) : UInt8 := if LineEnds r then 0 else r.headD 0

namespace FinshLexer

/-- The lexer stands before the rest `r` of its line. -/
structure At (s : FinshLexer) (r : List UInt8) : Prop where
  eof : s.eof = false
  position : s.position ≤ s.line.length
  rest : s.line.drop s.position = r
  room : s.string.length = finshStringMax

def skip (s : FinshLexer) (n : Nat) : FinshLexer := { s with position := s.position + n }

def ended (s : FinshLexer) : FinshLexer := { s with eof := true, position := 0 }

/-- The lexer `n` characters further, when it has looked at what is there. -/
def behind (s : FinshLexer) (n : Nat) (r : List UInt8) : FinshLexer :=
  if LineEnds r then s.ended else s.skip n

variable {s : FinshLexer} {r : List UInt8} {c ch : UInt8} {n m : Nat} {kind : UInt8 → Bool}

@[simp] theorem skip_zero : s.skip 0 = s := rfl

@[simp] theorem skip_skip : (s.skip n).skip m = s.skip (n + m) := by
  simp [skip, Nat.add_assoc]

@[simp] theorem skip_line : (s.skip n).line = s.line := rfl

@[simp] theorem skip_string : (s.skip n).string = s.string := rfl

@[simp] theorem ended_skip : (s.skip n).ended = s.ended := rfl

@[simp] theorem behind_skip : (s.skip n).behind m r = s.behind (n + m) r := by
  unfold behind
  split
  · rfl
  · rw [skip_skip]

theorem At.skip {ds : List UInt8} (h : s.At (ds ++ r)) : (s.skip ds.length).At r where
  eof := h.eof
  position := by
    have hlen := congrArg List.length h.rest
    have hpos := h.position
    rw [List.length_drop, List.length_append] at hlen
    show s.position + ds.length ≤ s.line.length
    omega
  rest := by
    show s.line.drop (s.position + ds.length) = r
    rw [← List.drop_drop, h.rest, List.drop_left]
  room := h.room

theorem init_at (line : List UInt8) : (finshTokenInit line).At line :=
  ⟨rfl, Nat.zero_le _, rfl, List.length_replicate⟩

theorem At.length_le (h : s.At r) : r.length ≤ s.line.length := by
  have hlen := congrArg List.length h.rest
  rw [List.length_drop] at hlen
  omega

theorem At.getElem (h : s.At r) : s.line[s.position]? = r.head? := by
  rw [← h.rest, List.head?_drop]

theorem At.nextChar (h : s.At r) :
    s.nextChar = (firstChar r, if LineEnds r then s.ended else s.skip 1) := by
  unfold FinshLexer.nextChar firstChar
  rw [if_neg (by simp [h.eof]), h.getElem]
  cases r with
  | nil => simp [LineEnds, ended]
  | cons c r =>
    by_cases hc : c = 10
    · simp [LineEnds, hc, ended]
    · simp [LineEnds, hc, FinshLexer.skip]

theorem At.nextChar_cons (h : s.At (c :: r)) (hc : c ≠ 10) : s.nextChar = (c, s.skip 1) := by
  have hends : ¬ LineEnds (c :: r) := by simp [LineEnds, hc]
  rw [h.nextChar, firstChar, if_neg hends, if_neg hends]
  rfl

theorem At.next (h : s.At (c :: r)) : (s.skip 1).At r := by
  have hat : s.At ([c] ++ r) := h
  exact hat.skip

theorem prevChar_skip (hs : s.eof = false) : (s.skip (n + 1)).prevChar = s.skip n := by
  unfold prevChar FinshLexer.skip
  rw [if_neg (by simp [hs])]
  rfl

/-- A character is read and given back. -/
theorem At.peek (h : s.At r) : s.nextChar.2.prevChar = s.behind 0 r := by
  rw [h.nextChar]
  unfold behind
  split
  · rfl
  · exact prevChar_skip (n := 0) h.eof

theorem firstChar_cons (hc : c ≠ 10) : firstChar (c :: r) = c := by
  simp [firstChar, LineEnds, hc]

/-- A kind of characters that the end of a line is not of. -/
structure Kind (kind : UInt8 → Bool) : Prop where
  nul : kind 0 = false
  newline : kind 10 = false

theorem Kind.ne (hk : Kind kind) (hc : kind c = true) : c ≠ 10 := by
  rintro rfl
  rw [hk.newline] at hc
  cases hc

/-- A scan takes the characters of its kind and has then read the one behind them. -/
theorem scan_run (hk : Kind kind) {ds : List UInt8} (h : s.At (ds ++ r)) (hds : ∀ d ∈ ds, kind d = true)
    (hr : kind (firstChar r) = false) {fuel : Nat} (hfuel : ds.length < fuel) :
    scan kind fuel s.nextChar.1 s.nextChar.2 = some (ds, firstChar r, (s.skip ds.length).nextChar.2) := by
  induction ds generalizing s fuel with
  | nil =>
    obtain ⟨fuel, rfl⟩ := Nat.exists_eq_add_one_of_ne_zero (Nat.ne_of_gt hfuel)
    have hfirst : s.nextChar.1 = firstChar r := congrArg Prod.fst (At.nextChar h)
    unfold scan
    rw [hfirst, if_neg (by simp [hr])]
    rfl
  | cons d ds ih =>
    obtain ⟨fuel, rfl⟩ := Nat.exists_eq_add_one_of_ne_zero (by omega : fuel ≠ 0)
    have hd := hds d List.mem_cons_self
    have hnext := At.nextChar_cons (r := ds ++ r) h (hk.ne hd)
    have hshort : ds.length < fuel := by
      rw [List.length_cons] at hfuel
      omega
    have hrest := ih (At.next h) (fun d hmem => hds d (List.mem_cons_of_mem _ hmem)) hshort
    unfold scan
    rw [hnext, if_pos hd]
    simp only [hrest, Option.map_some, List.length_cons, skip_skip]
    rw [Nat.add_comm 1]

theorem nextChar_line : s.nextChar.2.line = s.line := by
  unfold FinshLexer.nextChar
  split
  · rfl
  · split
    · rfl
    · split
      · rfl
      · rfl

theorem At.scanFrom (hk : Kind kind) {ds : List UInt8} (h : s.At (ds ++ r))
    (hds : ∀ d ∈ ds, kind d = true) (hr : kind (firstChar r) = false) :
    s.nextChar.2.scanFrom kind s.nextChar.1 = some (ds, firstChar r, (s.skip ds.length).nextChar.2) := by
  have hlen := h.length_le
  rw [List.length_append] at hlen
  unfold FinshLexer.scanFrom
  exact scan_run hk h hds hr (by rw [nextChar_line]; omega)

/-- A scan before a character of another kind takes nothing. -/
theorem At.scanNone (hk : Kind kind) (h : s.At r) (hr : kind (firstChar r) = false) :
    s.nextChar.2.scanFrom kind s.nextChar.1 = some ([], firstChar r, s.nextChar.2) := by
  have hat : s.At ([] ++ r) := h
  exact hat.scanFrom hk (by simp) hr

theorem At.trimSpace (h : s.At (c :: r)) (hc : c ≠ 10) (htrim : isTrimmed c = false) :
    s.trimSpace = some s := by
  have hk : Kind isTrimmed := ⟨rfl, rfl⟩
  have hscan := At.scanNone hk h (by rw [firstChar_cons hc, htrim])
  have hpeek := h.peek
  have hbehind : s.behind 0 (c :: r) = s := if_neg (by simp [LineEnds, hc])
  unfold FinshLexer.trimSpace
  simp only [hscan, Option.bind_eq_bind, Option.bind_some, hpeek, hbehind]

/-- The lexer with an empty string in its buffer. -/
def cleared (s : FinshLexer) : FinshLexer := { s with string := 0 :: s.string.drop 1 }

@[simp] theorem cleared_skip : (s.skip n).cleared = s.cleared.skip n := rfl

theorem At.cleared (h : s.At r) : s.cleared.At r where
  eof := h.eof
  position := h.position
  rest := h.rest
  room := by
    have hroom := h.room
    simp only [FinshLexer.cleared, List.length_cons, List.length_drop, hroom]
    decide

theorem At.putString (h : s.At r) {bytes : List UInt8} (hlen : bytes.length ≤ finshStringMax) :
    s.putString bytes = some { s with string := bytes ++ s.string.drop bytes.length } := by
  unfold FinshLexer.putString
  rw [if_pos (by rw [h.room]; exact hlen)]

theorem cleared_putString (h : s.At r) : s.putString [0] = some s.cleared :=
  h.putString (by decide)

/-- Before a character that is no part of a word the buffer is cleared and nothing is read. -/
theorem At.getString (h : s.At (c :: r)) (hc : c ≠ 10) (hword : isDigit c = true ∨ isSeparator c = true) :
    s.getString = some s.cleared := by
  have hput := cleared_putString h.next
  have hprev : (s.skip 1).cleared.prevChar = s.cleared := prevChar_skip (s := s.cleared) (n := 0) h.eof
  have heof : ¬ (s.skip 1).eof = true := by simp [h.next.eof]
  unfold FinshLexer.getString
  simp only [h.nextChar_cons hc, if_neg heof, hput, Option.bind_eq_bind, Option.bind_some]
  by_cases hdigit : isDigit c = true
  · rw [if_pos hdigit, hprev]
  · have hsep := hword.resolve_left hdigit
    have hscan : (s.skip 1).cleared.scanFrom (fun ch => !isSeparator ch) c =
        some ([], c, (s.skip 1).cleared) := by
      unfold FinshLexer.scanFrom scan
      simp [hsep]
    have hopen : { (s.skip 1).cleared with eof := false } = (s.skip 1).cleared := by
      have heof := h.eof
      cases s
      subst heof
      rfl
    rw [if_neg hdigit, hscan]
    simp only [Option.bind_some, List.nil_append, hopen, hprev]
    rw [cleared_putString h.cleared]
    rfl

end FinshLexer

end RTThread
