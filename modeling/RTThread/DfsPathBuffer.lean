import RTThread.DfsNormalize

namespace RTThread

def nulChar : Char := Char.ofNat 0

/-- The string that `dfs_normalize_path` has allocated, `size` characters from `fullpath` on, in the
memory around it; `stray` records an access beside it. -/
structure PathBuffer where
  fullpath : Nat
  size : Nat
  chars : Nat → Char
  stray : Bool

def PathBuffer.touch (b : PathBuffer) (a : Nat) : PathBuffer :=
  { b with stray := b.stray || !decide (b.fullpath ≤ a ∧ a < b.fullpath + b.size) }

/-- Runs over the buffer; `none` where a loop is out of fuel. -/
abbrev PathM := StateT PathBuffer Option

def readAt (a : Nat) : PathM Char := fun b => some (b.chars a, b.touch a)

def writeAt (a : Nat) (c : Char) : PathM Unit := fun b =>
  some ((), { b.touch a with chars := Function.update b.chars a c })

/-- `while ((*src == '/') && (*src != '\0')) src++`. -/
def skipAt : Nat → Nat → PathM Nat
  | 0, _ => failure
  | n + 1, src => do
    if (← readAt src) = '/' then skipAt n (src + 1) else return src

/-- Copies up to the next `/`; returns that or the NUL, and the pointers. -/
def copyAt : Nat → Nat → Nat → PathM (Char × Nat × Nat)
  | 0, _, _ => failure
  | n + 1, src, dst => do
    let c ← readAt src
    if c ≠ nulChar ∧ c ≠ '/' then
      writeAt dst c
      copyAt n (src + 1) (dst + 1)
    else return (c, src + 1, dst)

/-- `while (c == '/') c = *src++; src--`. -/
def eraseSlashes : Nat → Char → Nat → PathM Nat
  | 0, _, _ => failure
  | n + 1, c, src => do
    if c = '/' then
      let c ← readAt src
      eraseSlashes n c (src + 1)
    else return src - 1

/-- `while (dst0 < dst && dst[-1] != '/') dst--`. -/
def climbAt (dst0 : Nat) : Nat → Nat → PathM Nat
  | 0, _ => failure
  | n + 1, dst => do
    if dst0 < dst then
      if (← readAt (dst - 1)) ≠ '/' then climbAt dst0 n (dst - 1) else return dst
    else return dst

/-- How a turn of the loop ends. -/
inductive PathTurn where
  | again (src dst : Nat)
  | done (dst : Nat)
  | above

def copyTurn (n src dst : Nat) : PathM PathTurn := do
  let (c, src, dst) ← copyAt n src dst
  if c = '/' then
    writeAt dst '/'
    let src ← eraseSlashes n c src
    return .again src (dst + 1)
  else return .done dst

/-- `up_one`. -/
def upTurn (n dst0 src dst : Nat) : PathM PathTurn := do
  if dst - 1 < dst0 then return .above
  else
    let dst ← climbAt dst0 n (dst - 1)
    return .again src dst

def turnAt (n dst0 src dst : Nat) : PathM PathTurn := do
  let c ← readAt src
  if c = '.' then
    let c1 ← readAt (src + 1)
    if c1 = nulChar then copyTurn n (src + 1) dst
    else if c1 = '/' then
      let src ← skipAt n (src + 2)
      return .again src dst
    else if c1 = '.' then
      let c2 ← readAt (src + 2)
      if c2 = nulChar then upTurn n dst0 (src + 2) dst
      else if c2 = '/' then
        let src ← skipAt n (src + 3)
        upTurn n dst0 src dst
      else copyTurn n src dst
    else copyTurn n src dst
  else copyTurn n src dst

/-- The loop; `none` where the function frees the string and returns NULL. -/
def loopAt (n dst0 : Nat) : Nat → Nat → Nat → PathM (Option Nat)
  | 0, _, _ => failure
  | m + 1, src, dst => do
    match ← turnAt n dst0 src dst with
    | .again src dst => loopAt n dst0 m src dst
    | .done dst => return some dst
    | .above => return none

/-- Removes a `/` at the end. -/
def trimAt (fullpath dst : Nat) : PathM Unit := do
  if dst - 1 ≠ fullpath then
    if (← readAt (dst - 1)) = '/' then writeAt (dst - 1) nulChar

/-- An empty path becomes the root. -/
def checkAt (fullpath : Nat) : PathM Unit := do
  if (← readAt fullpath) = nulChar then
    writeAt fullpath '/'
    writeAt (fullpath + 1) nulChar

def finishAt (fullpath dst : Nat) : PathM Unit := do
  writeAt dst nulChar
  trimAt fullpath dst
  checkAt fullpath

/-- `dfs_normalize_path` once the string is allocated; whether it returns that string. -/
def normalizeAt (n fullpath : Nat) : PathM Bool := do
  match ← loopAt n fullpath n fullpath fullpath with
  | none => return false
  | some dst =>
    finishAt fullpath dst
    return true

/-- The string `s` is stored at `a`. -/
def StringAt (chars : Nat → Char) : Nat → CString → Prop
  | a, [] => chars a = nulChar
  | a, c :: s => chars a = c ∧ c ≠ nulChar ∧ StringAt chars (a + 1) s

/-- `dst`, the last character first, is written from `a` on. -/
def WrittenAt (chars : Nat → Char) (a : Nat) : CString → Prop
  | [] => True
  | c :: dst => chars (a + dst.length) = c ∧ c ≠ nulChar ∧ WrittenAt chars a dst

/-- The pointers and the buffer stand for the state `s` of the loop. -/
structure PathAt (b : PathBuffer) (src dst : Nat) (s : NormalizeState) : Prop where
  source : StringAt b.chars src s.src
  room : src + s.src.length < b.fullpath + b.size
  written : WrittenAt b.chars b.fullpath s.dst
  dstAt : dst = b.fullpath + s.dst.length
  behind : dst ≤ src

/-- Only characters of the string have been accessed. -/
def SameBuffer (b b' : PathBuffer) : Prop :=
  b'.fullpath = b.fullpath ∧ b'.size = b.size ∧ b'.stray = b.stray

section
variable {b b' b'' : PathBuffer} {chars chars' : Nat → Char} {a src dst n m : Nat} {c : Char}
  {s t : CString}

theorem SameBuffer.refl (b : PathBuffer) : SameBuffer b b := ⟨rfl, rfl, rfl⟩

theorem SameBuffer.trans (h1 : SameBuffer b b') (h2 : SameBuffer b' b'') : SameBuffer b b'' :=
  ⟨h2.1.trans h1.1, h2.2.1.trans h1.2.1, h2.2.2.trans h1.2.2⟩

theorem nul_ne_slash : ¬nulChar = '/' := by decide

theorem nul_ne_dot : ¬nulChar = '.' := by decide

theorem touch_inside (h1 : b.fullpath ≤ a) (h2 : a < b.fullpath + b.size) : b.touch a = b := by
  simp [PathBuffer.touch, h1, h2]

theorem readAt_inside (h1 : b.fullpath ≤ a) (h2 : a < b.fullpath + b.size) :
    readAt a b = some (b.chars a, b) := by
  rw [readAt, touch_inside h1 h2]

theorem writeAt_inside (h1 : b.fullpath ≤ a) (h2 : a < b.fullpath + b.size) :
    writeAt a c b = some ((), { b with chars := Function.update b.chars a c }) := by
  rw [writeAt, touch_inside h1 h2]

theorem pathM_bind {α β : Type} (x : PathM α) (f : α → PathM β) (b : PathBuffer) :
    (x >>= f) b = (x b).bind fun p => f p.1 p.2 := rfl

theorem pathM_pure {α : Type} (x : α) (b : PathBuffer) : (pure x : PathM α) b = some (x, b) := rfl

theorem StringAt.congr (h : StringAt chars a s) (heq : ∀ x, a ≤ x → chars' x = chars x) :
    StringAt chars' a s := by
  induction s generalizing a with
  | nil => exact (heq a (Nat.le_refl a)).trans h
  | cons c s ih =>
    obtain ⟨hc, hnul, hs⟩ := h
    exact ⟨(heq a (Nat.le_refl a)).trans hc, hnul, ih hs fun x hx => heq x (by omega)⟩

theorem WrittenAt.congr (h : WrittenAt chars a s) (heq : ∀ x, x < a + s.length → chars' x = chars x) :
    WrittenAt chars' a s := by
  induction s with
  | nil => trivial
  | cons c s ih =>
    obtain ⟨hc, hnul, hs⟩ := h
    rw [List.length_cons] at heq
    exact ⟨(heq _ (by omega)).trans hc, hnul, ih hs fun x hx => heq x (by omega)⟩

theorem StringAt.drop (h : StringAt chars a (s ++ t)) : StringAt chars (a + s.length) t := by
  induction s generalizing a with
  | nil => exact h
  | cons c s ih =>
    have hrest := ih h.2.2
    rwa [Nat.add_right_comm] at hrest

/-- Skipping slashes finds what `skipSlashes` leaves. -/
theorem skipAt_spec (h : StringAt b.chars src s) (hlo : b.fullpath ≤ src)
    (hhi : src + s.length < b.fullpath + b.size) (hn : s.length < n) :
    skipAt n src b = some (src + (s.length - (skipSlashes s).length), b) := by
  induction n generalizing src s with
  | zero => omega
  | succ n ih =>
    rw [skipAt, pathM_bind, readAt_inside hlo (by omega), Option.bind_some]
    cases s with
    | nil =>
      have hc : b.chars src = nulChar := h
      simp only [hc, if_neg nul_ne_slash]
      rfl
    | cons c s =>
      obtain ⟨hc, hnul, hs⟩ := h
      rw [List.length_cons] at hhi hn
      by_cases hslash : c = '/'
      · subst hslash
        have hskip : skipSlashes ('/' :: s) = skipSlashes s := by simp [skipSlashes]
        have hle := skipSlashes_length s
        simp only [hc, if_true]
        rw [ih hs (by omega) (by omega) (by omega), hskip, List.length_cons]
        congr 2
        omega
      · have hskip : skipSlashes (c :: s) = c :: s := by simp [skipSlashes, hslash]
        simp only [hc, if_neg hslash]
        rw [hskip, Nat.sub_self]
        rfl

theorem eraseSlashes_spec (h : StringAt b.chars src s) (hlo : b.fullpath ≤ src)
    (hhi : src + s.length < b.fullpath + b.size) (hn : s.length + 1 < n) :
    eraseSlashes n '/' src b = some (src + (s.length - (skipSlashes s).length), b) := by
  induction n generalizing src s with
  | zero => omega
  | succ n ih =>
    have hstop : ∀ {c}, ¬c = '/' → eraseSlashes n c (src + 1) b = some (src, b) := by
      intro c hc
      obtain ⟨k, rfl⟩ : ∃ k, n = k + 1 := ⟨n - 1, by omega⟩
      rw [eraseSlashes, if_neg hc]
      rfl
    rw [eraseSlashes, if_pos rfl, pathM_bind, readAt_inside hlo (by omega), Option.bind_some]
    cases s with
    | nil =>
      have hc : b.chars src = nulChar := h
      simp only [hc]
      rw [hstop nul_ne_slash]
      rfl
    | cons c s =>
      obtain ⟨hc, hnul, hs⟩ := h
      rw [List.length_cons] at hhi hn
      simp only [hc]
      by_cases hslash : c = '/'
      · subst hslash
        have hskip : skipSlashes ('/' :: s) = skipSlashes s := by simp [skipSlashes]
        have hle := skipSlashes_length s
        rw [ih hs (by omega) (by omega) (by omega), hskip, List.length_cons]
        congr 2
        omega
      · have hskip : skipSlashes (c :: s) = c :: s := by simp [skipSlashes, hslash]
        rw [hstop hslash, hskip, Nat.sub_self]
        rfl

/-- Copying one character ahead of `src` keeps what is behind `dst` and ahead of `src`. -/
theorem PathAt.copy {c : Char} {d : CString} (h : PathAt b src dst ⟨c :: s, d⟩) :
    PathAt { b with chars := Function.update b.chars dst c } (src + 1) (dst + 1) ⟨s, c :: d⟩ := by
  obtain ⟨⟨-, hnul, hs⟩, hroom, hwritten, hdst, hbehind⟩ := h
  simp only at hs hroom hwritten hdst hbehind ⊢
  refine ⟨hs.congr fun x hx => ?_, ?_, ⟨?_, hnul, hwritten.congr fun x hx => ?_⟩, ?_, ?_⟩
  · exact Function.update_of_ne (by omega) _ _
  · rw [List.length_cons] at hroom
    show src + 1 + s.length < b.fullpath + b.size
    omega
  · rw [← hdst]
    exact Function.update_self _ _ _
  · exact Function.update_of_ne (by omega) _ _
  · show dst + 1 = b.fullpath + (d.length + 1)
    omega
  · omega

/-- What `copyAt` does: it stops behind the component. -/
theorem copyAt_spec {d : CString} (h : PathAt b src dst ⟨s, d⟩) (hn : s.length < n) :
    ∃ b', SameBuffer b b' ∧
      ('/' ∉ s ∧ copyAt n src dst b = some ((nulChar, src + s.length + 1, dst + s.length), b') ∧
          WrittenAt b'.chars b.fullpath (s.reverse ++ d) ∨
        ∃ c rest, s = c ++ '/' :: rest ∧ '/' ∉ c ∧
          copyAt n src dst b = some (('/', src + c.length + 1, dst + c.length), b') ∧
          WrittenAt b'.chars b.fullpath (c.reverse ++ d) ∧
          StringAt b'.chars (src + c.length + 1) rest) := by
  induction n generalizing b src dst s d with
  | zero => omega
  | succ n ih =>
    have hlo : b.fullpath ≤ src := by
      have := h.dstAt
      have := h.behind
      omega
    have hroom : src + s.length < b.fullpath + b.size := h.room
    rw [copyAt, pathM_bind, readAt_inside hlo (by omega), Option.bind_some]
    cases s with
    | nil =>
      have hc : b.chars src = nulChar := h.source
      refine ⟨b, .refl b, Or.inl ⟨List.not_mem_nil, ?_, h.written⟩⟩
      simp only [hc, ne_eq, not_true_eq_false, false_and, if_false]
      rfl
    | cons c s =>
      obtain ⟨hc, hnul, hs⟩ := h.source
      by_cases hslash : c = '/'
      · subst hslash
        refine ⟨b, .refl b, Or.inr ⟨[], s, rfl, List.not_mem_nil, ?_, h.written, hs⟩⟩
        simp only [hc, ne_eq, not_true_eq_false, and_false, if_false]
        rfl
      · rw [List.length_cons] at hn hroom
        have hwrite : writeAt dst c b = some ((), { b with chars := Function.update b.chars dst c }) := by
          refine writeAt_inside ?_ ?_
          · have := h.dstAt
            omega
          · have := h.behind
            omega
        obtain ⟨b', hsame, hcases⟩ := ih h.copy (by omega)
        have hstep : ∀ r, copyAt n (src + 1) (dst + 1)
            { b with chars := Function.update b.chars dst c } = r →
            (if b.chars src ≠ nulChar ∧ b.chars src ≠ '/' then
              (do writeAt dst (b.chars src); copyAt n (src + 1) (dst + 1) : PathM _)
              else pure (b.chars src, src + 1, dst)) b = r := by
          intro r hr
          rw [hc, if_pos ⟨hnul, hslash⟩, pathM_bind, hwrite]
          exact hr
        refine ⟨b', hsame, ?_⟩
        rcases hcases with ⟨hnone, hrun, hw⟩ | ⟨e, rest, rfl, he, hrun, hw, hrest⟩
        · refine Or.inl ⟨?_, ?_, ?_⟩
          · rintro (hmem | ⟨_, hmem⟩)
            · exact hslash rfl
            · exact hnone hmem
          · rw [hstep _ hrun, List.length_cons]
            congr 4 <;> omega
          · simpa using hw
        · refine Or.inr ⟨c :: e, rest, rfl, ?_, ?_, ?_, ?_⟩
          · rintro (hmem | ⟨_, hmem⟩)
            · exact hslash rfl
            · exact he hmem
          · rw [hstep _ hrun, List.length_cons]
            congr 4 <;> omega
          · simpa using hw
          · rw [List.length_cons, show src + (e.length + 1) + 1 = src + 1 + e.length + 1 by omega]
            exact hrest

end

/-- A turn over `b` ends as the state `s` says. -/
def TurnEnds (b : PathBuffer) (r : Option (PathTurn × PathBuffer)) (s : NormalizeState) : Prop :=
  ∃ b', SameBuffer b b' ∧
    ((∃ src dst, r = some (.again src dst, b') ∧ PathAt b' src dst s) ∨
      s.src = [] ∧ r = some (.done (b.fullpath + s.dst.length), b') ∧
        WrittenAt b'.chars b.fullpath s.dst ∧ s.dst.length < b.size)

section
variable {b b' : PathBuffer} {chars : Nat → Char} {src dst n m : Nat} {c : Char} {s t d : CString}
  {st : NormalizeState}

theorem copyTurn_spec (h : PathAt b src dst ⟨s, d⟩) (hn : s.length + 1 < n) :
    TurnEnds b (copyTurn n src dst b) (copyComponent s d) := by
  have hdst : dst = b.fullpath + d.length := h.dstAt
  have hbehind := h.behind
  have hroom : src + s.length < b.fullpath + b.size := h.room
  obtain ⟨b', hsame, hcases⟩ := copyAt_spec (n := n) h (by omega)
  rw [copyTurn, pathM_bind]
  rcases hcases with ⟨hnone, hrun, hw⟩ | ⟨e, rest, rfl, he, hrun, hw, hrest⟩
  · rw [copyComponent_end hnone, hrun]
    refine ⟨b', hsame, Or.inr ⟨rfl, ?_, hw, ?_⟩⟩
    · simp only [Option.bind_some, if_neg nul_ne_slash, pathM_pure, List.length_append,
        List.length_reverse]
      congr 3
      omega
    · simp only [List.length_append, List.length_reverse]
      omega
  · rw [copyComponent_slash he, hrun]
    simp only [List.length_append, List.length_cons] at hn hroom
    obtain ⟨e1, e2, e3⟩ := hsame
    have hwrite : writeAt (dst + e.length) '/' b' =
        some ((), { b' with chars := Function.update b'.chars (dst + e.length) '/' }) :=
      writeAt_inside (by omega) (by omega)
    have hrest' : StringAt (Function.update b'.chars (dst + e.length) '/') (src + e.length + 1) rest :=
      hrest.congr fun x hx => Function.update_of_ne (by omega) _ _
    have hskip : StringAt (Function.update b'.chars (dst + e.length) '/')
        (src + e.length + 1 + (rest.length - (skipSlashes rest).length)) (skipSlashes rest) := by
      obtain ⟨p, hp⟩ := List.dropWhile_suffix (· == '/') (l := rest)
      have hlen : p.length + (skipSlashes rest).length = rest.length := by
        rw [← List.length_append]
        exact congrArg List.length hp
      rw [show rest.length - (skipSlashes rest).length = p.length by omega]
      refine StringAt.drop (s := p) ?_
      rwa [show p ++ skipSlashes rest = rest from hp]
    have hle := skipSlashes_length rest
    have herase := eraseSlashes_spec (n := n)
      (b := { b' with chars := Function.update b'.chars (dst + e.length) '/' }) hrest'
      (by show b'.fullpath ≤ _; omega) (by show _ < b'.fullpath + b'.size; omega) (by omega)
    refine ⟨{ b' with chars := Function.update b'.chars (dst + e.length) '/' }, ⟨e1, e2, e3⟩,
      Or.inl ⟨_, dst + e.length + 1, ?_, ⟨hskip, ?_, ?_, ?_, ?_⟩⟩⟩
    · simp only [Option.bind_some, if_true, pathM_bind, hwrite, herase]
      rfl
    · show _ < b'.fullpath + b'.size
      show src + e.length + 1 + (rest.length - (skipSlashes rest).length) + (skipSlashes rest).length < _
      omega
    · refine ⟨?_, by decide, ?_⟩
      · have hpos : b'.fullpath + (e.reverse ++ d).length = dst + e.length := by
          rw [List.length_append, List.length_reverse]
          omega
        rw [hpos]
        exact Function.update_self _ _ _
      · rw [e1]
        refine hw.congr fun x hx => Function.update_of_ne ?_ _ _
        rw [List.length_append, List.length_reverse] at hx
        omega
    · show dst + e.length + 1 = b'.fullpath + ('/' :: (e.reverse ++ d)).length
      rw [List.length_cons, List.length_append, List.length_reverse]
      omega
    · omega

theorem WrittenAt.suffix {a : Nat} {e : CString} (h : WrittenAt chars a (e ++ d)) :
    WrittenAt chars a d := by
  induction e with
  | nil => exact h
  | cons c e ih => exact ih h.2.2

/-- Climbing goes back to the last slash. -/
theorem climbAt_spec (h : WrittenAt b.chars b.fullpath d) (hroom : d.length < b.size)
    (hn : d.length < n) :
    climbAt b.fullpath n (b.fullpath + d.length) b =
      some (b.fullpath + (d.dropWhile (· != '/')).length, b) := by
  induction n generalizing d with
  | zero => omega
  | succ n ih =>
    rw [climbAt]
    cases d with
    | nil =>
      rw [if_neg (by simp)]
      rfl
    | cons c d =>
      obtain ⟨hc, -, hd⟩ := h
      rw [List.length_cons] at hroom hn ⊢
      have hpos : b.fullpath + (d.length + 1) - 1 = b.fullpath + d.length := by omega
      rw [if_pos (by omega), pathM_bind, hpos, readAt_inside (by omega) (by omega), Option.bind_some]
      simp only [hc]
      by_cases hslash : c = '/'
      · simp only [hslash, ne_eq, not_true_eq_false, if_false, List.dropWhile_cons, bne_self_eq_false]
        rfl
      · have hne : (c != '/') = true := by simpa using hslash
        simp only [ne_eq, hslash, not_false_eq_true, if_true, List.dropWhile_cons, hne]
        exact ih hd (by omega) (by omega)

/-- `up_one`, where the buffer does not begin at address zero. -/
theorem upTurn_spec (h : PathAt b src dst ⟨s, d⟩) (hpos : 0 < b.fullpath) (hn : d.length < n) :
    match upOne ⟨s, d⟩ with
    | none => upTurn n b.fullpath src dst b = some (.above, b)
    | some s' => TurnEnds b (upTurn n b.fullpath src dst b) s' := by
  have hdst : dst = b.fullpath + d.length := h.dstAt
  have hbehind := h.behind
  have hroom : src + s.length < b.fullpath + b.size := h.room
  unfold upTurn
  cases d with
  | nil =>
    rw [if_pos (by rw [List.length_nil] at hdst; omega)]
    rfl
  | cons c d =>
    rw [List.length_cons] at hdst hn
    have hback : dst - 1 = b.fullpath + d.length := by omega
    have hclimb := climbAt_spec (n := n) (h.written.2.2 : WrittenAt b.chars b.fullpath d) (by omega)
      (by omega)
    rw [if_neg (by omega), pathM_bind, hback, hclimb]
    have hle : (d.dropWhile (· != '/')).length ≤ d.length := (List.dropWhile_sublist _).length_le
    obtain ⟨e, he⟩ := List.dropWhile_suffix (· != '/') (l := d)
    refine ⟨b, .refl b, Or.inl ⟨_, _, rfl, ⟨h.source, h.room, ?_, rfl, ?_⟩⟩⟩
    · have hw : WrittenAt b.chars b.fullpath d := h.written.2.2
      rw [← he] at hw
      exact hw.suffix
    · show b.fullpath + (d.dropWhile (· != '/')).length ≤ src
      omega

theorem StringAt.head (h : StringAt b.chars src s) (hlo : b.fullpath ≤ src)
    (hhi : src + s.length < b.fullpath + b.size) :
    readAt src b = some (s.head?.getD nulChar, b) := by
  rw [readAt_inside hlo (by omega)]
  cases s with
  | nil => rw [show b.chars src = nulChar from h]; rfl
  | cons c s => rw [show b.chars src = c from h.1]; rfl

/-- The place where `skipAt` stops is where `skipSlashes` begins. -/
theorem PathAt.skip {k : Nat} {e r : CString} (h : PathAt b src dst ⟨e ++ r, d⟩) (he : e.length = k)
    (hn : r.length < n) :
    ∃ src', skipAt n (src + k) b = some (src', b) ∧ PathAt b src' dst ⟨skipSlashes r, d⟩ := by
  have hdst : dst = b.fullpath + d.length := h.dstAt
  have hbehind := h.behind
  have hroom : src + (e ++ r).length < b.fullpath + b.size := h.room
  rw [List.length_append] at hroom
  have hr : StringAt b.chars (src + k) r := he ▸ h.source.drop
  have hle := skipSlashes_length r
  refine ⟨_, skipAt_spec hr (by omega) (by omega) hn, ⟨?_, ?_, h.written, hdst, by omega⟩⟩
  · obtain ⟨p, hp⟩ := List.dropWhile_suffix (· == '/') (l := r)
    have hlen : p.length + (skipSlashes r).length = r.length := by
      rw [← List.length_append]
      exact congrArg List.length hp
    rw [show r.length - (skipSlashes r).length = p.length by omega]
    refine StringAt.drop (s := p) ?_
    rwa [show p ++ skipSlashes r = r from hp]
  · show src + k + (r.length - (skipSlashes r).length) + (skipSlashes r).length < _
    omega

theorem PathAt.advance {e r : CString} (h : PathAt b src dst ⟨e ++ r, d⟩) :
    PathAt b (src + e.length) dst ⟨r, d⟩ := by
  have hroom : src + (e ++ r).length < b.fullpath + b.size := h.room
  have hbehind := h.behind
  rw [List.length_append] at hroom
  refine ⟨h.source.drop, ?_, h.written, h.dstAt, by omega⟩
  show src + e.length + r.length < b.fullpath + b.size
  omega

theorem normalizeTurn_copy (h1 : s ≠ ['.']) (h2 : ∀ r, s ≠ '.' :: '/' :: r) (h3 : s ≠ ['.', '.'])
    (h4 : ∀ r, s ≠ '.' :: '.' :: '/' :: r) : normalizeTurn ⟨s, d⟩ = some (copyComponent s d) := by
  unfold normalizeTurn
  dsimp only
  split
  · exact absurd rfl h1
  · next r => exact absurd rfl (h2 r)
  · exact absurd rfl h3
  · next r => exact absurd rfl (h4 r)
  · rfl

/-- A turn of the code is a turn of the list model. -/
theorem turnAt_spec (h : PathAt b src dst ⟨s, d⟩) (hpos : 0 < b.fullpath) (hne : s ≠ [])
    (hn : s.length + 1 < n) (hnd : d.length < n) :
    match normalizeTurn ⟨s, d⟩ with
    | none => turnAt n b.fullpath src dst b = some (.above, b)
    | some st' => TurnEnds b (turnAt n b.fullpath src dst b) st' := by
  have hlo : b.fullpath ≤ src := by
    have := h.dstAt
    have := h.behind
    omega
  have hroom : src + s.length < b.fullpath + b.size := h.room
  have hread : ∀ {e r : CString} {k}, s = e ++ r → e.length = k →
      readAt (src + k) b = some (r.head?.getD nulChar, b) := by
    rintro e r k rfl rfl
    rw [List.length_append] at hroom
    exact (h.source.drop).head (by omega) (by omega)
  have hcopy := copyTurn_spec h hn
  obtain ⟨c, s, rfl⟩ := List.exists_cons_of_ne_nil hne
  have hfirst : readAt src b = some (c, b) := hread (e := []) rfl rfl
  by_cases hc : c = '.'
  case neg =>
    rw [normalizeTurn_copy (by simp [hc]) (by simp [hc]) (by simp [hc]) (by simp [hc])]
    rw [turnAt, pathM_bind, hfirst, Option.bind_some, if_neg hc]
    exact hcopy
  subst hc
  rw [turnAt, pathM_bind, hfirst, Option.bind_some, if_pos rfl, pathM_bind]
  dsimp only
  rcases s with _ | ⟨c1, s⟩
  · have hsecond : readAt (src + 1) b = some (nulChar, b) := hread (e := ['.']) (r := []) rfl rfl
    have hcopy' := copyTurn_spec (n := n) (PathAt.advance (e := ['.']) (r := []) h) (by simp; omega)
    rw [hsecond]
    exact hcopy'
  have hc1 : c1 ≠ nulChar := h.source.2.2.2.1
  have hsecond : readAt (src + 1) b = some (c1, b) := hread (e := ['.']) (r := c1 :: s) rfl rfl
  rw [List.length_cons, List.length_cons] at hn
  rw [hsecond, Option.bind_some, if_neg hc1]
  by_cases hslash : c1 = '/'
  · subst hslash
    obtain ⟨src', hskip, hpath⟩ := PathAt.skip (n := n) (k := 2) (e := ['.', '/']) (r := s)
      h rfl (by omega)
    rw [if_pos rfl, pathM_bind]
    dsimp only
    rw [hskip]
    exact ⟨b, .refl b, Or.inl ⟨src', dst, rfl, hpath⟩⟩
  rw [if_neg hslash]
  by_cases hdot : c1 = '.'
  case neg =>
    rw [normalizeTurn_copy (by simp) (by simp [hslash]) (by simp [hdot]) (by simp [hdot]), if_neg hdot]
    exact hcopy
  subst hdot
  rw [if_pos rfl, pathM_bind]
  rcases s with _ | ⟨c2, s⟩
  · have hthird : readAt (src + 2) b = some (nulChar, b) :=
      hread (e := ['.', '.']) (r := []) rfl rfl
    rw [hthird]
    exact upTurn_spec (PathAt.advance (e := ['.', '.']) (r := []) h) hpos hnd
  have hc2 : c2 ≠ nulChar := h.source.2.2.2.2.2.1
  have hthird : readAt (src + 2) b = some (c2, b) := hread (e := ['.', '.']) (r := c2 :: s) rfl rfl
  rw [List.length_cons] at hn
  rw [hthird, Option.bind_some, if_neg hc2]
  by_cases hslash2 : c2 = '/'
  · subst hslash2
    obtain ⟨src', hskip, hpath⟩ :=
      PathAt.skip (n := n) (k := 3) (e := ['.', '.', '/']) (r := s) h rfl (by omega)
    rw [if_pos rfl, pathM_bind]
    dsimp only
    rw [hskip]
    exact upTurn_spec hpath hpos hnd
  · rw [normalizeTurn_copy (by simp) (by simp) (by simp) (by simp [hslash2]), if_neg hslash2]
    exact hcopy

theorem turnAt_end (h : PathAt b src dst ⟨[], d⟩) (hn : 0 < n) :
    turnAt n b.fullpath src dst b = some (.done dst, b) := by
  have hlo : b.fullpath ≤ src := by
    have := h.dstAt
    have := h.behind
    omega
  have hread : readAt src b = some (nulChar, b) := h.source.head hlo h.room
  obtain ⟨n, rfl⟩ : ∃ k, n = k + 1 := ⟨n - 1, by omega⟩
  rw [turnAt, pathM_bind, hread, Option.bind_some, if_neg nul_ne_dot, copyTurn, pathM_bind, copyAt,
    pathM_bind]
  dsimp only
  rw [hread, Option.bind_some, if_neg (by simp), pathM_pure, Option.bind_some, if_neg nul_ne_slash]
  rfl

/-- The loop of the code is that of the list model. -/
theorem loopAt_spec {k : Nat} (h : PathAt b src dst st) (hpos : 0 < b.fullpath)
    (hn : b.size + 1 < n) (hm : st.src.length < m) (hk : st.src.length ≤ k) :
    ∃ b', SameBuffer b b' ∧ match normalizeLoop k st with
      | none => loopAt n b.fullpath m src dst b = some (none, b')
      | some d => loopAt n b.fullpath m src dst b = some (some (b.fullpath + d.length), b') ∧
          WrittenAt b'.chars b.fullpath d ∧ d.length < b.size := by
  induction m generalizing b src dst st k with
  | zero => omega
  | succ m ih =>
    have hdst := h.dstAt
    have hbehind := h.behind
    have hroom := h.room
    rw [loopAt, pathM_bind]
    by_cases hne : st.src = []
    · obtain ⟨s, d⟩ := st
      obtain rfl : s = [] := hne
      have hloop : normalizeLoop k ⟨[], d⟩ = some d := by cases k <;> simp [normalizeLoop]
      rw [turnAt_end h (by omega), hloop]
      refine ⟨b, .refl b, ?_, h.written, by simp only at hdst; omega⟩
      rw [← show dst = b.fullpath + d.length from hdst]
      rfl
    · have hlen : 0 < st.src.length := List.length_pos_of_ne_nil hne
      obtain ⟨k, rfl⟩ : ∃ j, k = j + 1 := ⟨k - 1, by omega⟩
      rw [normalizeLoop, if_neg hne]
      have hturn := turnAt_spec (n := n) h hpos hne (by omega) (by omega)
      cases hcase : normalizeTurn st with
      | none =>
        rw [show normalizeTurn ⟨st.src, st.dst⟩ = none from hcase] at hturn
        refine ⟨b, .refl b, ?_⟩
        rw [hturn]
        rfl
      | some st' =>
        rw [show normalizeTurn ⟨st.src, st.dst⟩ = some st' from hcase] at hturn
        have hshort := normalizeTurn_src hne hcase
        rw [Option.bind_some]
        obtain ⟨b1, hsame, ⟨src', dst', hrun, hpath⟩ | ⟨hend, hrun, hw, hin⟩⟩ := hturn
        · obtain ⟨e1, e2, e3⟩ := id hsame
          obtain ⟨b2, hsame2, hrest⟩ := ih (k := k) hpath (by omega) (by omega) (by omega) (by omega)
          refine ⟨b2, hsame.trans hsame2, ?_⟩
          rw [hrun, Option.bind_some]
          rw [e1, e2] at hrest
          exact hrest
        · have hloop : normalizeLoop k st' = some st'.dst := by
            cases k <;> simp [normalizeLoop, hend]
          refine ⟨b1, hsame, ?_⟩
          rw [hloop, hrun]
          exact ⟨rfl, hw, hin⟩

theorem stringAt_of_written {a : Nat} (h : WrittenAt chars a d) (ht : StringAt chars (a + d.length) t) :
    StringAt chars a (d.reverse ++ t) := by
  induction d generalizing t with
  | nil => exact ht
  | cons c d ih =>
    obtain ⟨hc, hnul, hd⟩ := h
    rw [List.reverse_cons, List.append_assoc]
    exact ih hd ⟨hc, hnul, ht⟩

theorem StringAt.unique {a : Nat} (h : StringAt chars a s) (ht : StringAt chars a t) : s = t := by
  induction s generalizing a t with
  | nil =>
    cases t with
    | nil => rfl
    | cons c t => exact absurd (ht.1.symm.trans h) ht.2.1
  | cons c s ih =>
    cases t with
    | nil => exact absurd (h.1.symm.trans ht) h.2.1
    | cons c' t =>
      obtain rfl : c = c' := h.1.symm.trans ht.1
      rw [ih h.2.2 ht.2.2]

theorem WrittenAt.first {a : Nat} (h : WrittenAt chars a d) (hne : d ≠ []) : chars a ≠ nulChar := by
  induction d with
  | nil => exact absurd rfl hne
  | cons c d ih =>
    by_cases hd : d = []
    · subst hd
      intro he
      exact h.2.1 (h.1.symm.trans he)
    · exact ih h.2.2 hd

theorem checkAt_keeps (hsize : 0 < b.size) (hfirst : b.chars b.fullpath ≠ nulChar) :
    checkAt b.fullpath b = some ((), b) := by
  rw [checkAt, pathM_bind, readAt_inside (by omega) (by omega), Option.bind_some]
  dsimp only
  rw [if_neg hfirst]
  rfl

theorem checkAt_empty (hsize : 1 < b.size) (hfirst : b.chars b.fullpath = nulChar) :
    ∃ b', checkAt b.fullpath b = some ((), b') ∧ StringAt b'.chars b.fullpath ['/'] ∧
      b'.stray = b.stray := by
  let b1 : PathBuffer := { b with chars := Function.update b.chars b.fullpath '/' }
  let b2 : PathBuffer := { b1 with chars := Function.update b1.chars (b.fullpath + 1) nulChar }
  have h1 : writeAt b.fullpath '/' b = some ((), b1) := writeAt_inside (by omega) (by omega)
  have h2 : writeAt (b.fullpath + 1) nulChar b1 = some ((), b2) :=
    writeAt_inside (by show b.fullpath ≤ _; omega) (by show _ < b.fullpath + b.size; omega)
  have hslash : b2.chars b.fullpath = '/' := by
    show Function.update (Function.update b.chars b.fullpath '/') (b.fullpath + 1) nulChar _ = _
    rw [Function.update_of_ne (by omega), Function.update_self]
  have hend : b2.chars (b.fullpath + 1) = nulChar := Function.update_self _ _ _
  refine ⟨b2, ?_, ⟨hslash, by decide, hend⟩, rfl⟩
  rw [checkAt, pathM_bind, readAt_inside (by omega) (by omega), Option.bind_some]
  dsimp only
  rw [if_pos hfirst, pathM_bind, h1, Option.bind_some]
  exact h2

theorem touch_stray {b : PathBuffer} (a : Nat) (h : b.stray = true) : (b.touch a).stray = true := by
  simp [PathBuffer.touch, h]

/-- Where nothing was written the trim reads the character before the string. -/
theorem trimAt_empty (hpos : 0 < b.fullpath) :
    ∃ b', trimAt b.fullpath b.fullpath b = some ((), b') ∧ b'.chars b.fullpath = b.chars b.fullpath ∧
      b'.stray = true ∧ b'.fullpath = b.fullpath ∧ b'.size = b.size := by
  have hread : readAt (b.fullpath - 1) b =
    some (b.chars (b.fullpath - 1), b.touch (b.fullpath - 1)) := rfl
  have hout : (b.touch (b.fullpath - 1)).stray = true := by
    simp only [PathBuffer.touch, Bool.or_eq_true, Bool.not_eq_true', decide_eq_false_iff_not]
    right
    omega
  unfold trimAt
  rw [if_pos (by omega), pathM_bind, hread, Option.bind_some]
  dsimp only
  split
  · exact ⟨_, rfl, Function.update_of_ne (by omega) _ _, touch_stray _ hout, rfl, rfl⟩
  · exact ⟨_, rfl, rfl, hout, rfl, rfl⟩

/-- The end of the function leaves the path of the list model, and touches the character before the
string where nothing was written. -/
theorem finishAt_spec (h : WrittenAt b.chars b.fullpath d) (hroom : d.length < b.size)
    (hsize : 1 < b.size) (hpos : 0 < b.fullpath) :
    ∃ b', finishAt b.fullpath (b.fullpath + d.length) b = some ((), b') ∧
      StringAt b'.chars b.fullpath (trimNormalized d) ∧ b'.stray = (b.stray || decide (d = [])) := by
  let b1 : PathBuffer := { b with chars := Function.update b.chars (b.fullpath + d.length) nulChar }
  have hwrite : writeAt (b.fullpath + d.length) nulChar b = some ((), b1) :=
    writeAt_inside (by omega) (by omega)
  have hw1 : WrittenAt b1.chars b1.fullpath d :=
    h.congr fun x hx => Function.update_of_ne (by omega) _ _
  have hend1 : b1.chars (b1.fullpath + d.length) = nulChar := Function.update_self _ _ _
  have hwhole : StringAt b1.chars b1.fullpath d.reverse := by
    have hs := stringAt_of_written (t := []) hw1 hend1
    rwa [List.append_nil] at hs
  rw [finishAt, pathM_bind, hwrite, Option.bind_some, pathM_bind]
  dsimp only
  rcases d with _ | ⟨c, d⟩
  · obtain ⟨b2, htrim, hfirst, hstray, e1, e2⟩ := trimAt_empty (b := b1) hpos
    have hnul : b2.chars b2.fullpath = nulChar := by
      rw [e1, hfirst]
      exact hend1
    obtain ⟨b3, hcheck, hroot, hsame⟩ := checkAt_empty (b := b2)
      (by rw [e2]; exact hsize) hnul
    rw [e1] at hcheck hroot
    refine ⟨b3, ?_, hroot, by rw [hsame, hstray]; simp⟩
    have htrim' : trimAt b.fullpath (b.fullpath + ([] : CString).length) b1 = some ((), b2) := htrim
    rw [htrim']
    exact hcheck
  · have hstop : ∀ b2 : PathBuffer, b2.fullpath = b.fullpath → b2.size = b.size →
        b2.chars b2.fullpath ≠ nulChar → checkAt b.fullpath b2 = some ((), b2) := by
      intro b2 e1 e2 hfirst
      rw [← e1]
      exact checkAt_keeps (by omega) hfirst
    have hfirst1 : b1.chars b1.fullpath ≠ nulChar := hw1.first (by simp)
    rw [List.length_cons] at hroom
    rcases d with _ | ⟨c2, d⟩
    · have htrim : trimAt b.fullpath (b.fullpath + [c].length) b1 = some ((), b1) := by
        unfold trimAt
        rw [if_neg (by simp)]
        rfl
      rw [htrim, Option.bind_some]
      refine ⟨b1, hstop b1 rfl rfl hfirst1, ?_, by simp [b1]⟩
      have hsame : trimNormalized [c] = [c].reverse := by simp [trimNormalized]
      rw [hsame]
      exact hwhole
    · have hpos' : b.fullpath + (c :: c2 :: d).length - 1 = b.fullpath + (c2 :: d).length := by
        simp only [List.length_cons]
        omega
      have hread : readAt (b.fullpath + (c2 :: d).length) b1 = some (c, b1) := by
        rw [readAt_inside (by show b.fullpath ≤ _; omega) (by show _ < b.fullpath + b.size; omega)]
        rw [show b1.chars (b.fullpath + (c2 :: d).length) = c from hw1.1]
      have hne : b.fullpath + (c2 :: d).length ≠ b.fullpath := by
        simp only [List.length_cons]
        omega
      unfold trimAt
      rw [hpos', if_pos hne, pathM_bind, hread, Option.bind_some]
      dsimp only
      by_cases hslash : c = '/'
      · subst hslash
        let b2 : PathBuffer := { b1 with
          chars := Function.update b1.chars (b.fullpath + (c2 :: d).length) nulChar }
        have hwrite2 : writeAt (b.fullpath + (c2 :: d).length) nulChar b1 = some ((), b2) :=
          writeAt_inside (by show b.fullpath ≤ _; omega) (by show _ < b.fullpath + b.size; omega)
        have hw2 : WrittenAt b2.chars b2.fullpath (c2 :: d) :=
          WrittenAt.congr (hw1.2.2 : WrittenAt b1.chars b1.fullpath (c2 :: d))
            fun x hx => Function.update_of_ne (by
              have : x < b.fullpath + (c2 :: d).length := hx
              omega) _ _
        have hend2 : b2.chars (b2.fullpath + (c2 :: d).length) = nulChar := Function.update_self _ _ _
        have hs := stringAt_of_written (t := []) hw2 hend2
        rw [List.append_nil] at hs
        rw [if_pos rfl, hwrite2, Option.bind_some]
        refine ⟨b2, hstop b2 rfl rfl (hw2.first (by simp)), ?_, by simp [b2, b1]⟩
        have hcut : trimNormalized ('/' :: c2 :: d) = (c2 :: d).reverse := by simp [trimNormalized]
        rw [hcut]
        exact hs
      · rw [if_neg hslash, pathM_pure, Option.bind_some]
        refine ⟨b1, hstop b1 rfl rfl hfirst1, ?_, by simp [b1]⟩
        have hsame : trimNormalized (c :: c2 :: d) = (c :: c2 :: d).reverse := by
          simp [trimNormalized, hslash]
        rw [hsame]
        exact hwhole

end

end RTThread
