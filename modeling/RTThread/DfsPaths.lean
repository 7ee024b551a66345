import Mathlib.Tactic

namespace RTThread

/-- The characters of a C string before its NUL. -/
abbrev CString := List Char

/-- `strncmp(s, t, n) == 0`. -/
def strncmpEq : CString → CString → Nat → Bool
  | _, _, 0 => true
  | [], [], _ + 1 => true
  | a :: s, b :: t, n + 1 => a == b && strncmpEq s t n
  | _, _, _ + 1 => false

theorem strncmpEq_length {s t : CString} : strncmpEq s t s.length = true ↔ s <+: t := by
  induction s generalizing t with
  | nil => simp [strncmpEq]
  | cons a s ih =>
    cases t with
    | nil => simp [strncmpEq]
    | cons b t => simp [strncmpEq, ih, List.cons_prefix_cons]

/-- `filename` from the pointer the function returns. -/
def dfsSubdir (directory filename : CString) : Option CString :=
  if directory.length = filename.length then none
  else
    let dir := directory.length
    if filename[dir]? ≠ some '/' ∧ dir ≠ 0 then some (filename.drop (dir - 1))
    else some (filename.drop dir)

def skipSlashes : CString → CString := List.dropWhile (· == '/')

theorem skipSlashes_length (s : CString) : (skipSlashes s).length ≤ s.length :=
  (List.dropWhile_sublist _).length_le

/-- Where `src` stands, and what is written up to `dst`, the last character first. -/
structure NormalizeState where
  src : CString
  dst : CString

/-- `up_one`: the last `/` goes, then the component before it. -/
def upOne (s : NormalizeState) : Option NormalizeState :=
  match s.dst with
  | [] => none
  | _ :: dst => some { s with dst := dst.dropWhile (· != '/') }

/-- Copies up to the next `/` or the end. -/
def copyComponent : CString → CString → NormalizeState
  | [], dst => ⟨[], dst⟩
  | c :: src, dst =>
    if c = '/' then ⟨skipSlashes src, '/' :: dst⟩ else copyComponent src (c :: dst)

/-- One turn of the loop; `none` where the path climbs over its own start. -/
def normalizeTurn (s : NormalizeState) : Option NormalizeState :=
  match s.src with
  | ['.'] => some { s with src := [] }
  | '.' :: '/' :: src => some { s with src := skipSlashes src }
  | ['.', '.'] => upOne { s with src := [] }
  | '.' :: '.' :: '/' :: src => upOne { s with src := skipSlashes src }
  | src => some (copyComponent src s.dst)

theorem copyComponent_src_le (src dst : CString) :
    (copyComponent src dst).src.length ≤ src.length - 1 := by
  induction src generalizing dst with
  | nil => simp [copyComponent]
  | cons c src ih =>
    have hskip := skipSlashes_length src
    have hrest := ih (c :: dst)
    simp only [copyComponent, List.length_cons]
    split <;> grind

theorem upOne_src {s s' : NormalizeState} (h : upOne s = some s') : s'.src = s.src := by
  unfold upOne at h
  split at h
  · cases h
  · cases Option.some.inj h
    rfl

theorem normalizeTurn_src {s s' : NormalizeState} (hsrc : s.src ≠ [])
    (h : normalizeTurn s = some s') : s'.src.length < s.src.length := by
  unfold normalizeTurn at h
  split at h
  · next hs =>
    cases Option.some.inj h
    simp [hs]
  · next src hs =>
    cases Option.some.inj h
    have hskip := skipSlashes_length src
    simp only [hs, List.length_cons]
    omega
  · next hs =>
    simp [upOne_src h, hs]
  · next src hs =>
    have hskip := skipSlashes_length src
    simp only [upOne_src h, hs, List.length_cons]
    omega
  · cases Option.some.inj h
    have hcopy := copyComponent_src_le s.src s.dst
    have hpos := List.length_pos_of_ne_nil hsrc
    omega

/-- The loop with as many turns as `src` has characters, which always suffice. -/
def normalizeLoop : Nat → NormalizeState → Option CString
  | 0, s => some s.dst
  | n + 1, s => if s.src = [] then some s.dst else (normalizeTurn s).bind (normalizeLoop n)

theorem normalizeLoop_enough {n m : Nat} {s : NormalizeState} (hn : s.src.length ≤ n)
    (hm : s.src.length ≤ m) : normalizeLoop n s = normalizeLoop m s := by
  induction n generalizing m s with
  | zero =>
    have hnil : s.src = [] := List.length_eq_zero_iff.mp (by omega)
    cases m <;> simp [normalizeLoop, hnil]
  | succ n ih =>
    by_cases hsrc : s.src = []
    · cases m <;> simp [normalizeLoop, hsrc]
    · obtain _ | m := m
      · exact absurd (List.length_eq_zero_iff.mp (by omega)) hsrc
      · simp only [normalizeLoop, if_neg hsrc]
        cases hturn : normalizeTurn s with
        | none => rfl
        | some s' =>
          have hlt := normalizeTurn_src hsrc hturn
          exact ih (by omega) (by omega)

/-- The end of the function: one `/` at the end goes, and an empty path becomes `/`. -/
def trimNormalized (dst : CString) : CString :=
  let dst := match dst with
    | '/' :: c :: dst => c :: dst
    | dst => dst
  if dst = [] then ['/'] else dst.reverse

/-- With `directory` NULL, as everywhere here; `workingDirectory` is `none` where
`DFS_USING_WORKDIR` is off, and `memory` says whether the copy can be allocated. -/
def dfsNormalizePath (workingDirectory : Option CString) (memory : Bool) (filename : CString) :
    Option CString :=
  let joined := if filename.head? = some '/' then some filename
    else workingDirectory.map fun directory => directory ++ '/' :: filename
  match joined with
  | none => none
  | some fullpath =>
    if memory then (normalizeLoop fullpath.length ⟨fullpath, []⟩).map trimNormalized else none

end RTThread
