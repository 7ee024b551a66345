import RTThread.DfsPathBuffer

namespace RTThread

/-- The memory `chars` once the string `s` is stored at `a`. -/
def storeString (chars : Nat → Char) (a : Nat) : CString → Nat → Char
  | [] => Function.update chars a nulChar
  | c :: s => Function.update (storeString chars (a + 1) s) a c

def loadedBuffer (chars : Nat → Char) (fullpath : Nat) (s : CString) : PathBuffer where
  fullpath := fullpath
  size := s.length + 1
  chars := storeString chars fullpath s
  stray := false

/-- What `dfs_normalize_path` copies into the string it allocates. -/
def joinedPath (directory filename : CString) : CString :=
  if filename.head? = some '/' then filename else directory ++ '/' :: filename

/-- `dfs_normalize_path` where the string is allocated at `fullpath`; false stands for NULL. -/
def normalizePathAt (n : Nat) (chars : Nat → Char) (fullpath : Nat) (directory filename : CString) :
    Option (Bool × PathBuffer) :=
  normalizeAt n fullpath (loadedBuffer chars fullpath (joinedPath directory filename))

/-- The function returns the string `path`, wherever it is allocated. -/
def NormalisesTo (directory filename path : CString) : Prop :=
  ∀ chars fullpath, 0 < fullpath → ∃ m, ∀ n, m ≤ n → ∃ b,
    normalizePathAt n chars fullpath directory filename = some (true, b) ∧
      StringAt b.chars fullpath path

/-- The function returns, stays inside the string and leaves there the lexical resolution of the
path, unless it returns NULL. -/
def NormalisesRight (directory filename : CString) : Prop :=
  ∀ chars fullpath, 0 < fullpath → ∃ m, ∀ n, m ≤ n → ∃ r b,
    normalizePathAt n chars fullpath directory filename = some (r, b) ∧ b.stray = false ∧
      (r = true → ∃ path, StringAt b.chars fullpath path ∧
        path = lexicalResolve (joinedPath directory filename) ∧ Normalised path ∧
        NormalisesTo directory path path)

section
variable {chars : Nat → Char} {a fullpath n : Nat} {s d directory filename path : CString}

theorem stringAt_storeString (h : nulChar ∉ s) : StringAt (storeString chars a s) a s := by
  induction s generalizing a with
  | nil => exact Function.update_self _ _ _
  | cons c s ih =>
    rw [List.mem_cons, not_or] at h
    refine ⟨Function.update_self _ _ _, fun he => h.1 he.symm, ?_⟩
    exact (ih h.2).congr fun x hx => Function.update_of_ne (by omega) _ _

theorem pathAt_loaded (chars : Nat → Char) (fullpath : Nat) (h : nulChar ∉ s) :
    PathAt (loadedBuffer chars fullpath s) fullpath fullpath ⟨s, []⟩ :=
  ⟨stringAt_storeString h, by simp [loadedBuffer], trivial, rfl, Nat.le_refl _⟩

/-- With enough fuel the function is the loop of the list model and its end. -/
theorem normalizeAt_loaded (chars : Nat → Char) (fullpath : Nat) (hnul : nulChar ∉ s) (hne : s ≠ []) (hpos : 0 < fullpath) (hn : s.length + 2 < n) :
    (normalizeLoop s.length ⟨s, []⟩ = none → ∃ b,
      normalizeAt n fullpath (loadedBuffer chars fullpath s) = some (false, b) ∧ b.stray = false) ∧
    ∀ d, normalizeLoop s.length ⟨s, []⟩ = some d → ∃ b,
      normalizeAt n fullpath (loadedBuffer chars fullpath s) = some (true, b) ∧
        StringAt b.chars fullpath (trimNormalized d) ∧ b.stray = decide (d = []) := by
  have hlen : 0 < s.length := List.length_pos_of_ne_nil hne
  have hsize : (loadedBuffer chars fullpath s).size = s.length + 1 := rfl
  obtain ⟨b1, ⟨e1, e2, e3⟩, hrun⟩ := loopAt_spec (n := n) (m := n) (k := s.length)
    (pathAt_loaded chars fullpath hnul) hpos (by omega) (by show s.length < n; omega) (Nat.le_refl _)
  constructor
  · intro hloop
    rw [hloop] at hrun
    have hrun' : loopAt n fullpath n fullpath fullpath (loadedBuffer chars fullpath s) =
        some (none, b1) := hrun
    refine ⟨b1, ?_, e3⟩
    rw [normalizeAt, pathM_bind, hrun']
    rfl
  · intro d hloop
    rw [hloop] at hrun
    obtain ⟨hrun', hw, hroom⟩ := hrun
    have hloop' : loopAt n fullpath n fullpath fullpath (loadedBuffer chars fullpath s) =
        some (some (fullpath + d.length), b1) := hrun'
    have e1' : b1.fullpath = fullpath := e1
    obtain ⟨b2, hend, hstring, hstray⟩ := finishAt_spec (b := b1) (d := d)
      (by rw [e1]; exact hw) (by rw [e2]; exact hroom) (by omega) (by omega)
    rw [e1'] at hend hstring
    refine ⟨b2, ?_, hstring, ?_⟩
    · rw [normalizeAt, pathM_bind, hloop', Option.bind_some]
      dsimp only
      rw [pathM_bind, hend]
      rfl
    · rw [hstray, e3]
      rfl

/-- What the loop leaves of an absolute path, by the least depth on its way. -/
theorem normalizeLoop_absolute (hhead : path.head? = some '/') :
    (0 ≤ lowestDepth 0 (path.splitOn '/') → ∃ d, normalizeLoop path.length ⟨path, []⟩ = some d ∧
      d ≠ [] ∧ trimNormalized d = lexicalResolve path) ∧
    (lowestDepth 0 (path.splitOn '/') = -1 → ∃ d,
      normalizeLoop path.length ⟨path, []⟩ = some d ∧
      (d = [] ∨ (trimNormalized d).head? ≠ some '/')) ∧
    (lowestDepth 0 (path.splitOn '/') < -1 → normalizeLoop path.length ⟨path, []⟩ = none) := by
  obtain ⟨rest, rfl⟩ : ∃ rest, path = '/' :: rest := by
    cases path with
    | nil => cases hhead
    | cons c rest => exact ⟨rest, by rw [Option.some.inj hhead]⟩
  have hlow : lowestDepth 0 (('/' :: rest).splitOn '/') = lowestDepth 0 (rest.splitOn '/') := by
    rw [splitOn_separator, lowestDepth, show depthChange [] = 0 by simp [depthChange]]
    exact Int.min_eq_right lowestDepth_le
  -- the first turn copies the slash at the start
  have hturn : normalizeLoop ('/' :: rest).length ⟨'/' :: rest, []⟩ =
      normalizeLoop rest.length ⟨skipSlashes rest, closedComponents [[]]⟩ := by
    rw [List.length_cons, normalizeLoop, if_neg (by simp)]
    rfl
  have hnohead : (skipSlashes rest).head? ≠ some '/' := by
    intro hslash
    have hnot := List.head?_dropWhile_not (· == '/') rest
    rw [show (rest.dropWhile (· == '/')).head? = some '/' from hslash] at hnot
    simp at hnot
  have hroot : ∀ c ∈ [([] : CString)], '/' ∉ c := by simp
  have hwalk := normalizeLoop_walk hroot hnohead (skipSlashes_length rest)
  rw [splitOn_skipSlashes] at hwalk
  have hslashes : ∀ c ∈ rest.splitOn '/', '/' ∉ c := splitOn_no_separator rest
  have hinside := walk_inside (List.forall_mem_nil PathComponent) hslashes
  rw [List.nil_append] at hinside
  have hcast : ((([] : List CString).length : Int)) = 0 := rfl
  rw [hcast] at hinside
  rw [hlow, hturn]
  refine ⟨fun h => ?_, fun h => ?_, fun h => ?_⟩
  · rw [if_pos h] at hinside
    rw [hinside] at hwalk
    obtain ⟨d, hrun, htrim, hnil⟩ := hwalk
    refine ⟨d, hrun, fun he => absurd (hnil.mp he) (by simp), ?_⟩
    have hnames := foldl_lexicalStep_components (List.forall_mem_nil PathComponent) hslashes
    rw [htrim, walkPath_inside hnames, lexicalResolve, splitOn_separator, List.foldl_cons]
    rw [show lexicalStep [] [] = [] by simp [lexicalStep]]
  · rw [if_neg (by omega), if_pos h] at hinside
    obtain ⟨st', hst', hcomponents⟩ := hinside
    rw [hst'] at hwalk
    obtain ⟨d, hrun, htrim, hnil⟩ := hwalk
    refine ⟨d, hrun, ?_⟩
    by_cases hempty : st' = []
    · exact Or.inl (hnil.mpr hempty)
    · right
      rw [htrim]
      exact walkPath_outside hcomponents hempty
  · rw [if_neg (by omega), if_neg (by omega)] at hinside
    rw [hinside] at hwalk
    exact hwalk

theorem joinedPath_absolute (filename : CString) (hdir : directory.head? = some '/') :
    (joinedPath directory filename).head? = some '/' := by
  unfold joinedPath
  split
  next h => exact h
  next =>
    cases directory with
    | nil => cases hdir
    | cons c directory => exact hdir

theorem joinedPath_noNul (hdir : nulChar ∉ directory) (hfile : nulChar ∉ filename) :
    nulChar ∉ joinedPath directory filename := by
  unfold joinedPath
  split
  · exact hfile
  · rw [List.mem_append, List.mem_cons]
    rintro (h | h | h)
    · exact hdir h
    · exact nul_ne_slash h
    · exact hfile h

theorem ne_nil_of_slash (h : path.head? = some '/') : path ≠ [] := by
  rintro rfl
  cases h

theorem StringAt.noNul (h : StringAt chars a s) : nulChar ∉ s := by
  induction s generalizing a with
  | nil => exact List.not_mem_nil
  | cons c s ih =>
    obtain ⟨-, hc, hs⟩ := h
    rw [List.mem_cons, not_or]
    exact ⟨fun he => hc he.symm, ih hs⟩

/-- A normalised path is returned as it is. -/
theorem normalisesTo_self (h : Normalised path) (hnul : nulChar ∉ path) :
    NormalisesTo directory path path := by
  have hhead : path.head? = some '/' := by
    rcases h.cases with rfl | ⟨c, rest, -, rfl⟩ <;> rfl
  have hjoined : joinedPath directory path = path := if_pos hhead
  intro chars fullpath hpos
  refine ⟨path.length + 3, fun n hn => ?_⟩
  obtain ⟨d, hloop, -, htrim⟩ := (normalizeLoop_absolute hhead).1
    (by rw [lowestDepth_of_normalised h])
  obtain ⟨b, hrun, hstring, -⟩ := (normalizeAt_loaded chars fullpath hnul
    (ne_nil_of_slash hhead) hpos (show path.length + 2 < n by omega)).2 d hloop
  refine ⟨b, ?_, ?_⟩
  · rw [normalizePathAt, hjoined]
    exact hrun
  · rwa [htrim, lexicalResolve_of_normalised h] at hstring

/-- Where the path climbs one level above the root, what is returned is not its resolution or the
function has left the string. -/
theorem not_normalisesRight (hdir : directory.head? = some '/') (hdnul : nulChar ∉ directory)
    (hfnul : nulChar ∉ filename)
    (hlow : lowestDepth 0 ((joinedPath directory filename).splitOn '/') = -1) :
    ¬NormalisesRight directory filename := by
  intro hright
  have hhead := joinedPath_absolute filename hdir
  have hnul := joinedPath_noNul hdnul hfnul
  obtain ⟨m, hm⟩ := hright (fun _ => nulChar) 1 (by omega)
  let n := max m ((joinedPath directory filename).length + 3)
  obtain ⟨r, b, hrun, hstray, hreturns⟩ := hm n (le_max_left _ _)
  obtain ⟨d, hloop, hwrong⟩ := (normalizeLoop_absolute hhead).2.1 hlow
  have hn : (joinedPath directory filename).length + 2 < n := le_max_right m _
  obtain ⟨b', hrun', hstring, hstray'⟩ := (normalizeAt_loaded (fun _ => nulChar) 1 hnul
    (ne_nil_of_slash hhead) (by omega) hn).2 d hloop
  have hsame : some (r, b) = some (true, b') := hrun.symm.trans hrun'
  obtain ⟨rfl, rfl⟩ := Prod.mk.inj (Option.some.inj hsame)
  rcases hwrong with rfl | hslash
  · rw [hstray] at hstray'
    simp at hstray'
  · obtain ⟨path, hpath, -, hnormal, -⟩ := hreturns rfl
    obtain rfl := hstring.unique hpath
    apply hslash
    rcases hnormal.cases with he | ⟨c, rest, -, he⟩ <;> rw [he] <;> rfl

/-- An absolute path is normalised as it should be unless it climbs exactly one level above the
root. -/
theorem normalisesRight_iff (hdir : directory.head? = some '/') (hdnul : nulChar ∉ directory)
    (hfnul : nulChar ∉ filename) :
    NormalisesRight directory filename ↔
      lowestDepth 0 ((joinedPath directory filename).splitOn '/') ≠ -1 := by
  constructor
  · exact fun hright hlow => not_normalisesRight hdir hdnul hfnul hlow hright
  intro hlow chars fullpath hpos
  have hhead := joinedPath_absolute filename hdir
  have hnul := joinedPath_noNul hdnul hfnul
  obtain ⟨hinside, -, habove⟩ := normalizeLoop_absolute hhead
  refine ⟨(joinedPath directory filename).length + 3, fun n hn => ?_⟩
  obtain ⟨hnone, hsome⟩ := normalizeAt_loaded chars fullpath hnul (ne_nil_of_slash hhead) hpos
    (show (joinedPath directory filename).length + 2 < n by omega)
  by_cases hneg : lowestDepth 0 ((joinedPath directory filename).splitOn '/') < 0
  · obtain ⟨b, hrun, hstray⟩ := hnone (habove (by omega))
    exact ⟨false, b, hrun, hstray, fun h => Bool.noConfusion h⟩
  · obtain ⟨d, hloop, hne, htrim⟩ := hinside (by omega)
    obtain ⟨b, hrun, hstring, hstray⟩ := hsome d hloop
    rw [htrim] at hstring
    have hnormal := lexicalResolve_normalised (joinedPath directory filename)
    refine ⟨true, b, hrun, by rw [hstray]; exact decide_eq_false hne, fun _ => ?_⟩
    exact ⟨_, hstring, rfl, hnormal, normalisesTo_self hnormal hstring.noNul⟩

theorem normalisesRight_iff_dots : NormalisesRight ['/', 'a'] ['.', '.', '/', '.', '/', 'b'] ↔
    lowestDepth 0 ((joinedPath ['/', 'a'] ['.', '.', '/', '.', '/', 'b']).splitOn '/') ≠ -1 :=
  normalisesRight_iff rfl (by decide) (by decide)

/-- The path `/../a` becomes `a`. -/
theorem climbs_above_root : ¬NormalisesRight ['/'] ['/', '.', '.', '/', 'a'] :=
  not_normalisesRight rfl (by decide) (by decide) (by decide)

end

end RTThread
