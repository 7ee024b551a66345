import RTThread.AbsolutePaths
import RTThread.DfsPaths

namespace RTThread

/-- What is written for the components `st`, the last one first, each with its `/`. -/
def closedComponents (st : List CString) : CString := st.flatMap fun c => '/' :: c.reverse

/-- What one component of the path does to the components written so far. -/
def walkStep (st : List CString) (c : CString) : Option (List CString) :=
  if c = [] ∨ c = ['.'] then some st
  else if c = ['.', '.'] then (match st with | [] => none | _ :: st => some st)
  else some (c :: st)

/-- The walk of the loop through components. -/
def walk : List CString → List CString → Option (List CString)
  | st, [] => some st
  | st, c :: cs => (walkStep st c).bind fun st => walk st cs

/-- The path that the function returns for the components `st`. -/
def walkPath (st : List CString) : CString :=
  if st = [] ∨ st = [[]] then ['/'] else (closedComponents st).tail.reverse

section
variable {src : CString} {st names cs : List CString} {c : CString} {n : Nat} {d : Int}

theorem splitOn_skipSlashes (s : CString) (st : List CString) :
    walk st ((skipSlashes s).splitOn '/') = walk st (s.splitOn '/') := by
  induction s with
  | nil => rfl
  | cons x s ih =>
    by_cases hx : x = '/'
    · subst hx
      rw [show skipSlashes ('/' :: s) = skipSlashes s by simp [skipSlashes], ih, splitOn_separator]
      simp [walk, walkStep]
    · rw [show skipSlashes (x :: s) = x :: s by simp [skipSlashes, hx]]

/-- A string is one component, or a component and what follows its separator. -/
theorem component_cases (s : CString) :
    ('/' ∉ s ∧ s.splitOn '/' = [s]) ∨
    ∃ c rest, s = c ++ '/' :: rest ∧ '/' ∉ c ∧ s.splitOn '/' = c :: rest.splitOn '/' := by
  by_cases hs : '/' ∈ s
  · obtain ⟨c, rest, rfl, hc⟩ := List.eq_append_cons_of_mem hs
    exact Or.inr ⟨c, rest, rfl, hc, List.splitOn_append_cons_self_of_not_mem hc rest⟩
  · exact Or.inl ⟨hs, List.splitOn_eq_singleton hs⟩

theorem copyComponent_end {dst : CString} (h : '/' ∉ src) :
    copyComponent src dst = ⟨[], src.reverse ++ dst⟩ := by
  induction src generalizing dst with
  | nil => rfl
  | cons x src ih =>
    have hx : ¬x = '/' := fun he => h (he ▸ List.mem_cons_self)
    rw [copyComponent, if_neg hx, ih fun hmem => h (List.mem_cons_of_mem x hmem)]
    simp

theorem copyComponent_slash {rest dst : CString} (h : '/' ∉ c) :
    copyComponent (c ++ '/' :: rest) dst = ⟨skipSlashes rest, '/' :: (c.reverse ++ dst)⟩ := by
  induction c generalizing dst with
  | nil => simp [copyComponent]
  | cons x c ih =>
    have hx : ¬x = '/' := fun he => h (he ▸ List.mem_cons_self)
    rw [List.cons_append, copyComponent, if_neg hx, ih fun hmem => h (List.mem_cons_of_mem x hmem)]
    simp

theorem splitOn_nil : ([] : CString).splitOn '/' = [[]] := List.splitOn_eq_singleton List.not_mem_nil

/-- A component that is not relative is copied. -/
theorem normalizeTurn_name {dst : CString} (hsplit : src.splitOn '/' = c :: cs) (hdot : c ≠ ['.'])
    (hup : c ≠ ['.', '.']) : normalizeTurn ⟨src, dst⟩ = some (copyComponent src dst) := by
  have hfirst : ∀ {x rest}, '/' ∉ x → src = x ++ '/' :: rest → c = x := by
    rintro x rest hx rfl
    rw [List.splitOn_append_cons_self_of_not_mem hx] at hsplit
    exact (List.cons.inj hsplit).1.symm
  have honly : ∀ {x}, '/' ∉ x → src = x → c = x := by
    rintro x hx rfl
    rw [List.splitOn_eq_singleton hx] at hsplit
    exact (List.cons.inj hsplit).1.symm
  unfold normalizeTurn
  dsimp only
  split
  · exact absurd (honly (by decide) rfl) hdot
  · exact absurd (hfirst (by decide : '/' ∉ ['.']) rfl) hdot
  · exact absurd (honly (by decide) rfl) hup
  · exact absurd (hfirst (by decide : '/' ∉ ['.', '.']) rfl) hup
  · rfl

theorem closedComponents_head (st : List CString) :
    closedComponents st = [] ∧ st = [] ∨ ∃ rest, closedComponents st = '/' :: rest := by
  cases st with
  | nil => exact Or.inl ⟨rfl, rfl⟩
  | cons c st => exact Or.inr ⟨c.reverse ++ closedComponents st, rfl⟩

theorem upOne_closed {x : CString} (hx : '/' ∉ x) :
    upOne ⟨src, closedComponents (x :: st)⟩ = some ⟨src, closedComponents st⟩ := by
  have hdrop : (x.reverse ++ closedComponents st).dropWhile (· != '/') = closedComponents st := by
    rw [List.dropWhile_append_of_pos]
    · rcases closedComponents_head st with ⟨he, -⟩ | ⟨rest, he⟩ <;> simp [he]
    · intro y hy
      have hne : y ≠ '/' := fun he => hx (he ▸ List.mem_reverse.mp hy)
      simpa using hne
  show some ({ src := src, dst := (x.reverse ++ closedComponents st).dropWhile (· != '/') } :
    NormalizeState) = _
  rw [hdrop]

/-- `d` is what the loop leaves where it ends with the components `st`. -/
def EndsWith (st : List CString) (d : CString) : Prop :=
  trimNormalized d = walkPath st ∧ (d = [] ↔ st = [])

theorem endsWith_closed (st : List CString) : EndsWith st (closedComponents st) := by
  unfold EndsWith walkPath trimNormalized
  rcases st with _ | ⟨c, st⟩
  · simp [closedComponents]
  · by_cases hroot : c = [] ∧ st = []
    · obtain ⟨rfl, rfl⟩ := hroot
      simp [closedComponents]
    · have hrest : c.reverse ++ closedComponents st ≠ [] := by
        rcases closedComponents_head st with ⟨-, rfl⟩ | ⟨rest, he⟩
        · simpa [closedComponents] using hroot
        · simp [he]
      have hclosed : closedComponents (c :: st) = '/' :: (c.reverse ++ closedComponents st) := rfl
      obtain ⟨y, ys, hy⟩ := List.exists_cons_of_ne_nil hrest
      have hne : ¬(c :: st = [] ∨ c :: st = [[]]) := by
        rintro (h | h)
        · cases h
        · obtain ⟨h1, h2⟩ := List.cons.inj h
          exact hroot ⟨h1, h2⟩
      rw [hclosed, hy, if_neg hne]
      simp

theorem endsWith_name (hc : c ≠ []) (hslash : '/' ∉ c) :
    EndsWith (c :: st) (c.reverse ++ closedComponents st) := by
  have hne : ¬(c :: st = [] ∨ c :: st = [[]]) := by
    rintro (h | h)
    · cases h
    · exact hc (List.cons.inj h).1
  obtain ⟨y, ys, hy⟩ := List.exists_cons_of_ne_nil (by simpa using hc : c.reverse ≠ [])
  have hyne : y ≠ '/' := by
    rintro rfl
    exact hslash (List.mem_reverse.mp (hy ▸ List.mem_cons_self))
  unfold EndsWith walkPath trimNormalized
  rw [if_neg hne, show closedComponents (c :: st) = '/' :: (c.reverse ++ closedComponents st) from rfl,
    hy, List.cons_append]
  simp [hyne]

/-- The loop walks through the components. -/
theorem normalizeLoop_walk (hst : ∀ c ∈ st, '/' ∉ c) (hsrc : src.head? ≠ some '/')
    (hn : src.length ≤ n) :
    match walk st (src.splitOn '/') with
    | none => normalizeLoop n ⟨src, closedComponents st⟩ = none
    | some st' => ∃ d, normalizeLoop n ⟨src, closedComponents st⟩ = some d ∧ EndsWith st' d := by
  induction n generalizing src st with
  | zero =>
    obtain rfl : src = [] := List.length_eq_zero_iff.mp (by omega)
    rw [splitOn_nil]
    exact ⟨_, rfl, endsWith_closed st⟩
  | succ n ih =>
    by_cases hempty : src = []
    · subst hempty
      rw [splitOn_nil]
      exact ⟨_, by simp [normalizeLoop], endsWith_closed st⟩
    rw [normalizeLoop, if_neg hempty]
    -- what is left of the path after a component and its separators
    have hskip : ∀ {rest : CString} {st' : List CString}, (∀ c ∈ st', '/' ∉ c) →
        rest.length < src.length →
        match walk st' (rest.splitOn '/') with
        | none => normalizeLoop n ⟨skipSlashes rest, closedComponents st'⟩ = none
        | some st'' => ∃ d, normalizeLoop n ⟨skipSlashes rest, closedComponents st'⟩ = some d ∧
            EndsWith st'' d := by
      intro rest st' hst' hshort
      have hlen := skipSlashes_length rest
      rw [← splitOn_skipSlashes]
      refine ih hst' ?_ (by omega)
      unfold skipSlashes
      intro hhead
      have := List.head?_dropWhile_not (· == '/') rest
      rw [hhead] at this
      simp at this
    rcases component_cases src with ⟨hslash, hsplit⟩ | ⟨c, rest, rfl, hslash, hsplit⟩
    · have hend : ∀ {d}, normalizeLoop n ⟨[], d⟩ = some d := by
        intro d
        cases n <;> simp [normalizeLoop]
      rw [hsplit, walk]
      by_cases hdot : src = ['.']
      · subst hdot
        rw [show walkStep st ['.'] = some st by simp [walkStep]]
        exact ⟨_, hend, endsWith_closed st⟩
      by_cases hup : src = ['.', '.']
      · subst hup
        have hturn : normalizeTurn ⟨['.', '.'], closedComponents st⟩ = upOne ⟨[], closedComponents st⟩ :=
          rfl
        rw [hturn]
        cases st with
        | nil => simp [walkStep, upOne, closedComponents]
        | cons x st =>
          rw [upOne_closed (hst x List.mem_cons_self),
            show walkStep (x :: st) ['.', '.'] = some st by simp [walkStep]]
          exact ⟨_, hend, endsWith_closed st⟩
      · rw [normalizeTurn_name hsplit hdot hup, copyComponent_end hslash,
          show walkStep st src = some (src :: st) by simp [walkStep, hempty, hdot, hup]]
        exact ⟨_, hend, endsWith_name hempty hslash⟩
    · have hc : c ≠ [] := by
        rintro rfl
        exact hsrc rfl
      rw [hsplit, walk]
      have hshort : rest.length < (c ++ '/' :: rest).length := by simp; omega
      by_cases hdot : c = ['.']
      · subst hdot
        rw [show walkStep st ['.'] = some st by simp [walkStep]]
        exact hskip hst hshort
      by_cases hup : c = ['.', '.']
      · subst hup
        have hturn : normalizeTurn ⟨['.', '.'] ++ '/' :: rest, closedComponents st⟩ =
            upOne ⟨skipSlashes rest, closedComponents st⟩ := rfl
        rw [hturn]
        cases st with
        | nil => simp [walkStep, upOne, closedComponents]
        | cons x st =>
          rw [upOne_closed (hst x List.mem_cons_self),
            show walkStep (x :: st) ['.', '.'] = some st by simp [walkStep]]
          exact hskip (fun y hy => hst y (List.mem_cons_of_mem x hy)) hshort
      · rw [normalizeTurn_name hsplit hdot hup, copyComponent_slash hslash,
          show walkStep st c = some (c :: st) by simp [walkStep, hc, hdot, hup]]
        have hst' : ∀ y ∈ c :: st, '/' ∉ y := by
          intro y hy
          rcases List.mem_cons.mp hy with rfl | hy
          · exact hslash
          · exact hst y hy
        exact hskip hst' hshort

theorem component_of (hslash : '/' ∉ c) (hdot : ¬(c = [] ∨ c = ['.'])) (hup : c ≠ ['.', '.']) :
    PathComponent c :=
  ⟨fun he => hdot (Or.inl he), hslash, fun he => hdot (Or.inr he), hup⟩

/-- Once the first slash is gone it does not come back. -/
theorem walk_outside (hst : ∀ c ∈ st, PathComponent c) (hcs : ∀ c ∈ cs, '/' ∉ c) :
    if -1 ≤ lowestDepth ((st.length : Int) - 1) cs then
      ∃ st', walk st cs = some st' ∧ ∀ c ∈ st', PathComponent c
    else walk st cs = none := by
  induction cs generalizing st with
  | nil =>
    rw [lowestDepth, if_pos (by omega)]
    exact ⟨st, rfl, hst⟩
  | cons c cs ih =>
    have hrest : ∀ c' ∈ cs, '/' ∉ c' := fun c' hc' => hcs c' (List.mem_cons_of_mem c hc')
    have hle : lowestDepth ((st.length : Int) - 1 + depthChange c) cs ≤ _ := lowestDepth_le
    rw [walk, lowestDepth]
    by_cases hdot : c = [] ∨ c = ['.']
    · have hzero : depthChange c = 0 := by simp [depthChange, hdot]
      rw [show walkStep st c = some st by simp [walkStep, hdot], Option.bind_some]
      rw [hzero, Int.add_zero] at hle ⊢
      rw [Int.min_eq_right hle]
      exact ih hst hrest
    by_cases hup : c = ['.', '.']
    · subst hup
      have hdown : depthChange ['.', '.'] = -1 := by simp [depthChange]
      rw [hdown] at hle ⊢
      rw [Int.min_eq_right (by omega)]
      cases st with
      | nil =>
        rw [if_neg (by simp only [List.length_nil] at hle ⊢; omega)]
        simp [walkStep]
      | cons x st =>
        rw [show walkStep (x :: st) ['.', '.'] = some st by simp [walkStep], Option.bind_some]
        have hlen : ((x :: st).length : Int) - 1 + -1 = (st.length : Int) - 1 := by
          rw [List.length_cons]
          omega
        rw [hlen]
        exact ih (fun y hy => hst y (List.mem_cons_of_mem x hy)) hrest
    · have hc := component_of (hcs c List.mem_cons_self) hdot hup
      have hdeeper : depthChange c = 1 := by simp [depthChange, hdot, hup]
      have hlow : ∀ v : Int, -1 ≤ min ((st.length : Int) - 1) v ↔ -1 ≤ v := by
        intro v
        omega
      have hlen : ((c :: st).length : Int) - 1 = (st.length : Int) - 1 + 1 := by
        rw [List.length_cons]
        omega
      rw [show walkStep st c = some (c :: st) by simp [walkStep, hdot, hup], Option.bind_some, hdeeper]
      simp only [hlow]
      rw [← hlen]
      refine ih ?_ hrest
      intro y hy
      rcases List.mem_cons.mp hy with rfl | hy
      · exact hc
      · exact hst y hy

/-- What the walk does with the first slash still written. -/
theorem walk_inside (hnames : ∀ c ∈ names, PathComponent c) (hcs : ∀ c ∈ cs, '/' ∉ c) :
    if 0 ≤ lowestDepth (names.length : Int) cs then
      walk (names ++ [[]]) cs = some (cs.foldl lexicalStep names ++ [[]])
    else if lowestDepth (names.length : Int) cs = -1 then
      ∃ st', walk (names ++ [[]]) cs = some st' ∧ ∀ c ∈ st', PathComponent c
    else walk (names ++ [[]]) cs = none := by
  induction cs generalizing names with
  | nil =>
    rw [lowestDepth, if_pos (by omega)]
    rfl
  | cons c cs ih =>
    have hrest : ∀ c' ∈ cs, '/' ∉ c' := fun c' hc' => hcs c' (List.mem_cons_of_mem c hc')
    have hle : lowestDepth ((names.length : Int) + depthChange c) cs ≤ _ := lowestDepth_le
    rw [walk, lowestDepth, List.foldl_cons]
    by_cases hdot : c = [] ∨ c = ['.']
    · have hzero : depthChange c = 0 := by simp [depthChange, hdot]
      rw [show walkStep (names ++ [[]]) c = some (names ++ [[]]) by simp [walkStep, hdot],
        show lexicalStep names c = names by simp [lexicalStep, hdot], Option.bind_some]
      rw [hzero, Int.add_zero] at hle ⊢
      rw [Int.min_eq_right hle]
      exact ih hnames hrest
    by_cases hup : c = ['.', '.']
    · subst hup
      have hdown : depthChange ['.', '.'] = -1 := by simp [depthChange]
      rw [hdown] at hle ⊢
      rw [Int.min_eq_right (by omega)]
      cases names with
      | nil =>
        have hout := walk_outside (List.forall_mem_nil PathComponent) hrest
        rw [if_neg (by simp only [List.length_nil] at hle ⊢; omega)]
        rw [show walkStep ([] ++ [[]]) ['.', '.'] = some [] by simp [walkStep], Option.bind_some]
        rw [show ((([] : List CString).length : Int) - 1) = ((([] : List CString).length : Int) + -1)
          from rfl] at hout
        split
        next he =>
          rw [if_pos (by omega)] at hout
          exact hout
        next he =>
          rw [if_neg (by simp only [List.length_nil] at hle he ⊢; omega)] at hout
          exact hout
      | cons x names =>
        have hlen : ((x :: names).length : Int) + -1 = (names.length : Int) := by
          rw [List.length_cons]
          omega
        rw [show walkStep (x :: names ++ [[]]) ['.', '.'] = some (names ++ [[]]) by simp [walkStep],
          show lexicalStep (x :: names) ['.', '.'] = names by simp [lexicalStep], Option.bind_some, hlen]
        exact ih (fun y hy => hnames y (List.mem_cons_of_mem x hy)) hrest
    · have hc := component_of (hcs c List.mem_cons_self) hdot hup
      have hdeeper : depthChange c = 1 := by simp [depthChange, hdot, hup]
      have hlow : ∀ v : Int, (0 ≤ min (names.length : Int) v ↔ 0 ≤ v) ∧
          (min (names.length : Int) v = -1 ↔ v = -1) := by
        intro v
        omega
      have hlen : ((c :: names).length : Int) = (names.length : Int) + 1 := by
        rw [List.length_cons]
        omega
      rw [show walkStep (names ++ [[]]) c = some ((c :: names) ++ [[]]) by simp [walkStep, hdot, hup],
        show lexicalStep names c = c :: names by simp [lexicalStep, hdot, hup], Option.bind_some,
        hdeeper]
      simp only [hlow]
      rw [← hlen]
      refine ih ?_ hrest
      intro y hy
      rcases List.mem_cons.mp hy with rfl | hy
      · exact hc
      · exact hnames y hy

theorem closedComponents_reverse (names : List CString) :
    (closedComponents (names ++ [[]])).reverse = joinComponents names.reverse ++ ['/'] := by
  induction names with
  | nil => simp [closedComponents, joinComponents]
  | cons c names ih =>
    have hcons : closedComponents (c :: names ++ [[]]) =
        '/' :: (c.reverse ++ closedComponents (names ++ [[]])) := rfl
    rw [hcons, List.reverse_cons, List.reverse_append, ih]
    simp [joinComponents]

/-- With the first slash still written the path is the one resolved. -/
theorem walkPath_inside (hnames : ∀ c ∈ names, PathComponent c) :
    walkPath (names ++ [[]]) = absolutePath names.reverse := by
  unfold walkPath absolutePath
  cases names with
  | nil => simp
  | cons c names =>
    have hne : ¬(c :: names ++ [[]] = [] ∨ c :: names ++ [[]] = [[]]) := by simp
    have hrev := closedComponents_reverse (c :: names)
    obtain ⟨rest, hrest⟩ : ∃ rest, closedComponents (c :: names ++ [[]]) = '/' :: rest :=
      ⟨_, rfl⟩
    rw [if_neg hne, if_neg (by simp), hrest, List.tail_cons]
    rw [hrest, List.reverse_cons] at hrev
    exact List.append_cancel_right hrev

/-- Without it the path does not begin with a slash. -/
theorem walkPath_outside (hst : ∀ c ∈ st, PathComponent c) (hne : st ≠ []) :
    (walkPath st).head? ≠ some '/' := by
  have hnot : ¬(st = [] ∨ st = [[]]) := by
    rintro (rfl | rfl)
    · exact hne rfl
    · exact (hst [] List.mem_cons_self).1 rfl
  unfold walkPath
  rw [if_neg hnot]
  obtain ⟨st0, c, rfl⟩ := List.eq_nil_or_concat st |>.resolve_left hne
  obtain ⟨hcne, hslash, -⟩ := hst c (by simp)
  obtain ⟨x, xs, rfl⟩ := List.exists_cons_of_ne_nil hcne
  have hx : x ≠ '/' := fun he => hslash (he ▸ List.mem_cons_self)
  have hlast : closedComponents (st0 ++ [x :: xs]) = closedComponents st0 ++ '/' :: (x :: xs).reverse := by
    simp [closedComponents]
  rw [List.concat_eq_append, hlast]
  rcases closedComponents_head st0 with ⟨he, -⟩ | ⟨rest, he⟩
  · rw [he]
    simpa using hx
  · rw [he]
    simpa using hx

end

end RTThread
