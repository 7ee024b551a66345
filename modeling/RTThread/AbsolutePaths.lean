import Mathlib.Tactic

namespace RTThread

/-- A name between two separators that is not one of the two relative ones. -/
def PathComponent (c : List Char) : Prop :=
  c ≠ [] ∧ '/' ∉ c ∧ c ≠ ['.'] ∧ c ≠ ['.', '.']

def joinComponents (cs : List (List Char)) : List Char := cs.flatMap ('/' :: ·)

def absolutePath (cs : List (List Char)) : List Char :=
  if cs = [] then ['/'] else joinComponents cs

def Normalised (path : List Char) : Prop :=
  ∃ cs, (∀ c ∈ cs, PathComponent c) ∧ path = absolutePath cs

/-- `mount` is `path` or is followed in it by a separator; the root covers everything. -/
def Covers (mount path : List Char) : Prop :=
  mount = path ∨ mount = ['/'] ∨ mount ++ ['/'] <+: path

section
variable {path mount mount' : List Char}

theorem Normalised.cases (h : Normalised path) :
    path = ['/'] ∨ ∃ c rest, c ≠ '/' ∧ path = '/' :: c :: rest := by
  obtain ⟨cs, hcs, rfl⟩ := h
  cases cs with
  | nil => exact .inl rfl
  | cons d cs =>
    obtain ⟨hne, hslash, -⟩ := hcs d List.mem_cons_self
    obtain _ | ⟨c, d⟩ := d
    · exact absurd rfl hne
    · refine .inr ⟨c, d ++ joinComponents cs, fun hc => hslash (hc ▸ List.mem_cons_self), ?_⟩
      simp [absolutePath, joinComponents]

theorem Normalised.slash_prefix (h : Normalised path) : ['/'] <+: path := by
  obtain rfl | ⟨c, rest, -, rfl⟩ := h.cases
  · exact List.prefix_refl _
  · exact ⟨c :: rest, rfl⟩

theorem Normalised.length_pos (h : Normalised path) : 0 < path.length :=
  h.slash_prefix.length_le

theorem Normalised.eq_root (h : Normalised path) (hlen : path.length ≤ 1) : path = ['/'] := by
  obtain rfl | ⟨c, rest, -, rfl⟩ := h.cases
  · rfl
  · simp at hlen

theorem Covers.prefix_of (h : Covers mount path) (hpath : Normalised path) : mount <+: path := by
  rcases h with rfl | rfl | hsep
  · exact List.prefix_refl _
  · exact hpath.slash_prefix
  · exact (List.prefix_append mount ['/']).trans hsep

/-- What covers a path is known from its length. -/
theorem Covers.unique (h : Covers mount path) (h' : Covers mount' path) (hpath : Normalised path)
    (hlen : mount.length = mount'.length) : mount = mount' :=
  (List.prefix_of_prefix_length_le (h.prefix_of hpath) (h'.prefix_of hpath) hlen.le).eq_of_length
    hlen

theorem separator_prefix_iff (h : mount <+: path) (hlt : mount.length < path.length) :
    mount ++ ['/'] <+: path ↔ path[mount.length]? = some '/' := by
  obtain ⟨rest, rfl⟩ := h
  obtain _ | ⟨c, rest⟩ := rest
  · simp at hlt
  · simp only [List.prefix_append_right_inj, List.cons_prefix_cons, List.nil_prefix, and_true]
    simp [eq_comm]

end

/-- One component in the lexical resolution of a path; the last name kept comes first. -/
def lexicalStep (names : List (List Char)) (c : List Char) : List (List Char) :=
  if c = [] ∨ c = ['.'] then names else if c = ['.', '.'] then names.tail else c :: names

/-- The path without its empty and relative components; `..` at the root stays there. -/
def lexicalResolve (path : List Char) : List Char :=
  absolutePath ((path.splitOn '/').foldl lexicalStep []).reverse

/-- How much deeper a component leads. -/
def depthChange (c : List Char) : Int :=
  if c = [] ∨ c = ['.'] then 0 else if c = ['.', '.'] then -1 else 1

/-- The least depth on the way through the components, from depth `d`. -/
def lowestDepth (d : Int) : List (List Char) → Int
  | [] => d
  | c :: cs => min d (lowestDepth (d + depthChange c) cs)

section
variable {path c : List Char} {names cs : List (List Char)} {d : Int}

theorem lowestDepth_le : lowestDepth d cs ≤ d := by
  cases cs with
  | nil => exact Int.le_refl d
  | cons c cs => exact Int.min_le_left _ _

theorem splitOn_no_separator {α : Type} [DecidableEq α] {a : α} (xs : List α) :
    ∀ c ∈ xs.splitOn a, a ∉ c := by
  induction xs with
  | nil => simp [List.splitOn_eq_singleton]
  | cons x xs ih =>
    intro c hc
    rw [List.splitOn_cons_eq_if_modifyHead] at hc
    split at hc
    next =>
      rcases List.mem_cons.mp hc with rfl | hc
      · exact List.not_mem_nil
      · exact ih c hc
    next hx =>
      obtain ⟨y, ys, hy⟩ := List.exists_cons_of_ne_nil (List.splitOn_ne_nil a xs)
      rw [hy] at hc ih
      rcases List.mem_cons.mp hc with rfl | hc
      · have hne : ¬a = x := fun he => hx (by simp [he])
        simpa [hne] using ih y List.mem_cons_self
      · exact ih c (List.mem_cons_of_mem y hc)

theorem lexicalStep_components (hnames : ∀ x ∈ names, PathComponent x) (hc : '/' ∉ c) :
    ∀ x ∈ lexicalStep names c, PathComponent x := by
  unfold lexicalStep
  split
  · exact hnames
  split
  · exact fun x hx => hnames x (List.mem_of_mem_tail hx)
  next hdot hup =>
    intro x hx
    rcases List.mem_cons.mp hx with rfl | hx
    · exact ⟨fun he => hdot (Or.inl he), hc, fun he => hdot (Or.inr he), hup⟩
    · exact hnames x hx

theorem foldl_lexicalStep_components (hnames : ∀ x ∈ names, PathComponent x)
    (hcs : ∀ c ∈ cs, '/' ∉ c) : ∀ x ∈ cs.foldl lexicalStep names, PathComponent x := by
  induction cs generalizing names with
  | nil => exact hnames
  | cons c cs ih =>
    rw [List.foldl_cons]
    exact ih (lexicalStep_components hnames (hcs c List.mem_cons_self))
      fun c' hc' => hcs c' (List.mem_cons_of_mem c hc')

theorem lexicalResolve_normalised (path : List Char) : Normalised (lexicalResolve path) := by
  refine ⟨_, fun c hc => ?_, rfl⟩
  exact foldl_lexicalStep_components (by simp) (splitOn_no_separator path) c (List.mem_reverse.mp hc)

theorem splitOn_separator (rest : List Char) :
    ('/' :: rest).splitOn '/' = [] :: rest.splitOn '/' :=
  List.splitOn_append_cons_self_of_not_mem (List.not_mem_nil : '/' ∉ []) rest

theorem splitOn_root : ['/'].splitOn '/' = [[], []] := by
  rw [splitOn_separator, List.splitOn_eq_singleton List.not_mem_nil]

theorem splitOn_joinComponents (hcs : ∀ c ∈ cs, PathComponent c) :
    (joinComponents cs).splitOn '/' = [] :: cs := by
  induction cs with
  | nil => exact List.splitOn_eq_singleton List.not_mem_nil
  | cons c cs ih =>
    have hrest := ih fun x hx => hcs x (List.mem_cons_of_mem c hx)
    have hslash := (hcs c List.mem_cons_self).2.1
    have hjoin : joinComponents (c :: cs) = '/' :: (c ++ joinComponents cs) := by
      simp [joinComponents]
    rw [hjoin, splitOn_separator]
    congr 1
    cases cs with
    | nil =>
      rw [show joinComponents [] = [] from rfl, List.append_nil, List.splitOn_eq_singleton hslash]
    | cons x xs =>
      have hcons : joinComponents (x :: xs) = '/' :: (x ++ joinComponents xs) := by
        simp [joinComponents]
      rw [hcons] at hrest ⊢
      rw [List.splitOn_append_cons_self_of_not_mem hslash]
      congr 1
      rw [splitOn_separator] at hrest
      exact (List.cons.inj hrest).2

theorem foldl_lexicalStep_names (hcs : ∀ c ∈ cs, PathComponent c) :
    cs.foldl lexicalStep names = cs.reverse ++ names := by
  induction cs generalizing names with
  | nil => rfl
  | cons c cs ih =>
    obtain ⟨hne, -, hdot, hup⟩ := hcs c List.mem_cons_self
    rw [List.foldl_cons, ih fun x hx => hcs x (List.mem_cons_of_mem c hx)]
    simp [lexicalStep, hne, hdot, hup]

/-- What is normalised already is left as it is. -/
theorem lexicalResolve_of_normalised (h : Normalised path) : lexicalResolve path = path := by
  obtain ⟨cs, hcs, rfl⟩ := h
  unfold lexicalResolve absolutePath
  by_cases hnil : cs = []
  · subst hnil
    simp [splitOn_root, lexicalStep]
  · rw [if_neg hnil, splitOn_joinComponents hcs, List.foldl_cons]
    rw [show lexicalStep [] [] = [] by simp [lexicalStep], foldl_lexicalStep_names hcs]
    simp [hnil]

theorem lowestDepth_of_names (hcs : ∀ c ∈ cs, PathComponent c) : lowestDepth d cs = d := by
  induction cs generalizing d with
  | nil => rfl
  | cons c cs ih =>
    obtain ⟨hne, -, hdot, hup⟩ := hcs c List.mem_cons_self
    have hdeeper : depthChange c = 1 := by simp [depthChange, hne, hdot, hup]
    rw [lowestDepth, ih fun x hx => hcs x (List.mem_cons_of_mem c hx), hdeeper]
    omega

/-- A normalised path never leads above its root. -/
theorem lowestDepth_of_normalised (h : Normalised path) : lowestDepth 0 (path.splitOn '/') = 0 := by
  obtain ⟨cs, hcs, rfl⟩ := h
  unfold absolutePath
  split
  · simp [splitOn_root, lowestDepth, depthChange]
  · rw [splitOn_joinComponents hcs, lowestDepth]
    simp [depthChange, lowestDepth_of_names hcs]

end

end RTThread
