import RTThread.DfsPaths
import RTThread.Runs

namespace RTThread

/-- A name that a kernel object keeps whole. -/
structure PosixName (nameMax : Nat) where
  chars : CString
  short : chars.length < nameMax
deriving DecidableEq

/-- `struct posix_sem` or `struct mqdes`, with the name of the kernel object it points to. -/
structure PosixNode (nameMax : Nat) where
  id : Nat
  addr : Nat
  object : Nat
  name : PosixName nameMax
  refcount : Nat
  unlinked : Bool
deriving DecidableEq

/-- `posix_sem_list` or `posix_mq_list`, and what tells the next object apart. -/
structure PosixList (nameMax : Nat) where
  nodes : List (PosixNode nameMax)
  next : Nat

def PosixNode.incref {nameMax : Nat} (node : PosixNode nameMax) : PosixNode nameMax :=
  { node with refcount := (node.refcount + 1) % 65536 }

def PosixNode.decref {nameMax : Nat} (node : PosixNode nameMax) : PosixNode nameMax :=
  { node with refcount := if node.refcount = 0 then 65535 else node.refcount - 1 }

def PosixNode.unlink {nameMax : Nat} (node : PosixNode nameMax) : PosixNode nameMax :=
  { node with unlinked := true }

/-- Each object is inserted before the others. -/
def PosixList.insert {nameMax : Nat} (s : PosixList nameMax) (name : PosixName nameMax)
    (addr object : Nat) : PosixList nameMax :=
  ⟨⟨s.next, addr, object, name, 1, false⟩ :: s.nodes, s.next + 1⟩

def PosixList.update {nameMax : Nat} (s : PosixList nameMax) (id : Nat)
    (f : PosixNode nameMax → PosixNode nameMax) : PosixList nameMax :=
  { s with nodes := s.nodes.map fun node => if node.id = id then f node else node }

def posixDelete {nameMax : Nat} (s : PosixList nameMax) (id : Nat) : PosixList nameMax :=
  { s with nodes := s.nodes.eraseP fun node => node.id = id }

/-- Finding a name; the first argument is what the memory behind a block holds. -/
abbrev PosixFind (nameMax : Nat) :=
  (Nat → CString) → List (PosixNode nameMax) → PosixName nameMax → Option (PosixNode nameMax)

def posixMqFind {nameMax : Nat} : PosixFind nameMax := fun _ nodes name =>
  nodes.find? fun node => strncmpEq node.name.chars name.chars nameMax

/-- The bytes of a pointer, the low byte first. -/
def pointerChars (p : Nat) : CString :=
  [0, 8, 16, 24].map fun shift => Char.ofNat ((p >>> shift) % 256)

/-- The characters at `&iter->sem`: the pointers `sem` and `next` and then what comes behind the
structure, up to a NUL. -/
def semChars {nameMax : Nat} (behind : Nat → CString) (node : PosixNode nameMax) (next : Nat) :
    CString :=
  (pointerChars node.object ++ pointerChars next ++ behind node.addr).takeWhile (· ≠ '\x00')

def posixSemFind {nameMax : Nat} : PosixFind nameMax
  | _, [], _ => none
  | behind, node :: nodes, name =>
    let next := (nodes.head?.map PosixNode.addr).getD 0
    if strncmpEq (semChars behind node next) name.chars nameMax then some node
    else posixSemFind behind nodes name

/-- `create` and `excl` are the two flags, and `mem` the addresses of the structure and the kernel
object unless one of them cannot be allocated. -/
inductive PosixCall (nameMax : Nat) where
  | open (behind : Nat → CString) (name : PosixName nameMax) (create excl : Bool)
    (mem : Option (Nat × Nat))
  | close (id : Nat)
  | unlink (behind : Nat → CString) (name : PosixName nameMax)

inductive PosixAnswer where
  | handle (id : Option Nat)
  | code (n : Int)
deriving DecidableEq

section
variable {nameMax : Nat}

/-- `sem_open` and `mq_open`. -/
def namedOpen (find : PosixFind nameMax) (s : PosixList nameMax) (behind : Nat → CString)
    (name : PosixName nameMax) (create excl : Bool) (mem : Option (Nat × Nat)) :
    Option Nat × PosixList nameMax :=
  if create then
    if excl && (find behind s.nodes name).isSome then (none, s)
    else match mem with
      | none => (none, s)
      | some (addr, object) => (some s.next, s.insert name addr object)
  else match find behind s.nodes name with
    | some node => (some node.id, s.update node.id PosixNode.incref)
    | none => (none, s)

/-- `sem_close` and `mq_close`; `none` is a handle that points to freed memory. -/
def namedClose (s : PosixList nameMax) (id : Nat) : Option (PosixList nameMax) :=
  (s.nodes.find? fun node => node.id = id).map fun node =>
    let s := s.update id PosixNode.decref
    if node.decref.refcount = 0 ∧ node.unlinked then posixDelete s id else s

/-- `sem_unlink` and `mq_unlink`. -/
def namedUnlink (find : PosixFind nameMax) (s : PosixList nameMax) (behind : Nat → CString)
    (name : PosixName nameMax) : Int × PosixList nameMax :=
  match find behind s.nodes name with
  | some node =>
    let s := s.update node.id PosixNode.unlink
    (0, if node.refcount = 0 then posixDelete s node.id else s)
  | none => (-1, s)

def posixCall (find : PosixFind nameMax) (s : PosixList nameMax) :
    PosixCall nameMax → Option (PosixAnswer × PosixList nameMax)
  | .open behind name create excl mem =>
    let (id, s) := namedOpen find s behind name create excl mem
    some (.handle id, s)
  | .close id => (namedClose s id).map fun s => (.code 0, s)
  | .unlink behind name =>
    let (n, s) := namedUnlink find s behind name
    some (.code n, s)

def posixStep (find : PosixFind nameMax) (s : PosixList nameMax) (call : PosixCall nameMax) :
    Option (PosixList nameMax) :=
  (posixCall find s call).map Prod.snd

/-- An object of the registry: the opens of it less the closes, and whether its name was
unlinked. -/
structure PosixEntry (nameMax : Nat) where
  id : Nat
  name : PosixName nameMax
  count : Int
  unlinked : Bool

def PosixNode.entry (node : PosixNode nameMax) : PosixEntry nameMax :=
  ⟨node.id, node.name, node.refcount, node.unlinked⟩

def PosixList.entries (s : PosixList nameMax) : List (PosixEntry nameMax) :=
  s.nodes.map PosixNode.entry

/-- Objects that are unlinked and not open are freed. -/
def keepOpen (l : List (PosixEntry nameMax)) : List (PosixEntry nameMax) :=
  l.filter fun e => !(e.unlinked && e.count == 0)

/-- What a call and its answer do to the registry. -/
def accounted (l : List (PosixEntry nameMax)) :
    PosixCall nameMax → PosixAnswer → List (PosixEntry nameMax)
  | .open _ name _ _ _, .handle (some id) =>
    if ∃ e ∈ l, e.id = id then
      l.map fun e => if e.id = id then { e with count := e.count + 1 } else e
    else ⟨id, name, 1, false⟩ :: l
  | .close id, _ =>
    keepOpen (l.map fun e => if e.id = id then { e with count := e.count - 1 } else e)
  | .unlink _ name, _ =>
    keepOpen (l.map fun e => if e.name = name then { e with unlinked := true } else e)
  | _, _ => l

def OneLive (l : List (PosixEntry nameMax)) : Prop :=
  l.Pairwise fun a b => a.unlinked = false → b.unlinked = false → a.name ≠ b.name

/-- Opening a name that is there: its object, or a failure if it has to be new. -/
def OpensRight (l : List (PosixEntry nameMax)) : PosixCall nameMax → PosixAnswer → Prop
  | .open _ name create excl _, answer =>
    ∀ e ∈ l, e.unlinked = false → e.name = name →
      (excl = false → answer = .handle (some e.id)) ∧
        (create = true → excl = true → answer = .handle none)
  | _, _ => True

def RegistryRight (find : PosixFind nameMax) (s : PosixList nameMax) (call : PosixCall nameMax) :
    Prop :=
  ∀ r ∈ posixCall find s call, r.2.entries = accounted s.entries call r.1 ∧
    OneLive r.2.entries ∧ OpensRight s.entries call r.1

def PosixNode.Live (node : PosixNode nameMax) (name : PosixName nameMax) : Prop :=
  node.unlinked = false ∧ node.name = name

/-- Where the search serves the call: it finds the object that has the name, or finds something
where the open has to fail; an object is found only by its name or when it is unlinked; and no
reference count wraps. -/
def FindsLive (find : PosixFind nameMax) (s : PosixList nameMax) : PosixCall nameMax → Prop
  | .open behind name create excl mem =>
    (∀ node ∈ s.nodes, node.Live name →
      if create then excl = true ∧ ((find behind s.nodes name).isSome = true ∨ mem = none)
      else excl = true ∨ find behind s.nodes name = some node) ∧
    (create = false → ∀ node ∈ find behind s.nodes name, node.refcount < 65535)
  | .close id => ∀ node ∈ s.nodes, node.id = id → 0 < node.refcount
  | .unlink behind name =>
    (∀ node ∈ s.nodes, node.Live name → find behind s.nodes name = some node) ∧
      ∀ node ∈ find behind s.nodes name, node.unlinked = true ∨ node.name = name

/-- Message queues: a name that is there is not created without `O_EXCL`, and no reference count
wraps. -/
def MqNamesNew (s : PosixList nameMax) : PosixCall nameMax → Prop
  | .open _ name create excl _ =>
    if create then excl = true ∨ ∀ node ∈ s.nodes, ¬node.Live name
    else ∀ node ∈ s.nodes.find? (fun node => node.name = name), node.refcount < 65535
  | .close id => ∀ node ∈ s.nodes, node.id = id → 0 < node.refcount
  | .unlink _ _ => True

end

section
variable {nameMax : Nat} {find : PosixFind nameMax} {s s' : PosixList nameMax}
  {name : PosixName nameMax} {node : PosixNode nameMax} {nodes : List (PosixNode nameMax)}
  {behind : Nat → CString} {id : Nat} {f : PosixNode nameMax → PosixNode nameMax}

/-- What the calls keep: of the objects with one name all but the latest are unlinked. -/
structure PosixInv (s : PosixList nameMax) : Prop where
  ids : s.nodes.Pairwise fun a b => a.id ≠ b.id
  fresh : ∀ node ∈ s.nodes, node.id < s.next
  bound : ∀ node ∈ s.nodes, node.refcount < 65536
  held : ∀ node ∈ s.nodes, node.unlinked = true → 0 < node.refcount
  first : s.nodes.Pairwise fun a b => a.name = b.name → b.unlinked = true

/-- The search returns a node of the list. -/
def FindsMember (find : PosixFind nameMax) : Prop :=
  ∀ behind nodes name, ∀ node ∈ find behind nodes name, node ∈ nodes

theorem posixMqFind_member : FindsMember (posixMqFind : PosixFind nameMax) :=
  fun _ _ _ _ hfind => List.mem_of_find?_eq_some hfind

theorem posixSemFind_member : FindsMember (posixSemFind : PosixFind nameMax) := by
  intro behind nodes name node hfind
  induction nodes with
  | nil => simp [posixSemFind] at hfind
  | cons first nodes ih =>
    unfold posixSemFind at hfind
    simp only at hfind
    split at hfind
    next => exact Option.some.inj hfind ▸ List.mem_cons_self
    next => exact List.mem_cons_of_mem _ (ih hfind)

theorem strncmpEq_short {a b : CString} {n : Nat} (ha : a.length < n) (hb : b.length < n) :
    strncmpEq a b n = true ↔ a = b := by
  induction a generalizing b n with
  | nil =>
    obtain ⟨m, rfl⟩ := Nat.exists_eq_succ_of_ne_zero (Nat.ne_zero_of_lt ha)
    cases b <;> simp [strncmpEq]
  | cons x a ih =>
    obtain ⟨m, rfl⟩ := Nat.exists_eq_succ_of_ne_zero (Nat.ne_zero_of_lt ha)
    cases b with
    | nil => simp [strncmpEq]
    | cons y b =>
      simp only [List.length_cons, Nat.succ_lt_succ_iff] at ha hb
      simp [strncmpEq, ih ha hb]

theorem posixMqFind_eq (behind : Nat → CString) : posixMqFind behind nodes name =
    nodes.find? fun node => node.name = name := by
  unfold posixMqFind
  congr 1
  funext node
  apply Bool.eq_iff_iff.mpr
  rw [strncmpEq_short node.name.short name.short, decide_eq_true_eq]
  constructor
  · intro h
    obtain ⟨⟨chars, hshort⟩, hname⟩ : ∃ n, n = node.name := ⟨_, rfl⟩
    cases name
    rw [← hname] at h ⊢
    cases h
    rfl
  · rintro rfl
    rfl

/-- A message queue is found by its name as long as it is not unlinked. -/
theorem posixMqFind_live (hfirst : nodes.Pairwise fun a b => a.name = b.name → b.unlinked = true)
    (hnode : node ∈ nodes) (hlive : node.Live name) :
    posixMqFind behind nodes name = some node := by
  rw [posixMqFind_eq]
  obtain ⟨hopen, hname⟩ := hlive
  induction nodes with
  | nil => simp at hnode
  | cons first nodes ih =>
    obtain ⟨hbefore, hrest⟩ := List.pairwise_cons.mp hfirst
    rcases List.mem_cons.mp hnode with rfl | hlater
    · rw [List.find?_cons_of_pos (by simpa using hname)]
    · have hne : first.name ≠ name := by
        intro hsame
        have hunlinked := hbefore node hlater (hsame.trans hname.symm)
        rw [hopen] at hunlinked
        exact Bool.noConfusion hunlinked
      rw [List.find?_cons_of_neg (by simpa using hne)]
      exact ih hrest hlater

/-- What a call writes to a node leaves its identity and its name and does not link it again. -/
def WritesNode (f : PosixNode nameMax → PosixNode nameMax) : Prop :=
  ∀ node, (f node).id = node.id ∧ (f node).name = node.name ∧
    (node.unlinked = true → (f node).unlinked = true)

theorem WritesNode.update (h : WritesNode f) :
    WritesNode fun node => if node.id = id then f node else node := by
  intro node
  simp only
  split
  next => exact h node
  next => exact ⟨rfl, rfl, fun hu => hu⟩

theorem PosixNode.decref_unlinked : node.decref.unlinked = node.unlinked := by
  simp only [PosixNode.decref]

theorem writesNode_incref : WritesNode (PosixNode.incref : PosixNode nameMax → _) :=
  fun _ => ⟨rfl, rfl, fun hu => hu⟩

theorem writesNode_decref : WritesNode (PosixNode.decref : PosixNode nameMax → _) := by
  intro node
  simp only [PosixNode.decref, imp_self, and_self]

theorem writesNode_unlink : WritesNode (PosixNode.unlink : PosixNode nameMax → _) :=
  fun _ => ⟨rfl, rfl, fun _ => rfl⟩

theorem ids_update (hids : s.nodes.Pairwise fun a b => a.id ≠ b.id) (hf : WritesNode f) :
    (s.update id f).nodes.Pairwise fun a b => a.id ≠ b.id := by
  apply List.pairwise_map.mpr
  apply hids.imp
  intro a b hab
  rw [(hf.update a).1, (hf.update b).1]
  exact hab

theorem first_update (hfirst : s.nodes.Pairwise fun a b => a.name = b.name → b.unlinked = true)
    (hf : WritesNode f) :
    (s.update id f).nodes.Pairwise fun a b => a.name = b.name → b.unlinked = true := by
  apply List.pairwise_map.mpr
  apply hfirst.imp
  intro a b hab
  rw [(hf.update a).2.1, (hf.update b).2.1]
  exact fun hname => (hf.update b).2.2 (hab hname)

theorem mem_update {n : PosixNode nameMax} (h : n ∈ (s.update id f).nodes) :
    ∃ node ∈ s.nodes, n = if node.id = id then f node else node := by
  obtain ⟨node, hnode, rfl⟩ := List.mem_map.mp h
  exact ⟨node, hnode, rfl⟩

theorem eraseP_id (hids : nodes.Pairwise fun a b => a.id ≠ b.id) :
    nodes.eraseP (fun node => node.id = id) = nodes.filter fun node => node.id ≠ id := by
  induction nodes with
  | nil => rfl
  | cons first nodes ih =>
    obtain ⟨hfirst, hrest⟩ := List.pairwise_cons.mp hids
    by_cases h : first.id = id
    · rw [List.eraseP_cons_of_pos (by simpa using h), List.filter_cons_of_neg (by simpa using h)]
      apply (List.filter_eq_self.mpr _).symm
      intro n hn
      have hne := hfirst n hn
      rw [h] at hne
      simpa using hne.symm
    · rw [List.eraseP_cons_of_neg (by simpa using h), List.filter_cons_of_pos (by simpa using h),
        ih hrest]

theorem PosixInv.same (h : PosixInv s) {a b : PosixNode nameMax} (ha : a ∈ s.nodes)
    (hb : b ∈ s.nodes) (hid : a.id = b.id) : a = b := by
  have hnodup : (s.nodes.map PosixNode.id).Nodup := List.pairwise_map.mpr h.ids
  exact List.inj_on_of_nodup_map hnodup ha hb hid

/-- Deleting the object of a call if it has become free frees what is free. -/
theorem settled_nodes (h : PosixInv s) (hnode : node ∈ s.nodes) (hf : WritesNode f) {dead : Prop}
    [Decidable dead] (hdead : dead ↔ (f node).unlinked = true ∧ (f node).refcount = 0) :
    (if dead then posixDelete (s.update node.id f) node.id else s.update node.id f).nodes =
      (s.update node.id f).nodes.filter fun n => !(n.unlinked && n.refcount == 0) := by
  have hcases : ∀ n ∈ (s.update node.id f).nodes,
      n = f node ∨ n.id ≠ node.id ∧ (n.unlinked = true → 0 < n.refcount) := by
    intro n hn
    obtain ⟨m, hm, rfl⟩ := mem_update hn
    by_cases hid : m.id = node.id
    · rw [if_pos hid, h.same hm hnode hid]
      exact .inl rfl
    · rw [if_neg hid]
      exact .inr ⟨hid, h.held m hm⟩
  split
  next hd =>
    rw [posixDelete, eraseP_id (ids_update h.ids hf)]
    apply List.filter_congr
    intro n hn
    rcases hcases n hn with rfl | ⟨hid, hheld⟩
    · obtain ⟨hu, hz⟩ := hdead.mp hd
      simp [(hf node).1, hu, hz]
    · cases hu : n.unlinked with
      | false => simp [hid]
      | true =>
        have hpos := hheld hu
        simp [hid]
        omega
  next hd =>
    apply (List.filter_eq_self.mpr _).symm
    intro n hn
    rcases hcases n hn with rfl | ⟨-, hheld⟩
    · have hno := mt hdead.mpr hd
      cases hu : (f node).unlinked with
      | false => rfl
      | true => simpa [hu] using hno
    · cases hu : n.unlinked with
      | false => rfl
      | true =>
        have hpos := hheld hu
        simp
        omega

theorem keepOpen_entries : keepOpen s.entries =
    (s.nodes.filter fun n => !(n.unlinked && n.refcount == 0)).map PosixNode.entry := by
  unfold keepOpen PosixList.entries
  rw [List.filter_map]
  congr 1
  apply List.filter_congr
  intro n _
  have hcount : ((n.refcount : Int) == 0) = (n.refcount == 0) := by
    apply Bool.eq_iff_iff.mpr
    simp
  simp only [Function.comp, PosixNode.entry, hcount]

theorem entries_update {g : PosixEntry nameMax → PosixEntry nameMax}
    (hg : ∀ node ∈ s.nodes, node.id = id → (f node).entry = g node.entry) :
    (s.update id f).entries = s.entries.map fun e => if e.id = id then g e else e := by
  unfold PosixList.entries PosixList.update
  rw [List.map_map, List.map_map]
  apply List.map_congr_left
  intro node hnode
  simp only [Function.comp]
  by_cases hid : node.id = id
  · rw [if_pos hid, if_pos (show node.entry.id = id from hid)]
    exact hg node hnode hid
  · rw [if_neg hid, if_neg (show ¬node.entry.id = id from hid)]

theorem oneLive_of_first
    (hfirst : s.nodes.Pairwise fun a b => a.name = b.name → b.unlinked = true) :
    OneLive s.entries := by
  apply List.pairwise_map.mpr
  apply hfirst.imp
  intro a b hab _ hb hname
  have hu := hab hname
  rw [show b.unlinked = false from hb] at hu
  exact Bool.noConfusion hu

theorem settled_entries (h : PosixInv s) (hnode : node ∈ s.nodes) (hf : WritesNode f) {dead : Prop}
    [Decidable dead] (hdead : dead ↔ (f node).unlinked = true ∧ (f node).refcount = 0) :
    (if dead then posixDelete (s.update node.id f) node.id else s.update node.id f).entries =
      keepOpen (s.update node.id f).entries := by
  rw [keepOpen_entries, ← settled_nodes h hnode hf hdead]
  rfl

theorem settled_inv (h : PosixInv s) (hnode : node ∈ s.nodes) (hf : WritesNode f) {dead : Prop}
    [Decidable dead] (hdead : dead ↔ (f node).unlinked = true ∧ (f node).refcount = 0)
    (hbound : (f node).refcount < 65536) :
    PosixInv (if dead then posixDelete (s.update node.id f) node.id else s.update node.id f) := by
  have hnodes := settled_nodes h hnode hf hdead
  have hsub := List.filter_sublist (p := fun n : PosixNode nameMax =>
    !(n.unlinked && n.refcount == 0)) (l := (s.update node.id f).nodes)
  rw [← hnodes] at hsub
  have hnext : (if dead then posixDelete (s.update node.id f) node.id
      else s.update node.id f).next = s.next := by split <;> rfl
  refine ⟨(ids_update h.ids hf).sublist hsub, ?_, ?_, ?_, (first_update h.first hf).sublist hsub⟩
  · intro n hn
    rw [hnext]
    obtain ⟨m, hm, rfl⟩ := mem_update (hsub.subset hn)
    rw [(hf.update m).1]
    exact h.fresh m hm
  · intro n hn
    obtain ⟨m, hm, rfl⟩ := mem_update (hsub.subset hn)
    split
    next hid => rwa [h.same hm hnode hid]
    next => exact h.bound m hm
  · intro n hn hu
    rw [hnodes] at hn
    have hkept := (List.mem_filter.mp hn).2
    rw [hu] at hkept
    simp at hkept
    omega

theorem keepOpen_same (h : PosixInv s) : keepOpen s.entries = s.entries := by
  rw [keepOpen_entries]
  unfold PosixList.entries
  congr 1
  apply List.filter_eq_self.mpr
  intro n hn
  cases hu : n.unlinked with
  | false => rfl
  | true =>
    have hpos := h.held n hn hu
    simp
    omega

/-- The entries after one more open of a node. -/
theorem entries_opened (h : PosixInv s) (hnode : node ∈ s.nodes) :
    (s.update node.id PosixNode.incref).entries =
      (s.entries.map fun e => if e.id = node.id then { e with count := e.count + 1 } else e) ↔
    node.refcount < 65535 := by
  have hbound := h.bound node hnode
  constructor
  · intro heq
    unfold PosixList.entries PosixList.update at heq
    simp only [List.map_map] at heq
    have hhere := List.map_inj_left.mp heq node hnode
    simp only [Function.comp, PosixNode.entry, PosixNode.incref, if_true] at hhere
    have hcount := congrArg PosixEntry.count hhere
    simp only at hcount
    omega
  · intro hlt
    apply entries_update
    intro n hn hid
    obtain rfl := h.same hn hnode hid
    simp only [PosixNode.entry, PosixNode.incref, Nat.mod_eq_of_lt (Nat.succ_lt_succ hlt)]
    rfl

theorem open_right_iff (hmember : FindsMember find) (h : PosixInv s) {create excl : Bool}
    {mem : Option (Nat × Nat)} :
    RegistryRight find s (.open behind name create excl mem) ↔
      FindsLive find s (.open behind name create excl mem) := by
  have hlive := oneLive_of_first h.first
  have hopens : ∀ {answer}, OpensRight s.entries (.open behind name create excl mem) answer ↔
      ∀ node ∈ s.nodes, node.Live name → (excl = false → answer = .handle (some node.id)) ∧
        (create = true → excl = true → answer = .handle none) := by
    intro answer
    constructor
    · intro hright node hnode hl
      exact hright node.entry (List.mem_map_of_mem hnode) hl.1 hl.2
    · intro hright e he hu hname
      obtain ⟨node, hnode, rfl⟩ := List.mem_map.mp he
      exact hright node hnode ⟨hu, hname⟩
  unfold RegistryRight FindsLive
  simp only [posixCall, Option.mem_def, Option.some.injEq, forall_eq', hopens]
  cases create with
  | true =>
    simp only [namedOpen, if_true, Bool.true_eq_false, false_imp_iff, and_true, true_imp_iff]
    by_cases hfound : (excl && (find behind s.nodes name).isSome) = true
    · rw [if_pos hfound]
      obtain ⟨hexcl, hsome⟩ := Bool.and_eq_true_iff.mp hfound
      refine ⟨fun _ _ _ _ => ⟨hexcl, .inl hsome⟩, fun _ => ⟨rfl, hlive, fun n _ _ => ?_⟩⟩
      rw [hexcl]
      exact ⟨fun hno => Bool.noConfusion hno, fun _ => rfl⟩
    · rw [if_neg hfound]
      cases mem with
      | none =>
        simp only [accounted, hlive, true_and, or_true, and_true]
        constructor
        · intro hright n hn hl
          obtain ⟨hopen, -⟩ := hright n hn hl
          cases hexcl : excl with
          | true => rfl
          | false => exact absurd (hopen hexcl) (by simp)
        · intro hexcl n hn hl
          rw [hexcl n hn hl]
          exact ⟨fun hno => Bool.noConfusion hno, fun _ => trivial⟩
      | some blocks =>
        obtain ⟨addr, object⟩ := blocks
        simp only [reduceCtorEq, or_false]
        have hfresh : ¬∃ e ∈ s.entries, e.id = s.next := by
          rintro ⟨e, he, hid⟩
          obtain ⟨n, hn, rfl⟩ := List.mem_map.mp he
          exact absurd hid (Nat.ne_of_lt (h.fresh n hn))
        constructor
        · rintro ⟨-, hone, -⟩ n hn hl
          have hnew := (List.pairwise_cons.mp hone).1 n.entry (List.mem_map_of_mem hn) rfl hl.1
          exact absurd hl.2.symm hnew
        · intro hsafe
          have hnone : ∀ n ∈ s.nodes, ¬n.Live name := by
            intro n hn hl
            obtain ⟨hexcl, hsome⟩ := hsafe n hn hl
            exact hfound (Bool.and_eq_true_iff.mpr ⟨hexcl, hsome⟩)
          refine ⟨(if_neg hfresh).symm, ?_, fun n hn hl => absurd hl (hnone n hn)⟩
          apply List.pairwise_cons.mpr
          refine ⟨?_, hlive⟩
          intro e he _ hopen hname
          obtain ⟨n, hn, rfl⟩ := List.mem_map.mp he
          exact hnone n hn ⟨hopen, hname.symm⟩
  | false =>
    simp only [namedOpen, Bool.false_eq_true, if_false, false_imp_iff, and_true, true_imp_iff]
    cases hfind : find behind s.nodes name with
    | none =>
      simp only [accounted, hlive, true_and, reduceCtorEq, or_false, false_imp_iff, implies_true,
        and_true]
      constructor
      · intro hright n hn hl
        have hopen := hright n hn hl
        cases hexcl : excl with
        | true => rfl
        | false => exact absurd (hopen hexcl) (by simp)
      · intro hexcl n hn hl hno
        rw [hexcl n hn hl] at hno
        exact Bool.noConfusion hno
    | some node =>
      have hnode := hmember behind s.nodes name node hfind
      have hin : ∃ e ∈ s.entries, e.id = node.id := ⟨node.entry, List.mem_map_of_mem hnode, rfl⟩
      have hone : OneLive (s.update node.id PosixNode.incref).entries :=
        oneLive_of_first (first_update h.first writesNode_incref)
      simp only [accounted, if_pos hin, entries_opened h hnode, hone, true_and]
      constructor
      · rintro ⟨hlt, hright⟩
        refine ⟨fun n hn hl => ?_, fun n hn => Option.some.inj hn ▸ hlt⟩
        cases hexcl : excl with
        | true => exact .inl rfl
        | false =>
          have hid := hright n hn hl hexcl
          exact .inr (congrArg some (h.same hnode hn (by simpa using hid)))
      · rintro ⟨hright, hlt⟩
        refine ⟨hlt node rfl, fun n hn hl hexcl => ?_⟩
        rcases hright n hn hl with hno | hsame
        · rw [hexcl] at hno
          exact Bool.noConfusion hno
        · rw [Option.some.inj hsame]

theorem close_right_iff (h : PosixInv s) :
    RegistryRight find s (.close id) ↔ FindsLive find s (.close id) := by
  unfold RegistryRight FindsLive
  simp only [posixCall, namedClose, Option.map_map]
  cases hfind : s.nodes.find? fun node => node.id = id with
  | none =>
    have hno := List.find?_eq_none.mp hfind
    simp only [Option.map_none, Option.mem_def, reduceCtorEq, false_imp_iff, implies_true, true_iff]
    intro node hnode hid
    exact absurd (by simpa using hid) (hno node hnode)
  | some node =>
    have hnode := List.mem_of_find?_eq_some hfind
    have hid : node.id = id := by simpa using List.find?_some hfind
    subst hid
    have hbound := h.bound node hnode
    simp only [Option.map_some, Option.mem_def, Option.some.injEq, forall_eq', Function.comp,
      OpensRight, and_true]
    have hdead : (node.decref.refcount = 0 ∧ node.unlinked = true) ↔
        node.decref.unlinked = true ∧ node.decref.refcount = 0 := by
      rw [PosixNode.decref_unlinked, and_comm]
    rw [settled_entries h hnode writesNode_decref hdead]
    have hone : OneLive (keepOpen (s.update node.id PosixNode.decref).entries) :=
      (oneLive_of_first (first_update h.first writesNode_decref)).sublist List.filter_sublist
    simp only [accounted, hone, and_true]
    constructor
    · intro heq n hn hid
      obtain rfl := h.same hn hnode hid
      by_contra hzero
      -- a count of 0 wraps, and then the object is not freed
      have hz : n.refcount = 0 := by omega
      have hmem : n.decref.entry ∈ keepOpen (s.update n.id PosixNode.decref).entries := by
        apply List.mem_filter.mpr
        refine ⟨List.mem_map_of_mem (List.mem_map.mpr ⟨n, hnode, if_pos rfl⟩), ?_⟩
        simp [PosixNode.entry, PosixNode.decref, hz]
      rw [heq] at hmem
      obtain ⟨e, he, hsame⟩ := List.mem_map.mp (List.mem_of_mem_filter hmem)
      obtain ⟨m, hm, rfl⟩ := List.mem_map.mp he
      have hid := congrArg PosixEntry.id hsame
      have hcount := congrArg PosixEntry.count hsame
      split at hid
      next hmid =>
        obtain rfl := h.same hm hnode hmid
        simp [PosixNode.entry, PosixNode.decref, hz] at hcount
      next hmid =>
        simp only [PosixNode.entry, PosixNode.decref] at hid
        exact hmid hid
    · intro hpos
      congr 1
      apply entries_update
      intro n hn hid
      obtain rfl := h.same hn hnode hid
      have hn0 := hpos n hn rfl
      have hmod : (if n.refcount = 0 then 65535 else n.refcount - 1) = n.refcount - 1 :=
        if_neg (by omega)
      have hcast : ((n.refcount - 1 : Nat) : Int) = n.refcount - 1 := by omega
      simp only [PosixNode.entry, PosixNode.decref, hmod, hcast]

/-- The objects with a name are unlinked, and freed if they are not open. -/
def unlinkName (name : PosixName nameMax) (l : List (PosixEntry nameMax)) :
    List (PosixEntry nameMax) :=
  keepOpen (l.map fun e => if e.name = name then { e with unlinked := true } else e)

theorem unlinkName_live (hnode : node ∈ s.nodes) (hopen : node.unlinked = false) :
    node.entry ∈ unlinkName name s.entries ↔ node.name ≠ name := by
  constructor
  · intro hmem hname
    obtain ⟨e, -, hsame⟩ := List.mem_map.mp (List.mem_of_mem_filter hmem)
    split at hsame
    next =>
      have hu := congrArg PosixEntry.unlinked hsame
      simp [PosixNode.entry, hopen] at hu
    next hne =>
      rw [hsame] at hne
      exact hne hname
  · intro hne
    apply List.mem_filter.mpr
    refine ⟨List.mem_map.mpr ⟨node.entry, List.mem_map_of_mem hnode, if_neg hne⟩, ?_⟩
    simp [PosixNode.entry, hopen]

theorem entry_unlinked (hu : node.unlinked = true) :
    { node.entry with unlinked := true } = node.entry := by
  simp only [PosixNode.entry, hu]

theorem unlinkName_none (h : PosixInv s) (hnone : ∀ n ∈ s.nodes, ¬n.Live name) :
    unlinkName name s.entries = s.entries := by
  have hsame : (s.entries.map fun e => if e.name = name then { e with unlinked := true } else e) =
      s.entries := by
    refine (List.map_congr_left (g := id) fun e he => ?_).trans (List.map_id _)
    obtain ⟨n, hn, rfl⟩ := List.mem_map.mp he
    split
    next hname =>
      have hu : n.unlinked = true := by
        by_contra hopen
        exact hnone n hn ⟨Bool.not_eq_true _ ▸ hopen, hname⟩
      exact entry_unlinked hu
    next => rfl
  unfold unlinkName
  rw [hsame, keepOpen_same h]

theorem unlink_right_iff (hmember : FindsMember find) (h : PosixInv s) :
    RegistryRight find s (.unlink behind name) ↔ FindsLive find s (.unlink behind name) := by
  unfold RegistryRight FindsLive
  simp only [posixCall, namedUnlink, Option.mem_def, Option.some.injEq, forall_eq', OpensRight,
    and_true]
  have haccounted : ∀ answer, accounted s.entries (.unlink behind name) answer =
      unlinkName name s.entries := fun _ => rfl
  cases hfind : find behind s.nodes name with
  | none =>
    simp only [haccounted, oneLive_of_first h.first, and_true, reduceCtorEq, false_imp_iff,
      implies_true]
    constructor
    · intro heq n hn hl
      have hmem : n.entry ∈ s.entries := List.mem_map_of_mem hn
      rw [heq, unlinkName_live hn hl.1] at hmem
      exact hmem hl.2
    · intro hnone
      exact (unlinkName_none h hnone).symm
  | some node =>
    have hnode := hmember behind s.nodes name node hfind
    have hdead : node.refcount = 0 ↔ node.unlink.unlinked = true ∧ node.unlink.refcount = 0 :=
      ⟨fun hz => ⟨rfl, hz⟩, fun hd => hd.2⟩
    have hone : OneLive (keepOpen (s.update node.id PosixNode.unlink).entries) :=
      (oneLive_of_first (first_update h.first writesNode_unlink)).sublist List.filter_sublist
    simp only [haccounted]
    rw [settled_entries h hnode writesNode_unlink hdead]
    simp only [hone, and_true, Option.some.injEq, forall_eq']
    constructor
    · intro heq
      constructor
      · intro n hn hl
        by_contra hne
        have hmem : n.entry ∈ keepOpen (s.update node.id PosixNode.unlink).entries := by
          have hid : n.id ≠ node.id := fun hid => hne (h.same hn hnode hid).symm
          apply List.mem_filter.mpr
          refine ⟨List.mem_map_of_mem (List.mem_map.mpr ⟨n, hn, if_neg hid⟩), ?_⟩
          simp [PosixNode.entry, hl.1]
        rw [heq, unlinkName_live hn hl.1] at hmem
        exact hmem hl.2
      · by_contra hno
        simp only [not_or, Bool.not_eq_true] at hno
        have hmem : node.entry ∈ unlinkName name s.entries :=
          (unlinkName_live hnode hno.1).mpr hno.2
        rw [← heq] at hmem
        obtain ⟨m, hm, hsame⟩ := List.mem_map.mp (List.mem_of_mem_filter hmem)
        obtain ⟨k, hk, rfl⟩ := mem_update hm
        have hu := congrArg PosixEntry.unlinked hsame
        have hid := congrArg PosixEntry.id hsame
        split at hu
        next => simp [PosixNode.entry, PosixNode.unlink, hno.1] at hu
        next hkid =>
          rw [if_neg hkid] at hid
          exact hkid hid
    · rintro ⟨hlive, hfound⟩
      by_cases hl : node.Live name
      · have hupdate : (s.update node.id PosixNode.unlink).entries = s.entries.map fun e =>
            if e.id = node.id then { e with unlinked := true } else e :=
          entries_update fun _ _ _ => rfl
        rw [hupdate]
        unfold unlinkName
        congr 1
        apply List.map_congr_left
        intro e he
        obtain ⟨n, hn, rfl⟩ := List.mem_map.mp he
        by_cases hid : n.id = node.id
        · obtain rfl := h.same hn hnode hid
          rw [if_pos (show n.entry.id = n.id from rfl), if_pos (show n.entry.name = name from hl.2)]
        · rw [if_neg (show ¬n.entry.id = node.id from hid)]
          split
          next hname =>
            have hu : n.unlinked = true := by
              by_contra hopen
              have hsame := hlive n hn ⟨Bool.not_eq_true _ ▸ hopen, hname⟩
              exact hid (congrArg PosixNode.id hsame.symm)
            exact (entry_unlinked hu).symm
          next => rfl
      · have hu : node.unlinked = true := by
          rcases hfound with hu | hname
          · exact hu
          · by_contra hopen
            exact hl ⟨Bool.not_eq_true _ ▸ hopen, hname⟩
        have hnone : ∀ n ∈ s.nodes, ¬n.Live name := by
          intro n hn hln
          obtain rfl := hlive n hn hln
          exact hl hln
        have hupdate : (s.update node.id PosixNode.unlink).entries = s.entries := by
          rw [entries_update (g := fun e => e)]
          · simp
          · intro n hn hid
            obtain rfl := h.same hn hnode hid
            exact entry_unlinked hu
        rw [hupdate, keepOpen_same h, unlinkName_none h hnone]

theorem registryRight_iff (hmember : FindsMember find) (h : PosixInv s)
    (call : PosixCall nameMax) : RegistryRight find s call ↔ FindsLive find s call := by
  cases call with
  | «open» behind name create excl mem => exact open_right_iff hmember h
  | close id => exact close_right_iff h
  | unlink behind name => exact unlink_right_iff hmember h

theorem open_inv (hmember : FindsMember find) (h : PosixInv s) {create excl : Bool}
    {mem : Option (Nat × Nat)} (hsafe : FindsLive find s (.open behind name create excl mem)) :
    PosixInv (namedOpen find s behind name create excl mem).2 := by
  unfold namedOpen
  cases create with
  | true =>
    rw [if_pos rfl]
    split
    · exact h
    next hfound =>
      cases mem with
      | none => exact h
      | some blocks =>
        obtain ⟨addr, object⟩ := blocks
        have hnone : ∀ n ∈ s.nodes, ¬n.Live name := by
          intro n hn hl
          obtain ⟨hexcl, hsome⟩ := hsafe.1 n hn hl
          rcases hsome with hsome | hno
          · exact hfound (Bool.and_eq_true_iff.mpr ⟨hexcl, hsome⟩)
          · simp at hno
        refine ⟨List.pairwise_cons.mpr ⟨?_, h.ids⟩, ?_, ?_, ?_,
          List.pairwise_cons.mpr ⟨?_, h.first⟩⟩
        · intro n hn
          exact (Nat.ne_of_lt (h.fresh n hn)).symm
        · intro n hn
          rcases List.mem_cons.mp hn with rfl | hn
          · exact Nat.lt_succ_self _
          · exact Nat.lt_succ_of_lt (h.fresh n hn)
        · intro n hn
          rcases List.mem_cons.mp hn with rfl | hn
          · show 1 < 65536
            decide
          · exact h.bound n hn
        · intro n hn hu
          rcases List.mem_cons.mp hn with rfl | hn
          · exact Nat.one_pos
          · exact h.held n hn hu
        · intro n hn hname
          by_contra hopen
          exact hnone n hn ⟨Bool.not_eq_true _ ▸ hopen, hname.symm⟩
  | false =>
    rw [if_neg Bool.false_ne_true]
    cases hfind : find behind s.nodes name with
    | none => exact h
    | some node =>
      have hlt : node.refcount < 65535 := hsafe.2 rfl node hfind
      have hcount : node.incref.refcount = node.refcount + 1 :=
        Nat.mod_eq_of_lt (Nat.succ_lt_succ hlt)
      have hdead : False ↔ node.incref.unlinked = true ∧ node.incref.refcount = 0 :=
        ⟨False.elim, fun hd => absurd hd.2 (by rw [hcount]; omega)⟩
      have hinv := settled_inv h (hmember behind s.nodes name node hfind) writesNode_incref hdead
        (by rw [hcount]; omega)
      rwa [if_neg not_false] at hinv

theorem posixInv_step (hmember : FindsMember find) {call : PosixCall nameMax} (h : PosixInv s)
    (hsafe : FindsLive find s call) (hs : posixStep find s call = some s') : PosixInv s' := by
  cases call with
  | «open» behind name create excl mem =>
    obtain rfl := Option.some.inj hs
    exact open_inv hmember h hsafe
  | close id =>
    simp only [posixStep, posixCall, namedClose, Option.map_map, Option.map_eq_some_iff,
      Function.comp] at hs
    obtain ⟨node, hfind, rfl⟩ := hs
    have hid : node.id = id := by simpa using List.find?_some hfind
    subst hid
    apply settled_inv h (List.mem_of_find?_eq_some hfind) writesNode_decref
    · rw [PosixNode.decref_unlinked, and_comm]
    · have hbound := h.bound node (List.mem_of_find?_eq_some hfind)
      simp only [PosixNode.decref]
      split <;> omega
  | unlink behind name =>
    obtain rfl := Option.some.inj hs
    simp only
    cases hfind : find behind s.nodes name with
    | none => exact h
    | some node =>
      have hnode := hmember behind s.nodes name node hfind
      exact settled_inv h hnode writesNode_unlink ⟨fun hz => ⟨rfl, hz⟩, fun hd => hd.2⟩
        (h.bound node hnode)

theorem mqNamesNew_iff (h : PosixInv s) (call : PosixCall nameMax) :
    FindsLive posixMqFind s call ↔ MqNamesNew s call := by
  cases call with
  | «open» behind name create excl mem =>
    unfold FindsLive MqNamesNew
    cases create with
    | true =>
      simp only [if_true, Bool.true_eq_false, false_imp_iff, and_true]
      constructor
      · intro hsafe
        cases hexcl : excl with
        | true => exact .inl rfl
        | false =>
          right
          intro n hn hl
          have hno := (hsafe n hn hl).1
          rw [hexcl] at hno
          exact Bool.noConfusion hno
      · rintro (hexcl | hnone) n hn hl
        · exact ⟨hexcl, .inl (by rw [posixMqFind_live h.first hn hl]; rfl)⟩
        · exact absurd hl (hnone n hn)
    | false =>
      simp only [Bool.false_eq_true, if_false, true_imp_iff]
      rw [← posixMqFind_eq behind]
      exact and_iff_right fun n hn hl => .inr (posixMqFind_live h.first hn hl)
  | close id => exact Iff.rfl
  | unlink behind name =>
    refine iff_of_true ⟨fun n hn hl => posixMqFind_live h.first hn hl, ?_⟩ trivial
    intro node hfind
    rw [posixMqFind_eq] at hfind
    exact .inr (by simpa using List.find?_some hfind)

theorem posixInv_empty : PosixInv (⟨[], 0⟩ : PosixList nameMax) := by
  constructor <;> simp

/-- The two registries from the start: what the calls do is right exactly in the runs in which each
call meets the condition. -/
theorem posixRun_registry_iff {nameMax : Nat} (calls : List (PosixCall nameMax)) :
    (RunMeets (posixStep posixSemFind) (RegistryRight posixSemFind) calls ⟨[], 0⟩ ↔
      RunMeets (posixStep posixSemFind) (FindsLive posixSemFind) calls ⟨[], 0⟩) ∧
    (RunMeets (posixStep posixMqFind) (RegistryRight posixMqFind) calls ⟨[], 0⟩ ↔
      RunMeets (posixStep posixMqFind) MqNamesNew calls ⟨[], 0⟩) := by
  constructor
  · apply runMeets_congr (I := PosixInv)
    · intro s call _ h
      exact registryRight_iff posixSemFind_member h call
    · intro s call _ s' h hright hs
      have hsafe := (registryRight_iff posixSemFind_member h call).mp hright
      exact posixInv_step posixSemFind_member h hsafe hs
    · exact posixInv_empty
  · apply runMeets_congr (I := PosixInv)
    · intro s call _ h
      exact (registryRight_iff posixMqFind_member h call).trans (mqNamesNew_iff h call)
    · intro s call _ s' h hright hs
      have hsafe := (registryRight_iff posixMqFind_member h call).mp hright
      exact posixInv_step posixMqFind_member h hsafe hs
    · exact posixInv_empty

end

def nameA : PosixName 8 := ⟨['a'], by decide⟩

/-- A semaphore is not found by its name, and a second create makes a second queue of the name. -/
theorem posixRun_not_registry :
    ¬RunMeets (posixStep posixSemFind) (RegistryRight posixSemFind)
      [.open (fun _ => []) nameA true false (some (0x20001000, 0x20001400)),
        .open (fun _ => []) nameA false false none] ⟨[], 0⟩ ∧
    ¬RunMeets (posixStep posixMqFind) (RegistryRight posixMqFind)
      [.open (fun _ => []) nameA true false (some (0x20001000, 0x20001400)),
        .open (fun _ => []) nameA true false (some (0x20002000, 0x20002400))] ⟨[], 0⟩ := by
  constructor
  · intro h
    have hright := ((h.2 _ rfl).1 _ rfl).2.2 ⟨0, nameA, 1, false⟩ List.mem_cons_self rfl rfl
    exact absurd (hright.1 rfl) (by decide)
  · intro h
    have hright := ((h.2 _ rfl).1 _ rfl).2.2 ⟨0, nameA, 1, false⟩ List.mem_cons_self rfl rfl
    exact absurd (hright.1 rfl) (by decide)

end RTThread
