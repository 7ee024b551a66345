import RTThread.FinshStackBalance

namespace RTThread

variable {M : FinshMachine} {w w' : FinshWidth} {m : Memory} {x y addr : FinshSlot}

def FinshWidth.bits (w : FinshWidth) : Nat := 8 * w.size

theorem FinshWidth.bits_le (h : w.index ≤ w'.index) : w.bits ≤ w'.bits := by
  revert h
  cases w <;> cases w' <;> decide

/-- A field is made of the low bits of its slot. -/
theorem FinshMachine.field_low (h : x.setWidth w.bits = y.setWidth w.bits) :
    M.field w x = M.field w y := by
  cases w with
  | byte =>
    have hlow : x.setWidth 8 = y.setWidth 8 := h
    simp only [FinshMachine.field, hlow]
  | word =>
    have hlow : x.setWidth 16 = y.setWidth 16 := h
    simp only [FinshMachine.field, hlow]
  | dword =>
    have hlow : x.setWidth 32 = y.setWidth 32 := h
    rwa [BitVec.setWidth_eq, BitVec.setWidth_eq] at hlow

theorem setWidth_signExtend {n k : Nat} (hn : n ≤ k) (hk : k ≤ 32) (v : BitVec k) :
    (v.signExtend 32).setWidth n = v.setWidth n := by
  ext i hi
  rw [BitVec.getElem_setWidth, BitVec.getElem_setWidth, BitVec.getLsbD_signExtend]
  rw [if_pos (by omega), decide_eq_true (by omega : i < 32), Bool.true_and]

theorem FinshMachine.setWidth_field (w : FinshWidth) {n : Nat} (hn : n ≤ w.bits) (x : FinshSlot) :
    (M.field w x).setWidth n = x.setWidth n := by
  cases w with
  | byte =>
    have h8 : n ≤ 8 := hn
    unfold FinshMachine.field
    dsimp only
    split
    · rw [setWidth_signExtend h8 (by decide), BitVec.setWidth_setWidth_of_le _ h8]
    · rw [BitVec.setWidth_setWidth_of_le _ (h8.trans (by decide)), BitVec.setWidth_setWidth_of_le _ h8]
  | word =>
    have h16 : n ≤ 16 := hn
    show ((x.setWidth 16).signExtend 32).setWidth n = x.setWidth n
    rw [setWidth_signExtend h16 (by decide), BitVec.setWidth_setWidth_of_le _ h16]
  | dword => rfl

/-- A field holds the narrower ones. -/
theorem FinshMachine.field_field (h : w.index ≤ w'.index) (x : FinshSlot) :
    M.field w (M.field w' x) = M.field w x :=
  FinshMachine.field_low (FinshMachine.setWidth_field w' (FinshWidth.bits_le h) x)

theorem setWidth_mask {n : Nat} {keep mask : FinshSlot} (hkeep : keep.setWidth n = 0#n)
    (hmask : mask.setWidth n = .allOnes n) (v slot : FinshSlot) :
    (slot &&& keep ||| v &&& mask).setWidth n = v.setWidth n := by
  rw [BitVec.setWidth_or, BitVec.setWidth_and, BitVec.setWidth_and, hkeep, hmask, BitVec.and_allOnes,
    BitVec.and_zero, BitVec.zero_or]

/-- A field that has been stored is read back, whatever is beside it. -/
theorem FinshMachine.field_put (w : FinshWidth) (v slot : FinshSlot) :
    M.field w (w.put v slot) = M.field w v := by
  apply FinshMachine.field_low
  cases w with
  | byte => exact setWidth_mask (n := 8) rfl rfl v slot
  | word => exact setWidth_mask (n := 16) rfl rfl v slot
  | dword => rfl

theorem ofNat_setWidth_mod {n : Nat} (hn : n ≤ 32) (a : Nat) :
    (BitVec.ofNat 32 (a % 2 ^ n)).setWidth n = (BitVec.ofNat 32 a).setWidth n := by
  rw [BitVec.setWidth_ofNat_of_le hn, BitVec.setWidth_ofNat_of_le hn]
  apply BitVec.eq_of_toNat_eq
  rw [BitVec.toNat_ofNat, BitVec.toNat_ofNat, Nat.mod_mod]

theorem byte_congr {a b : Nat} (h : a % 256 = b % 256) : UInt8.ofNat a = UInt8.ofNat b := by
  apply UInt8.toNat_inj.mp
  rw [UInt8.toNat_ofNat', UInt8.toNat_ofNat']
  exact h

/-- A store writes the low bits of a slot. -/
theorem FinshWidth.store_low (h : x.setWidth w.bits = y.setWidth w.bits) :
    w.store m addr x = w.store m addr y := by
  have hnat := congrArg BitVec.toNat h
  rw [BitVec.toNat_setWidth, BitVec.toNat_setWidth] at hnat
  cases w with
  | byte =>
    change x.toNat % 256 = y.toNat % 256 at hnat
    show write8 m addr.toNat x.toNat = write8 m addr.toNat y.toNat
    unfold write8
    rw [byte_congr hnat]
  | word =>
    change x.toNat % 65536 = y.toNat % 65536 at hnat
    have hlow : UInt8.ofNat x.toNat = UInt8.ofNat y.toNat := byte_congr (by omega)
    have hhigh : UInt8.ofNat (x.toNat / 256) = UInt8.ofNat (y.toNat / 256) := byte_congr (by omega)
    show write16 m addr.toNat x.toNat = write16 m addr.toNat y.toNat
    unfold write16 write8
    rw [hlow, hhigh]
  | dword =>
    change x.setWidth 32 = y.setWidth 32 at h
    rw [BitVec.setWidth_eq, BitVec.setWidth_eq] at h
    rw [h]

/-- What is stored is loaded again in its width. -/
theorem FinshMachine.load_store (v : FinshSlot) :
    M.field w (w.load (w.store m addr v) addr) = M.field w v := by
  have hself : BitVec.ofNat 32 v.toNat = v := BitVec.ofNat_toNat 32 v
  apply FinshMachine.field_low
  cases w with
  | byte =>
    show (BitVec.ofNat 32 ((write8 m addr.toNat v.toNat).byte addr.toNat).toNat).setWidth 8 = v.setWidth 8
    unfold write8
    dsimp only
    rw [if_pos rfl, UInt8.toNat_ofNat', ofNat_setWidth_mod (by decide), hself]
  | word =>
    show (BitVec.ofNat 32 (read16 (write16 m addr.toNat v.toNat) addr.toNat)).setWidth 16 = v.setWidth 16
    have hmod := ofNat_setWidth_mod (n := 16) (by decide) v.toNat
    rw [hself] at hmod
    rw [read16_write16_same]
    exact hmod
  | dword =>
    show (BitVec.ofNat 32 (read32 (write32 m addr.toNat v.toNat) addr.toNat)).setWidth 32 = v.setWidth 32
    rw [read32_write32_same, word_of_lt v.isLt, hself]

/-- The memory is little-endian: a long has the narrower values in front. -/
theorem FinshMachine.load_dword (w : FinshWidth) (m : Memory) (addr : FinshSlot) :
    M.field w (FinshWidth.dword.load m addr) = M.field w (w.load m addr) := by
  apply FinshMachine.field_low
  cases w with
  | byte =>
    show (BitVec.ofNat 32 (read32 m addr.toNat)).setWidth 8 =
      (BitVec.ofNat 32 (m.byte addr.toNat).toNat).setWidth 8
    rw [← ofNat_setWidth_mod (by decide) (read32 m addr.toNat)]
    congr 2
    have hlt := (m.byte addr.toNat).toNat_lt
    unfold read32 read16
    omega
  | word =>
    show (BitVec.ofNat 32 (read32 m addr.toNat)).setWidth 16 =
      (BitVec.ofNat 32 (read16 m addr.toNat)).setWidth 16
    rw [← ofNat_setWidth_mod (by decide) (read32 m addr.toNat)]
    congr 2
    have hlt := read16_lt m addr.toNat
    unfold read32
    omega
  | dword => rfl

/-- The value of an expression in the width it is known in, promoted to `int`. -/
structure FinshValue (M : FinshMachine) where
  width : FinshWidth
  value : FinshSlot
  promoted : M.field width value = value

def FinshMachine.value (M : FinshMachine) (w : FinshWidth) (x : FinshSlot) : FinshValue M :=
  ⟨w, M.field w x, FinshMachine.field_field (Nat.le_refl _) x⟩

theorem FinshMachine.value_low (h : x.setWidth w.bits = y.setWidth w.bits) : M.value w x = M.value w y := by
  unfold FinshMachine.value
  simp only [FinshMachine.field_low h]

/-- The value in a narrower width. -/
def FinshValue.as (v : FinshValue M) (w : FinshWidth) : FinshSlot := M.field w v.value

/-- The operators with two operands. -/
def binaryOf : FinshNodeType → Option FinshBinary
  | .add => some .add
  | .sub => some .sub
  | .mul => some .mul
  | .div => some .div
  | .mod => some .mod
  | .and => some .and
  | .or => some .or
  | .xor => some .xor
  | .shl => some .shl
  | .shr => some .shr
  | _ => none

/-- What has an address: a variable and what a pointer points to. -/
def isPlace : Option FinshNodeType → Bool
  | some (.id (.syscall _)) => false
  | some (.id _) | some .getvalue => true
  | _ => false

/-- The variable that an increment is for. -/
def variableOf : Option FinshNodeType → Option Nat
  | some (.id (.var i)) => some i
  | _ => none

section
variable (M) (vars : FinshVars) (links : FinshLinks)

/-- The value of an identifier, or its address where that is wanted. -/
def idMeaning (ref : FinshId) (address : Bool) (m : Memory) : Option (FinshValue M) :=
  match ref with
  | .syscall func => some (M.value .dword (.ofNat 32 func))
  | _ =>
    let addr := match ref with
      | .sysvar _ addr => addr
      | _ => links.valueAddr ref
    ((identifierType vars ref).bind loadWidth).map fun w =>
      if address then M.value .dword (.ofNat 32 addr) else M.value w (w.load m (.ofNat 32 addr))

def leafMeaning (type : FinshNodeType) (address : Bool) (m : Memory) : Option (FinshValue M) :=
  match type with
  | .id ref => idMeaning M vars links ref address m
  | .valueChar c => some (M.value .byte (.ofNat 32 c))
  | .valueInt v | .valueLong v => some (M.value .dword (.ofNat 32 v))
  | .valueNull => some (M.value .dword 0)
  | .valueString text => some (M.value .dword (.ofNat 32 (links.stringAddr text)))
  | _ => none

/-- A variable one up or down: its new value and the memory with it. -/
def increased (op : FinshBinary) (w : FinshWidth) (i : Nat) (m : Memory) : FinshValue M × Memory :=
  let addr := .ofNat 32 (links.valueAddr (.var i))
  let v := M.value w (op.apply (M.field w (w.load m addr)) 1)
  (v, w.store m addr v.value)

/-- A node with one child of the value `x` and of the kind `head`. -/
def unaryMeaning (type : FinshNodeType) (w : FinshWidth) (address : Bool) (head : Option FinshNodeType)
    (x : FinshValue M) (m : Memory) : Option (FinshValue M × Memory) :=
  match type with
  | .bitwise => if w.index ≤ x.width.index then some (M.value w (~~~ x.as w), m) else none
  | .preinc => (variableOf head).map fun i => increased M links .add w i m
  | .predec => (variableOf head).map fun i => increased M links .sub w i m
  | .inc => (variableOf head).map fun i => (x, (increased M links .add w i m).2)
  | .dec => (variableOf head).map fun i => (x, (increased M links .sub w i m).2)
  | .getvalue =>
    if x.width = .dword then some (if address then x else M.value w (w.load m x.value), m) else none
  | .getaddr => if isPlace head then some (x, m) else none
  | _ => none

/-- A node with two children, the first of the kind `head`. -/
def binaryMeaning (type : FinshNodeType) (w : FinshWidth) (head : Option FinshNodeType)
    (x y : FinshValue M) (m : Memory) : Option (FinshValue M × Memory) :=
  match type with
  | .assign =>
    if isPlace head ∧ x.width = .dword ∧ w.index ≤ y.width.index then
      some (M.value w y.value, w.store m x.value y.value)
    else none
  | type => (binaryOf type).bind fun op =>
    if w.index ≤ x.width.index ∧ w.index ≤ y.width.index then
      some (M.value w (op.apply (x.as w) (y.as w)), m)
    else none

def callMeaning (f : FinshValue M) (args : List (FinshValue M)) (m : Memory) :
    Option (FinshValue M × Memory) :=
  if f.width = .dword ∧ (∀ v ∈ args, v.width = .dword) ∧ args.length ≤ 16 then
    let r := M.call f.value (if args = [] then [0] else args.map FinshValue.value) m
    some (M.value .dword r.1, r.2)
  else none

/-- What a node of the type `dataType` makes of the values of its children and of the memory;
`address` says that its address is wanted. Operands must be as wide as the node: what a narrower one
leaves beside its value in the slot is stale. -/
def nodeMeaning (type : FinshNodeType) (dataType : Nat) (address : Bool) (head : Option FinshNodeType)
    (children : List (FinshValue M)) (m : Memory) : Option (FinshValue M × Memory) :=
  match children with
  | [] => (leafMeaning M vars links type address m).map (·, m)
  | x :: xs =>
    if type = .func then callMeaning M x xs m
    else
      (widthOf dataType).bind fun w =>
        match xs with
        | [] => unaryMeaning M links type w address head x m
        | [y] => binaryMeaning M type w head x y m
        | _ => none

/-- The values of a tree and of its siblings, from left to right. -/
def treeMeaning : FinshNode → Bool → Memory → Option (List (FinshValue M) × Memory)
  | .null, _, m => some ([], m)
  | .node type dataType address child sibling, isAddr, m => do
    let (vs, m) ← treeMeaning child (childAddress type isAddr) m
    let (v, m) ← nodeMeaning M vars links type (exprType vars (.node type dataType address child sibling))
      (if isSyscall type && !address then address else address || isAddr) child.head vs
      m
    let (rest, m) ← treeMeaning sibling false m
    some (v :: rest, m)

/-- The values of the statements of a line, one after the other. -/
def lineMeaning : List FinshNode → Memory → Option (List (FinshValue M) × Memory)
  | [], m => some ([], m)
  | tree :: trees, m => do
    let (vs, m) ← treeMeaning M vars links (tree.setSibling .null) false m
    let (rest, m) ← lineMeaning trees m
    some (vs ++ rest, m)

end

section
variable (vars : FinshVars)

def leafWidth (type : FinshNodeType) (address : Bool) : Option FinshWidth :=
  match type with
  | .id (.syscall _) => some .dword
  | .id ref =>
    ((identifierType vars ref).bind loadWidth).map fun w => if address then .dword else w
  | .valueChar _ => some .byte
  | .valueInt _ | .valueLong _ | .valueNull | .valueString _ => some .dword
  | _ => none

def unaryWidth (type : FinshNodeType) (w : FinshWidth) (address : Bool) (head : Option FinshNodeType)
    (x : FinshWidth) : Option FinshWidth :=
  match type with
  | .bitwise => if w.index ≤ x.index then some w else none
  | .preinc | .predec => (variableOf head).map fun _ => w
  | .inc | .dec => (variableOf head).map fun _ => x
  | .getvalue => if x = .dword then some (if address then x else w) else none
  | .getaddr => if isPlace head then some x else none
  | _ => none

def binaryWidth (type : FinshNodeType) (w : FinshWidth) (head : Option FinshNodeType)
    (x y : FinshWidth) : Option FinshWidth :=
  match type with
  | .assign => if isPlace head ∧ x = .dword ∧ w.index ≤ y.index then some w else none
  | type => (binaryOf type).bind fun _ =>
    if w.index ≤ x.index ∧ w.index ≤ y.index then some w else none

/-- The width of the value of a node whose children have these widths. -/
def nodeWidth (type : FinshNodeType) (dataType : Nat) (address : Bool) (head : Option FinshNodeType)
    (children : List FinshWidth) : Option FinshWidth :=
  match children with
  | [] => leafWidth vars type address
  | x :: xs =>
    if type = .func then
      if x = .dword ∧ (∀ w ∈ xs, w = .dword) ∧ xs.length ≤ 16 then some .dword else none
    else
      (widthOf dataType).bind fun w =>
        match xs with
        | [] => unaryWidth type w address head x
        | [y] => binaryWidth type w head x y
        | _ => none

/-- The widths of a tree and of its siblings. -/
def treeWidths : FinshNode → Bool → Option (List FinshWidth)
  | .null, _ => some []
  | .node type dataType address child sibling, isAddr => do
    let ws ← treeWidths child (childAddress type isAddr)
    let w ← nodeWidth vars type (exprType vars (.node type dataType address child sibling))
      (if isSyscall type && !address then address else address || isAddr) child.head ws
    let rest ← treeWidths sibling false
    some (w :: rest)

end

section
variable {vars : FinshVars} {links : FinshLinks} {type : FinshNodeType} {address : Bool}
  {head : Option FinshNodeType} {u v : FinshValue M}

theorem leafMeaning_width (type : FinshNodeType) (address : Bool) (m : Memory) :
    (leafMeaning M vars links type address m).map FinshValue.width = leafWidth vars type address := by
  have hid : ∀ (t : Option FinshWidth) (addr : Nat),
      (t.map fun w => if address then M.value .dword (.ofNat 32 addr)
        else M.value w (w.load m (.ofNat 32 addr))).map FinshValue.width =
      t.map fun w => if address then .dword else w := by
    intro t addr
    cases t with
    | none => rfl
    | some w =>
      cases address with
      | true => rfl
      | false => rfl
  cases type with
  | id ref =>
    cases ref with
    | syscall func => rfl
    | var i => exact hid _ _
    | sysvar t addr => exact hid _ _
  | _ => rfl

theorem map_width_ite {p : Prop} [Decidable p] {r : FinshValue M × Memory} (hr : r.1.width = w) :
    (if p then some r else none).map (·.1.width) = if p then some w else none := by
  split
  · exact congrArg some hr
  · rfl

theorem unaryMeaning_width (type : FinshNodeType) (w : FinshWidth) :
    (unaryMeaning M links type w address head u m).map (·.1.width) =
      unaryWidth type w address head u.width := by
  have hvariable : ∀ f : Nat → FinshValue M × Memory, ∀ w', (∀ i, (f i).1.width = w') →
      ((variableOf head).map f).map (·.1.width) = (variableOf head).map fun _ => w' := by
    intro f w' hf
    cases variableOf head with
    | none => rfl
    | some i => exact congrArg some (hf i)
  cases type with
  | bitwise => exact map_width_ite rfl
  | preinc => exact hvariable _ w fun _ => rfl
  | predec => exact hvariable _ w fun _ => rfl
  | inc => exact hvariable _ u.width fun _ => rfl
  | dec => exact hvariable _ u.width fun _ => rfl
  | getvalue =>
    refine map_width_ite ?_
    cases address with
    | true => rfl
    | false => rfl
  | getaddr => exact map_width_ite rfl
  | _ => rfl

theorem binaryMeaning_width (type : FinshNodeType) (w : FinshWidth) :
    (binaryMeaning M type w head u v m).map (·.1.width) = binaryWidth type w head u.width v.width := by
  by_cases hassign : type = .assign
  · subst hassign
    exact map_width_ite rfl
  · unfold binaryMeaning binaryWidth
    split
    next => exact absurd rfl hassign
    next =>
      cases binaryOf type with
      | none => rfl
      | some op => exact map_width_ite rfl

theorem callMeaning_width (f : FinshValue M) (args : List (FinshValue M)) (m : Memory) :
    (callMeaning M f args m).map (·.1.width) =
      if f.width = .dword ∧ (∀ w ∈ args.map FinshValue.width, w = .dword) ∧
        (args.map FinshValue.width).length ≤ 16 then some .dword else none := by
  unfold callMeaning
  simp only [List.forall_mem_map, List.length_map]
  exact map_width_ite rfl

variable (links) in
theorem nodeMeaning_width (type : FinshNodeType) (dataType : Nat) (vs : List (FinshValue M))
    (m : Memory) :
    (nodeMeaning M vars links type dataType address head vs m).map (·.1.width) =
      nodeWidth vars type dataType address head (vs.map FinshValue.width) := by
  cases vs with
  | nil =>
    show ((leafMeaning M vars links type address m).map (·, m)).map _ = leafWidth vars type address
    rw [← leafMeaning_width type address m, Option.map_map]
    rfl
  | cons x xs =>
    by_cases hfunc : type = .func
    · unfold nodeMeaning nodeWidth
      rw [List.map_cons]
      dsimp only
      rw [if_pos hfunc, if_pos hfunc]
      exact callMeaning_width x xs m
    · unfold nodeMeaning nodeWidth
      rw [List.map_cons]
      dsimp only
      rw [if_neg hfunc, if_neg hfunc]
      cases widthOf dataType with
      | none => rfl
      | some w =>
        cases xs with
        | nil => exact unaryMeaning_width type w
        | cons y ys =>
          cases ys with
          | nil => exact binaryMeaning_width type w
          | cons => rfl

/-- Whether a tree has a meaning is seen from its widths, whatever the memory holds. -/
theorem treeMeaning_widths (n : FinshNode) (isAddr : Bool) (m : Memory) :
    (treeMeaning M vars links n isAddr m).map (fun r => r.1.map FinshValue.width) =
      treeWidths vars n isAddr := by
  induction n generalizing isAddr m with
  | null => rfl
  | node type dataType address child sibling ihc ihs =>
    unfold treeMeaning treeWidths
    rw [← ihc (childAddress type isAddr) m]
    cases treeMeaning M vars links child (childAddress type isAddr) m with
    | none => rfl
    | some r =>
      obtain ⟨vs, m1⟩ := r
      simp only [Option.bind_eq_bind, Option.bind_some, Option.map_some]
      rw [← nodeMeaning_width links _ _ _ m1]
      cases nodeMeaning M vars links type _ _ child.head vs m1 with
      | none => rfl
      | some r =>
        obtain ⟨v, m2⟩ := r
        simp only [Option.bind_some, Option.map_some]
        rw [← ihs false m2]
        cases treeMeaning M vars links sibling false m2 with
        | none => rfl
        | some r => rfl

end

end RTThread
