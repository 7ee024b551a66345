import RTThread.FinshParserModel
import RTThread.ShellModel

namespace RTThread

/-- `struct finsh_sysvar` and `struct finsh_syscall`. -/
structure FinshSysvar where
  name : List UInt8
  type : FinshType
  var : Nat
deriving DecidableEq, Repr

structure FinshSyscall where
  name : List UInt8
  func : Nat
deriving DecidableEq, Repr

/-- The static tables and the lists of the appended symbols. -/
structure FinshTables where
  sysvarTable : List FinshSysvar
  sysvarList : List FinshSysvar
  syscallTable : List FinshSyscall
  syscallList : List FinshSyscall
deriving DecidableEq, Repr

namespace FinshTables

/-- `finsh_sysvar_append` and `finsh_syscall_append`; nothing is appended without memory. -/
def finshSysvarAppend (t : FinshTables) (memory : Bool) (v : FinshSysvar) : FinshTables :=
  if memory then { t with sysvarList := v :: t.sysvarList } else t

def finshSyscallAppend (t : FinshTables) (memory : Bool) (c : FinshSyscall) : FinshTables :=
  if memory then { t with syscallList := c :: t.syscallList } else t

/-- `strcmp` on the table, `strncmp(.., name, strlen(name))` on the list. -/
def finshSysvarLookup (t : FinshTables) (name : List UInt8) : Option FinshSysvar :=
  (t.sysvarTable.find? fun v => v.name == name).or (t.sysvarList.find? fun v => name.isPrefixOf v.name)

def finshSyscallLookup (t : FinshTables) (name : List UInt8) : Option FinshSyscall :=
  (t.syscallTable.find? fun c => c.name == name).or (t.syscallList.find? fun c => name.isPrefixOf c.name)

/-- The two lookups as the parser uses them. -/
def symbols (t : FinshTables) : FinshSymbols :=
  ⟨fun name => (t.finshSysvarLookup name).map fun v => (v.type, v.var),
    fun name => (t.finshSyscallLookup name).map FinshSyscall.func⟩

end FinshTables

/-- The string that `proc_identifier` leaves in `id`, whose 17 bytes are not cleared: behind a name
of 16 bytes or more comes what was on the stack. -/
def identifierText (stack name : List UInt8) : List UInt8 :=
  if name.length < finshNameMax then name else name.take finshNameMax ++ cText stack

/-- What `symbol` points to in `finsh_node_new_id`; `appended` tells the lists from the tables. -/
inductive FinshSymbol where
  | var (i : Nat) (name : List UInt8)
  | sysvar (appended : Bool) (v : FinshSysvar)
  | syscall (appended : Bool) (c : FinshSyscall)
deriving DecidableEq, Repr

namespace FinshSymbol

def name : FinshSymbol → List UInt8
  | .var _ name => name
  | .sysvar _ v => v.name
  | .syscall _ c => c.name

def ref : FinshSymbol → FinshId
  | .var i _ => .var i
  | .sysvar _ v => .sysvar v.type v.var
  | .syscall _ c => .syscall c.func

/-- The comparison of the symbol's name with the string in `id`. -/
def taken (id : List UInt8) : FinshSymbol → Bool
  | .var _ name => sameName name id
  | .sysvar false v => v.name == id
  | .sysvar true v => id.isPrefixOf v.name
  | .syscall false c => c.name == id
  | .syscall true c => id.isPrefixOf c.name

end FinshSymbol

def varSymbols : Nat → FinshVars → List FinshSymbol
  | _, [] => []
  | i, v :: vars => .var i v.name :: varSymbols (i + 1) vars

/-- All symbols in the order of the search. -/
def allSymbols (vars : FinshVars) (t : FinshTables) : List FinshSymbol :=
  varSymbols 0 vars ++ t.sysvarTable.map (.sysvar false) ++ t.sysvarList.map (.sysvar true) ++
    t.syscallTable.map (.syscall false) ++ t.syscallList.map (.syscall true)

/-- The search of `finsh_node_new_id`. -/
def finshNodeSymbol (vars : FinshVars) (t : FinshTables) (id : List UInt8) : Option FinshSymbol :=
  (allSymbols vars t).find? (FinshSymbol.taken id)

/-- The first symbol of exactly that name. -/
def namedSymbol (vars : FinshVars) (t : FinshTables) (name : List UInt8) : Option FinshSymbol :=
  (allSymbols vars t).find? fun sym => sym.name == name

/-- The node for a symbol, the error where there is none. -/
def FinshParser.symbolNode (s : FinshParser) : Option FinshSymbol → FinshNode × FinshParser
  | some sym => s.nodeNewValue (.id sym.ref)
  | none => (.null, s.errorSet .unknownSymbol)

/-- The search for the copied identifier ends at the first symbol of the identifier's own name, and
the parser's node is the one for it. -/
def IdentifierExact (s : FinshParser) (t : FinshTables) (stack name : List UInt8) : Prop :=
  finshNodeSymbol s.vars t (identifierText stack name) = namedSymbol s.vars t name ∧
    s.nodeNewId t.symbols (identifierText stack name) = s.symbolNode (namedSymbol s.vars t name)

/-- The comparison takes a symbol of another name, or passes over one of the identifier's name. -/
def FinshSymbol.errs (stack name : List UInt8) (sym : FinshSymbol) : Bool :=
  sym.taken (identifierText stack name) != (sym.name == name)

/-- The first symbol that is taken or has the name is not one on which the comparison errs. -/
def SearchExact (vars : FinshVars) (t : FinshTables) (stack name : List UInt8) : Prop :=
  ∀ sym, (allSymbols vars t).find? (fun sym => sym.taken (identifierText stack name) || sym.name == name) =
    some sym → sym.errs stack name = false

theorem find?_eq_find?_iff {α : Type} (p q : α → Bool) (xs : List α) :
    xs.find? p = xs.find? q ↔
      ∀ x, xs.find? (fun x => p x || q x) = some x → p x = true ∧ q x = true := by
  induction xs with
  | nil => simp
  | cons a xs ih =>
    simp only [List.find?_cons]
    cases hp : p a with
    | true =>
      cases hq : q a with
      | true =>
        simp only [Bool.or_true, true_iff]
        intro x hx
        obtain rfl := Option.some.inj hx
        exact ⟨hp, hq⟩
      | false =>
        simp only [Bool.or_false]
        constructor
        · intro h
          have hqa := List.find?_some h.symm
          rw [hq] at hqa
          cases hqa
        · intro h
          have hqa := (h a rfl).2
          rw [hq] at hqa
          cases hqa
    | false =>
      cases hq : q a with
      | true =>
        simp only [Bool.or_true]
        constructor
        · intro h
          have hpa := List.find?_some h
          rw [hp] at hpa
          cases hpa
        · intro h
          have hpa := (h a rfl).1
          rw [hp] at hpa
          cases hpa
      | false => exact ih

section
variable {vars : FinshVars} {t : FinshTables} {id name stack : List UInt8} {s : FinshParser}

theorem varSymbols_find (i : Nat) : (varSymbols i vars).find? (FinshSymbol.taken id) =
    (finshVarLookup vars id).map fun k => .var (i + k) ((vars[k]?).elim [] FinshVar.name) := by
  unfold finshVarLookup
  induction vars generalizing i with
  | nil => rfl
  | cons v vars ih =>
    have htaken : FinshSymbol.taken id (.var i v.name) = sameName v.name id := rfl
    rw [varSymbols, List.findIdx?_cons, List.find?_cons, htaken]
    cases hv : sameName v.name id with
    | true => rfl
    | false =>
      rw [ih]
      simp only [Option.map_map, Bool.false_eq_true, if_false]
      congr 1
      funext k
      simp only [Function.comp, List.getElem?_cons_succ]
      congr 1
      omega

theorem taken_comp (id : List UInt8) : FinshSymbol.taken id ∘ FinshSymbol.sysvar false = (fun v => v.name == id) ∧
    FinshSymbol.taken id ∘ FinshSymbol.sysvar true = (fun v => id.isPrefixOf v.name) ∧
    FinshSymbol.taken id ∘ FinshSymbol.syscall false = (fun c => c.name == id) ∧
    FinshSymbol.taken id ∘ FinshSymbol.syscall true = fun c => id.isPrefixOf c.name :=
  ⟨rfl, rfl, rfl, rfl⟩

theorem lookup_symbols : FinshParser.lookup t.symbols vars id =
    (finshNodeSymbol vars t id).map FinshSymbol.ref := by
  obtain ⟨hv, hv', hc, hc'⟩ := taken_comp id
  unfold FinshParser.lookup finshNodeSymbol allSymbols
  simp only [List.find?_append, varSymbols_find, List.find?_map, hv, hv', hc, hc',
    FinshTables.symbols, FinshTables.finshSysvarLookup, FinshTables.finshSyscallLookup]
  cases finshVarLookup vars id with
  | some i => simp [FinshSymbol.ref]
  | none =>
    cases t.sysvarTable.find? fun v => v.name == id with
    | some v => simp [FinshSymbol.ref]
    | none =>
      cases t.sysvarList.find? fun v => id.isPrefixOf v.name with
      | some v => simp [FinshSymbol.ref]
      | none =>
        cases t.syscallTable.find? fun c => c.name == id with
        | some c => simp [FinshSymbol.ref]
        | none =>
          cases t.syscallList.find? fun c => id.isPrefixOf c.name with
          | some c => simp [FinshSymbol.ref]
          | none => rfl

theorem nodeNewId_symbol : s.nodeNewId t.symbols id = s.symbolNode (finshNodeSymbol s.vars t id) := by
  unfold FinshParser.nodeNewId
  rw [lookup_symbols]
  cases finshNodeSymbol s.vars t id with
  | none => rfl
  | some sym => rfl

theorem nodeSymbol_exact_iff :
    finshNodeSymbol vars t (identifierText stack name) = namedSymbol vars t name ↔
      SearchExact vars t stack name := by
  unfold finshNodeSymbol namedSymbol SearchExact
  rw [find?_eq_find?_iff]
  apply forall₂_congr
  intro sym hsym
  have hfound := List.find?_some hsym
  unfold FinshSymbol.errs
  cases htaken : FinshSymbol.taken (identifierText stack name) sym <;>
    cases hname : sym.name == name <;> simp_all

end

/-- The identifier of a line gets the node of the symbol with exactly its name, or the error where
there is none, if and only if the search meets no symbol first on which its comparison errs. -/
theorem identifier_exact_iff (s : FinshParser) (t : FinshTables) (stack name : List UInt8) :
    IdentifierExact s t stack name ↔ SearchExact s.vars t stack name := by
  rw [← nodeSymbol_exact_iff]
  constructor
  · intro h
    exact h.1
  · intro h
    refine ⟨h, ?_⟩
    rw [nodeNewId_symbol, h]

/-- `finsh_syscall_append("list_thread", ..)`; the line names `list`. -/
theorem list_not_exact :
    ¬ IdentifierExact (finshParserInit finshVarInit []) (FinshTables.finshSyscallAppend ⟨[], [], [], []⟩ true
        ⟨[108, 105, 115, 116, 95, 116, 104, 114, 101, 97, 100], 1⟩) [] [108, 105, 115, 116] := by
  intro h
  exact absurd h.1 (by decide)

end RTThread
