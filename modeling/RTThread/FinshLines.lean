import RTThread.FinshParserTrees

namespace RTThread

/-- A declared name, and the tokens and the expression behind `=`. -/
structure Declarator where
  name : List UInt8
  init : Option (List FinshToken × FinshExpr)

/-- What stands before a semicolon of a line. -/
inductive LineItem where
  | empty
  | expr (ts : List FinshToken) (e : FinshExpr)
  | decl (us : List FinshToken) (type : FinshType) (first : Declarator) (rest : List Declarator)

def Declarator.initTokens (d : Declarator) : List FinshToken :=
  match d.init with
  | none => []
  | some (ts, _) => .assign :: ts

def Declarator.tokens (d : Declarator) : List FinshToken := .identifier d.name :: d.initTokens

def declaratorTokens (ds : List Declarator) : List FinshToken := ds.flatMap fun d => .comma :: d.tokens

def LineItem.tokens : LineItem → List FinshToken
  | .empty => [.semicolon]
  | .expr ts _ => ts ++ [.semicolon]
  | .decl us _ first rest => us ++ (first.tokens ++ (declaratorTokens rest ++ [.semicolon]))

def lineTokens (items : List LineItem) : List FinshToken := items.flatMap LineItem.tokens

def Declarator.Derived (d : Declarator) : Prop :=
  ∀ ts e, d.init = some (ts, e) → Derives TypeTokens .assign ts [e]

/-- The expressions and the type are those of a derivation. -/
def LineItem.Derived : LineItem → Prop
  | .empty => True
  | .expr ts e => Derives TypeTokens .assign ts [e]
  | .decl us type first rest => TypeTokens us type ∧ first.Derived ∧ ∀ d ∈ rest, d.Derived

/-- The table of variables with one more, if it has room and the name is new. -/
def declareVar (vars : FinshVars) (name : List UInt8) (type : FinshType) : FinshVars :=
  (finshVarInsert vars (name.take finshNameMax) type).getD vars

section
variable (S : FinshSymbols)

/-- The assignment of an initialised declarator, with the name declared. -/
def Declarator.trees (type : FinshType) (vars : FinshVars) (d : Declarator) :
    Option (List FinshNode × FinshVars) :=
  let vars := declareVar vars d.name type
  match d.init with
  | none => some ([], vars)
  | some (_, e) =>
    (FinshParser.lookup S vars (d.name.take finshNameMax)).bind fun ref =>
      (e.tree (FinshParser.lookup S vars)).map fun n =>
        ([sysNode .assign (.leaf (.id ref)) [n]], vars)

def declaratorTrees (type : FinshType) (vars : FinshVars) :
    List Declarator → Option (List FinshNode × FinshVars)
  | [] => some ([], vars)
  | d :: ds =>
    (d.trees S type vars).bind fun (ns, vars) =>
      (declaratorTrees type vars ds).map fun (ns', vars) => (ns ++ ns', vars)

/-- One tree for an expression, and one assignment for each initialised declarator. -/
def LineItem.trees (vars : FinshVars) : LineItem → Option (List FinshNode × FinshVars)
  | .empty => some ([], vars)
  | .expr _ e => (e.tree (FinshParser.lookup S vars)).map fun n => ([n], vars)
  | .decl _ type first rest => declaratorTrees S type vars (first :: rest)

/-- The trees of all items, in order. -/
def lineTrees (vars : FinshVars) : List LineItem → Option (List FinshNode)
  | [] => some []
  | item :: items =>
    (item.trees S vars).bind fun (ns, vars) => (lineTrees vars items).map fun ns' => ns ++ ns'

end

/-- How many trees an item stands for. -/
def LineItem.yields : LineItem → Nat
  | .empty => 0
  | .expr .. => 1
  | .decl _ _ first rest => (first :: rest).countP fun d => d.init.isSome

/-- Behind the first tree: empty statements come in pairs or at the end, and a declaration with two
initialisers or more is the last item. -/
def KeptTail : List LineItem → Prop
  | [] => True
  | [.empty] => True
  | .empty :: .empty :: rest => KeptTail rest
  | .empty :: _ => False
  | item :: rest => (item.yields ≤ 1 ∨ rest = []) ∧ KeptTail rest

/-- No item stands for a tree, or the first one does and what follows is kept. -/
def Kept (items : List LineItem) : Prop :=
  (∀ item ∈ items, item.yields = 0) ∨
    ∃ item rest, items = item :: rest ∧ 0 < item.yields ∧ (item.yields ≤ 1 ∨ rest = []) ∧
      KeptTail rest

section
variable {S : FinshSymbols} {s s1 s' : FinshParser} {t : FinshToken} {l : List FinshToken}
  {vars : FinshVars} {type : FinshType} {d : Declarator} {fuel : Nat} {nodes : List FinshNode}

open FinshParser

theorem declareId_sticky (h : (declareId type s).2.errno = .ok) : s.errno = .ok := by
  unfold declareId at h
  simp only at h
  split at h
  · exact procIdentifier_sticky h
  · simp at h

theorem declareId_behind {name : List UInt8} (hs : Ahead s (.identifier name :: l))
    (hok : (declareId type s).2.errno = .ok) :
    (declareId type s).1 = name.take finshNameMax ∧ Ahead (declareId type s).2 l ∧
      (declareId type s).2.vars = declareVar s.vars name type := by
  unfold declareId declareVar at *
  simp only at hok ⊢
  split at hok
  · next vars' hinsert =>
    obtain ⟨hid, hat, hvars⟩ := procIdentifier_behind hs hok
    rw [hid, hvars] at hinsert
    rw [hinsert]
    exact ⟨hid, ⟨hat.tokens, hat.text⟩, rfl⟩
  · simp at hok

theorem procInitialiser_sticky {id : List UInt8} : StickyProc (procInitialiser S fuel id t nodes) := by
  intro s r s' h hok
  unfold procInitialiser at h
  split at h
  · obtain ⟨⟨assign, s1⟩, h1, h⟩ := Option.bind_eq_some_iff.mp h
    simp only at h
    apply procAssignExpr_sticky _ _ _ h1
    split at h
    · obtain ⟨-, rfl⟩ := Prod.mk.inj (Option.some.inj h)
      exact hok
    · obtain ⟨-, rfl⟩ := Prod.mk.inj (Option.some.inj h)
      rw [nextToken_errno] at hok
      exact nodeNewId_sticky (makeSysNode_sticky hok)
  · obtain ⟨-, rfl⟩ := Prod.mk.inj (Option.some.inj h)
    exact hok

theorem declaratorLoop_sticky {turns : Nat} :
    StickyProc (declaratorLoop S fuel type turns t nodes) := by
  induction turns generalizing t nodes with
  | zero =>
    intro s r s' h
    cases h
  | succ turns ih =>
    intro s r s' h hok
    unfold declaratorLoop at h
    split at h
    · simp only at h
      obtain ⟨⟨r1, s1⟩, h1, h⟩ := Option.bind_eq_some_iff.mp h
      have hok1 := procInitialiser_sticky _ _ _ h1 (ih _ _ _ h hok)
      rw [nextToken_errno] at hok1
      exact declareId_sticky hok1
    · obtain ⟨-, rfl⟩ := Prod.mk.inj (Option.some.inj h)
      exact hok

/-- What stands behind a declarator. -/
def endsDeclarator (t : FinshToken) : Prop := t = .comma ∨ t = .semicolon

theorem endsDeclarator.rank (h : endsDeclarator t) : 7 < t.rank := by
  rcases h with rfl | rfl <;> decide

theorem endsDeclarator.not_assign (h : endsDeclarator t) : t ≠ .assign := by
  rcases h with rfl | rfl <;> simp

/-- An initialiser adds the assignment of its declarator. -/
theorem procInitialiser_sound {t1 t' : FinshToken} {l1 : List FinshToken} {nodes' : List FinshNode}
    (hs : Behind s t1 l1 (declareVar vars d.name type)) (htokens : t1 :: l1 = d.initTokens ++ t :: l)
    (ht : endsDeclarator t) (hd : d.Derived)
    (hrun : procInitialiser S fuel (d.name.take finshNameMax) t1 nodes s = some ((t', nodes'), s'))
    (hok : s'.errno = .ok) :
    ∃ ns, d.trees S type vars = some (ns, declareVar vars d.name type) ∧ nodes' = nodes ++ ns ∧
      t' = t ∧ Behind s' t l (declareVar vars d.name type) := by
  unfold procInitialiser at hrun
  unfold Declarator.trees Declarator.initTokens at *
  cases hinit : d.init with
  | none =>
    rw [hinit] at htokens
    obtain ⟨rfl, rfl⟩ := List.cons.inj htokens
    rw [if_neg ht.not_assign] at hrun
    cases Option.some.inj hrun
    exact ⟨[], rfl, by simp, rfl, hs⟩
  | some init =>
    obtain ⟨ts, e⟩ := init
    rw [hinit] at htokens
    obtain ⟨rfl, rfl⟩ := List.cons.inj htokens
    rw [if_pos rfl] at hrun
    obtain ⟨⟨r, s1⟩, h1, hrun⟩ := Option.bind_eq_some_iff.mp hrun
    simp only at hrun
    have hgot : s1.errno = .ok → Got S s.vars e r s1 (t :: l) := fun hok1 =>
      (hd ts e hinit).sound fuel s t l r s1 hs.tokens ht.rank h1 hok1
    split at hrun
    · next hnull =>
      cases Option.some.inj hrun
      exact absurd hnull (FinshExpr.tree_ne_null (hgot hok).tree)
    · have hnew := Option.some.inj hrun
      replace hok := (congrArg (FinshParser.errno ∘ Prod.snd) hnew).trans hok
      have hok2 := (nextToken_errno (s := (makeSysNode _ _ _ _).2)).symm.trans hok
      have hok1 := makeSysNode_sticky hok2
      have hgot := hgot (nodeNewId_sticky hok1)
      obtain ⟨-, ref, href, hid⟩ := nodeNewId_ok hok1
      rw [hid] at hok2 hnew
      obtain ⟨-, -, hsys⟩ := makeSysNode_ok hok2
      rw [hsys] at hnew
      obtain ⟨s2, hnext, hbehind, -⟩ := (hgot.tokens.withNodes (s1.nodes + 1 + 1)).next
      simp only [hnext] at hnew
      cases hnew
      rw [hgot.vars, hs.vars] at href
      have htree := hgot.tree
      rw [hs.vars] at htree
      refine ⟨_, by simp [href, htree]; rfl, by simp [FinshNode.toList, sysNode], rfl, ?_⟩
      exact (hgot.vars.trans hs.vars) ▸ hbehind

theorem declaratorTokens_begins (ds : List Declarator) (l : List FinshToken) :
    ∃ t l', declaratorTokens ds ++ .semicolon :: l = t :: l' ∧ endsDeclarator t := by
  cases ds with
  | nil => exact ⟨.semicolon, l, rfl, .inr rfl⟩
  | cons d ds => exact ⟨.comma, _, rfl, .inl rfl⟩

/-- A declarator whose name is still to be read, with its initialiser. -/
theorem declarator_sound {nodes' : List FinshNode} {t' : FinshToken} (hs : Ahead s (d.tokens ++ t :: l))
    (hvars : s.vars = vars) (ht : endsDeclarator t) (hd : d.Derived)
    (hrun : procInitialiser S fuel (declareId type s).1 (declareId type s).2.nextToken.1 nodes
      (declareId type s).2.nextToken.2 = some ((t', nodes'), s'))
    (hok : s'.errno = .ok) :
    ∃ ns, d.trees S type vars = some (ns, declareVar vars d.name type) ∧ nodes' = nodes ++ ns ∧
      t' = t ∧ Behind s' t l (declareVar vars d.name type) := by
  have hok1 := procInitialiser_sticky _ _ _ hrun hok
  rw [nextToken_errno] at hok1
  have hs : Ahead s (.identifier d.name :: (d.initTokens ++ t :: l)) := hs
  obtain ⟨hid, hat, hdeclared⟩ := declareId_behind hs hok1
  obtain ⟨t1, l1, htokens⟩ : ∃ t1 l1, t1 :: l1 = d.initTokens ++ t :: l := by
    unfold Declarator.initTokens
    cases d.init with
    | none => exact ⟨t, l, rfl⟩
    | some init => exact ⟨.assign, _, rfl⟩
  rw [← htokens] at hat
  obtain ⟨s1, hnext, hbehind, -⟩ := hat.next
  rw [hdeclared, hvars] at hbehind
  rw [hid, hnext] at hrun
  exact procInitialiser_sound hbehind htokens ht hd hrun hok

/-- The loop over the declarators that follow the first one. -/
theorem declaratorLoop_sound {turns : Nat} {ds : List Declarator} {l0 : List FinshToken}
    {t' : FinshToken} {nodes' : List FinshNode} (hs : Behind s t l0 vars)
    (htokens : t :: l0 = declaratorTokens ds ++ .semicolon :: l) (hds : ∀ d ∈ ds, d.Derived)
    (hrun : declaratorLoop S fuel type turns t nodes s = some ((t', nodes'), s'))
    (hok : s'.errno = .ok) :
    ∃ ns vars', declaratorTrees S type vars ds = some (ns, vars') ∧ nodes' = nodes ++ ns ∧
      t' = .semicolon ∧ Behind s' .semicolon l vars' := by
  induction turns generalizing ds s t l0 vars nodes with
  | zero => cases hrun
  | succ turns ih =>
    unfold declaratorLoop at hrun
    cases ds with
    | nil =>
      obtain ⟨rfl, rfl⟩ := List.cons.inj htokens
      rw [if_neg (by simp)] at hrun
      cases Option.some.inj hrun
      exact ⟨[], vars, rfl, by simp, rfl, hs⟩
    | cons d ds =>
      obtain ⟨t2, l2, hrest, ht2⟩ := declaratorTokens_begins ds l
      have hcons : declaratorTokens (d :: ds) ++ .semicolon :: l =
          .comma :: (d.tokens ++ t2 :: l2) := by
        rw [← hrest]
        simp [declaratorTokens]
      rw [hcons] at htokens
      obtain ⟨rfl, rfl⟩ := List.cons.inj htokens
      rw [if_pos rfl] at hrun
      simp only at hrun
      obtain ⟨⟨⟨t3, nodes1⟩, s1⟩, h1, hrun⟩ := Option.bind_eq_some_iff.mp hrun
      simp only at hrun
      have hok1 := declaratorLoop_sticky _ _ _ hrun hok
      obtain ⟨ns1, htrees1, rfl, rfl, hbehind1⟩ :=
        declarator_sound hs.tokens hs.vars ht2 (hds d (by simp)) h1 hok1
      obtain ⟨ns2, vars', htrees2, rfl, rfl, hbehind2⟩ :=
        ih hbehind1 hrest.symm (fun d hd => hds d (by simp [hd])) hrun
      refine ⟨ns1 ++ ns2, vars', ?_, by simp, rfl, hbehind2⟩
      simp [declaratorTrees, htrees1, htrees2]

theorem checkToken_sticky {p : FinshToken → Bool} (h : (s.checkToken t p).errno = .ok) :
    s.errno = .ok := by
  rwa [(checkToken_ok h).2] at h

theorem procVariableDecl_sticky : StickyProc (procVariableDecl S fuel) := by
  intro s r s' h hok
  unfold procVariableDecl at h
  simp only at h
  have hdeclared : (declareId (procType s).1 (procType s).2).2.errno = .ok := by
    split at h
    · obtain ⟨⟨r1, s1⟩, h1, h⟩ := Option.bind_eq_some_iff.mp h
      obtain ⟨⟨r2, s2⟩, h2, h⟩ := Option.bind_eq_some_iff.mp h
      obtain ⟨-, rfl⟩ := Prod.mk.inj (Option.some.inj h)
      have hok1 := procInitialiser_sticky _ _ _ h1
        (declaratorLoop_sticky _ _ _ h2 (checkToken_sticky hok))
      simpa using hok1
    · split at h
      · obtain ⟨-, rfl⟩ := Prod.mk.inj (Option.some.inj h)
        simpa using hok
      · obtain ⟨-, rfl⟩ := Prod.mk.inj (Option.some.inj h)
        simp at hok
  exact procType_sticky (declareId_sticky hdeclared)

theorem procExprStatement_sticky : StickyProc (procExprStatement S fuel) := by
  intro s r s' h hok
  unfold procExprStatement at h
  simp only at h
  split at h
  · obtain ⟨-, rfl⟩ := Prod.mk.inj (Option.some.inj h)
    simpa using hok
  · obtain ⟨⟨e, s1⟩, h1, h⟩ := Option.bind_eq_some_iff.mp h
    obtain ⟨-, rfl⟩ := Prod.mk.inj (Option.some.inj h)
    simpa using procAssignExpr_sticky _ _ _ h1 (matchToken_sticky hok)

/-- A declaration that ends without an error is a run of both procedures of declarators. -/
theorem procVariableDecl_cases (hrun : procVariableDecl S fuel s = some (nodes, s'))
    (hok : s'.errno = .ok) :
    ∃ t1 nodes1 s1 turns t2 s2,
      procInitialiser S fuel (declareId (procType s).1 (procType s).2).1
        (declareId (procType s).1 (procType s).2).2.nextToken.1 []
        (declareId (procType s).1 (procType s).2).2.nextToken.2 = some ((t1, nodes1), s1) ∧
      declaratorLoop S fuel (procType s).1 turns t1 nodes1 s1 = some ((t2, nodes), s2) ∧
      s' = s2.checkToken t2 (· = .semicolon) := by
  unfold procVariableDecl at hrun
  simp only at hrun
  split at hrun
  · obtain ⟨⟨⟨t1, nodes1⟩, s1⟩, h1, hrun⟩ := Option.bind_eq_some_iff.mp hrun
    obtain ⟨⟨⟨t2, nodes2⟩, s2⟩, h2, hrun⟩ := Option.bind_eq_some_iff.mp hrun
    obtain ⟨rfl, rfl⟩ := Prod.mk.inj (Option.some.inj hrun)
    exact ⟨t1, nodes1, s1, fuel, t2, s2, h1, h2, rfl⟩
  · split at hrun
    · next ht =>
      obtain ⟨rfl, rfl⟩ := Prod.mk.inj (Option.some.inj hrun)
      rw [ht]
      generalize (declareId (procType s).1 (procType s).2).2.nextToken.2 = s1
      exact ⟨.semicolon, [], s1, 1, .semicolon, s1, rfl, rfl, rfl⟩
    · obtain ⟨-, rfl⟩ := Prod.mk.inj (Option.some.inj hrun)
      simp at hok

theorem procVariableDecl_sound {us : List FinshToken} {first : Declarator} {rest : List Declarator}
    (hs : Ahead s ((LineItem.decl us type first rest).tokens ++ l))
    (hd : (LineItem.decl us type first rest).Derived)
    (hrun : procVariableDecl S fuel s = some (nodes, s')) (hok : s'.errno = .ok) :
    ∃ vars', declaratorTrees S type s.vars (first :: rest) = some (nodes, vars') ∧ Ahead s' l ∧
      s'.vars = vars' := by
  obtain ⟨hus, hfirst, hrest⟩ := hd
  obtain ⟨t1, nodes1, s1, turns, t2, s2, h1, h2, rfl⟩ := procVariableDecl_cases hrun hok
  obtain ⟨hsemi, heq⟩ := checkToken_ok hok
  rw [heq] at hok ⊢
  have hok1 := declaratorLoop_sticky _ _ _ h2 hok
  have hoktype : (procType s).2.errno = .ok := by
    have hok2 := procInitialiser_sticky _ _ _ h1 hok1
    rw [nextToken_errno] at hok2
    exact declareId_sticky hok2
  obtain ⟨t, l1, hbegins, ht⟩ := declaratorTokens_begins rest l
  have htokens : (LineItem.decl us type first rest).tokens ++ l =
      us ++ .identifier first.name :: (first.initTokens ++ t :: l1) := by
    rw [← hbegins]
    simp [LineItem.tokens, Declarator.tokens]
  rw [htokens] at hs
  obtain ⟨htype, hat, hvars⟩ := procType_sound hus hs nofun hoktype
  rw [htype] at h1 h2
  obtain ⟨ns1, htrees1, rfl, rfl, hbehind1⟩ := declarator_sound hat hvars ht hfirst h1 hok1
  obtain ⟨ns2, vars', htrees2, rfl, rfl, hbehind2⟩ :=
    declaratorLoop_sound hbehind1 hbegins.symm hrest h2 hok
  refine ⟨vars', ?_, hbehind2.tokens, hbehind2.vars⟩
  simp [declaratorTrees, htrees1, htrees2]

theorem procExprStatement_empty (hs : Ahead s (.semicolon :: l)) :
    ∃ s1, procExprStatement S fuel s = some (.null, s1) ∧ Ahead s1 l ∧ s1.vars = s.vars := by
  obtain ⟨s1, hnext, hbehind, -⟩ := hs.next
  exact ⟨s1, by simp [procExprStatement, hnext], hbehind.tokens, hbehind.vars⟩

theorem procExprStatement_sound {ts : List FinshToken} {e : FinshExpr} {n : FinshNode}
    (hs : Ahead s (ts ++ .semicolon :: l)) (hd : Derives TypeTokens .assign ts [e])
    (hrun : procExprStatement S fuel s = some (n, s')) (hok : s'.errno = .ok) :
    e.tree (lookup S s.vars) = some n ∧ Ahead s' l ∧ s'.vars = s.vars := by
  obtain ⟨t1, l1, rfl, hstarts⟩ := hd.begins
  have hs : Ahead s (t1 :: (l1 ++ .semicolon :: l)) := hs
  obtain ⟨s1, hnext, hbehind, -⟩ := hs.next
  have hne : t1 ≠ .semicolon := (not_starts hstarts).2.2.2.2.1
  simp only [procExprStatement, hnext, hne, if_false] at hrun
  obtain ⟨⟨r, s2⟩, h1, hrun⟩ := Option.bind_eq_some_iff.mp hrun
  obtain ⟨rfl, rfl⟩ := Prod.mk.inj (Option.some.inj hrun)
  have hgot := hd.sound fuel s1.replayToken .semicolon l r s2 hbehind.replayed (by decide) h1
    (matchToken_sticky hok)
  obtain ⟨-, hat, hvars⟩ := hgot.tokens.matches hok
  have hvars1 : s1.replayToken.vars = s.vars := hbehind.vars
  rw [hvars1] at hgot
  exact ⟨hgot.tree, hat, hvars.trans hgot.vars⟩

theorem parserTurn_sticky {token : FinshToken} {root : FinshRoot} :
    StickyProc (parserTurn S fuel token root) := by
  intro s r s' h hok
  unfold parserTurn at h
  split at h
  · obtain ⟨⟨nodes, s1⟩, h1, h⟩ := Option.bind_eq_some_iff.mp h
    obtain ⟨-, rfl⟩ := Prod.mk.inj (Option.some.inj h)
    have hok0 := procVariableDecl_sticky _ _ _ h1 hok
    exact hok0
  · obtain ⟨⟨node, s1⟩, h1, h⟩ := Option.bind_eq_some_iff.mp h
    obtain ⟨-, rfl⟩ := Prod.mk.inj (Option.some.inj h)
    have hok1 : s1.errno = .ok := by
      split at hok
      · simpa using hok
      · exact hok
    have hok0 := procExprStatement_sticky _ _ _ h1 hok1
    exact hok0

theorem parserLoop_sticky {turns : Nat} {token : FinshToken} {root : FinshRoot} :
    StickyProc (parserLoop S fuel turns token root) := by
  induction turns generalizing token root with
  | zero =>
    intro s r s' h
    cases h
  | succ turns ih =>
    intro s r s' h hok
    unfold parserLoop at h
    split at h
    · obtain ⟨-, rfl⟩ := Prod.mk.inj (Option.some.inj h)
      exact hok
    · obtain ⟨⟨root1, s1⟩, h1, h⟩ := Option.bind_eq_some_iff.mp h
      simp only at h
      apply parserTurn_sticky _ _ _ h1
      split at h
      · obtain ⟨-, rfl⟩ := Prod.mk.inj (Option.some.inj h)
        exact hok
      · simpa using ih _ _ _ h hok

end

section
variable {S : FinshSymbols} {s s' : FinshParser} {l : List FinshToken} {vars vars' : FinshVars}
  {item : LineItem} {items : List LineItem} {fuel turns : Nat} {ns : List FinshNode}
  {root root' : FinshRoot}

open FinshParser

/-- An empty statement behind a tree takes the next token with it. -/
theorem parserTurn_empty (hs : Ahead s (.semicolon :: l))
    (hrun : parserTurn S fuel s.nextToken.1 root s.nextToken.2 = some (root', s')) :
    root' = root.attach [] ∧ ∃ s1, Ahead s1 l ∧ s1.vars = s.vars ∧
      s' = if root.trees = [] then s1 else s1.nextToken.2 := by
  obtain ⟨s0, hnext, hbehind, -⟩ := hs.next
  obtain ⟨s1, hempty, hat, hvars⟩ : ∃ s1, procExprStatement S fuel s0.replayToken = some (.null, s1) ∧
      Ahead s1 l ∧ s1.vars = s0.replayToken.vars := procExprStatement_empty hbehind.replayed
  rw [hnext] at hrun
  have hdecl : isDeclaration .semicolon = false := rfl
  simp only [parserTurn, hdecl, Bool.false_eq_true, if_false, hempty] at hrun
  obtain ⟨rfl, rfl⟩ := Prod.mk.inj (Option.some.inj hrun)
  refine ⟨rfl, s1, hat, hvars.trans hbehind.vars, ?_⟩
  by_cases hroot : root.trees = [] <;> simp [hroot, isIdentifier]

theorem isBaseType_iff {t : FinshToken} : isBaseType t = true ↔ baseType t ≠ none := by
  cases t <;> simp [isBaseType, baseType]

theorem TypeTokens.begins {us : List FinshToken} {type : FinshType} (h : TypeTokens us type) :
    ∃ t us', us = t :: us' ∧ isDeclaration t = true := by
  have hbasic : ∀ us type, BasicType us type → ∃ t us', us = t :: us' ∧ isDeclaration t = true := by
    intro us type h
    cases h with
    | @plain t type h => exact ⟨t, [], rfl, by simp [isDeclaration, isBaseType_iff.mpr, h]⟩
    | unsigned h => exact ⟨_, _, rfl, rfl⟩
    | unsignedVoid => exact ⟨_, _, rfl, rfl⟩
  cases h with
  | basic h => exact hbasic _ _ h
  | pointer h =>
    obtain ⟨t, us', rfl, ht⟩ := hbasic _ _ h
    exact ⟨t, _, rfl, ht⟩

/-- A turn on any other item attaches its trees. -/
theorem parserTurn_sound (hs : Ahead s (item.tokens ++ l)) (hd : item.Derived) (hne : item ≠ .empty)
    (hrun : parserTurn S fuel s.nextToken.1 root s.nextToken.2 = some (root', s'))
    (hok : s'.errno = .ok) :
    ∃ ns, item.trees S s.vars = some (ns, s'.vars) ∧ root' = root.attach ns ∧ Ahead s' l := by
  cases item with
  | empty => exact absurd rfl hne
  | expr ts e =>
    have hd : Derives TypeTokens .assign ts [e] := hd
    obtain ⟨t, ts, rfl, hstarts⟩ := hd.begins
    have htokens : (LineItem.expr (t :: ts) e).tokens ++ l = t :: (ts ++ .semicolon :: l) := by
      simp [LineItem.tokens]
    rw [htokens] at hs
    obtain ⟨s0, hnext, hbehind, -⟩ := hs.next
    have hdecl : isDeclaration t = false := by
      have hnot := not_starts hstarts
      have hbase : ¬isBaseType t = true := fun h => isBaseType_iff.mp h hnot.1
      simp [isDeclaration, hbase, hnot.2.1]
    rw [hnext] at hrun
    simp only [parserTurn, hdecl, Bool.false_eq_true, if_false] at hrun
    obtain ⟨⟨n, s1⟩, h1, hrun⟩ := Option.bind_eq_some_iff.mp hrun
    obtain ⟨rfl, rfl⟩ := Prod.mk.inj (Option.some.inj hrun)
    have hok1 : s1.errno = .ok := by
      split at hok
      · simpa using hok
      · exact hok
    obtain ⟨htree, hat, hvars⟩ := procExprStatement_sound hbehind.replayed hd h1 hok1
    have hnull := FinshExpr.tree_ne_null htree
    rw [show s0.replayToken.vars = s.vars from hbehind.vars] at htree hvars
    have hskip : ¬(isIdentifier t = false ∧ root.trees ≠ [] ∧ n = .null) := fun h => hnull h.2.2
    rw [if_neg hskip]
    exact ⟨[n], by simp [LineItem.trees, htree, hvars], by rw [FinshNode.toList, if_neg hnull], hat⟩
  | decl us type first rest =>
    obtain ⟨t, us, rfl, hdecl⟩ := TypeTokens.begins hd.1
    have htokens : ∃ l', (LineItem.decl (t :: us) type first rest).tokens ++ l = t :: l' :=
      ⟨_, rfl⟩
    obtain ⟨l', htokens⟩ := htokens
    obtain ⟨s0, hnext, hbehind, -⟩ := Ahead.next (htokens ▸ hs)
    rw [hnext] at hrun
    simp only [parserTurn, hdecl, if_true] at hrun
    obtain ⟨⟨nodes, s1⟩, h1, hrun⟩ := Option.bind_eq_some_iff.mp hrun
    obtain ⟨rfl, rfl⟩ := Prod.mk.inj (Option.some.inj hrun)
    obtain ⟨vars', htrees, hat, rfl⟩ :=
      procVariableDecl_sound (htokens ▸ hbehind.replayed) hd h1 hok
    rw [show s0.replayToken.vars = s.vars from hbehind.vars] at htrees
    exact ⟨nodes, htrees, rfl, hat⟩

theorem declaratorTrees_length {type : FinshType} {ds : List Declarator}
    (h : declaratorTrees S type vars ds = some (ns, vars')) :
    ns.length = ds.countP fun d => d.init.isSome := by
  induction ds generalizing vars ns with
  | nil =>
    cases Option.some.inj h
    rfl
  | cons d ds ih =>
    obtain ⟨⟨ns1, vars1⟩, h1, h⟩ := Option.bind_eq_some_iff.mp h
    obtain ⟨⟨ns2, vars2⟩, h2, h⟩ := Option.map_eq_some_iff.mp h
    cases h
    rw [List.countP_cons, List.length_append, ih h2]
    unfold Declarator.trees at h1
    cases hinit : d.init with
    | none =>
      simp only [hinit] at h1
      cases h1
      simp
    | some init =>
      simp only [hinit] at h1
      obtain ⟨ref, -, h1⟩ := Option.bind_eq_some_iff.mp h1
      obtain ⟨n, -, h1⟩ := Option.map_eq_some_iff.mp h1
      cases h1
      simp [Nat.add_comm]

theorem LineItem.trees_length (h : item.trees S vars = some (ns, vars')) :
    ns.length = item.yields := by
  cases item with
  | empty =>
    cases Option.some.inj h
    rfl
  | expr ts e =>
    obtain ⟨n, -, h⟩ := Option.map_eq_some_iff.mp h
    cases h
    rfl
  | decl us type first rest => exact declaratorTrees_length h

theorem declaratorTrees_none {type : FinshType} {ds : List Declarator}
    (h : (ds.countP fun d => d.init.isSome) = 0) :
    ∃ vars', declaratorTrees S type vars ds = some ([], vars') := by
  induction ds generalizing vars with
  | nil => exact ⟨vars, rfl⟩
  | cons d ds ih =>
    rw [List.countP_cons] at h
    obtain ⟨vars', h2⟩ : ∃ vars', declaratorTrees S type (declareVar vars d.name type) ds =
        some ([], vars') := ih (by omega)
    have hinit : d.init = none := by
      by_contra hsome
      rw [if_pos (Option.isSome_iff_ne_none.mpr hsome)] at h
      omega
    exact ⟨vars', by simp [declaratorTrees, Declarator.trees, hinit, h2]⟩

theorem lineTrees_none (h : ∀ item ∈ items, item.yields = 0) : lineTrees S vars items = some [] := by
  induction items generalizing vars with
  | nil => rfl
  | cons item items ih =>
    have htrees : ∃ vars', item.trees S vars = some ([], vars') := by
      have hitem := h item (by simp)
      cases item with
      | empty => exact ⟨vars, rfl⟩
      | expr ts e => cases hitem
      | decl us type first rest => exact declaratorTrees_none hitem
    obtain ⟨vars', htrees⟩ := htrees
    simp [lineTrees, htrees, ih fun i hi => h i (by simp [hi])]

theorem LineItem.tokens_begin (hd : item.Derived) :
    ∃ t l', item.tokens ++ l = t :: l' ∧ t ≠ .eof ∧ t ≠ .bad := by
  cases item with
  | empty => exact ⟨.semicolon, l, rfl, by simp, by simp⟩
  | expr ts e =>
    obtain ⟨t, ts, rfl, hstarts⟩ := Derives.begins hd
    obtain ⟨-, -, -, -, -, heof, hbad⟩ := not_starts hstarts
    exact ⟨t, _, rfl, heof, hbad⟩
  | decl us type first rest =>
    obtain ⟨t, us, rfl, hdecl⟩ := TypeTokens.begins hd.1
    refine ⟨t, _, rfl, ?_, ?_⟩ <;> rintro rfl <;> cases hdecl

theorem FinshParser.nextToken_vars : s.nextToken.2.vars = s.vars := by
  unfold nextToken
  split
  · rfl
  · split <;> rfl

/-- At the end of the line the lexer stays there. -/
theorem Ahead.next_nil (hs : Ahead s []) : s.nextToken.1 = .eof ∧ Ahead s.nextToken.2 [] := by
  have htokens := hs.tokens
  unfold nextToken
  by_cases hreplay : s.replay = true
  · rw [if_pos hreplay] at htokens
    cases htokens
  · rw [if_neg hreplay] at htokens ⊢
    rw [← htokens]
    exact ⟨rfl, by simp [hreplay], by simp⟩

/-- A turn that leaves a tree at the root, and the rest of the loop. -/
theorem parserLoop_turn {t : FinshToken} {l' : List FinshToken} (hs : Ahead s (t :: l'))
    (ht : t ≠ .eof ∧ t ≠ .bad)
    (hrun : parserLoop S fuel (turns + 1) s.nextToken.1 root s.nextToken.2 = some (root', s')) :
    ∃ root1 s1, parserTurn S fuel s.nextToken.1 root s.nextToken.2 = some (root1, s1) ∧
      (root1.trees = [] ∧ root' = root1 ∧ s' = s1 ∨ root1.trees ≠ [] ∧
        parserLoop S fuel turns s1.nextToken.1 root1 s1.nextToken.2 = some (root', s')) := by
  obtain ⟨s0, hnext, -⟩ := hs.next
  rw [hnext] at hrun ⊢
  unfold parserLoop at hrun
  rw [if_neg (by simp [ht.1, ht.2])] at hrun
  obtain ⟨⟨root1, s1⟩, h1, hrun⟩ := Option.bind_eq_some_iff.mp hrun
  simp only at hrun
  refine ⟨root1, s1, h1, ?_⟩
  split at hrun
  · next hroot =>
    obtain ⟨rfl, rfl⟩ := Prod.mk.inj (Option.some.inj hrun)
    exact .inl ⟨hroot, rfl, rfl⟩
  · next hroot => exact .inr ⟨hroot, hrun⟩

theorem FinshRoot.attach_last (hroot : root.trees ≠ []) (hlast : root.last + 1 = root.trees.length) :
    root.attach ns = ⟨root.trees ++ ns, if ns = [] then root.last else root.last + 1⟩ := by
  unfold attach
  rw [if_neg hroot, hlast, List.take_length]

theorem KeptTail.tail {rest : List LineItem} (h : KeptTail (item :: rest)) (hne : item ≠ .empty) :
    (item.yields ≤ 1 ∨ rest = []) ∧ KeptTail rest := by
  cases item with
  | empty => exact absurd rfl hne
  | expr ts e => exact h
  | decl us type first ds => exact h

/-- With the last tree at hand, the loop puts the trees of the items behind those it has. -/
theorem parserLoop_kept (hs : Ahead s (lineTokens items)) (hd : ∀ item ∈ items, item.Derived)
    (hkept : KeptTail items) (hroot : root.trees ≠ [])
    (hlast : root.last + 1 = root.trees.length ∨ items = [])
    (hrun : parserLoop S fuel turns s.nextToken.1 root s.nextToken.2 = some (root', s'))
    (hok : s'.errno = .ok) :
    ∃ ns, lineTrees S s.vars items = some ns ∧ root'.trees = root.trees ++ ns := by
  induction turns generalizing items s root with
  | zero => cases hrun
  | succ turns ih =>
    cases items with
    | nil =>
      rw [(Ahead.next_nil hs).1] at hrun
      obtain ⟨rfl, -⟩ := Prod.mk.inj (Option.some.inj hrun)
      exact ⟨[], rfl, by simp⟩
    | cons item rest =>
      have hcurrent := hlast.resolve_right (List.cons_ne_nil _ _)
      have hs : Ahead s (item.tokens ++ lineTokens rest) := hs
      obtain ⟨t, l', htokens, ht⟩ := LineItem.tokens_begin (l := lineTokens rest) (hd item (by simp))
      obtain ⟨root1, s1, hturn, hcases⟩ := parserLoop_turn (htokens ▸ hs) ht hrun
      have hdrest : ∀ i ∈ rest, i.Derived := fun i hi => hd i (by simp [hi])
      by_cases hempty : item = .empty
      · subst hempty
        obtain ⟨rfl, s2, hat, hvars, rfl⟩ := parserTurn_empty hs hturn
        rw [FinshRoot.attach_last hroot hcurrent, if_neg hroot] at hcases
        simp only [List.append_nil, if_true] at hcases
        obtain ⟨hnil, -⟩ | ⟨-, hrun⟩ := hcases
        · exact absurd hnil hroot
        -- the token taken with it is the next empty statement, or the end of the line
        obtain ⟨rest', hat', hkept', hd', htrees⟩ : ∃ rest', Ahead s2.nextToken.2 (lineTokens rest') ∧
            KeptTail rest' ∧ (∀ i ∈ rest', i.Derived) ∧
            ∀ vars, lineTrees S vars (.empty :: rest) = lineTrees S vars rest' := by
          cases rest with
          | nil => exact ⟨[], (Ahead.next_nil hat).2, hkept, by simp, fun _ => rfl⟩
          | cons second rest =>
            cases second with
            | empty =>
              obtain ⟨s3, hnext, hbehind, -⟩ := Ahead.next (s := s2) (t := .semicolon) hat
              refine ⟨rest, ?_, hkept, fun i hi => hdrest i (by simp [hi]), fun vars => ?_⟩
              · rw [hnext]
                exact hbehind.tokens
              · simp [lineTrees, LineItem.trees]
            | expr ts e => exact absurd hkept id
            | decl us type first ds => exact absurd hkept id
        obtain ⟨ns, hns, hres⟩ := ih hat' hd' hkept' hroot (.inl hcurrent) hrun
        rw [FinshParser.nextToken_vars, hvars, ← htrees] at hns
        exact ⟨ns, hns, hres⟩
      · obtain ⟨hyields, hkept⟩ := hkept.tail hempty
        have hok1 : s1.errno = .ok := by
          obtain ⟨-, -, rfl⟩ | ⟨-, hrun⟩ := hcases
          · exact hok
          · simpa using parserLoop_sticky _ _ _ hrun hok
        obtain ⟨ns1, htrees1, rfl, hat⟩ := parserTurn_sound hs (hd item (by simp)) hempty hturn hok1
        rw [FinshRoot.attach_last hroot hcurrent] at hcases
        obtain ⟨hnil, -⟩ | ⟨hroot1, hrun⟩ := hcases
        · exact absurd (List.append_eq_nil_iff.mp hnil).1 hroot
        have hlength := LineItem.trees_length htrees1
        obtain ⟨ns2, htrees2, hres⟩ := ih hat hdrest hkept hroot1 (by
          refine hyields.imp_left fun hle => ?_
          rw [List.length_append]
          split
          · next hnil => simp [hnil, hcurrent]
          · next hne =>
            have hpos := List.length_pos_iff.mpr hne
            show root.last + 1 + 1 = _
            omega) hrun
        refine ⟨ns1 ++ ns2, by simp [lineTrees, htrees1, htrees2], ?_⟩
        rw [hres, List.append_assoc]

theorem finshParserInit_at (vars : FinshVars) (line : List FinshToken) :
    Ahead (finshParserInit vars line) line :=
  ⟨rfl, by simp [finshParserInit]⟩

/-- The turn on the first item. -/
theorem finshParserRun_first {rest : List LineItem} (hd : item.Derived)
    (hrun : finshParserRun S vars (lineTokens (item :: rest)) = some (root, s'))
    (hok : s'.errno = .ok) :
    ∃ ns s1, item.trees S vars = some (ns, s1.vars) ∧ Ahead s1 (lineTokens rest) ∧
      (ns = [] ∧ root.trees = [] ∨ ns ≠ [] ∧ ∃ fuel turns,
        parserLoop S fuel turns s1.nextToken.1 ⟨ns, 0⟩ s1.nextToken.2 = some (root, s')) := by
  obtain ⟨t, l', htokens, ht⟩ := LineItem.tokens_begin (l := lineTokens rest) hd
  have hs : Ahead (finshParserInit vars (lineTokens (item :: rest))) (item.tokens ++ lineTokens rest) :=
    finshParserInit_at _ _
  generalize hinit : finshParserInit vars (lineTokens (item :: rest)) = s at hs
  have hvars0 : s.vars = vars := by rw [← hinit]; rfl
  obtain ⟨fuel, turns, hrun⟩ : ∃ fuel turns, parserLoop S fuel (turns + 1) s.nextToken.1 ⟨[], 0⟩
      s.nextToken.2 = some (root, s') :=
    ⟨_, (lineTokens (item :: rest)).length + 3, by rw [← hinit]; exact hrun⟩
  obtain ⟨root1, s1, hturn, hcases⟩ := parserLoop_turn (htokens ▸ hs) ht hrun
  have hok1 : s1.errno = .ok := by
    obtain ⟨-, -, rfl⟩ | ⟨-, hrun⟩ := hcases
    · exact hok
    · simpa using parserLoop_sticky _ _ _ hrun hok
  by_cases hempty : item = .empty
  · subst hempty
    obtain ⟨rfl, s2, hat, hvars, rfl⟩ := parserTurn_empty hs hturn
    obtain ⟨-, rfl, -⟩ | ⟨hroot, -⟩ := hcases
    · exact ⟨[], _, by rw [hvars, hvars0]; rfl, hat, .inl ⟨rfl, rfl⟩⟩
    · exact absurd rfl hroot
  · obtain ⟨ns, htrees, rfl, hat⟩ := parserTurn_sound hs hd hempty hturn hok1
    refine ⟨ns, s1, hvars0 ▸ htrees, hat, ?_⟩
    obtain ⟨hroot, rfl, -⟩ | ⟨hroot, hrun⟩ := hcases
    · exact .inl ⟨hroot, hroot⟩
    · exact .inr ⟨hroot, _, _, hrun⟩

/-- A line that is kept loses no tree. -/
theorem finshParserRun_kept (hd : ∀ item ∈ items, item.Derived) (hkept : Kept items)
    (hrun : finshParserRun S vars (lineTokens items) = some (root, s')) (hok : s'.errno = .ok) :
    lineTrees S vars items = some root.trees := by
  cases items with
  | nil =>
    cases Option.some.inj hrun
    rfl
  | cons item rest =>
    obtain ⟨ns, s1, htrees, hat, hcases⟩ := finshParserRun_first (hd item (by simp)) hrun hok
    have hlength := LineItem.trees_length htrees
    rcases hkept with hnone | ⟨_, _, heq, hpos, hyields, htail⟩
    · rw [hnone item (by simp)] at hlength
      obtain ⟨-, hroot⟩ | ⟨hne, -⟩ := hcases
      · rw [lineTrees_none hnone, hroot]
      · exact absurd (List.length_eq_zero_iff.mp hlength) hne
    · obtain ⟨rfl, rfl⟩ := List.cons.inj heq
      obtain ⟨rfl, -⟩ | ⟨hne, fuel, turns, hrun⟩ := hcases
      · rw [← hlength] at hpos
        cases hpos
      have hlast : 0 + 1 = ns.length ∨ rest = [] := hyields.imp_left fun hle => by omega
      obtain ⟨ns2, htrees2, hres⟩ := parserLoop_kept hat (fun i hi => hd i (by simp [hi])) htail hne
        hlast hrun hok
      simp [lineTrees, htrees, htrees2, hres]

theorem Derives.ofPrimary {T : List FinshToken → FinshType → Prop} {ts : List FinshToken}
    {e : FinshExpr} (h : Derives T .primary ts [e]) : Derives T .assign ts [e] := by
  have hcast : Derives T .cast ts [e] := .cast (.unary (.postfixExpr h))
  have hshift : Derives T (.binary .shift) ts [e] := .inner (.inner (.inner hcast))
  exact .expr (.inner (.inner (.inner hshift)))

def noSymbols : FinshSymbols := ⟨fun _ => none, fun _ => none⟩

/-- `int a = 1; a;`. -/
theorem finshParserRun_kept_two :
    lineTrees noSymbols finshVarInit
      [.decl [.typeInt] .int ⟨[97], some ([.valueInt 1], .value (.valueInt 1))⟩ [],
        .expr [.identifier [97]] (.id [97])] =
      some [sysNode .assign (.leaf (.id (.var 0))) [.leaf (.valueInt 1)], .leaf (.id (.var 0))] := by
  show lineTrees _ _ _ = some (FinshRoot.mk _ 1).trees
  apply finshParserRun_kept
  · intro item hitem
    simp only [List.mem_cons, List.not_mem_nil, or_false] at hitem
    rcases hitem with rfl | rfl
    · refine ⟨.basic (.plain rfl), ?_, by simp⟩
      rintro ts e heq
      cases Option.some.inj heq
      exact .ofPrimary (.value rfl)
    · exact .ofPrimary (.identifier [97])
  · exact .inr ⟨_, _, rfl, by decide, .inl (by decide), .inl (by decide), trivial⟩
  · rfl
  · rfl

/-- `int a; 3;` ends without an error and without a tree. -/
theorem finshParserRun_drops_statement :
    ∃ items : List LineItem, (∀ item ∈ items, item.Derived) ∧ ∃ root s,
      finshParserRun noSymbols finshVarInit (lineTokens items) = some (root, s) ∧ s.errno = .ok ∧
      root.trees = [] ∧ lineTrees noSymbols finshVarInit items = some [.leaf (.valueInt 3)] := by
  refine ⟨[.decl [.typeInt] .int ⟨[97], none⟩ [], .expr [.valueInt 3] (.value (.valueInt 3))], ?_,
    _, _, rfl, rfl, rfl, rfl⟩
  intro item hitem
  simp only [List.mem_cons, List.not_mem_nil, or_false] at hitem
  rcases hitem with rfl | rfl
  · exact ⟨.basic (.plain rfl), nofun, by simp⟩
  · exact .ofPrimary (.value rfl)

end

end RTThread
