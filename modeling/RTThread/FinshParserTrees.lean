import RTThread.FinshGrammar
import RTThread.FinshParserErrors

namespace RTThread

/-- The tokens that the lexer still gives, of which the first may be a replayed one. -/
structure Ahead (s : FinshParser) (l : List FinshToken) : Prop where
  tokens : l = if s.replay then s.current :: s.rest else s.rest
  text : ∀ name, s.current = .identifier name → s.string = name

/-- The state behind a token that has just been read. -/
structure Behind (s : FinshParser) (t : FinshToken) (l : List FinshToken) (vars : FinshVars) :
    Prop where
  tokens : Ahead s l
  replayed : Ahead s.replayToken (t :: l)
  vars : s.vars = vars

section
variable {s s1 s' : FinshParser} {t : FinshToken} {l : List FinshToken} {vars : FinshVars}

theorem Ahead.next (h : Ahead s (t :: l)) :
    ∃ s1, s.nextToken = (t, s1) ∧ Behind s1 t l s.vars ∧ s1.errno = s.errno := by
  have htokens := h.tokens
  unfold FinshParser.nextToken
  by_cases hreplay : s.replay = true
  · rw [if_pos hreplay] at htokens ⊢
    obtain ⟨rfl, rfl⟩ := List.cons.inj htokens
    exact ⟨_, rfl, ⟨⟨by simp, h.text⟩, ⟨by simp [FinshParser.replayToken], h.text⟩, rfl⟩,
      rfl⟩
  · rw [if_neg hreplay] at htokens ⊢
    rw [← htokens]
    have htext : ∀ name, t = .identifier name → tokenString t s.string = name := by
      rintro name rfl
      rfl
    exact ⟨_, rfl, ⟨⟨by simp [hreplay], htext⟩, ⟨by simp [FinshParser.replayToken], htext⟩, rfl⟩,
      rfl⟩

theorem Ahead.withNodes (h : Ahead s l) (nodes : Nat) : Ahead { s with nodes := nodes } l :=
  ⟨h.tokens, h.text⟩

/-- A token matched without an error. -/
theorem Ahead.matches (h : Ahead s (t :: l)) {p : FinshToken → Bool} (hok : (s.matchToken p).errno = .ok) :
    p t = true ∧ Ahead (s.matchToken p) l ∧ (s.matchToken p).vars = s.vars := by
  obtain ⟨s1, hnext, hbehind, -⟩ := h.next
  obtain ⟨hp, heq⟩ := FinshParser.matchToken_ok hok
  rw [heq]
  rw [hnext] at hp ⊢
  exact ⟨hp, hbehind.tokens, hbehind.vars⟩

end

/-- How far out the expressions reach that a token may continue: after `++`, `--` and `(` at every
level, after an operator from its own level on. -/
def FinshToken.rank : FinshToken → Nat
  | .inc | .dec | .leftParen => 0
  | .mul | .div | .mod => 1
  | .add | .sub => 2
  | .shl | .shr => 3
  | .and => 4
  | .xor => 5
  | .or => 6
  | .assign => 7
  | _ => 8

def BinaryLevel.rank : BinaryLevel → Nat
  | .multiplicative => 1
  | .additive => 2
  | .shift => 3
  | .and => 4
  | .exclusiveOr => 5
  | .inclusiveOr => 6

def FinshLevel.rank : FinshLevel → Nat
  | .binary b => b.rank
  | .assign | .params => 7
  | _ => 0

theorem BinaryLevel.rank_inner (b : BinaryLevel) : b.inner.rank < b.rank := by
  cases b <;> decide

theorem BinaryLevel.rank_op {b : BinaryLevel} {t : FinshToken} {type : FinshNodeType}
    (h : b.op t = some type) : t.rank = b.rank := by
  cases b <;> cases t <;> first | rfl | cases h

theorem BinaryLevel.op_none {b : BinaryLevel} {t : FinshToken} (h : b.rank < t.rank) :
    b.op t = none := by
  cases hop : b.op t with
  | none => rfl
  | some type =>
    have heq := BinaryLevel.rank_op hop
    omega

/-- The tokens a primary expression begins with. -/
def FinshToken.startsPrimary : FinshToken → Bool
  | .identifier _ | .leftParen => true
  | t => (valueNode t).isSome

/-- The tokens an expression begins with. -/
def FinshToken.starts (t : FinshToken) : Bool :=
  t.startsPrimary || t == .add || t == .sub || (unaryOp t).isSome

theorem starts_of_primary {t : FinshToken} (h : t.startsPrimary = true) : t.starts = true := by
  simp [FinshToken.starts, h]

theorem not_unary_of_primary {t : FinshToken} (h : t.startsPrimary = true) :
    t ≠ .add ∧ t ≠ .sub ∧ unaryOp t = none := by
  revert h
  cases t <;> simp [FinshToken.startsPrimary, valueNode, unaryOp]

/-- No expression begins with a type, a separator or an assignment. -/
theorem not_starts {t : FinshToken} (h : t.starts = true) : baseType t = none ∧
    t ≠ .typeUnsigned ∧ t ≠ .comma ∧ t ≠ .rightParen ∧ t ≠ .semicolon ∧ t ≠ .eof ∧ t ≠ .bad := by
  revert h
  cases t <;> simp [FinshToken.starts, FinshToken.startsPrimary, valueNode, unaryOp, baseType]

/-- How the tokens of a level begin. -/
def Begins : FinshLevel → List FinshToken → List FinshExpr → Prop
  | .primary, ts, _ | .postfixExpr, ts, _ => ∃ t l, ts = t :: l ∧ t.startsPrimary = true
  | .params, ts, es => ts = [] ∧ es = [] ∨ ∃ t l, ts = t :: l ∧ (t.starts = true ∨ t = .comma)
  | _, ts, _ => ∃ t l, ts = t :: l ∧ t.starts = true

theorem Derives.begins {T : List FinshToken → FinshType → Prop} {level : FinshLevel}
    {ts : List FinshToken} {es : List FinshExpr} (h : Derives T level ts es) :
    Begins level ts es := by
  induction h with
  | identifier name => exact ⟨_, _, rfl, rfl⟩
  | @value t type hvalue => exact ⟨t, [], rfl, by cases t <;> first | rfl | cases hvalue⟩
  | paren => exact ⟨_, _, rfl, rfl⟩
  | postfixExpr _ ih => exact ih
  | inc _ ih | dec _ ih | call _ _ ih =>
    obtain ⟨t, l, rfl, ht⟩ := ih
    exact ⟨t, _, rfl, ht⟩
  | unary _ ih =>
    obtain ⟨t, l, rfl, ht⟩ := ih
    exact ⟨t, l, rfl, starts_of_primary ht⟩
  | plus | minus => exact ⟨_, _, rfl, rfl⟩
  | @operator t type ts e ht => exact ⟨t, ts, rfl, by simp [FinshToken.starts, ht]⟩
  | cast _ ih => exact ih
  | castType => exact ⟨_, _, rfl, rfl⟩
  | @inner b ts e _ ih => cases b <;> exact ih
  | binary _ _ _ ih =>
    obtain ⟨t, l, rfl, ht⟩ := ih
    exact ⟨t, _, rfl, ht⟩
  | expr _ ih => exact ih
  | assign _ _ ih =>
    obtain ⟨t, l, rfl, ht⟩ := ih
    exact ⟨t, _, rfl, ht⟩
  | noParams => exact .inl ⟨rfl, rfl⟩
  | oneParam _ ih =>
    obtain ⟨t, l, rfl, ht⟩ := ih
    exact .inr ⟨t, l, rfl, .inl ht⟩
  | moreParams _ _ ih =>
    rcases ih with ⟨rfl, -⟩ | ⟨t, l, rfl, ht⟩
    · exact .inr ⟨_, _, rfl, .inr rfl⟩
    · exact .inr ⟨t, _, rfl, ht⟩

/-- Every end that the procedure comes to from here has an error. -/
def Fails {α : Type} (p : FinshProc α) (s : FinshParser) : Prop :=
  ∀ r s', p s = some (r, s') → s'.errno ≠ .ok

section
variable {S : FinshSymbols} {assign cast operand : FinshProc FinshNode} {fuel : Nat}
  {s : FinshParser} {t : FinshToken} {l : List FinshToken}

theorem procBinary_fails (ho : StickyProc operand) {op : FinshToken → Option FinshNodeType}
    (h : Fails operand s) : Fails (procBinary operand op fuel) s := by
  intro r s' hrun hok
  obtain ⟨⟨left, s1⟩, h1, hrun⟩ := Option.bind_eq_some_iff.mp hrun
  simp only at hrun
  have h2 := binaryLoop_sticky ho left _ _ _ hrun hok
  rw [FinshParser.nextToken_errno] at h2
  exact h left s1 h1 h2

theorem procPrimaryExpr_other (hs : Ahead s (t :: l)) (ht : t.startsPrimary = false) :
    ∃ s1, procPrimaryExpr S assign s = some (.null, s1) ∧ s1.errno = .invalidToken := by
  obtain ⟨s0, hnext, -⟩ := hs.next
  refine ⟨s0.errorSet .invalidToken, ?_, rfl⟩
  simp only [procPrimaryExpr, hnext]
  revert ht
  cases t <;> simp [FinshToken.startsPrimary, valueNode]

theorem procPostfixExpr_fails (ha : StickyProc assign) (hs : Ahead s (t :: l))
    (ht : t.startsPrimary = false) : Fails (procPostfixExpr S assign fuel) s := by
  intro r s' hrun hok
  obtain ⟨⟨post, s1⟩, h1, hrun⟩ := Option.bind_eq_some_iff.mp hrun
  simp only at hrun
  have h2 := postfixLoop_sticky ha post _ _ _ hrun hok
  rw [FinshParser.nextToken_errno] at h2
  obtain ⟨s2, hother, herr⟩ := procPrimaryExpr_other hs ht
  cases Option.some.inj (hother.symm.trans h1)
  rw [herr] at h2
  cases h2

theorem procCastExpr_fails (ha : StickyProc assign) (hs : Ahead s (t :: l)) (ht : t.starts = false) :
    Fails (procCastExpr S assign fuel) s := by
  intro r s' hrun hok
  obtain _ | fuel := fuel
  · simp [procCastExpr] at hrun
  · obtain ⟨s0, hnext, hbehind, -⟩ := hs.next
    have hparen : t ≠ .leftParen := by
      rintro rfl
      simp [FinshToken.starts, FinshToken.startsPrimary] at ht
    have hprimary : t.startsPrimary = false := by
      by_contra h
      rw [starts_of_primary (by simpa using h)] at ht
      cases ht
    obtain ⟨s1, hnext1, hbehind1, -⟩ := hbehind.replayed.next
    have hops : t ≠ .add ∧ t ≠ .sub ∧ unaryOp t = none := by
      revert ht
      cases t <;> simp [FinshToken.starts, FinshToken.startsPrimary, valueNode, unaryOp]
    simp only [procCastExpr, hnext, hparen, if_false, procUnaryExpr, hnext1, hops.1, hops.2.1,
      hops.2.2] at hrun
    exact procPostfixExpr_fails ha hbehind1.replayed hprimary r s' hrun hok

section
variable (S : FinshSymbols) (assign : FinshProc FinshNode) (fuel : Nat)

/-- The procedure of a level of binary operators. -/
def binaryProc : BinaryLevel → FinshProc FinshNode
  | .multiplicative => procMultiplicativeExpr S assign fuel
  | .additive => procAdditiveExpr S assign fuel
  | .shift => procShiftExpr S assign fuel
  | .and => procAndExpr S assign fuel
  | .exclusiveOr => procExclusiveOrExpr S assign fuel
  | .inclusiveOr => procInclusiveOrExpr S assign fuel

/-- The procedure of its operands. -/
def operandProc : BinaryLevel → FinshProc FinshNode
  | .multiplicative => procCastExpr S assign fuel
  | .additive => binaryProc S assign fuel .multiplicative
  | .shift => binaryProc S assign fuel .additive
  | .and => binaryProc S assign fuel .shift
  | .exclusiveOr => binaryProc S assign fuel .and
  | .inclusiveOr => binaryProc S assign fuel .exclusiveOr

theorem binaryProc_eq (b : BinaryLevel) :
    binaryProc S assign fuel b = procBinary (operandProc S assign fuel b) b.op fuel := by
  cases b <;> rfl

end

/-- What casts have and each level hands on holds of all levels, and of their operands. -/
theorem operandProc_induction {P : FinshProc FinshNode → Prop} (hcast : P (procCastExpr S assign fuel))
    (hstep : ∀ operand op, P operand → P (procBinary operand op fuel)) (b : BinaryLevel) :
    P (operandProc S assign fuel b) := by
  cases b
  case multiplicative => exact hcast
  case additive => exact hstep _ _ hcast
  case shift => exact hstep _ _ (hstep _ _ hcast)
  case and => exact hstep _ _ (hstep _ _ (hstep _ _ hcast))
  case exclusiveOr => exact hstep _ _ (hstep _ _ (hstep _ _ (hstep _ _ hcast)))
  case inclusiveOr => exact hstep _ _ (hstep _ _ (hstep _ _ (hstep _ _ (hstep _ _ hcast))))

theorem operandProc_sticky (ha : StickyProc assign) (b : BinaryLevel) :
    StickyProc (operandProc S assign fuel b) :=
  operandProc_induction (procCastExpr_sticky ha) (fun _ _ ho => procBinary_sticky ho) b

/-- An assignment expression that ends without an error: the first operand alone, or the node of
both. -/
theorem procAssignExpr_cases {r : FinshNode} {s' : FinshParser}
    (hrun : procAssignExpr S (fuel + 1) s = some (r, s')) (hok : s'.errno = .ok) :
    ∃ or s1, procInclusiveOrExpr S (procAssignExpr S fuel) fuel s = some (or, s1) ∧
      s1.errno = .ok ∧
      (s1.nextToken.1 ≠ .assign ∧ r = or ∧ s' = s1.nextToken.2.replayToken ∨
        s1.nextToken.1 = .assign ∧ ∃ right s2,
          procAssignExpr S fuel s1.nextToken.2 = some (right, s2) ∧
          s2.makeSysNode .assign or right.toList = (r, s')) := by
  obtain ⟨⟨or, s1⟩, h1, hrun⟩ := Option.bind_eq_some_iff.mp hrun
  simp only at hrun
  refine ⟨or, s1, h1, ?_⟩
  split at hrun
  · next heq =>
    obtain ⟨⟨right, s2⟩, h2, hrun⟩ := Option.bind_eq_some_iff.mp hrun
    have hnew := Option.some.inj hrun
    have hok2 := (congrArg (FinshParser.errno ∘ Prod.snd) hnew).trans hok
    have hok1 := procAssignExpr_sticky _ _ _ h2 (FinshParser.makeSysNode_sticky hok2)
    exact ⟨by simpa using hok1, .inr ⟨heq, right, s2, h2, hnew⟩⟩
  · next hne =>
    obtain ⟨rfl, rfl⟩ := Prod.mk.inj (Option.some.inj hrun)
    exact ⟨by simpa using hok, .inl ⟨hne, rfl, rfl⟩⟩

/-- A token that begins no expression is an error. -/
theorem procAssignExpr_fails (hs : Ahead s (t :: l)) (ht : t.starts = false) :
    Fails (procAssignExpr S fuel) s := by
  intro r s' hrun hok
  obtain _ | fuel := fuel
  · simp [procAssignExpr] at hrun
  · have ha : StickyProc (procAssignExpr S fuel) := procAssignExpr_sticky
    have hoperand : StickyProc (operandProc S (procAssignExpr S fuel) fuel .inclusiveOr) ∧
        Fails (operandProc S (procAssignExpr S fuel) fuel .inclusiveOr) s :=
      operandProc_induction (P := fun p => StickyProc p ∧ Fails p s)
        ⟨procCastExpr_sticky ha, procCastExpr_fails ha hs ht⟩
        (fun _ _ h => ⟨procBinary_sticky h.1, procBinary_fails h.1 h.2⟩) .inclusiveOr
    have hor : Fails (procInclusiveOrExpr S (procAssignExpr S fuel) fuel) s :=
      procBinary_fails hoperand.1 hoperand.2
    obtain ⟨or, s1, h1, hok1, -⟩ := procAssignExpr_cases hrun hok
    exact hor or s1 h1 hok1

end

/-- An expression has been read from a state with these variables. -/
structure Got (S : FinshSymbols) (vars : FinshVars) (e : FinshExpr) (n : FinshNode)
    (s : FinshParser) (l : List FinshToken) : Prop where
  tree : e.tree (FinshParser.lookup S vars) = some n
  tokens : Ahead s l
  vars : s.vars = vars

/-- On the tokens of an expression and one behind it that does not continue it, the procedure
builds its tree or ends with an error. -/
def SoundProc (S : FinshSymbols) (p : FinshProc FinshNode) (rank : Nat) (ts : List FinshToken)
    (e : FinshExpr) : Prop :=
  ∀ s t l r s', Ahead s (ts ++ t :: l) → rank < t.rank → p s = some (r, s') → s'.errno = .ok →
    Got S s.vars e r s' (t :: l)

/-- The same for a procedure that comes to its loop with the tree. -/
def SoundLoop (S : FinshSymbols) (p : FinshProc FinshNode)
    (loop : Nat → FinshToken → FinshNode → FinshProc FinshNode) (rank : Nat)
    (ts : List FinshToken) (e : FinshExpr) : Prop :=
  ∀ s t l r s', Ahead s (ts ++ t :: l) → rank ≤ t.rank → p s = some (r, s') → s'.errno = .ok →
    ∃ turns n s1, e.tree (FinshParser.lookup S s.vars) = some n ∧ Behind s1 t l s.vars ∧
      loop turns t n s1 = some (r, s')

theorem FinshNode.setDataType_ne_null {n : FinshNode} {dataType : Nat} (h : n ≠ .null) :
    n.setDataType dataType ≠ .null := by
  cases n with
  | null => exact absurd rfl h
  | node => exact nofun

mutual

theorem FinshExpr.tree_ne_null {lookup : List UInt8 → Option FinshId} {n : FinshNode} :
    ∀ {e : FinshExpr}, e.tree lookup = some n → n ≠ .null
  | .id name, h => by
    obtain ⟨ref, -, rfl⟩ := Option.map_eq_some_iff.mp h
    exact nofun
  | .value type, h => by
    cases Option.some.inj h
    exact nofun
  | .paren e, h => FinshExpr.tree_ne_null (e := e) h
  | .unary type e, h => by
    obtain ⟨n1, -, rfl⟩ := Option.map_eq_some_iff.mp h
    exact nofun
  | .plus e, h => FinshExpr.tree_ne_null (e := e) h
  | .minus e, h => by
    obtain ⟨n1, -, rfl⟩ := Option.map_eq_some_iff.mp h
    exact nofun
  | .cast type e, h => by
    obtain ⟨n1, h1, rfl⟩ := Option.map_eq_some_iff.mp h
    exact FinshNode.setDataType_ne_null (FinshExpr.tree_ne_null h1)
  | .binary type a b, h => by
    obtain ⟨n1, -, h⟩ := Option.bind_eq_some_iff.mp h
    obtain ⟨n2, -, rfl⟩ := Option.map_eq_some_iff.mp h
    exact nofun
  | .call f args, h => by
    obtain ⟨n1, -, h⟩ := Option.bind_eq_some_iff.mp h
    obtain ⟨ns, -, rfl⟩ := Option.map_eq_some_iff.mp h
    exact nofun

end

/-- What the induction over derivations carries: each procedure is sound on the tokens of its
level, those with a loop up to the place where the loop has the tree. -/
def Sound (S : FinshSymbols) : FinshLevel → List FinshToken → List FinshExpr → Prop
  | .primary, ts, [e] => ∀ fuel s l r s', Ahead s (ts ++ l) →
    procPrimaryExpr S (procAssignExpr S fuel) s = some (r, s') → s'.errno = .ok →
    Got S s.vars e r s' l
  | .postfixExpr, ts, [e] => ∀ fuel turns,
    SoundLoop S (procPostfixExpr S (procAssignExpr S fuel) turns)
      (postfixLoop (procAssignExpr S fuel)) 0 ts e
  | .unary, ts, [e] => ∀ fuel turns,
    SoundProc S (procUnaryExpr S (procAssignExpr S fuel)
      (procCastExpr S (procAssignExpr S fuel) turns) turns) 0 ts e
  | .cast, ts, [e] => ∀ fuel turns,
    SoundProc S (procCastExpr S (procAssignExpr S fuel) turns) 0 ts e
  | .binary b, ts, [e] => ∀ fuel turns,
    SoundLoop S (binaryProc S (procAssignExpr S fuel) turns b)
      (binaryLoop (operandProc S (procAssignExpr S fuel) turns b) b.op) (b.inner.rank + 1) ts e
  | .assign, ts, [e] => ∀ fuel, SoundProc S (procAssignExpr S fuel) 7 ts e
  | .params, ts, es => ∀ fuel turns s t l r s', Ahead s (ts ++ t :: l) →
    t = .comma ∨ t = .rightParen →
    procParamList (procAssignExpr S fuel) turns s = some (r, s') → s'.errno = .ok →
    ∃ turns' nodes s1, FinshExpr.trees (FinshParser.lookup S s.vars) es = some nodes ∧
      Behind s1 t l s.vars ∧
      paramLoop (procAssignExpr S fuel) turns' t nodes s1 = some (r, s')
  | _, _, _ => True

section
variable {S : FinshSymbols} {s s1 s' : FinshParser} {t : FinshToken} {l ts us : List FinshToken}
  {vars : FinshVars} {name : List UInt8} {e : FinshExpr} {type : FinshNodeType} {r n : FinshNode}

theorem Behind.text (h : Behind s (.identifier name) l vars) : s.string = name := by
  have htokens := h.replayed.tokens
  simp only [FinshParser.replayToken, if_true] at htokens
  exact h.tokens.text name (List.cons.inj htokens).1.symm

theorem procIdentifier_behind (h : Ahead s (.identifier name :: l))
    (hok : (procIdentifier s).2.errno = .ok) :
    (procIdentifier s).1 = name.take finshNameMax ∧ Ahead (procIdentifier s).2 l ∧
      (procIdentifier s).2.vars = s.vars := by
  obtain ⟨s1, hnext, hbehind, -⟩ := h.next
  have heq : s.matchToken isIdentifier = s1 := by
    have hmatch := (FinshParser.matchToken_ok (p := isIdentifier) hok).2
    rwa [hnext] at hmatch
  simp only [procIdentifier, heq]
  exact ⟨by rw [hbehind.text], hbehind.tokens, hbehind.vars⟩

theorem sound_identifier : Sound S .primary [.identifier name] [.id name] := by
  intro fuel s l r s' hs hrun hok
  obtain ⟨s1, hnext, hbehind, -⟩ := hs.next
  simp only [procPrimaryExpr, hnext] at hrun
  have hnew := Option.some.inj hrun
  replace hok := (congrArg (FinshParser.errno ∘ Prod.snd) hnew).trans hok
  obtain ⟨-, ref, href, heq⟩ := FinshParser.nodeNewId_ok hok
  have hid := procIdentifier_behind hbehind.replayed (FinshParser.nodeNewId_sticky hok)
  cases heq.symm.trans hnew
  have hvars := hid.2.2.trans hbehind.vars
  rw [hid.1, hvars] at href
  refine ⟨?_, hid.2.1.withNodes _, hvars⟩
  simp [FinshExpr.tree, href]

theorem sound_value (ht : valueNode t = some type) : Sound S .primary [t] [.value type] := by
  intro fuel s l r s' hs hrun hok
  obtain ⟨s1, hnext, hbehind, -⟩ := hs.next
  have hnew : s1.nodeNewValue type = (r, s') := by
    apply Option.some.inj
    rw [← hrun]
    simp only [procPrimaryExpr, hnext]
    cases t <;> cases ht <;> rfl
  replace hok := (congrArg (FinshParser.errno ∘ Prod.snd) hnew).trans hok
  obtain ⟨-, heq⟩ := FinshParser.nodeNewValue_ok hok
  cases heq.symm.trans hnew
  exact ⟨rfl, hbehind.tokens.withNodes _, hbehind.vars⟩

theorem sound_paren (h : Sound S .assign ts [e]) :
    Sound S .primary (.leftParen :: (ts ++ [.rightParen])) [.paren e] := by
  intro fuel s l r s' hs hrun hok
  rw [List.cons_append, List.append_assoc] at hs
  obtain ⟨s1, hnext, hbehind, -⟩ := hs.next
  simp only [procPrimaryExpr, hnext] at hrun
  obtain ⟨⟨n, s2⟩, h2, hrun⟩ := Option.bind_eq_some_iff.mp hrun
  obtain ⟨rfl, rfl⟩ := Prod.mk.inj (Option.some.inj hrun)
  have hgot := h fuel s1 _ _ n s2 hbehind.tokens (by decide) h2 (FinshParser.matchToken_sticky hok)
  obtain ⟨-, hat, hvars⟩ := hgot.tokens.matches hok
  rw [hbehind.vars] at hgot
  exact ⟨hgot.tree, hat, hvars.trans hgot.vars⟩

/-- A node that was built without an error, and the token behind it. -/
theorem makeSysNode_next {ns : List FinshNode} (hs : Ahead s (t :: l))
    (hok : (s.makeSysNode type n ns).2.errno = .ok) : ∃ s1,
    (s.makeSysNode type n ns).2.nextToken = (t, s1) ∧ Behind s1 t l s.vars ∧
      (s.makeSysNode type n ns).1 = sysNode type n ns := by
  obtain ⟨-, -, heq⟩ := FinshParser.makeSysNode_ok hok
  rw [heq]
  obtain ⟨s1, hnext, hbehind, -⟩ := (hs.withNodes (s.nodes + 1)).next
  exact ⟨s1, hnext, hbehind, rfl⟩

theorem sound_postfix (h : Sound S .primary ts [e]) : Sound S .postfixExpr ts [e] := by
  intro fuel turns s t l r s' hs _ hrun hok
  obtain ⟨⟨n, s1⟩, h1, hrun⟩ := Option.bind_eq_some_iff.mp hrun
  simp only at hrun
  have hok1 := postfixLoop_sticky procAssignExpr_sticky n _ _ _ hrun hok
  rw [FinshParser.nextToken_errno] at hok1
  have hgot := h fuel s _ n s1 hs h1 hok1
  obtain ⟨s2, hnext, hbehind, -⟩ := hgot.tokens.next
  rw [hnext] at hrun
  exact ⟨turns, n, s2, hgot.tree, hgot.vars ▸ hbehind, hrun⟩

/-- `++` and `--` behind an expression. -/
theorem sound_postfix_unary (hrank : t.rank = 0)
    (hturn : ∀ assign turns n s1, postfixLoop assign (turns + 1) t n s1 =
      postfixLoop assign turns (s1.makeSysNode type n []).2.nextToken.1
        (s1.makeSysNode type n []).1 (s1.makeSysNode type n []).2.nextToken.2)
    (h : Sound S .postfixExpr ts [e]) : Sound S .postfixExpr (ts ++ [t]) [.unary type e] := by
  intro fuel turns s t' l r s' hs _ hrun hok
  rw [List.append_assoc] at hs
  obtain ⟨turns1, n, s1, htree, hbehind, hloop⟩ := h fuel turns s t _ r s' hs hrank.ge hrun hok
  obtain _ | turns1 := turns1
  · cases hloop
  · rw [hturn] at hloop
    have hok1 := postfixLoop_sticky procAssignExpr_sticky _ _ _ _ hloop hok
    rw [FinshParser.nextToken_errno] at hok1
    obtain ⟨s2, hnext, hbehind2, hnode⟩ := makeSysNode_next hbehind.tokens hok1
    rw [hnext, hnode] at hloop
    refine ⟨turns1, _, s2, ?_, hbehind.vars ▸ hbehind2, hloop⟩
    simp [FinshExpr.tree, htree]

theorem sound_call {args : List FinshExpr} (hf : Sound S .postfixExpr ts [e])
    (hbegins : Begins .params us args) (ha : Sound S .params us args) :
    Sound S .postfixExpr (ts ++ .leftParen :: (us ++ [.rightParen])) [.call e args] := by
  intro fuel turns s t l r s' hs _ hrun hok
  simp only [List.append_assoc, List.cons_append, List.nil_append] at hs
  obtain ⟨turns1, n, s1, htree, hbehind, hloop⟩ := hf fuel turns s _ _ r s' hs (le_refl 0) hrun hok
  obtain _ | turns1 := turns1
  · cases hloop
  · simp only [postfixLoop, reduceCtorEq, if_false, if_true] at hloop
    obtain ⟨⟨params, s2⟩, hcall, hloop⟩ := Option.bind_eq_some_iff.mp hloop
    simp only at hloop
    have hok1 := postfixLoop_sticky procAssignExpr_sticky _ _ _ _ hloop hok
    rw [FinshParser.nextToken_errno] at hok1
    have hok2 := FinshParser.makeSysNode_sticky hok1
    obtain ⟨hparams, hat, hvars⟩ : FinshExpr.trees (FinshParser.lookup S s.vars) args =
        some params ∧ Ahead s2 (t :: l) ∧ s2.vars = s.vars := by
      rcases hbegins with ⟨rfl, rfl⟩ | ⟨t1, us, rfl, ht1⟩
      · obtain ⟨s3, hnext, hbehind3, -⟩ := hbehind.tokens.next
        simp only [procCall, hnext, if_true] at hcall
        obtain ⟨rfl, rfl⟩ := Prod.mk.inj (Option.some.inj hcall)
        exact ⟨rfl, hbehind3.tokens, hbehind3.vars.trans hbehind.vars⟩
      · have hne : t1 ≠ .rightParen := by
          rcases ht1 with ht1 | rfl
          · exact (not_starts ht1).2.2.2.1
          · simp
        obtain ⟨s3, hnext, hbehind3, -⟩ := hbehind.tokens.next
        simp only [procCall, hnext, if_neg hne] at hcall
        obtain ⟨⟨nodes, s4⟩, hlist, hcall⟩ := Option.bind_eq_some_iff.mp hcall
        obtain ⟨rfl, rfl⟩ := Prod.mk.inj (Option.some.inj hcall)
        obtain ⟨turns2, nodes', s5, hnodes, hbehind5, hparam⟩ := ha fuel _ _ _ _ _ _
          hbehind3.replayed (.inr rfl) hlist (FinshParser.matchToken_sticky hok2)
        obtain _ | turns2 := turns2
        · cases hparam
        · simp only [paramLoop, reduceCtorEq, if_false] at hparam
          obtain ⟨rfl, rfl⟩ := Prod.mk.inj (Option.some.inj hparam)
          obtain ⟨-, hat, hvars⟩ := hbehind5.replayed.matches hok2
          have hbefore := hbehind3.vars.trans hbehind.vars
          refine ⟨?_, hat, hvars.trans (hbehind5.vars.trans hbefore)⟩
          rw [← hbefore]
          exact hnodes
    obtain ⟨s3, hnext, hbehind3, hnode⟩ := makeSysNode_next hat hok1
    rw [hnext, hnode] at hloop
    refine ⟨turns1, _, s3, ?_, hvars ▸ hbehind3, hloop⟩
    simp [FinshExpr.tree, htree, hparams]

theorem sound_unary (hbegins : Begins .postfixExpr ts [e]) (h : Sound S .postfixExpr ts [e]) :
    Sound S .unary ts [e] := by
  intro fuel turns s t l r s' hs hrank hrun hok
  obtain ⟨t1, us, rfl, ht1⟩ := hbegins
  obtain ⟨hadd, hsub, hop⟩ := not_unary_of_primary ht1
  obtain ⟨s1, hnext, hbehind, -⟩ := hs.next
  simp only [procUnaryExpr, hnext, hadd, hsub, hop, if_false] at hrun
  obtain ⟨turns1, n, s2, htree, hbehind2, hloop⟩ := h fuel turns _ t l r s' hbehind.replayed
    (Nat.zero_le _) hrun hok
  obtain _ | turns1 := turns1
  · cases hloop
  · have hstop : t ≠ .inc ∧ t ≠ .dec ∧ t ≠ .leftParen := by
      refine ⟨?_, ?_, ?_⟩ <;> rintro rfl <;> exact absurd hrank (by decide)
    simp only [postfixLoop, hstop, if_false] at hloop
    obtain ⟨rfl, rfl⟩ := Prod.mk.inj (Option.some.inj hloop)
    have hvars : s1.replayToken.vars = s.vars := hbehind.vars
    rw [hvars] at htree hbehind2
    exact ⟨htree, hbehind2.replayed, hbehind2.vars⟩

theorem sound_plus (h : Sound S .cast ts [e]) : Sound S .unary (.add :: ts) [.plus e] := by
  intro fuel turns s t l r s' hs hrank hrun hok
  obtain ⟨s1, hnext, hbehind, -⟩ := hs.next
  simp only [procUnaryExpr, hnext, if_true] at hrun
  have hgot := h fuel turns s1 t l r s' hbehind.tokens hrank hrun hok
  rw [hbehind.vars] at hgot
  exact ⟨hgot.tree, hgot.tokens, hgot.vars⟩

theorem sound_minus (h : Sound S .cast ts [e]) : Sound S .unary (.sub :: ts) [.minus e] := by
  intro fuel turns s t l r s' hs hrank hrun hok
  obtain ⟨s1, hnext, hbehind, -⟩ := hs.next
  simp only [procUnaryExpr, hnext, reduceCtorEq, if_false, if_true] at hrun
  obtain ⟨⟨n, s2⟩, h2, hrun⟩ := Option.bind_eq_some_iff.mp hrun
  have hnew := Option.some.inj hrun
  replace hok := (congrArg (FinshParser.errno ∘ Prod.snd) hnew).trans hok
  obtain ⟨-, -, heq⟩ := FinshParser.makeSysNode_ok hok
  have hokz := FinshParser.makeSysNode_sticky hok
  obtain ⟨-, hzero⟩ := FinshParser.nodeNewValue_ok hokz
  have hgot := h fuel turns s1 t l n s2 hbehind.tokens hrank h2 (FinshParser.nodeNewValue_sticky hokz)
  cases heq.symm.trans hnew
  rw [hbehind.vars] at hgot
  simp only [hzero]
  refine ⟨?_, (hgot.tokens.withNodes _).withNodes _, hgot.vars⟩
  have hlist : n.toList = [n] := if_neg (FinshExpr.tree_ne_null hgot.tree)
  simp [FinshExpr.tree, hgot.tree, hlist, sysNode]

theorem sound_operator (ht : unaryOp t = some type) (h : Sound S .cast ts [e]) :
    Sound S .unary (t :: ts) [.unary type e] := by
  intro fuel turns s t' l r s' hs hrank hrun hok
  have hne : t ≠ .add ∧ t ≠ .sub := by
    constructor <;> rintro rfl <;> cases ht
  obtain ⟨s1, hnext, hbehind, -⟩ := hs.next
  simp only [procUnaryExpr, hnext, hne, if_false, ht] at hrun
  obtain ⟨⟨n, s2⟩, h2, hrun⟩ := Option.bind_eq_some_iff.mp hrun
  have hnew := Option.some.inj hrun
  replace hok := (congrArg (FinshParser.errno ∘ Prod.snd) hnew).trans hok
  obtain ⟨-, -, heq⟩ := FinshParser.makeSysNode_ok hok
  have hgot := h fuel turns s1 t' l n s2 hbehind.tokens hrank h2 (FinshParser.makeSysNode_sticky hok)
  cases heq.symm.trans hnew
  rw [hbehind.vars] at hgot
  refine ⟨?_, hgot.tokens.withNodes _, hgot.vars⟩
  simp [FinshExpr.tree, hgot.tree, sysNode]

/-- A cast expression behind a left parenthesis, where it ends without an error. -/
theorem procCastExpr_paren {assign : FinshProc FinshNode} (ha : StickyProc assign) {turns : Nat}
    (hnext : s.nextToken = (.leftParen, s1))
    (hrun : procCastExpr S assign (turns + 1) s = some (r, s')) (hok : s'.errno = .ok) :
    ∃ cast s2,
      procCastExpr S assign turns ((procType s1).2.matchToken (· = .rightParen)) =
        some (cast, s2) ∧
      s2.errno = .ok ∧
      (cast ≠ .null → r = cast.setDataType (procType s1).1.code ∧ s' = s2) := by
  simp only [procCastExpr, hnext, if_true] at hrun
  obtain ⟨⟨cast, s2⟩, h2, hrun⟩ := Option.bind_eq_some_iff.mp hrun
  refine ⟨cast, s2, h2, ?_, fun hne => ?_⟩
  · simp only at hrun
    split at hrun
    · obtain ⟨-, rfl⟩ := Prod.mk.inj (Option.some.inj hrun)
      exact hok
    · simpa using procUnaryExpr_sticky ha (procCastExpr_sticky ha) _ _ _ hrun hok
  · simp only [if_pos hne] at hrun
    obtain ⟨rfl, rfl⟩ := Prod.mk.inj (Option.some.inj hrun)
    exact ⟨rfl, rfl⟩

theorem procType_none (hs : Ahead s (t :: l)) (htype : baseType t = none) (hne : t ≠ .typeUnsigned) :
    (procType s).2.errno = .unknownType := by
  obtain ⟨s1, hnext, -⟩ := hs.next
  simp [procType, hnext, htype, hne]

/-- A cast expression that begins with a parenthesis but not with a cast ends with an error. -/
theorem procCastExpr_no_paren {fuel turns : Nat} (hs : Ahead s (.leftParen :: t :: l))
    (ht : t.starts = true) : Fails (procCastExpr S (procAssignExpr S fuel) turns) s := by
  intro r s' hrun hok
  obtain _ | turns := turns
  · simp [procCastExpr] at hrun
  · have ha : StickyProc (procAssignExpr S fuel) := procAssignExpr_sticky
    obtain ⟨s1, hnext, hbehind, -⟩ := hs.next
    obtain ⟨cast, s2, h2, hok2, -⟩ := procCastExpr_paren ha hnext hrun hok
    have hmatch := FinshParser.matchToken_sticky (procCastExpr_sticky ha _ _ _ h2 hok2)
    have htype := not_starts ht
    rw [procType_none hbehind.tokens htype.1 htype.2.1] at hmatch
    cases hmatch

/-- What stands behind a parenthesis with which the tokens of a level begin. -/
def ParenBegins : FinshLevel → List FinshToken → Prop
  | .primary, ts | .postfixExpr, ts | .unary, ts =>
    ∀ l, ts = .leftParen :: l → ∃ t2 l2, l = t2 :: l2 ∧ t2.starts = true
  | _, _ => True

theorem ParenBegins.append {ts us : List FinshToken} (h : ∀ l, ts = .leftParen :: l →
    ∃ t2 l2, l = t2 :: l2 ∧ t2.starts = true) (hne : ts ≠ []) :
    ∀ l, ts ++ us = .leftParen :: l → ∃ t2 l2, l = t2 :: l2 ∧ t2.starts = true := by
  intro l heq
  obtain _ | ⟨t1, ts⟩ := ts
  · exact absurd rfl hne
  · obtain ⟨rfl, rfl⟩ := List.cons.inj heq
    obtain ⟨t2, l2, rfl, ht⟩ := h ts rfl
    exact ⟨t2, l2 ++ us, rfl, ht⟩

theorem Derives.parenBegins {T : List FinshToken → FinshType → Prop} {level : FinshLevel}
    {ts : List FinshToken} {es : List FinshExpr} (h : Derives T level ts es) :
    ParenBegins level ts := by
  have hne : ∀ {ts e}, Derives T .postfixExpr ts [e] → ts ≠ [] := by
    intro ts e h
    obtain ⟨t, l, rfl, -⟩ := h.begins
    exact nofun
  induction h with
  | identifier name => exact nofun
  | value hvalue =>
    rintro l heq
    obtain ⟨rfl, -⟩ := List.cons.inj heq
    cases hvalue
  | paren h =>
    rintro l heq
    obtain ⟨-, rfl⟩ := List.cons.inj heq
    obtain ⟨t, l, rfl, ht⟩ := h.begins
    exact ⟨t, _, rfl, ht⟩
  | postfixExpr _ ih => exact ih
  | inc h ih => exact ParenBegins.append ih (hne h)
  | dec h ih => exact ParenBegins.append ih (hne h)
  | call h _ ih => exact ParenBegins.append ih (hne h)
  | unary _ ih => exact ih
  | plus => exact nofun
  | minus => exact nofun
  | operator ht =>
    rintro l heq
    obtain ⟨rfl, -⟩ := List.cons.inj heq
    cases ht
  | _ => exact trivial

theorem sound_cast (hparen : ParenBegins .unary ts) (hbegins : Begins .unary ts [e])
    (h : Sound S .unary ts [e]) : Sound S .cast ts [e] := by
  intro fuel turns s t l r s' hs hrank hrun hok
  obtain ⟨t1, us, rfl, -⟩ := hbegins
  by_cases ht1 : t1 = .leftParen
  · subst ht1
    obtain ⟨t2, l2, rfl, ht2⟩ := hparen us rfl
    exact absurd hok (procCastExpr_no_paren hs ht2 r s' hrun)
  · obtain _ | turns := turns
    · simp [procCastExpr] at hrun
    · obtain ⟨s1, hnext, hbehind, -⟩ := hs.next
      simp only [procCastExpr, hnext, if_neg ht1] at hrun
      have hgot := h fuel turns _ t l r s' hbehind.replayed hrank hrun hok
      have hvars : s1.replayToken.vars = s.vars := hbehind.vars
      rw [hvars] at hgot
      exact hgot

theorem procPointer_none {type : FinshType} (hs : Ahead s (t :: l)) (ht : t ≠ .mul) :
    (procPointer type s).1 = type ∧ Ahead (procPointer type s).2 (t :: l) ∧
      (procPointer type s).2.vars = s.vars := by
  obtain ⟨s1, hnext, hbehind, -⟩ := hs.next
  simp only [procPointer, hnext, if_neg ht]
  exact ⟨trivial, hbehind.replayed, hbehind.vars⟩

theorem procPointer_mul {type : FinshType} (hs : Ahead s (.mul :: l)) :
    (procPointer type s).1 = pointerType type ∧ Ahead (procPointer type s).2 l ∧
      (procPointer type s).2.vars = s.vars := by
  obtain ⟨s1, hnext, hbehind, -⟩ := hs.next
  simp only [procPointer, hnext, if_true]
  exact ⟨trivial, hbehind.tokens, hbehind.vars⟩

/-- A basic type is read up to the star that may follow it. -/
theorem procType_basic {type : FinshType} (h : BasicType us type) (hs : Ahead s (us ++ l))
    (hok : (procType s).2.errno = .ok) :
    ∃ s1, procType s = procPointer type s1 ∧ Ahead s1 l ∧ s1.vars = s.vars := by
  cases h with
  | @plain t type htype =>
    obtain ⟨s1, hnext, hbehind, -⟩ := hs.next
    exact ⟨s1, by simp only [procType, hnext, htype], hbehind.tokens, hbehind.vars⟩
  | @unsigned t type htype =>
    obtain ⟨s1, hnext, hbehind, -⟩ := hs.next
    obtain ⟨s2, hnext2, hbehind2, -⟩ := hbehind.tokens.next
    have hbase : isBaseType t = true := by
      cases t <;> first | rfl | cases htype
    refine ⟨s2, ?_, hbehind2.tokens, hbehind2.vars.trans hbehind.vars⟩
    simp [procType, hnext, baseType, hnext2, hbase, htype]
  | unsignedVoid =>
    obtain ⟨s1, hnext, hbehind, -⟩ := hs.next
    obtain ⟨s2, hnext2, -⟩ := hbehind.tokens.next
    simp [procType, hnext, baseType, hnext2, isBaseType, unsignedType] at hok

theorem procType_sound {type : FinshType} (h : TypeTokens us type) (hs : Ahead s (us ++ t :: l))
    (ht : t ≠ .mul) (hok : (procType s).2.errno = .ok) :
    (procType s).1 = type ∧ Ahead (procType s).2 (t :: l) ∧ (procType s).2.vars = s.vars := by
  cases h with
  | basic h =>
    obtain ⟨s1, heq, hat, hvars⟩ := procType_basic h hs hok
    rw [heq]
    obtain ⟨htype, hat', hvars'⟩ : (procPointer type s1).1 = type ∧
        Ahead (procPointer type s1).2 (t :: l) ∧ (procPointer type s1).2.vars = s1.vars :=
      procPointer_none hat ht
    exact ⟨htype, hat', hvars'.trans hvars⟩
  | pointer h =>
    rw [List.append_assoc] at hs
    obtain ⟨s1, heq, hat, hvars⟩ := procType_basic h hs hok
    rw [heq]
    obtain ⟨htype, hat', hvars'⟩ := procPointer_mul hat
    exact ⟨htype, hat', hvars'.trans hvars⟩

theorem sound_castType {type : FinshType} (hu : TypeTokens us type) (h : Sound S .cast ts [e]) :
    Sound S .cast (.leftParen :: (us ++ .rightParen :: ts)) [.cast type e] := by
  intro fuel turns s t l r s' hs hrank hrun hok
  simp only [List.cons_append, List.append_assoc] at hs
  obtain _ | turns := turns
  · simp [procCastExpr] at hrun
  · have ha : StickyProc (procAssignExpr S fuel) := procAssignExpr_sticky
    obtain ⟨s1, hnext, hbehind, -⟩ := hs.next
    obtain ⟨n, s2, h2, hok2, hres⟩ := procCastExpr_paren ha hnext hrun hok
    have hmatch := procCastExpr_sticky ha _ _ _ h2 hok2
    obtain ⟨htype, hat, hvars⟩ := procType_sound hu hbehind.tokens (by simp)
      (FinshParser.matchToken_sticky hmatch)
    obtain ⟨-, hat2, hvars2⟩ := hat.matches hmatch
    have hgot := h fuel turns _ t l n s2 hat2 hrank h2 hok2
    rw [hvars2.trans (hvars.trans hbehind.vars)] at hgot
    obtain ⟨rfl, rfl⟩ := hres (FinshExpr.tree_ne_null hgot.tree)
    refine ⟨?_, hgot.tokens, hgot.vars⟩
    simp [FinshExpr.tree, hgot.tree, htype]

/-- Behind an expression of its level the loop ends. -/
theorem sound_exit {b : BinaryLevel} (h : Sound S (.binary b) ts [e]) (fuel turns : Nat) :
    SoundProc S (binaryProc S (procAssignExpr S fuel) turns b) b.rank ts e := by
  intro s t l r s' hs hrank hrun hok
  have hinner := b.rank_inner
  obtain ⟨turns1, n, s1, htree, hbehind, hloop⟩ := h fuel turns s t l r s' hs (by omega) hrun hok
  obtain _ | turns1 := turns1
  · cases hloop
  · simp only [binaryLoop, BinaryLevel.op_none hrank] at hloop
    obtain ⟨rfl, rfl⟩ := Prod.mk.inj (Option.some.inj hloop)
    exact ⟨htree, hbehind.replayed, hbehind.vars⟩

theorem operand_sound {b : BinaryLevel} (h : Sound S b.inner ts [e]) (fuel turns : Nat) :
    SoundProc S (operandProc S (procAssignExpr S fuel) turns b) b.inner.rank ts e := by
  cases b
  case multiplicative => exact h fuel turns
  all_goals exact sound_exit h fuel turns

theorem sound_inner {b : BinaryLevel} (h : Sound S b.inner ts [e]) :
    Sound S (.binary b) ts [e] := by
  intro fuel turns s t l r s' hs hrank hrun hok
  rw [binaryProc_eq] at hrun
  obtain ⟨⟨left, s1⟩, h1, hrun⟩ := Option.bind_eq_some_iff.mp hrun
  simp only at hrun
  have hok1 := binaryLoop_sticky (operandProc_sticky procAssignExpr_sticky b) left _ _ _ hrun hok
  rw [FinshParser.nextToken_errno] at hok1
  have hgot := operand_sound h fuel turns s t l left s1 hs (by omega) h1 hok1
  obtain ⟨s2, hnext, hbehind, -⟩ := hgot.tokens.next
  rw [hnext] at hrun
  exact ⟨turns, left, s2, hgot.tree, hgot.vars ▸ hbehind, hrun⟩

theorem sound_binary {b : BinaryLevel} {e2 : FinshExpr} (h1 : Sound S (.binary b) ts [e])
    (ht : b.op t = some type) (h2 : Sound S b.inner us [e2]) :
    Sound S (.binary b) (ts ++ t :: us) [.binary type e e2] := by
  intro fuel turns s t' l r s' hs hrank hrun hok
  rw [List.append_assoc, List.cons_append] at hs
  have hinner := b.rank_inner
  have hrank1 := BinaryLevel.rank_op ht
  obtain ⟨turns1, n, s1, htree, hbehind, hloop⟩ := h1 fuel turns s t _ r s' hs (by omega) hrun hok
  obtain _ | turns1 := turns1
  · cases hloop
  · have hsticky : StickyProc (operandProc S (procAssignExpr S fuel) turns b) :=
      operandProc_sticky procAssignExpr_sticky b
    simp only [binaryLoop, ht] at hloop
    obtain ⟨⟨right, s2⟩, hright, hloop⟩ := Option.bind_eq_some_iff.mp hloop
    simp only at hloop
    have hok1 := binaryLoop_sticky hsticky _ _ _ _ hloop hok
    rw [FinshParser.nextToken_errno] at hok1
    by_cases hnull : right = .null
    · rw [if_pos hnull] at hok1
      cases hok1
    · rw [if_neg hnull] at hok1 hloop
      have hok2 := FinshParser.makeSysNode_sticky hok1
      have hgot := operand_sound h2 fuel turns s1 t' l right s2 hbehind.tokens (by omega) hright hok2
      obtain ⟨s3, hnext, hbehind3, hnode⟩ := makeSysNode_next hgot.tokens hok1
      rw [hnext, hnode] at hloop
      rw [hbehind.vars] at hgot
      refine ⟨turns1, _, s3, ?_, hgot.vars ▸ hbehind3, hloop⟩
      simp [FinshExpr.tree, htree, hgot.tree]

theorem sound_expr (h : Sound S (.binary .inclusiveOr) ts [e]) : Sound S .assign ts [e] := by
  intro fuel s t l r s' hs hrank hrun hok
  obtain _ | fuel := fuel
  · simp [procAssignExpr] at hrun
  · obtain ⟨or, s1, h1, hok1, hrest⟩ := procAssignExpr_cases hrun hok
    have hgot := sound_exit h fuel fuel s t l or s1 hs (lt_trans (by decide) hrank) h1 hok1
    obtain ⟨s2, hnext, hbehind, -⟩ := hgot.tokens.next
    have hne : t ≠ .assign := by
      rintro rfl
      exact absurd hrank (by decide)
    rw [hnext] at hrest
    obtain ⟨-, rfl, rfl⟩ := hrest.resolve_right fun h => hne h.1
    exact ⟨hgot.tree, hbehind.replayed, hbehind.vars.trans hgot.vars⟩

/-- A cast expression is one of each level of binary operators. -/
theorem sound_levels (h : Sound S .cast ts [e]) (b : BinaryLevel) : Sound S (.binary b) ts [e] := by
  have hmul : Sound S (.binary .multiplicative) ts [e] := sound_inner h
  have hadd : Sound S (.binary .additive) ts [e] := sound_inner hmul
  have hshift : Sound S (.binary .shift) ts [e] := sound_inner hadd
  have hand : Sound S (.binary .and) ts [e] := sound_inner hshift
  have hxor : Sound S (.binary .exclusiveOr) ts [e] := sound_inner hand
  cases b
  case multiplicative => exact hmul
  case additive => exact hadd
  case shift => exact hshift
  case and => exact hand
  case exclusiveOr => exact hxor
  case inclusiveOr => exact sound_inner hxor

theorem sound_assign {e2 : FinshExpr} (h1 : Sound S .cast ts [e]) (h2 : Sound S .assign us [e2]) :
    Sound S .assign (ts ++ .assign :: us) [.binary .assign e e2] := by
  intro fuel s t l r s' hs hrank hrun hok
  rw [List.append_assoc, List.cons_append] at hs
  obtain _ | fuel := fuel
  · simp [procAssignExpr] at hrun
  · obtain ⟨or, s1, hor, hok1, hrest⟩ := procAssignExpr_cases hrun hok
    have hgot := sound_exit (sound_levels h1 .inclusiveOr) fuel fuel s .assign _ or s1 hs
      (by decide) hor hok1
    obtain ⟨s2, hnext, hbehind, -⟩ := hgot.tokens.next
    rw [hnext] at hrest
    obtain ⟨-, right, s3, hright, hnew⟩ := hrest.resolve_left fun h => h.1 rfl
    replace hok := (congrArg (FinshParser.errno ∘ Prod.snd) hnew).trans hok
    have hgot2 := h2 fuel s2 t l right s3 hbehind.tokens hrank hright
      (FinshParser.makeSysNode_sticky hok)
    obtain ⟨-, -, heq⟩ := FinshParser.makeSysNode_ok hok
    cases heq.symm.trans hnew
    have hvars := hbehind.vars.trans hgot.vars
    rw [hvars] at hgot2
    refine ⟨?_, hgot2.tokens.withNodes _, hgot2.vars⟩
    have hlist : right.toList = [right] := if_neg (FinshExpr.tree_ne_null hgot2.tree)
    simp [FinshExpr.tree, hgot.tree, hgot2.tree, hlist, sysNode]

theorem trees_append {lookup : List UInt8 → Option FinshId} {es : List FinshExpr}
    {ns : List FinshNode} (h : FinshExpr.trees lookup es = some ns)
    (he : e.tree lookup = some n) : FinshExpr.trees lookup (es ++ [e]) = some (ns ++ [n]) := by
  induction es generalizing ns with
  | nil =>
    obtain rfl := Option.some.inj h
    simp [FinshExpr.trees, he]
  | cons e1 es ih =>
    obtain ⟨n1, h1, h⟩ := Option.bind_eq_some_iff.mp h
    obtain ⟨ns1, hns, rfl⟩ := Option.map_eq_some_iff.mp h
    simp [FinshExpr.trees, h1, ih hns]

theorem sound_noParams : Sound S .params [] [] := by
  intro fuel turns s t l r s' hs ht hrun hok
  obtain ⟨⟨n, s1⟩, h1, hrun⟩ := Option.bind_eq_some_iff.mp hrun
  have hfails : Fails (procAssignExpr S fuel) s :=
    procAssignExpr_fails hs (by rcases ht with rfl | rfl <;> rfl)
  refine absurd ?_ (hfails n s1 h1)
  simp only at hrun
  split at hrun
  · obtain ⟨-, rfl⟩ := Prod.mk.inj (Option.some.inj hrun)
    exact hok
  · simpa using paramLoop_sticky procAssignExpr_sticky _ _ _ _ hrun hok

theorem sound_oneParam (h : Sound S .assign ts [e]) : Sound S .params ts [e] := by
  intro fuel turns s t l r s' hs ht hrun hok
  obtain ⟨⟨n, s1⟩, h1, hrun⟩ := Option.bind_eq_some_iff.mp hrun
  simp only at hrun
  have hrank : 7 < t.rank := by rcases ht with rfl | rfl <;> decide
  split at hrun
  · next hnull =>
    obtain ⟨-, rfl⟩ := Prod.mk.inj (Option.some.inj hrun)
    have hgot := h fuel s t l n s1 hs hrank h1 hok
    exact absurd hnull (FinshExpr.tree_ne_null hgot.tree)
  · have hok1 := paramLoop_sticky procAssignExpr_sticky _ _ _ _ hrun hok
    rw [FinshParser.nextToken_errno] at hok1
    have hgot := h fuel s t l n s1 hs hrank h1 hok1
    obtain ⟨s2, hnext, hbehind, -⟩ := hgot.tokens.next
    rw [hnext] at hrun
    refine ⟨turns, [n], s2, ?_, hgot.vars ▸ hbehind, hrun⟩
    simp [FinshExpr.trees, hgot.tree]

theorem sound_moreParams {es : List FinshExpr} (h1 : Sound S .params ts es)
    (h2 : Sound S .assign us [e]) : Sound S .params (ts ++ .comma :: us) (es ++ [e]) := by
  have h1 : ∀ fuel turns s t l r s', Ahead s (ts ++ t :: l) → t = .comma ∨ t = .rightParen →
      procParamList (procAssignExpr S fuel) turns s = some (r, s') → s'.errno = .ok →
      ∃ turns' nodes s1, FinshExpr.trees (FinshParser.lookup S s.vars) es = some nodes ∧
        Behind s1 t l s.vars ∧
        paramLoop (procAssignExpr S fuel) turns' t nodes s1 = some (r, s') := h1
  intro fuel turns s t l r s' hs ht hrun hok
  rw [List.append_assoc, List.cons_append] at hs
  have hrank : 7 < t.rank := by rcases ht with rfl | rfl <;> decide
  obtain ⟨turns1, nodes, s1, htrees, hbehind, hloop⟩ := h1 fuel turns s .comma _ r s' hs (.inl rfl)
    hrun hok
  obtain _ | turns1 := turns1
  · cases hloop
  · simp only [paramLoop, if_true] at hloop
    obtain ⟨⟨n, s2⟩, hn, hloop⟩ := Option.bind_eq_some_iff.mp hloop
    simp only at hloop
    have hok1 := paramLoop_sticky procAssignExpr_sticky _ _ _ _ hloop hok
    rw [FinshParser.nextToken_errno] at hok1
    by_cases hnull : n = .null
    · rw [if_pos hnull] at hok1
      cases hok1
    · rw [if_neg hnull] at hok1 hloop
      have hgot := h2 fuel s1 t l n s2 hbehind.tokens hrank hn hok1
      obtain ⟨s3, hnext, hbehind3, -⟩ := hgot.tokens.next
      have hlist : n.toList = [n] := if_neg hnull
      rw [hnext, hlist] at hloop
      rw [hbehind.vars] at hgot
      exact ⟨turns1, _, s3, trees_append htrees hgot.tree, hgot.vars ▸ hbehind3, hloop⟩

end

/-- On the tokens of a derivation each procedure builds the tree or sets an error. -/
theorem Derives.sound {S : FinshSymbols} {level : FinshLevel} {ts : List FinshToken}
    {es : List FinshExpr} (h : Derives TypeTokens level ts es) : Sound S level ts es := by
  induction h with
  | identifier name => exact sound_identifier
  | value ht => exact sound_value ht
  | paren _ ih => exact sound_paren ih
  | postfixExpr _ ih => exact sound_postfix ih
  | inc _ ih => exact sound_postfix_unary rfl (fun _ _ _ _ => rfl) ih
  | dec _ ih => exact sound_postfix_unary rfl (fun _ _ _ _ => rfl) ih
  | call _ ha ihf iha => exact sound_call ihf ha.begins iha
  | unary h ih => exact sound_unary h.begins ih
  | plus _ ih => exact sound_plus ih
  | minus _ ih => exact sound_minus ih
  | operator ht _ ih => exact sound_operator ht ih
  | cast h ih => exact sound_cast h.parenBegins h.begins ih
  | castType hu _ ih => exact sound_castType hu ih
  | inner _ ih => exact sound_inner ih
  | binary _ ht _ ih1 ih2 => exact sound_binary ih1 ht ih2
  | expr _ ih => exact sound_expr ih
  | assign h1 _ ih1 ih2 => exact sound_assign (sound_cast h1.parenBegins h1.begins ih1) ih2
  | noParams => exact sound_noParams
  | oneParam _ ih => exact sound_oneParam ih
  | moreParams _ _ ih1 ih2 => exact sound_moreParams ih1 ih2

end RTThread
