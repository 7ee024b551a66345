import RTThread.FinshParserModel

namespace RTThread

/-- No error at the end means that there was none before. -/
def StickyProc {α : Type} (p : FinshProc α) : Prop :=
  ∀ s r s', p s = some (r, s') → s'.errno = .ok → s.errno = .ok

namespace FinshParser

variable {S : FinshSymbols} {s : FinshParser} {type : FinshNodeType} {node1 : FinshNode}
  {node2 : List FinshNode} {err : FinshErr} {token : FinshToken} {name : List UInt8}
  {p : FinshToken → Bool}

@[simp] theorem nextToken_errno : s.nextToken.2.errno = s.errno := by
  unfold nextToken
  split
  next => rfl
  next => split <;> rfl

@[simp] theorem replayToken_errno : s.replayToken.errno = s.errno := rfl

@[simp] theorem errorSet_errno : (s.errorSet err).errno = err := rfl

theorem checkToken_ok (h : (s.checkToken token p).errno = .ok) :
    p token = true ∧ s.checkToken token p = s := by
  unfold checkToken at h ⊢
  split at h
  next hp => exact ⟨hp, if_pos hp⟩
  next => simp at h

theorem matchToken_ok (h : (s.matchToken p).errno = .ok) :
    p s.nextToken.1 = true ∧ s.matchToken p = s.nextToken.2 := checkToken_ok h

theorem nodeAllocate_eq : s.nodeAllocate = (true, { s with nodes := s.nodes + 1 }) ∧
    s.nodes < finshNodeMax ∨ s.nodeAllocate = (false, s) ∧ ¬s.nodes < finshNodeMax := by
  unfold nodeAllocate
  by_cases h : s.nodes < finshNodeMax
  · exact Or.inl ⟨if_pos h, h⟩
  · exact Or.inr ⟨if_neg h, h⟩

theorem nodeNewValue_ok (h : (s.nodeNewValue type).2.errno = .ok) :
    s.nodes < finshNodeMax ∧ s.nodeNewValue type = (.leaf type, { s with nodes := s.nodes + 1 }) := by
  unfold nodeNewValue at h ⊢
  rcases s.nodeAllocate_eq with ⟨heq, hlt⟩ | ⟨heq, -⟩
  · rw [heq]
    exact ⟨hlt, rfl⟩
  · rw [heq] at h
    simp at h

theorem nodeNewId_ok (h : (s.nodeNewId S name).2.errno = .ok) :
    s.nodes < finshNodeMax ∧ ∃ ref, lookup S s.vars name = some ref ∧
      s.nodeNewId S name = (.leaf (.id ref), { s with nodes := s.nodes + 1 }) := by
  unfold nodeNewId at h ⊢
  split at h
  next ref href =>
    obtain ⟨hlt, heq⟩ := nodeNewValue_ok h
    exact ⟨hlt, ref, href, heq⟩
  next => simp at h

theorem makeSysNode_ok (h : (s.makeSysNode type node1 node2).2.errno = .ok) :
    s.nodes < finshNodeMax ∧ node1 ≠ .null ∧ s.makeSysNode type node1 node2 =
      (.node type 0 false (node1.setSibling (.chain node2)) .null,
        { s with nodes := s.nodes + 1 }) := by
  unfold makeSysNode at h ⊢
  rcases s.nodeAllocate_eq with ⟨heq, hlt⟩ | ⟨heq, -⟩
  · rw [heq] at h ⊢
    by_cases hn : node1 = .null
    · simp [hn] at h
    · exact ⟨hlt, hn, by simp [hn]⟩
  · rw [heq] at h
    simp at h

theorem matchToken_sticky (h : (s.matchToken p).errno = .ok) : s.errno = .ok := by
  rw [(matchToken_ok h).2] at h
  simpa using h

theorem nodeNewValue_sticky (h : (s.nodeNewValue type).2.errno = .ok) : s.errno = .ok := by
  rw [(nodeNewValue_ok h).2] at h
  exact h

theorem nodeNewId_sticky (h : (s.nodeNewId S name).2.errno = .ok) : s.errno = .ok := by
  obtain ⟨-, ref, -, heq⟩ := nodeNewId_ok h
  rw [heq] at h
  exact h

theorem makeSysNode_sticky (h : (s.makeSysNode type node1 node2).2.errno = .ok) :
    s.errno = .ok := by
  rw [(makeSysNode_ok h).2.2] at h
  exact h

end FinshParser

section
variable {S : FinshSymbols} {assign cast operand : FinshProc FinshNode} {fuel : Nat}
  {token : FinshToken} {s s' : FinshParser} {type : FinshType}

open FinshParser

theorem procPointer_errno (type : FinshType) (s : FinshParser) :
    (procPointer type s).2.errno = s.errno := by
  unfold procPointer
  simp only
  split <;> simp

theorem procType_sticky (h : (procType s).2.errno = .ok) : s.errno = .ok := by
  unfold procType at h
  simp only at h
  split at h
  next => simpa [procPointer_errno] using h
  next =>
    split at h
    next =>
      split at h
      next =>
        split at h
        next => simpa [procPointer_errno] using h
        next => simp at h
      next => simp [procPointer_errno] at h
    next => simp at h

theorem procIdentifier_sticky (h : (procIdentifier s).2.errno = .ok) : s.errno = .ok :=
  matchToken_sticky h

theorem paramLoop_sticky (ha : StickyProc assign) (nodes : List FinshNode) :
    StickyProc (paramLoop assign fuel token nodes) := by
  induction fuel generalizing token nodes with
  | zero => intro s r s' h; simp [paramLoop] at h
  | succ fuel ih =>
    intro s r s' h hok
    unfold paramLoop at h
    split at h
    next =>
      obtain ⟨⟨node, s1⟩, h1, h⟩ := Option.bind_eq_some_iff.mp h
      simp only at h
      have h2 := ih _ _ _ _ h hok
      rw [nextToken_errno] at h2
      apply ha _ _ _ h1
      split at h2
      next => simp at h2
      next => exact h2
    next =>
      obtain ⟨-, rfl⟩ := Prod.mk.inj (Option.some.inj h)
      exact hok

theorem procParamList_sticky (ha : StickyProc assign) :
    StickyProc (procParamList assign fuel) := by
  intro s r s' h hok
  obtain ⟨⟨node, s1⟩, h1, h⟩ := Option.bind_eq_some_iff.mp h
  simp only at h
  apply ha _ _ _ h1
  split at h
  next =>
    obtain ⟨-, rfl⟩ := Prod.mk.inj (Option.some.inj h)
    exact hok
  next =>
    have h2 := paramLoop_sticky ha _ _ _ _ h hok
    simpa using h2

theorem procPrimaryExpr_sticky (ha : StickyProc assign) : StickyProc (procPrimaryExpr S assign) := by
  intro s r s' h hok
  unfold procPrimaryExpr at h
  simp only at h
  split at h
  next =>
    obtain ⟨-, rfl⟩ := Prod.mk.inj (Option.some.inj h)
    have h2 := procIdentifier_sticky (nodeNewId_sticky hok)
    simpa using h2
  next =>
    obtain ⟨⟨node, s1⟩, h1, h⟩ := Option.bind_eq_some_iff.mp h
    simp only at h
    obtain ⟨-, rfl⟩ := Prod.mk.inj (Option.some.inj h)
    have h2 := ha _ _ _ h1 (matchToken_sticky hok)
    simpa using h2
  all_goals
    obtain ⟨-, rfl⟩ := Prod.mk.inj (Option.some.inj h)
    first
      | simpa using nodeNewValue_sticky hok
      | simp at hok

theorem procCall_sticky (ha : StickyProc assign) : StickyProc (procCall assign fuel) := by
  intro s r s' h hok
  unfold procCall at h
  simp only at h
  split at h
  next =>
    obtain ⟨-, rfl⟩ := Prod.mk.inj (Option.some.inj h)
    simpa using hok
  next =>
    obtain ⟨⟨params, s1⟩, h1, h⟩ := Option.bind_eq_some_iff.mp h
    simp only at h
    obtain ⟨-, rfl⟩ := Prod.mk.inj (Option.some.inj h)
    have h2 := procParamList_sticky ha _ _ _ h1 (matchToken_sticky hok)
    simpa using h2

theorem postfixLoop_sticky (ha : StickyProc assign) (node : FinshNode) :
    StickyProc (postfixLoop assign fuel token node) := by
  induction fuel generalizing token node with
  | zero => intro s r s' h; simp [postfixLoop] at h
  | succ fuel ih =>
    intro s r s' h hok
    unfold postfixLoop at h
    simp only at h
    split at h
    next =>
      have h2 := ih _ _ _ _ h hok
      rw [nextToken_errno] at h2
      exact makeSysNode_sticky h2
    next =>
      split at h
      next =>
        have h2 := ih _ _ _ _ h hok
        rw [nextToken_errno] at h2
        exact makeSysNode_sticky h2
      next =>
        split at h
        next =>
          obtain ⟨⟨params, s1⟩, h1, h⟩ := Option.bind_eq_some_iff.mp h
          simp only at h
          have h2 := ih _ _ _ _ h hok
          rw [nextToken_errno] at h2
          exact procCall_sticky ha _ _ _ h1 (makeSysNode_sticky h2)
        next =>
          obtain ⟨-, rfl⟩ := Prod.mk.inj (Option.some.inj h)
          exact hok

theorem procPostfixExpr_sticky (ha : StickyProc assign) :
    StickyProc (procPostfixExpr S assign fuel) := by
  intro s r s' h hok
  obtain ⟨⟨node, s1⟩, h1, h⟩ := Option.bind_eq_some_iff.mp h
  simp only at h
  have h2 := postfixLoop_sticky ha _ _ _ _ h hok
  rw [nextToken_errno] at h2
  exact procPrimaryExpr_sticky ha _ _ _ h1 h2

theorem procUnaryExpr_sticky (ha : StickyProc assign) (hc : StickyProc cast) :
    StickyProc (procUnaryExpr S assign cast fuel) := by
  intro s r s' h hok
  unfold procUnaryExpr at h
  simp only at h
  split at h
  next => simpa using hc _ _ _ h hok
  next =>
    split at h
    next =>
      obtain ⟨⟨node, s1⟩, h1, h⟩ := Option.bind_eq_some_iff.mp h
      simp only at h
      obtain ⟨-, rfl⟩ := Prod.mk.inj (Option.some.inj h)
      have h2 := hc _ _ _ h1 (nodeNewValue_sticky (makeSysNode_sticky hok))
      simpa using h2
    next =>
      split at h
      next =>
        obtain ⟨⟨node, s1⟩, h1, h⟩ := Option.bind_eq_some_iff.mp h
        simp only at h
        obtain ⟨-, rfl⟩ := Prod.mk.inj (Option.some.inj h)
        have h2 := hc _ _ _ h1 (makeSysNode_sticky hok)
        simpa using h2
      next =>
        have h2 := procPostfixExpr_sticky ha _ _ _ h hok
        simpa using h2

theorem procCastExpr_sticky (ha : StickyProc assign) : StickyProc (procCastExpr S assign fuel) := by
  induction fuel with
  | zero => intro s r s' h; simp [procCastExpr] at h
  | succ fuel ih =>
    intro s r s' h hok
    unfold procCastExpr at h
    simp only at h
    split at h
    next =>
      obtain ⟨⟨node, s1⟩, h1, h⟩ := Option.bind_eq_some_iff.mp h
      simp only at h
      have h2 : s1.errno = .ok := by
        split at h
        next =>
          obtain ⟨-, rfl⟩ := Prod.mk.inj (Option.some.inj h)
          exact hok
        next => simpa using procUnaryExpr_sticky ha ih _ _ _ h hok
      have h3 := procType_sticky (matchToken_sticky (ih _ _ _ h1 h2))
      simpa using h3
    next =>
      have h2 := procUnaryExpr_sticky ha ih _ _ _ h hok
      simpa using h2

theorem binaryLoop_sticky (ho : StickyProc operand) {op : FinshToken → Option FinshNodeType}
    (left : FinshNode) : StickyProc (binaryLoop operand op fuel token left) := by
  induction fuel generalizing token left with
  | zero => intro s r s' h; simp [binaryLoop] at h
  | succ fuel ih =>
    intro s r s' h hok
    unfold binaryLoop at h
    split at h
    next =>
      obtain ⟨⟨right, s1⟩, h1, h⟩ := Option.bind_eq_some_iff.mp h
      simp only at h
      have h2 := ih _ _ _ _ h hok
      rw [nextToken_errno] at h2
      apply ho _ _ _ h1
      split at h2
      next => simp at h2
      next => exact makeSysNode_sticky h2
    next =>
      obtain ⟨-, rfl⟩ := Prod.mk.inj (Option.some.inj h)
      exact hok

theorem procBinary_sticky (ho : StickyProc operand) {op : FinshToken → Option FinshNodeType} :
    StickyProc (procBinary operand op fuel) := by
  intro s r s' h hok
  obtain ⟨⟨left, s1⟩, h1, h⟩ := Option.bind_eq_some_iff.mp h
  simp only at h
  have h2 := binaryLoop_sticky ho _ _ _ _ h hok
  rw [nextToken_errno] at h2
  exact ho _ _ _ h1 h2

theorem procInclusiveOrExpr_sticky (ha : StickyProc assign) :
    StickyProc (procInclusiveOrExpr S assign fuel) := by
  have hmul : StickyProc (procMultiplicativeExpr S assign fuel) :=
    procBinary_sticky (procCastExpr_sticky ha)
  have hadd : StickyProc (procAdditiveExpr S assign fuel) := procBinary_sticky hmul
  have hshift : StickyProc (procShiftExpr S assign fuel) := procBinary_sticky hadd
  have hand : StickyProc (procAndExpr S assign fuel) := procBinary_sticky hshift
  have hxor : StickyProc (procExclusiveOrExpr S assign fuel) := procBinary_sticky hand
  exact procBinary_sticky hxor

theorem procAssignExpr_sticky : StickyProc (procAssignExpr S fuel) := by
  induction fuel with
  | zero => intro s r s' h; simp [procAssignExpr] at h
  | succ fuel ih =>
    intro s r s' h hok
    obtain ⟨⟨or, s1⟩, h1, h⟩ := Option.bind_eq_some_iff.mp h
    simp only at h
    apply procInclusiveOrExpr_sticky ih _ _ _ h1
    split at h
    next =>
      obtain ⟨⟨assign, s2⟩, h2, h⟩ := Option.bind_eq_some_iff.mp h
      obtain ⟨-, rfl⟩ := Prod.mk.inj (Option.some.inj h)
      have h3 := ih _ _ _ h2 (makeSysNode_sticky hok)
      simpa using h3
    next =>
      obtain ⟨-, rfl⟩ := Prod.mk.inj (Option.some.inj h)
      simpa using hok

end

end RTThread
