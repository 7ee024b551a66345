import RTThread.FinshParserErrors

namespace RTThread

namespace FinshParser

/-- How many tokens the parser has before it; an end of the line that is given back is none. -/
def left (s : FinshParser) : Nat := s.rest.length + if s.replay = true ∧ s.current ≠ .eof then 1 else 0

/-- The token is the last one read, and was not given back. -/
structure Got (token : FinshToken) (s : FinshParser) : Prop where
  current : s.current = token
  taken : s.replay = false

variable {S : FinshSymbols} {s : FinshParser} {type : FinshNodeType} {node1 : FinshNode}
  {node2 : List FinshNode} {err : FinshErr} {token : FinshToken} {name : List UInt8}
  {p : FinshToken → Bool}

@[simp] theorem left_errorSet : (s.errorSet err).left = s.left := rfl

@[simp] theorem replay_errorSet : (s.errorSet err).replay = s.replay := rfl

@[simp] theorem current_errorSet : (s.errorSet err).current = s.current := rfl

theorem nodeAllocate_left : s.nodeAllocate.2.left = s.left ∧ s.nodeAllocate.2.replay = s.replay := by
  rcases s.nodeAllocate_eq with ⟨heq, -⟩ | ⟨heq, -⟩
  · rw [heq]
    exact ⟨rfl, rfl⟩
  · rw [heq]
    exact ⟨rfl, rfl⟩

@[simp] theorem left_nodeNewValue : (s.nodeNewValue type).2.left = s.left := by
  unfold nodeNewValue
  simp only
  split
  · exact nodeAllocate_left.1
  · exact nodeAllocate_left.1

@[simp] theorem replay_nodeNewValue : (s.nodeNewValue type).2.replay = s.replay := by
  unfold nodeNewValue
  simp only
  split
  · exact nodeAllocate_left.2
  · exact nodeAllocate_left.2

@[simp] theorem left_nodeNewId : (s.nodeNewId S name).2.left = s.left := by
  unfold nodeNewId
  split
  · exact left_nodeNewValue
  · rfl

@[simp] theorem left_makeSysNode : (s.makeSysNode type node1 node2).2.left = s.left := by
  unfold makeSysNode
  simp only
  split
  · split
    · exact nodeAllocate_left.1
    · exact nodeAllocate_left.1
  · exact nodeAllocate_left.1

@[simp] theorem replay_makeSysNode : (s.makeSysNode type node1 node2).2.replay = s.replay := by
  unfold makeSysNode
  simp only
  split
  · split
    · exact nodeAllocate_left.2
    · exact nodeAllocate_left.2
  · exact nodeAllocate_left.2

@[simp] theorem replay_replayToken : s.replayToken.replay = true := rfl

theorem replayToken_of_replay (h : s.replay = true) : s.replayToken = s := by
  unfold replayToken
  rw [← h]

/-- Giving a token back that was just read. -/
theorem Got.left_replay (h : Got token s) (ht : token ≠ .eof) : s.replayToken.left = s.left + 1 := by
  obtain ⟨hcurrent, htaken⟩ := h
  simp [left, replayToken, hcurrent, htaken, ht]

theorem Got.next (h : Got token s) : s.replayToken.nextToken.1 = token := by
  unfold nextToken replayToken
  exact h.current

/-- A token read is gone unless it is given back. -/
theorem nextToken_left (s : FinshParser) : Got s.nextToken.1 s.nextToken.2 ∧
    s.nextToken.2.replayToken.left ≤ s.left ∧ s.nextToken.2.left ≤ s.left ∧
    (s.nextToken.1 ≠ .eof → s.nextToken.2.left < s.left) := by
  unfold nextToken
  cases hreplay : s.replay with
  | true =>
    refine ⟨⟨rfl, rfl⟩, ?_, ?_, ?_⟩
    · simp [left, replayToken, hreplay]
    · simp [left, hreplay]
    · intro ht
      have ht : s.current ≠ .eof := ht
      simp [left, hreplay, ht]
  | false =>
    cases hrest : s.rest with
    | nil =>
      refine ⟨⟨rfl, rfl⟩, ?_, ?_, fun ht => absurd rfl ht⟩
      · simp [left, replayToken, hrest]
      · simp [left, hrest]
    | cons t ts =>
      refine ⟨⟨rfl, rfl⟩, ?_, ?_, ?_⟩
      · by_cases ht : t = .eof
        · simp [left, replayToken, hrest, ht, Nat.add_assoc]
        · simp [left, replayToken, hrest, ht]
      · simp [left, hrest, hreplay]
      · intro _
        simp [left, hrest, hreplay]

theorem checkToken_left (token : FinshToken) (h : s.replayToken.left ≤ n) (h' : s.left ≤ n) : (s.checkToken token p).left ≤ n := by
  unfold checkToken
  split
  · exact h'
  · exact h

theorem matchToken_left : (s.matchToken p).left ≤ s.left := by
  obtain ⟨-, hback, hle, -⟩ := nextToken_left s
  exact checkToken_left _ hback hle

end FinshParser

open FinshParser

/-- The call returns, with the token behind what it read given back; if there was a token, it is gone. -/
def Ends {α : Type} (p : FinshProc α) (s : FinshParser) : Prop :=
  ∃ r s', p s = some (r, s') ∧ s'.left ≤ s.left ∧ s'.replay = true ∧ (s.nextToken.1 ≠ .eof → s'.left < s.left)

section
variable {S : FinshSymbols} {assign cast operand : FinshProc FinshNode} {fuel : Nat}
  {token : FinshToken} {s s' : FinshParser} {type : FinshType} {nodes : List FinshNode} {post : FinshNode}

theorem paramLoop_ends (nodes : List FinshNode) (hgot : Got token s) (hfuel : s.replayToken.left < fuel)
    (ha : ∀ s', s'.left < s.replayToken.left → Ends assign s') :
    ∃ r s', paramLoop assign fuel token nodes s = some (r, s') ∧ s'.left ≤ s.replayToken.left := by
  induction fuel generalizing token nodes s with
  | zero => omega
  | succ fuel ih =>
    unfold paramLoop
    by_cases hcomma : token = .comma
    · have hleft := hgot.left_replay (by simp [hcomma])
      obtain ⟨node, s1, hrun, hle, -⟩ := ha s (by omega)
      simp only [if_pos hcomma, hrun, Option.bind_eq_bind, Option.bind_some]
      have hsame : ∀ s2 : FinshParser, s2 = (if node = .null then s1.errorSet .expectOperator else s1) →
          s2.left = s1.left := by
        rintro s2 rfl
        split <;> rfl
      generalize (if node = .null then s1.errorSet .expectOperator else s1) = s2 at hsame ⊢
      have hs2 := hsame s2 rfl
      obtain ⟨hgot', hback, -, -⟩ := nextToken_left s2
      obtain ⟨r, s', hrun', hle'⟩ := ih (nodes ++ node.toList) hgot' (by omega)
        fun s' hs' => ha s' (by omega)
      exact ⟨r, s', hrun', by omega⟩
    · rw [if_neg hcomma]
      exact ⟨nodes, _, rfl, Nat.le_refl _⟩

theorem procParamList_ends (hfuel : s.left < fuel) (ha : ∀ s', s'.left ≤ s.left → Ends assign s') :
    ∃ r s', procParamList assign fuel s = some (r, s') ∧ s'.left ≤ s.left := by
  obtain ⟨node, s1, hrun, hle, -⟩ := ha s (Nat.le_refl _)
  unfold procParamList
  simp only [hrun, Option.bind_eq_bind, Option.bind_some]
  split
  · exact ⟨[], s1, rfl, hle⟩
  · obtain ⟨hgot, hback, -, -⟩ := nextToken_left s1
    obtain ⟨r, s', hrun', hle'⟩ := paramLoop_ends [node] hgot
      (show s1.nextToken.2.replayToken.left < fuel by omega)
      fun s' hs' => ha s' (by omega)
    exact ⟨r, s', hrun', by omega⟩

theorem procCall_ends (hfuel : s.left < fuel) (ha : ∀ s', s'.left ≤ s.left → Ends assign s') :
    ∃ r s', procCall assign fuel s = some (r, s') ∧ s'.left ≤ s.left := by
  obtain ⟨hgot, hback, hle, -⟩ := nextToken_left s
  unfold procCall
  simp only
  split
  · exact ⟨[], _, rfl, hle⟩
  · obtain ⟨r, s1, hrun, hle1⟩ := procParamList_ends
      (show s.nextToken.2.replayToken.left < fuel by omega) fun s' hs' => ha s' (by omega)
    simp only [hrun, Option.bind_eq_bind, Option.bind_some]
    have hmatch := matchToken_left (s := s1) (p := fun t => decide (t = .rightParen))
    exact ⟨r, _, rfl, by omega⟩

theorem returned_left {α : Type} {x : α × FinshParser} {n : Nat} {P : Prop} (hle : x.2.left ≤ n)
    (hlt : P → x.2.left < n) : ∃ r s', some x = some (r, s') ∧ s'.left ≤ n ∧ (P → s'.left < n) :=
  ⟨x.1, x.2, rfl, hle, hlt⟩

theorem returned_ends {α : Type} {x : α × FinshParser} {n : Nat} {P : Prop} (hle : x.2.left < n)
    (hreplay : x.2.replay = true) : ∃ r s', some x = some (r, s') ∧ s'.left ≤ n ∧ s'.replay = true ∧
      (P → s'.left < n) :=
  ⟨x.1, x.2, rfl, Nat.le_of_lt hle, hreplay, fun _ => hle⟩

/-- An identifier that was read and given back is read again. -/
theorem procIdentifier_left {name : List UInt8} (hgot : Got token s) (ht : token = .identifier name) :
    (procIdentifier s.replayToken).2.left = s.left := by
  have hnext : s.replayToken.nextToken = (token, s) := by
    have hcurrent := hgot.current
    have htaken := hgot.taken
    unfold nextToken replayToken
    cases s
    subst hcurrent htaken
    rfl
  unfold procIdentifier matchToken
  rw [hnext, ht]
  rfl

theorem procPrimaryExpr_ends (ha : ∀ s', s'.left < s.left → Ends assign s') :
    ∃ r s', procPrimaryExpr S assign s = some (r, s') ∧ s'.left ≤ s.left ∧
      (s.nextToken.1 ≠ .eof → s'.left < s.left) := by
  obtain ⟨hgot, hback, hle, hlt⟩ := nextToken_left s
  unfold procPrimaryExpr
  simp only
  split
  next name hname =>
    have hread := procIdentifier_left hgot hname
    generalize procIdentifier s.nextToken.2.replayToken = x at hread ⊢
    apply returned_left
    · rw [left_nodeNewId]
      omega
    · intro ht
      have := hlt ht
      rw [left_nodeNewId]
      omega
  next hparen =>
    have hlt := hlt (by simp [hparen])
    obtain ⟨expr, s1, hrun, hle1, -⟩ := ha _ hlt
    have hmatch := matchToken_left (s := s1) (p := fun t => decide (t = .rightParen))
    simp only [hrun, Option.bind_eq_bind, Option.bind_some]
    exact ⟨expr, _, rfl, by omega, fun _ => by omega⟩
  all_goals
    apply returned_left
    · simpa using hle
    · intro ht
      simpa using hlt ht

theorem postfixLoop_ends (post : FinshNode) (hgot : Got token s) (hfuel : s.replayToken.left < fuel)
    (ha : ∀ s', s'.left < s.replayToken.left → Ends assign s') :
    ∃ r s', postfixLoop assign fuel token post s = some (r, s') ∧ s'.left ≤ s.replayToken.left ∧
      s'.replay = true := by
  induction fuel generalizing token post s with
  | zero => omega
  | succ fuel ih =>
    -- a turn that goes on has used up its token
    have hturn : token ≠ .eof → ∀ s1 : FinshParser, s1.left ≤ s.left → ∀ post,
        ∃ r s', postfixLoop assign fuel s1.nextToken.1 post s1.nextToken.2 = some (r, s') ∧
          s'.left ≤ s.replayToken.left ∧ s'.replay = true := by
      intro ht s1 hs1 post
      have hleft := hgot.left_replay ht
      obtain ⟨hgot', hback, -, -⟩ := nextToken_left s1
      obtain ⟨r, s', hrun, hle, hreplay⟩ := ih post hgot' (by omega) fun s' hs' => ha s' (by omega)
      exact ⟨r, s', hrun, by omega, hreplay⟩
    unfold postfixLoop
    simp only
    split
    next hinc => exact hturn (by simp [hinc]) _ (by simp) _
    next =>
      split
      next hdec => exact hturn (by simp [hdec]) _ (by simp) _
      next =>
        split
        next hparen =>
          have hleft := hgot.left_replay (by simp [hparen])
          obtain ⟨params, s1, hcall, hle1⟩ := procCall_ends (show s.left < fuel by omega)
            fun s' hs' => ha s' (by omega)
          simp only [hcall, Option.bind_eq_bind, Option.bind_some]
          exact hturn (by simp [hparen]) _ (by simpa using hle1) _
        next => exact ⟨post, _, rfl, Nat.le_refl _, rfl⟩

theorem procPostfixExpr_ends (hfuel : s.left < fuel) (ha : ∀ s', s'.left < s.left → Ends assign s') :
    Ends (procPostfixExpr S assign fuel) s := by
  obtain ⟨post, s1, hrun, hle, hlt⟩ := procPrimaryExpr_ends (S := S) ha
  obtain ⟨hgot, hback, -, -⟩ := nextToken_left s1
  obtain ⟨r, s', hloop, hle', hreplay⟩ := postfixLoop_ends post hgot
    (show s1.nextToken.2.replayToken.left < fuel by omega)
    fun s' hs' => ha s' (by omega)
  refine ⟨r, s', ?_, by omega, hreplay, fun ht => ?_⟩
  · unfold procPostfixExpr
    simp only [hrun, Option.bind_eq_bind, Option.bind_some, hloop]
  · have := hlt ht
    omega

theorem procUnaryExpr_ends (hfuel : s.left < fuel) (ha : ∀ s', s'.left < s.left → Ends assign s')
    (hc : ∀ s', s'.left < s.left → Ends cast s') : Ends (procUnaryExpr S assign cast fuel) s := by
  obtain ⟨hgot, hback, hle, hlt⟩ := nextToken_left s
  unfold Ends procUnaryExpr
  simp only
  split
  next hadd =>
    have hlt := hlt (by simp [hadd])
    obtain ⟨r, s', hrun, hle', hreplay, -⟩ := hc _ hlt
    exact ⟨r, s', hrun, by omega, hreplay, fun _ => by omega⟩
  next =>
    split
    next hsub =>
      have hlt := hlt (by simp [hsub])
      obtain ⟨node, s1, hrun, hle', hreplay, -⟩ := hc _ hlt
      simp only [hrun, Option.bind_eq_bind, Option.bind_some]
      apply returned_ends
      · simp only [left_makeSysNode, left_nodeNewValue]
        omega
      · simpa using hreplay
    next =>
      split
      next type htype =>
        have hlt := hlt (by
          intro heof
          rw [heof] at htype
          cases htype)
        obtain ⟨node, s1, hrun, hle', hreplay, -⟩ := hc _ hlt
        simp only [hrun, Option.bind_eq_bind, Option.bind_some]
        apply returned_ends
        · rw [left_makeSysNode]
          omega
        · simpa using hreplay
      next =>
        obtain ⟨r, s', hrun, hle', hreplay, hlt'⟩ := procPostfixExpr_ends (S := S)
          (show s.nextToken.2.replayToken.left < fuel by omega) fun s' hs' => ha s' (by omega)
        refine ⟨r, s', hrun, by omega, hreplay, fun ht => ?_⟩
        have := hlt' (by rw [hgot.next]; exact ht)
        omega

theorem procPointer_left (type : FinshType) (s : FinshParser) : (procPointer type s).2.left ≤ s.left := by
  obtain ⟨-, hback, hle, -⟩ := nextToken_left s
  unfold procPointer
  simp only
  split
  · exact hle
  · exact hback

/-- A type takes its first token, if it can be one. -/
theorem procType_left (s : FinshParser) : (procType s).2.left ≤ s.left ∧
    (isDeclaration s.nextToken.1 = true → (procType s).2.left < s.left) := by
  obtain ⟨hgot, hback, hle, hlt⟩ := nextToken_left s
  unfold procType
  simp only
  split
  next type htype =>
    have hpointer := procPointer_left type s.nextToken.2
    have hlt := hlt (by
      intro heof
      rw [heof] at htype
      cases htype)
    exact ⟨by omega, fun _ => by omega⟩
  next hnone =>
    split
    next hunsigned =>
      obtain ⟨-, hback', hle', -⟩ := nextToken_left s.nextToken.2
      have hlt := hlt (by simp [hunsigned])
      split
      next =>
        split
        next type _ =>
          have hpointer := procPointer_left type s.nextToken.2.nextToken.2
          exact ⟨by omega, fun _ => by omega⟩
        next =>
          simp only [left_errorSet]
          exact ⟨by omega, fun _ => by omega⟩
      next =>
        have hpointer := procPointer_left .unknown
          (s.nextToken.2.nextToken.2.replayToken.errorSet .expectType)
        rw [left_errorSet] at hpointer
        exact ⟨by omega, fun _ => by omega⟩
    next hno =>
      refine ⟨hback, fun hdecl => ?_⟩
      unfold isDeclaration at hdecl
      have hbase : isBaseType s.nextToken.1 = false := by
        cases ht : s.nextToken.1 <;> simp_all [baseType, isBaseType]
      rw [hbase] at hdecl
      simp at hdecl
      exact absurd hdecl hno

theorem procCastExpr_ends (hfuel : s.left + 2 ≤ fuel) (ha : ∀ s', s'.left < s.left → Ends assign s') :
    Ends (procCastExpr S assign fuel) s := by
  induction fuel generalizing s with
  | zero => omega
  | succ fuel ih =>
    obtain ⟨hgot, hback, hle, hlt⟩ := nextToken_left s
    have hc : ∀ s', s'.left < s.left → Ends (procCastExpr S assign fuel) s' :=
      fun s' hs' => ih (by omega) fun s'' hs'' => ha s'' (by omega)
    unfold Ends procCastExpr
    simp only
    split
    next hparen =>
      have hlt := hlt (by simp [hparen])
      have htype := (procType_left s.nextToken.2).1
      have hmatch := matchToken_left (s := (procType s.nextToken.2).2) (p := fun t => decide (t = .rightParen))
      obtain ⟨cast, s1, hrun, hle1, hreplay, -⟩ := hc ((procType s.nextToken.2).2.matchToken (· = .rightParen))
        (by omega)
      simp only [hrun, Option.bind_eq_bind, Option.bind_some]
      split
      next =>
        apply returned_ends
        · show s1.left < s.left
          omega
        · exact hreplay
      next =>
        rw [replayToken_of_replay hreplay]
        obtain ⟨r, s', hrun', hle', hreplay', -⟩ := procUnaryExpr_ends (S := S)
          (show s1.left < fuel by omega) (fun s' hs' => ha s' (by omega)) fun s' hs' => hc s' (by omega)
        exact ⟨r, s', hrun', by omega, hreplay', fun _ => by omega⟩
    next =>
      obtain ⟨r, s', hrun', hle', hreplay', hlt'⟩ := procUnaryExpr_ends (S := S)
        (show s.nextToken.2.replayToken.left < fuel by omega) (fun s' hs' => ha s' (by omega))
        fun s' hs' => hc s' (by omega)
      refine ⟨r, s', hrun', by omega, hreplay', fun ht => ?_⟩
      have := hlt' (by rw [hgot.next]; exact ht)
      omega

theorem binaryLoop_ends {op : FinshToken → Option FinshNodeType} (node : FinshNode) (hop : op .eof = none)
    (hgot : Got token s) (hfuel : s.replayToken.left < fuel)
    (ho : ∀ s', s'.left < s.replayToken.left → Ends operand s') :
    ∃ r s', binaryLoop operand op fuel token node s = some (r, s') ∧ s'.left ≤ s.replayToken.left ∧
      s'.replay = true := by
  induction fuel generalizing token node s with
  | zero => omega
  | succ fuel ih =>
    unfold binaryLoop
    split
    next type htype =>
      have hleft := hgot.left_replay (by
        rintro rfl
        rw [hop] at htype
        cases htype)
      obtain ⟨right, s1, hrun, hle, -, -⟩ := ho s (by omega)
      simp only [hrun, Option.bind_eq_bind, Option.bind_some]
      have hsame : ∀ x : FinshNode × FinshParser, x = (if right = .null then
          (node, s1.errorSet .expectOperator) else s1.makeSysNode type node [right]) → x.2.left = s1.left := by
        rintro x rfl
        split
        · rfl
        · exact left_makeSysNode
      generalize (if right = .null then (node, s1.errorSet .expectOperator)
        else s1.makeSysNode type node [right]) = x at hsame ⊢
      have hx := hsame x rfl
      obtain ⟨hgot', hback, -, -⟩ := nextToken_left x.2
      obtain ⟨r, s', hrun', hle', hreplay⟩ := ih x.1 hgot' (by omega) fun s' hs' => ho s' (by omega)
      exact ⟨r, s', hrun', by omega, hreplay⟩
    next => exact ⟨node, _, rfl, Nat.le_refl _, rfl⟩

theorem procBinary_ends {op : FinshToken → Option FinshNodeType} (hop : op .eof = none) (hfuel : s.left < fuel)
    (ho : ∀ s', s'.left ≤ s.left → Ends operand s') : Ends (procBinary operand op fuel) s := by
  obtain ⟨node, s1, hrun, hle, -, hlt⟩ := ho s (Nat.le_refl _)
  obtain ⟨hgot, hback, -, -⟩ := nextToken_left s1
  obtain ⟨r, s', hloop, hle', hreplay⟩ := binaryLoop_ends node hop hgot
    (show s1.nextToken.2.replayToken.left < fuel by omega)
    fun s' hs' => ho s' (by omega)
  refine ⟨r, s', ?_, by omega, hreplay, fun ht => ?_⟩
  · unfold procBinary
    simp only [hrun, Option.bind_eq_bind, Option.bind_some, hloop]
  · have := hlt ht
    omega

theorem procInclusiveOrExpr_ends (hfuel : s.left + 2 ≤ fuel) (ha : ∀ s', s'.left < s.left → Ends assign s') :
    Ends (procInclusiveOrExpr S assign fuel) s := by
  have hcast : ∀ s', s'.left ≤ s.left → Ends (procCastExpr S assign fuel) s' :=
    fun s' hs' => procCastExpr_ends (by omega) fun s'' hs'' => ha s'' (by omega)
  have hmul : ∀ s', s'.left ≤ s.left → Ends (procMultiplicativeExpr S assign fuel) s' :=
    fun s' hs' => procBinary_ends rfl (by omega) fun s'' hs'' => hcast s'' (by omega)
  have hadd : ∀ s', s'.left ≤ s.left → Ends (procAdditiveExpr S assign fuel) s' :=
    fun s' hs' => procBinary_ends rfl (by omega) fun s'' hs'' => hmul s'' (by omega)
  have hshift : ∀ s', s'.left ≤ s.left → Ends (procShiftExpr S assign fuel) s' :=
    fun s' hs' => procBinary_ends rfl (by omega) fun s'' hs'' => hadd s'' (by omega)
  have hand : ∀ s', s'.left ≤ s.left → Ends (procAndExpr S assign fuel) s' :=
    fun s' hs' => procBinary_ends rfl (by omega) fun s'' hs'' => hshift s'' (by omega)
  have hxor : ∀ s', s'.left ≤ s.left → Ends (procExclusiveOrExpr S assign fuel) s' :=
    fun s' hs' => procBinary_ends rfl (by omega) fun s'' hs'' => hand s'' (by omega)
  exact procBinary_ends rfl (by omega) hxor

/-- An expression ends: every level of it that goes on has used up a token. -/
theorem procAssignExpr_ends (hfuel : s.left + 3 ≤ fuel) : Ends (procAssignExpr S fuel) s := by
  induction fuel generalizing s with
  | zero => omega
  | succ fuel ih =>
    have hassign : ∀ s', s'.left < s.left → Ends (procAssignExpr S fuel) s' := fun s' hs' => ih (by omega)
    obtain ⟨or, s1, hrun, hle, -, hlt⟩ := procInclusiveOrExpr_ends (S := S)
      (show s.left + 2 ≤ fuel by omega) hassign
    obtain ⟨hgot, hback, hle1, hlt1⟩ := nextToken_left s1
    unfold Ends procAssignExpr
    simp only [hrun, Option.bind_eq_bind, Option.bind_some]
    split
    next hassign =>
      have hlt1 := hlt1 (by simp [hassign])
      obtain ⟨node, s2, hrun2, hle2, hreplay2, -⟩ := ih (s := s1.nextToken.2) (by omega)
      simp only [hrun2, Option.bind_some]
      apply returned_ends
      · rw [left_makeSysNode]
        omega
      · simpa using hreplay2
    next =>
      refine ⟨or, _, rfl, by omega, rfl, fun ht => ?_⟩
      have := hlt ht
      omega

theorem declareId_left (type : FinshType) (s : FinshParser) : (declareId type s).2.left ≤ s.left := by
  have hmatch := matchToken_left (s := s) (p := isIdentifier)
  unfold declareId procIdentifier
  simp only
  split
  · exact hmatch
  · exact hmatch

/-- An initialiser leaves the token behind it, or one that is no comma. -/
theorem procInitialiser_ends (id : List UInt8) (nodes : List FinshNode) (hgot : Got token s) (hfuel : s.left + 3 ≤ fuel) :
    ∃ t ns s', procInitialiser S fuel id token nodes s = some ((t, ns), s') ∧
      s'.replayToken.left ≤ s.replayToken.left ∧ s'.left ≤ s.replayToken.left ∧ (t = .comma → Got t s') := by
  have hle : s.left ≤ s.replayToken.left := by
    unfold FinshParser.left replayToken
    simp only [hgot.taken, Bool.false_eq_true, false_and, if_false]
    omega
  unfold procInitialiser
  by_cases hassign : token = .assign
  · obtain ⟨assign, s1, hrun, hle1, hreplay, -⟩ := procAssignExpr_ends (S := S) hfuel
    simp only [if_pos hassign, hrun, Option.bind_eq_bind, Option.bind_some]
    split
    · refine ⟨_, _, s1, rfl, ?_, by omega, ?_⟩
      · rw [replayToken_of_replay hreplay]
        omega
      · rw [hassign]
        simp
    · have hnode : ∀ x : FinshNode × FinshParser, x.2.left = s1.left → x.2.nextToken.2.replayToken.left ≤ s1.left ∧
          x.2.nextToken.2.left ≤ s1.left ∧ Got x.2.nextToken.1 x.2.nextToken.2 := by
        intro x hx
        obtain ⟨hgot', hback', hle', -⟩ := nextToken_left x.2
        exact ⟨by omega, by omega, hgot'⟩
      obtain ⟨hback', hle', hgot'⟩ := hnode ((s1.nodeNewId S id).2.makeSysNode .assign (s1.nodeNewId S id).1 [assign])
        (by simp)
      exact ⟨_, _, _, rfl, by omega, by omega, fun _ => hgot'⟩
  · rw [if_neg hassign]
    exact ⟨token, nodes, s, rfl, Nat.le_refl _, hle, fun _ => hgot⟩

theorem declaratorLoop_ends {turns : Nat} (type : FinshType) (nodes : List FinshNode) (hgot : token = .comma → Got token s)
    (hturns : s.replayToken.left < turns) (hfuel : s.replayToken.left + 3 ≤ fuel) :
    ∃ t ns s', declaratorLoop S fuel type turns token nodes s = some ((t, ns), s') ∧
      s'.replayToken.left ≤ s.replayToken.left ∧ s'.left ≤ max s.left s.replayToken.left := by
  induction turns generalizing token nodes s with
  | zero => omega
  | succ turns ih =>
    unfold declaratorLoop
    by_cases hcomma : token = .comma
    · have hleft := (hgot hcomma).left_replay (by simp [hcomma])
      have hid := declareId_left type s
      obtain ⟨hgot', hback, hle, -⟩ := nextToken_left (declareId type s).2
      obtain ⟨t, ns, s1, hrun, hback1, hle1, hgot1⟩ := procInitialiser_ends (S := S)
        (declareId type s).1 nodes hgot' (show (declareId type s).2.nextToken.2.left + 3 ≤ fuel by omega)
      obtain ⟨t', ns', s2, hrun', hback2, hle2⟩ := ih ns hgot1 (by omega) (by omega)
      simp only [if_pos hcomma, hrun, Option.bind_eq_bind, Option.bind_some]
      exact ⟨t', ns', s2, hrun', by omega, by omega⟩
    · rw [if_neg hcomma]
      exact ⟨token, nodes, s, rfl, Nat.le_refl _, Nat.le_max_left _ _⟩

/-- A declaration that begins with a type has used up its first token. -/
theorem procVariableDecl_ends (hfuel : s.left + 3 ≤ fuel) (hdecl : isDeclaration s.nextToken.1 = true) :
    ∃ ns s', procVariableDecl S fuel s = some (ns, s') ∧ s'.left < s.left := by
  have htype := (procType_left s).2 hdecl
  have hid := declareId_left (procType s).1 (procType s).2
  obtain ⟨hgot, hback, hle, -⟩ := nextToken_left (declareId (procType s).1 (procType s).2).2
  unfold procVariableDecl
  simp only
  split
  · obtain ⟨t, ns, s1, hrun, hback1, hle1, hgot1⟩ := procInitialiser_ends (S := S)
      (declareId (procType s).1 (procType s).2).1 [] hgot
      (show (declareId (procType s).1 (procType s).2).2.nextToken.2.left + 3 ≤ fuel by omega)
    obtain ⟨t', ns', s2, hrun', hback2, hle2⟩ := declaratorLoop_ends (S := S) (procType s).1 ns hgot1
      (show s1.replayToken.left < fuel by omega) (show s1.replayToken.left + 3 ≤ fuel by omega)
    simp only [hrun, hrun', Option.bind_eq_bind, Option.bind_some]
    have hcheck := checkToken_left (s := s2) (p := fun t => decide (t = .semicolon))
      (n := max s1.left s1.replayToken.left) t' (by omega) hle2
    exact ⟨ns', _, rfl, by omega⟩
  · split
    · exact ⟨[], _, rfl, by omega⟩
    · refine ⟨[], _, rfl, ?_⟩
      rw [left_errorSet]
      omega

theorem procExprStatement_ends (hfuel : s.left + 3 ≤ fuel) (ht : s.nextToken.1 ≠ .eof) :
    ∃ r s', procExprStatement S fuel s = some (r, s') ∧ s'.left < s.left := by
  obtain ⟨hgot, hback, hle, hlt⟩ := nextToken_left s
  have hlt := hlt ht
  unfold procExprStatement
  simp only
  split
  · exact ⟨_, _, rfl, hlt⟩
  · obtain ⟨r, s1, hrun, hle1, -, hlt1⟩ := procAssignExpr_ends (S := S)
      (show s.nextToken.2.replayToken.left + 3 ≤ fuel by omega)
    have hlt1 := hlt1 (by rw [hgot.next]; exact ht)
    have hmatch := matchToken_left (s := s1) (p := fun t => decide (t = .semicolon))
    simp only [hrun, Option.bind_eq_bind, Option.bind_some]
    exact ⟨r, _, rfl, by omega⟩

theorem parserTurn_ends (root : FinshRoot) (hgot : Got token s) (ht : token ≠ .eof)
    (hfuel : s.replayToken.left + 3 ≤ fuel) :
    ∃ r s', parserTurn S fuel token root s = some (r, s') ∧ s'.left < s.replayToken.left := by
  have hnext := hgot.next
  unfold parserTurn
  split
  next hdecl =>
    obtain ⟨ns, s1, hrun, hlt⟩ := procVariableDecl_ends (S := S) hfuel (by rw [hnext]; exact hdecl)
    simp only [hrun, Option.bind_eq_bind, Option.bind_some]
    exact ⟨_, s1, rfl, hlt⟩
  next =>
    obtain ⟨node, s1, hrun, hlt⟩ := procExprStatement_ends (S := S) hfuel (by rw [hnext]; exact ht)
    obtain ⟨-, -, hle, -⟩ := nextToken_left s1
    simp only [hrun, Option.bind_eq_bind, Option.bind_some]
    refine ⟨_, _, rfl, ?_⟩
    split
    · omega
    · exact hlt

theorem parserLoop_ends {turns : Nat} {root : FinshRoot} (hgot : Got token s)
    (hturns : s.replayToken.left < turns) (hfuel : s.replayToken.left + 3 ≤ fuel) :
    ∃ r s', parserLoop S fuel turns token root s = some (r, s') := by
  induction turns generalizing token root s with
  | zero => omega
  | succ turns ih =>
    unfold parserLoop
    split
    next => exact ⟨root, s, rfl⟩
    next hgo =>
      obtain ⟨root', s1, hrun, hlt⟩ := parserTurn_ends (S := S) root hgot (fun he => hgo (.inl he)) hfuel
      simp only [hrun, Option.bind_eq_bind, Option.bind_some]
      split
      · exact ⟨root', s1, rfl⟩
      · obtain ⟨hgot', hback, -, -⟩ := nextToken_left s1
        exact ih hgot' (by omega) (by omega)

end

/-- The parser returns on every list of tokens. -/
theorem finshParserRun_ends (S : FinshSymbols) (vars : FinshVars) (line : List FinshToken) :
    ∃ root s, finshParserRun S vars line = some (root, s) := by
  obtain ⟨hgot, hback, -, -⟩ := nextToken_left (finshParserInit vars line)
  have hleft : (finshParserInit vars line).left = line.length := rfl
  have hturns : (finshParserInit vars line).nextToken.2.replayToken.left < line.length + 4 := by omega
  have hfuel : (finshParserInit vars line).nextToken.2.replayToken.left + 3 ≤ line.length + 4 := by omega
  unfold finshParserRun
  exact parserLoop_ends hgot hturns hfuel

end RTThread
