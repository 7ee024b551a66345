import RTThread.FinshVmModel

namespace RTThread

/-- The slots below the stack pointer that an operation reads, and those it leaves in their place. -/
def FinshOp.takes : FinshOp → Nat
  | .binary _ _ | .st _ => 2
  | .bitwise _ | .ldValueStack _ | .pop => 1
  | .syscall parameters => parameters + 1
  | _ => 0

def FinshOp.leaves : FinshOp → Nat
  | .pop => 0
  | _ => 1

/-- The byte behind the opcode of a call holds the number of its parameters. -/
def FinshOp.Encodable : FinshOp → Prop
  | .syscall parameters => parameters < 256
  | _ => True

def FinshOp.function : FinshOp → FinshVmOp
  | .binary op w => .binary op w
  | .bitwise w => .bitwise w
  | .ldByte _ => .ld .byte
  | .ldWord _ => .ld .word
  | .ldDword _ => .ld .dword
  | .ldValue w _ => .ldValue w
  | .st w => .st w
  | .pop => .pop
  | .syscall _ => .call
  | .ldValueStack w => .ldValueStack w

def FinshVmOp.takes : FinshVmOp → Nat → Nat
  | .binary _ _, _ | .st _, _ => 2
  | .bitwise _, _ | .ldValueStack _, _ | .pop, _ => 1
  | .call, parameters => parameters + 1
  | .noOp, _ | .ld _, _ | .ldValue _, _ => 0

namespace FinshVm

/-- The operands of the operation at the program counter. -/
def operands (text : List UInt8) (s : FinshVm) : Option Nat := do
  let byte ← text[s.pc]?
  let op ← opTable[byte.toNat]?
  if op = .call then
    let parameters ← text[s.pc + 1]?
    some (op.takes parameters.toNat)
  else some (op.takes 0)

end FinshVm

/-- The depth of the stack behind operations, if none of them misses an operand. -/
def opsDepth : List FinshOp → Nat → Option Nat
  | [], d => some d
  | op :: ops, d => if op.takes ≤ d then opsDepth ops (d - op.takes + op.leaves) else none

section
variable {M : FinshMachine} {text rest : List UInt8} {s s' a b : FinshVm} {ops ops' : List FinshOp}
  {d e : Nat}

theorem opsDepth_append : opsDepth (ops ++ ops') d = (opsDepth ops d).bind (opsDepth ops') := by
  induction ops generalizing d with
  | nil => rfl
  | cons op ops ih =>
    simp only [List.cons_append, opsDepth]
    split
    · exact ih
    · rfl

theorem FinshOp.bytes_function (op : FinshOp) :
    ∃ byte bytes, op.bytes = byte :: bytes ∧ opTable[byte.toNat]? = some op.function := by
  cases op with
  | binary op w => exact ⟨_, [], rfl, by cases op <;> cases w <;> rfl⟩
  | bitwise w => exact ⟨_, [], rfl, by cases w <;> rfl⟩
  | ldByte v => exact ⟨_, _, rfl, rfl⟩
  | ldWord v => exact ⟨_, _, rfl, rfl⟩
  | ldDword v => exact ⟨_, _, rfl, rfl⟩
  | ldValue w addr => exact ⟨_, _, rfl, by cases w <;> rfl⟩
  | st w => exact ⟨_, [], rfl, by cases w <;> rfl⟩
  | pop => exact ⟨_, [], rfl, rfl⟩
  | syscall parameters => exact ⟨_, _, rfl, rfl⟩
  | ldValueStack w => exact ⟨_, [], rfl, by cases w <;> rfl⟩

theorem FinshVm.turn_eq {byte : UInt8} {bytes : List UInt8} {op : FinshVmOp}
    (htext : text.drop s.pc = byte :: bytes) (hop : opTable[byte.toNat]? = some op) :
    s.turn M text = FinshVm.run M text op { s with pc := s.pc + 1 } := by
  have hbyte : text[s.pc]? = some byte := by rw [← List.head?_drop, htext, List.head?_cons]
  unfold FinshVm.turn
  rw [hbyte]
  show (opTable[byte.toNat]?).bind _ = _
  rw [hop]
  rfl

theorem FinshVm.operands_eq {byte : UInt8} {bytes : List UInt8} {op : FinshVmOp}
    (htext : text.drop s.pc = byte :: bytes) (hop : opTable[byte.toNat]? = some op) :
    s.operands text = if op = .call then (bytes.head?).map fun p => op.takes p.toNat
      else some (op.takes 0) := by
  have hbyte : text[s.pc]? = some byte := by rw [← List.head?_drop, htext, List.head?_cons]
  have hnext : text[s.pc + 1]? = bytes.head? := by
    rw [← List.head?_drop, ← List.tail_drop, htext, List.tail_cons]
  unfold FinshVm.operands
  rw [hbyte, hnext]
  show (opTable[byte.toNat]?).bind _ = _
  rw [hop]
  show (if op = .call then _ else _) = _
  split
  · cases bytes.head? with
    | none => rfl
    | some p => rfl
  · rfl

theorem takeNat_append {n : Nat} {bytes : List UInt8} (h : bytes.length = n) :
    takeNat n (bytes ++ rest) = some (leNat bytes, rest) := by
  unfold takeNat
  rw [if_pos (by rw [List.length_append]; omega), List.take_left' h, List.drop_left' h]

/-- A load from the text, and one from an address in it. -/
theorem FinshVm.run_ld {w : FinshWidth} {bytes : List UInt8} (htext : text.drop s.pc = bytes ++ rest)
    (hsize : bytes.length = w.size) :
    ∃ s', FinshVm.run M text (.ld w) s = some s' ∧ s'.pc = s.pc + w.size ∧ s'.sp = s.sp + 1 := by
  refine ⟨{ s.put w s.sp (.ofNat 32 (leNat bytes)) with sp := s.sp + 1, pc := s.pc + w.size }, ?_, rfl,
    rfl⟩
  unfold FinshVm.run
  simp only [htext, takeNat_append hsize]
  rfl

theorem FinshVm.run_ldValue {w : FinshWidth} {bytes : List UInt8}
    (htext : text.drop s.pc = bytes ++ rest) (hsize : bytes.length = 4) :
    ∃ s', FinshVm.run M text (.ldValue w) s = some s' ∧ s'.pc = s.pc + 4 ∧ s'.sp = s.sp + 1 := by
  refine ⟨{ s.put w s.sp (w.load s.mem (.ofNat 32 (leNat bytes))) with
    sp := s.sp + 1, pc := s.pc + 4 }, ?_, rfl, rfl⟩
  unfold FinshVm.run
  simp only [htext, takeNat_append hsize]
  rfl

/-- An operation of the compiler does one turn, whatever its operands are. -/
theorem FinshVm.turn_op (op : FinshOp) (hop : op.Encodable) (htext : text.drop s.pc = op.bytes ++ rest) :
    ∃ s', s.turn M text = some s' ∧ s'.pc = s.pc + op.bytes.length ∧
      s'.sp = s.sp - op.takes + op.leaves ∧ s.operands text = some op.takes := by
  obtain ⟨byte, bytes, hbytes, htable⟩ := op.bytes_function
  rw [hbytes, List.cons_append] at htext
  have hrest : text.drop (s.pc + 1) = bytes ++ rest := by
    rw [← List.tail_drop, htext, List.tail_cons]
  rw [FinshVm.turn_eq htext htable, FinshVm.operands_eq htext htable]
  cases op with
  | binary op w =>
    cases hbytes
    refine ⟨_, rfl, rfl, ?_, rfl⟩
    show s.sp - 1 = s.sp - 2 + 1
    omega
  | bitwise w =>
    cases hbytes
    refine ⟨_, rfl, rfl, ?_, rfl⟩
    show s.sp = s.sp - 1 + 1
    omega
  | st w =>
    cases hbytes
    refine ⟨_, rfl, rfl, ?_, rfl⟩
    show s.sp - 1 = s.sp - 2 + 1
    omega
  | ldValueStack w =>
    cases hbytes
    refine ⟨_, rfl, rfl, ?_, rfl⟩
    show s.sp = s.sp - 1 + 1
    omega
  | pop =>
    cases hbytes
    refine ⟨_, rfl, rfl, ?_, rfl⟩
    show s.sp - 1 = s.sp - 1 + 0
    omega
  | ldByte v =>
    cases hbytes
    obtain ⟨s', hturn, hpc, hsp⟩ :=
      FinshVm.run_ld (M := M) (s := { s with pc := s.pc + 1 }) (w := .byte) hrest rfl
    refine ⟨s', hturn, hpc.trans (Nat.add_assoc _ _ _), ?_, rfl⟩
    show s'.sp = s.sp - 0 + 1
    rw [hsp, sub_zero]
  | ldWord v =>
    cases hbytes
    obtain ⟨s', hturn, hpc, hsp⟩ :=
      FinshVm.run_ld (M := M) (s := { s with pc := s.pc + 1 }) (w := .word) hrest rfl
    refine ⟨s', hturn, hpc.trans (Nat.add_assoc _ _ _), ?_, rfl⟩
    show s'.sp = s.sp - 0 + 1
    rw [hsp, sub_zero]
  | ldDword v =>
    cases hbytes
    obtain ⟨s', hturn, hpc, hsp⟩ :=
      FinshVm.run_ld (M := M) (s := { s with pc := s.pc + 1 }) (w := .dword) hrest rfl
    refine ⟨s', hturn, hpc.trans (Nat.add_assoc _ _ _), ?_, rfl⟩
    show s'.sp = s.sp - 0 + 1
    rw [hsp, sub_zero]
  | ldValue w addr =>
    cases hbytes
    obtain ⟨s', hturn, hpc, hsp⟩ :=
      FinshVm.run_ldValue (M := M) (s := { s with pc := s.pc + 1 }) (w := w) hrest rfl
    refine ⟨s', hturn, hpc.trans (Nat.add_assoc _ _ _), ?_, rfl⟩
    show s'.sp = s.sp - 0 + 1
    rw [hsp, sub_zero]
  | syscall parameters =>
    cases hbytes
    have hbyte : text[s.pc + 1]? = some (UInt8.ofNat parameters) := by
      rw [← List.head?_drop, hrest]
      rfl
    have hcount : (UInt8.ofNat parameters).toNat = parameters := by
      rw [UInt8.toNat_ofNat']
      exact Nat.mod_eq_of_lt hop
    refine ⟨FinshVm.call M (UInt8.ofNat parameters).toNat { s with pc := s.pc + 1 + 1 }, ?_, rfl, ?_, ?_⟩
    · unfold FinshVm.run
      simp only [FinshOp.function, hbyte]
      rfl
    · show s.sp - 1 - ((UInt8.ofNat parameters).toNat : Int) + 1 = s.sp - (parameters + 1 : Nat) + 1
      rw [hcount]
      omega
    · show some ((UInt8.ofNat parameters).toNat + 1) = some (parameters + 1)
      rw [hcount]

/-- Behind the code the text is zero, and the loop goes on to its end. -/
theorem FinshVm.turn_zero (htext : text.drop s.pc = 0 :: rest) :
    s.turn M text = some { s with pc := s.pc + 1 } ∧ s.operands text = some 0 :=
  ⟨FinshVm.turn_eq htext rfl, FinshVm.operands_eq htext rfl⟩

theorem FinshVm.run_pc {op : FinshVmOp} (hpc : s.pc ≤ text.length)
    (h : FinshVm.run M text op s = some s') : s.pc ≤ s'.pc ∧ s'.pc ≤ text.length := by
  have hskip : ∀ {n x : Nat} {after : List UInt8}, takeNat n (text.drop s.pc) = some (x, after) →
      s.pc + n ≤ text.length := by
    intro n x after h
    unfold takeNat at h
    split at h
    next hn =>
      rw [List.length_drop] at hn
      omega
    next => cases h
  cases op with
  | ld w =>
    obtain ⟨⟨v, after⟩, hv, h⟩ := Option.bind_eq_some_iff.mp h
    obtain rfl := Option.some.inj h
    exact ⟨Nat.le_add_right _ _, hskip hv⟩
  | ldValue w =>
    obtain ⟨⟨addr, after⟩, haddr, h⟩ := Option.bind_eq_some_iff.mp h
    obtain rfl := Option.some.inj h
    exact ⟨Nat.le_add_right _ _, hskip haddr⟩
  | call =>
    obtain ⟨parameters, hp, h⟩ := Option.bind_eq_some_iff.mp h
    obtain rfl := Option.some.inj h
    exact ⟨Nat.le_add_right _ _, (List.getElem?_eq_some_iff.mp hp).1⟩
  | _ =>
    obtain rfl := Option.some.inj h
    exact ⟨Nat.le_refl _, hpc⟩

/-- Every turn moves the program counter on, and none past the end of the text. -/
theorem FinshVm.turn_pc (h : s.turn M text = some s') : s.pc < s'.pc ∧ s'.pc ≤ text.length := by
  obtain ⟨byte, hbyte, h⟩ := Option.bind_eq_some_iff.mp h
  obtain ⟨op, -, h⟩ := Option.bind_eq_some_iff.mp h
  exact FinshVm.run_pc (s := { s with pc := s.pc + 1 }) (List.getElem?_eq_some_iff.mp hbyte).1 h

theorem VmReach.pc_lt (h : VmReach M text a b) : a = b ∨ a.pc < b.pc ∧ b.pc ≤ text.length := by
  induction h with
  | refl => exact .inl rfl
  | tail _ hturn ih =>
    obtain ⟨hlt, hle⟩ := FinshVm.turn_pc hturn.2
    obtain rfl | ⟨hbefore, -⟩ := ih
    · exact .inr ⟨hlt, hle⟩
    · exact .inr ⟨hbefore.trans hlt, hle⟩

/-- A run is at most once at a place of the text. -/
theorem VmReach.unique (hb : VmReach M text s a) (hb' : VmReach M text s b) (hpc : a.pc = b.pc) :
    a = b := by
  have hdet : Relator.RightUnique (VmTurn M text) := fun s1 s2 s3 h2 h3 =>
    Option.some.inj (h2.2.symm.trans h3.2)
  obtain h | h := Relation.ReflTransGen.total_of_right_unique hdet hb hb'
  · obtain heq | ⟨hlt, -⟩ := VmReach.pc_lt h
    · exact heq
    · omega
  · obtain heq | ⟨hlt, -⟩ := VmReach.pc_lt h
    · exact heq.symm
    · omega

/-- The code of operations is run to its end if none of them misses an operand, and up to the first
that does otherwise. -/
theorem VmReach.code (hlen : text.length = finshTextMax) (hop : ∀ op ∈ ops, op.Encodable)
    (htext : text.drop a.pc = ops.flatMap FinshOp.bytes ++ rest) (hsp : a.sp = d) :
    (∃ e b, opsDepth ops d = some e ∧ VmReach M text a b ∧
      b.pc = a.pc + (ops.flatMap FinshOp.bytes).length ∧ b.sp = e) ∨
    opsDepth ops d = none ∧ ∃ s n, VmReach M text a s ∧ s.pc < finshTextMax ∧
      s.operands text = some n ∧ s.sp < n := by
  induction ops generalizing a d with
  | nil => exact .inl ⟨d, a, rfl, .refl, rfl, hsp⟩
  | cons op ops ih =>
    rw [List.flatMap_cons, List.append_assoc] at htext
    obtain ⟨s, hturn, hpc, hspnext, hoperands⟩ :=
      FinshVm.turn_op (M := M) op (hop op List.mem_cons_self) htext
    have hinside : a.pc < finshTextMax := by
      have hle := FinshVm.turn_pc hturn
      omega
    have hdrop : text.drop s.pc = ops.flatMap FinshOp.bytes ++ rest := by
      rw [hpc, ← List.drop_drop, htext, List.drop_left]
    simp only [opsDepth]
    by_cases htakes : op.takes ≤ d
    · rw [if_pos htakes]
      have hnext : s.sp = (d - op.takes + op.leaves : Nat) := by omega
      obtain ⟨e, b, hdepth, hreach, hbpc, hbsp⟩ | ⟨hdepth, s1, n, hreach, hmisses⟩ :=
        ih (fun o ho => hop o (List.mem_cons_of_mem op ho)) hdrop hnext
      · refine .inl ⟨e, b, hdepth, hreach.head ⟨hinside, hturn⟩, ?_, hbsp⟩
        rw [hbpc, hpc, List.flatMap_cons, List.length_append]
        omega
      · exact .inr ⟨hdepth, s1, n, hreach.head ⟨hinside, hturn⟩, hmisses⟩
    · rw [if_neg htakes]
      exact .inr ⟨rfl, a, op.takes, .refl, hinside, hoperands, by omega⟩

/-- An operation that makes the stack deeper is at least two bytes long. -/
theorem opsDepth_le (h : opsDepth ops d = some e) :
    2 * e ≤ 2 * d + (ops.flatMap FinshOp.bytes).length := by
  induction ops generalizing d with
  | nil =>
    obtain rfl := Option.some.inj h
    omega
  | cons op ops ih =>
    simp only [opsDepth] at h
    split at h
    next htakes =>
      have hrest := ih h
      have hop : 2 * op.leaves ≤ 2 * op.takes + op.bytes.length := by
        cases op with
        | ldByte v => exact Nat.le_refl 2
        | ldWord v => exact Nat.le_succ 2
        | ldDword v => exact Nat.le_add_right 2 3
        | ldValue w addr => exact Nat.le_add_right 2 3
        | pop => exact Nat.zero_le _
        | syscall parameters => exact Nat.le_add_left _ _
        | binary op w => exact Nat.le_trans (by decide : 2 ≤ 4) (Nat.le_add_right 4 _)
        | bitwise w => exact Nat.le_add_right 2 _
        | st w => exact Nat.le_trans (by decide : 2 ≤ 4) (Nat.le_add_right 4 _)
        | ldValueStack w => exact Nat.le_add_right 2 _
      rw [List.flatMap_cons, List.length_append]
      omega
    next => cases h

/-- Where the run of a code that misses no operand is: in front of one of its operations, or among
the zeros behind it. -/
inductive VmAt (ops : List FinshOp) (s : FinshVm) : Prop where
  | code (before after : List FinshOp) (d : Nat) (hops : ops = before ++ after)
    (hpc : s.pc = (before.flatMap FinshOp.bytes).length) (hdepth : opsDepth before 0 = some d)
    (hsp : s.sp = d)
  | behind (k d : Nat) (hpc : s.pc = (ops.flatMap FinshOp.bytes).length + k)
    (hdepth : opsDepth ops 0 = some d) (hsp : s.sp = d)

/-- One turn of such a run. -/
theorem VmAt.turn {zeros : Nat} (hop : ∀ op ∈ ops, op.Encodable)
    (htext : text = ops.flatMap FinshOp.bytes ++ List.replicate zeros 0)
    (hdepth : opsDepth ops 0 = some e) (hs : VmAt ops s) (hpc : s.pc < text.length) :
    ∃ s' n, s.turn M text = some s' ∧ VmAt ops s' ∧ s.operands text = some n ∧ (n : Int) ≤ s.sp := by
  have hbehind : ∀ k d, s.pc = (ops.flatMap FinshOp.bytes).length + k → opsDepth ops 0 = some d →
      s.sp = d →
      ∃ s' n, s.turn M text = some s' ∧ VmAt ops s' ∧ s.operands text = some n ∧ (n : Int) ≤ s.sp := by
    intro k d hpc' hd hsp
    have hzero : text.drop s.pc = 0 :: List.replicate (zeros - k - 1) 0 := by
      rw [htext, List.length_append, List.length_replicate] at hpc
      obtain ⟨left, hleft⟩ : ∃ left, zeros - k = left + 1 := ⟨zeros - k - 1, by omega⟩
      rw [htext, hpc', List.drop_length_add_append, List.drop_replicate, hleft]
      rfl
    obtain ⟨hturn, hoperands⟩ := FinshVm.turn_zero (M := M) hzero
    refine ⟨_, 0, hturn, .behind (k + 1) d ?_ hd hsp, hoperands, ?_⟩
    · show s.pc + 1 = _
      omega
    · rw [hsp]
      exact Int.natCast_nonneg d
  cases hs with
  | behind k d hpc' hd hsp => exact hbehind k d hpc' hd hsp
  | code before after d hops hpc' hd hsp =>
    cases after with
    | nil =>
      rw [List.append_nil] at hops
      subst hops
      exact hbehind 0 d hpc' hd hsp
    | cons op after =>
      have htakes : op.takes ≤ d := by
        rw [hops, opsDepth_append, hd] at hdepth
        by_contra hmisses
        simp only [Option.bind_some, opsDepth, if_neg hmisses] at hdepth
        cases hdepth
      have hdrop : text.drop s.pc =
          op.bytes ++ (after.flatMap FinshOp.bytes ++ List.replicate zeros 0) := by
        rw [htext, hops, hpc', List.flatMap_append, List.append_assoc, List.drop_left,
          List.flatMap_cons, List.append_assoc]
      obtain ⟨s', hturn, hpcnext, hspnext, hoperands⟩ :=
        FinshVm.turn_op (M := M) op (hop op (by rw [hops]; simp)) hdrop
      refine ⟨s', op.takes, hturn, .code (before ++ [op]) after (d - op.takes + op.leaves) ?_ ?_ ?_ ?_,
        hoperands, by omega⟩
      · rw [hops, List.append_assoc]
        rfl
      · rw [hpcnext, hpc', List.flatMap_append, List.length_append, List.flatMap_singleton]
      · rw [opsDepth_append, hd]
        simp only [Option.bind_some, opsDepth, if_pos htakes]
      · omega

theorem VmAt.within (hs : VmAt ops s) (hpc : s.pc ≤ finshTextMax) : 0 ≤ s.sp ∧ s.sp ≤ finshStackMax := by
  have hhalf : finshTextMax = 2 * finshStackMax := rfl
  cases hs with
  | code before after d hops hpc' hd hsp =>
    have hle := opsDepth_le hd
    omega
  | behind k d hpc' hd hsp =>
    have hle := opsDepth_le hd
    omega

/-- A code that misses no operand runs to the end of the text within the stack. -/
theorem VmReach.balanced {zeros : Nat} (hop : ∀ op ∈ ops, op.Encodable)
    (htext : text = ops.flatMap FinshOp.bytes ++ List.replicate zeros 0)
    (hlen : text.length = finshTextMax) (hdepth : opsDepth ops 0 = some e) (hstart : a.AtStart)
    (hs : VmReach M text a s) :
    (0 ≤ s.sp ∧ s.sp ≤ finshStackMax) ∧
      (s.pc < finshTextMax → ∃ n, s.operands text = some n ∧ (n : Int) ≤ s.sp) := by
  have hat : VmAt ops s := by
    induction hs with
    | refl => exact .code [] ops 0 rfl hstart.1 rfl hstart.2
    | tail _ hturn ih =>
      obtain ⟨s', -, hnext, hat, -⟩ := VmAt.turn (M := M) hop htext hdepth ih (hlen ▸ hturn.1)
      obtain rfl := Option.some.inj (hnext.symm.trans hturn.2)
      exact hat
  have hpc : s.pc ≤ finshTextMax := by
    obtain rfl | ⟨-, hle⟩ := VmReach.pc_lt hs
    · rw [hstart.1]
      exact Nat.zero_le _
    · exact hlen ▸ hle
  refine ⟨hat.within hpc, fun hinside => ?_⟩
  obtain ⟨-, n, -, -, hoperands, hfound⟩ := VmAt.turn (M := M) hop htext hdepth hat (hlen ▸ hinside)
  exact ⟨n, hoperands, hfound⟩

end

end RTThread
