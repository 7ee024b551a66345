import RTThread.FinshMeanings

namespace RTThread

variable {M : FinshMachine} {text rest : List UInt8} {a b c s : FinshVm} {ops ops' : List FinshOp}
  {w : FinshWidth} {vs vs' xs : List (FinshValue M)} {x y v : FinshValue M} {m m' : Memory}

namespace FinshVm

/-- The virtual machine behind an operation of the compiler. -/
def exec (M : FinshMachine) (op : FinshOp) (s : FinshVm) : FinshVm :=
  let s := { s with pc := s.pc + op.bytes.length }
  let push (w : FinshWidth) (v : FinshSlot) := { s.put w s.sp v with sp := s.sp + 1 }
  match op with
  | .binary op w =>
    let x := M.field w (s.stack (s.sp - 2))
    let y := M.field w (s.stack (s.sp - 1))
    { s.put w (s.sp - 2) (op.apply x y) with sp := s.sp - 1 }
  | .bitwise w => s.put w (s.sp - 1) (~~~ M.field w (s.stack (s.sp - 1)))
  | .ldByte v => push .byte (.ofNat 32 (v % 256))
  | .ldWord v => push .word (.ofNat 32 (v % 65536))
  | .ldDword v => push .dword (.ofNat 32 v)
  | .ldValue w addr => push w (w.load s.mem (.ofNat 32 addr))
  | .st w =>
    { s with mem := w.store s.mem (s.stack (s.sp - 2)) (s.stack (s.sp - 1)), sp := s.sp - 1 }
  | .pop => { s with sp := s.sp - 1 }
  | .syscall parameters => call M parameters s
  | .ldValueStack w => s.put w (s.sp - 1) (w.load s.mem (s.stack (s.sp - 1)))

def execAll (M : FinshMachine) (ops : List FinshOp) (s : FinshVm) : FinshVm :=
  ops.foldl (fun s op => s.exec M op) s

theorem execAll_append : execAll M (ops ++ ops') s = execAll M ops' (execAll M ops s) :=
  List.foldl_append

theorem exec_pc (op : FinshOp) : (s.exec M op).pc = s.pc + op.bytes.length := by
  cases op with
  | _ => rfl

theorem leNat_set16 (v : Nat) : leNat (finshSet16 v) = v % 65536 := by
  simp only [finshSet16, leNat, UInt8.toNat_ofNat']
  omega

theorem leNat_set32 (v : Nat) : leNat (finshSet32 v) = v % 4294967296 := by
  simp only [finshSet32, finshSet16, List.cons_append, List.nil_append, leNat, UInt8.toNat_ofNat']
  omega

theorem run_ld_eq {bytes : List UInt8} {n : Nat} (htext : text.drop s.pc = bytes ++ rest)
    (hsize : bytes.length = w.size) (hvalue : leNat bytes = n) :
    run M text (.ld w) s =
      some { s.put w s.sp (.ofNat 32 n) with sp := s.sp + 1, pc := s.pc + w.size } := by
  unfold run
  simp only [htext, takeNat_append hsize, hvalue]
  rfl

theorem ofNat_mod (v : Nat) : BitVec.ofNat 32 (v % 4294967296) = BitVec.ofNat 32 v := by
  apply BitVec.eq_of_toNat_eq
  rw [BitVec.toNat_ofNat, BitVec.toNat_ofNat]
  omega

/-- The text of an operation does one turn, which is the operation. -/
theorem turn_exec (op : FinshOp) (hop : op.Encodable) (htext : text.drop s.pc = op.bytes ++ rest) :
    s.turn M text = some (s.exec M op) := by
  obtain ⟨byte, bytes, hbytes, htable⟩ := op.bytes_function
  rw [hbytes, List.cons_append] at htext
  have hrest : text.drop (s.pc + 1) = bytes ++ rest := by
    rw [← List.tail_drop, htext, List.tail_cons]
  rw [turn_eq htext htable]
  cases op with
  | ldByte v =>
    cases hbytes
    have hvalue : leNat [UInt8.ofNat v] = v % 256 := by
      show (UInt8.ofNat v).toNat + 256 * 0 = v % 256
      rw [UInt8.toNat_ofNat', Nat.mul_zero, Nat.add_zero]
    exact run_ld_eq (s := { s with pc := s.pc + 1 }) hrest rfl hvalue
  | ldWord v =>
    cases hbytes
    exact run_ld_eq (s := { s with pc := s.pc + 1 }) hrest rfl (leNat_set16 v)
  | ldDword v =>
    cases hbytes
    have hld := run_ld_eq (M := M) (s := { s with pc := s.pc + 1 }) (w := .dword) hrest rfl
      (leNat_set32 v)
    rw [ofNat_mod] at hld
    exact hld
  | ldValue w addr =>
    cases hbytes
    have hsize : (finshSet32 addr).length = 4 := rfl
    show run M text (.ldValue w) { s with pc := s.pc + 1 } = _
    unfold run
    simp only [hrest, takeNat_append hsize, leNat_set32, Option.bind_eq_bind, Option.bind_some, ofNat_mod]
    rfl
  | syscall parameters =>
    cases hbytes
    have hbyte : text[s.pc + 1]? = some (UInt8.ofNat parameters) := by
      rw [← List.head?_drop, hrest]
      rfl
    have hcount : (UInt8.ofNat parameters).toNat = parameters := by
      rw [UInt8.toNat_ofNat']
      exact Nat.mod_eq_of_lt hop
    show run M text .call { s with pc := s.pc + 1 } = _
    unfold run
    simp only [hbyte]
    show some (call M (UInt8.ofNat parameters).toNat { s with pc := s.pc + 1 + 1 }) = _
    rw [hcount]
    rfl
  | _ =>
    cases hbytes
    rfl

/-- The code in front of `rest` is run to its end. -/
theorem reach_execAll (hlen : text.length = finshTextMax) (hop : ∀ op ∈ ops, op.Encodable)
    (htext : text.drop a.pc = ops.flatMap FinshOp.bytes ++ rest) :
    VmReach M text a (execAll M ops a) ∧
      (execAll M ops a).pc = a.pc + (ops.flatMap FinshOp.bytes).length := by
  induction ops generalizing a with
  | nil => exact ⟨.refl, rfl⟩
  | cons op ops ih =>
    rw [List.flatMap_cons, List.append_assoc] at htext
    have hturn := turn_exec (M := M) op (hop op List.mem_cons_self) htext
    have hinside : a.pc < finshTextMax := by
      have hle := turn_pc hturn
      omega
    have hdrop : text.drop (a.exec M op).pc = ops.flatMap FinshOp.bytes ++ rest := by
      rw [exec_pc, ← List.drop_drop, htext, List.drop_left]
    obtain ⟨hreach, hpc⟩ := ih (fun o ho => hop o (List.mem_cons_of_mem op ho)) hdrop
    refine ⟨hreach.head ⟨hinside, hturn⟩, ?_⟩
    show (execAll M ops (a.exec M op)).pc = _
    rw [hpc, exec_pc, List.flatMap_cons, List.length_append, Nat.add_assoc]

end FinshVm

theorem getElem?_concat {α : Type} {as : List α} {last u : α} {k : Nat} (h : (as ++ [last])[k]? = some u) :
    (k < as.length ∧ as[k]? = some u) ∨ (k = as.length ∧ u = last) := by
  rw [List.getElem?_append] at h
  split at h
  next hk => exact .inl ⟨hk, h⟩
  next hk =>
    obtain ⟨hlast, hu⟩ := List.getElem?_eq_some_iff.mp h
    rw [List.length_singleton] at hlast
    rw [List.getElem_singleton] at hu
    exact .inr ⟨by omega, hu.symm⟩

/-- A slot that has a value in its low bytes. -/
def FinshValue.In (v : FinshValue M) (slot : FinshSlot) : Prop := M.field v.width slot = v.value

theorem FinshValue.In.as {slot : FinshSlot} (h : v.In slot) (hw : w.index ≤ v.width.index) :
    M.field w slot = v.as w := by
  unfold FinshValue.as
  rw [← h, FinshMachine.field_field hw]

theorem FinshValue.In.dword {slot : FinshSlot} (h : v.In slot) (hw : v.width = .dword) :
    slot = v.value := by
  unfold FinshValue.In at h
  rw [hw] at h
  exact h

theorem FinshMachine.value_in {n slot : FinshSlot} (h : M.field w slot = M.field w n) :
    (M.value w n).In slot := h

/-- The virtual machine has gone on from `a` to `b`: the values are on the stack, in the slots from the
stack pointer of `a` on, and nothing below has changed. -/
structure FinshVm.Pushes (a b : FinshVm) (vs : List (FinshValue M)) (m : Memory) : Prop where
  sp : b.sp = a.sp + vs.length
  below : ∀ i < a.sp, b.stack i = a.stack i
  holds : ∀ (k : Nat) v, vs[k]? = some v → v.In (b.stack (a.sp + k))
  mem : b.mem = m

namespace FinshVm.Pushes

theorem nothing (a : FinshVm) : a.Pushes a ([] : List (FinshValue M)) a.mem where
  sp := (add_zero _).symm
  below _ _ := rfl
  holds _ _ h := by cases h
  mem := rfl

theorem append (h : a.Pushes b vs m) (h' : b.Pushes c vs' m') : a.Pushes c (vs ++ vs') m' where
  sp := by
    rw [h'.sp, h.sp, List.length_append]
    omega
  below i hi := by
    have hb : i < b.sp := by rw [h.sp]; omega
    rw [h'.below i hb, h.below i hi]
  holds k v hv := by
    by_cases hk : k < vs.length
    · rw [List.getElem?_append_left hk] at hv
      rw [h'.below _ (by rw [h.sp]; omega)]
      exact h.holds k v hv
    · rw [List.getElem?_append_right (by omega)] at hv
      have hin := h'.holds _ v hv
      rw [h.sp] at hin
      rwa [show a.sp + vs.length + ((k - vs.length : Nat) : Int) = a.sp + k by omega] at hin
  mem := h'.mem

/-- The values `xs` on top of the stack give way to one value. -/
theorem replace (h : a.Pushes b (vs ++ xs) m) (slot : FinshSlot) (hsp : c.sp = a.sp + vs.length + 1)
    (hstack : c.stack = Function.update b.stack (a.sp + vs.length) slot) (hv : v.In slot)
    (hmem : c.mem = m') : a.Pushes c (vs ++ [v]) m' where
  sp := by
    rw [hsp, List.length_append, List.length_singleton]
    omega
  below i hi := by
    rw [hstack, Function.update_of_ne (by omega)]
    exact h.below i hi
  holds k u hu := by
    rcases getElem?_concat hu with ⟨hk, hold⟩ | ⟨rfl, rfl⟩
    · rw [hstack, Function.update_of_ne (by omega)]
      exact h.holds k u (by rw [List.getElem?_append_left hk, hold])
    · rw [hstack, Function.update_self]
      exact hv
  mem := hmem

/-- The values `xs` on top of the stack are gone. -/
theorem drop (h : a.Pushes b (vs ++ xs) m) (hsp : c.sp = a.sp + vs.length) (hstack : c.stack = b.stack)
    (hmem : c.mem = m') : a.Pushes c vs m' where
  sp := hsp
  below i hi := by rw [hstack, h.below i hi]
  holds k u hu := by
    have hk : k < vs.length := (List.getElem?_eq_some_iff.mp hu).1
    rw [hstack]
    exact h.holds k u (by rw [List.getElem?_append_left hk, hu])
  mem := hmem

theorem slot (h : a.Pushes b (vs ++ x :: xs) m) : x.In (b.stack (a.sp + vs.length)) :=
  h.holds vs.length x (by rw [List.getElem?_append_right (Nat.le_refl _), Nat.sub_self]; rfl)

theorem slot_next (h : a.Pushes b (vs ++ x :: y :: xs) m) : y.In (b.stack (a.sp + vs.length + 1)) := by
  have hy := h.holds (vs.length + 1) y (by
    rw [List.getElem?_append_right (by omega), show vs.length + 1 - vs.length = 1 by omega]
    rfl)
  rwa [Nat.cast_add, ← add_assoc] at hy

/-- What is in a slot can be taken for a narrower value. -/
theorem narrow (h : a.Pushes b (vs ++ [x]) m) (hw : y.width.index ≤ x.width.index)
    (hv : x.as y.width = y.value) : a.Pushes b (vs ++ [y]) m where
  sp := by
    rw [h.sp, List.length_append, List.length_append, List.length_singleton, List.length_singleton]
  below := h.below
  holds k u hu := by
    rcases getElem?_concat hu with ⟨hk, hold⟩ | ⟨rfl, rfl⟩
    · exact h.holds k u (by rw [List.getElem?_append_left hk, hold])
    · exact (h.slot.as hw).trans hv
  mem := h.mem

theorem sp_one (h : a.Pushes b (vs ++ [x]) m) : b.sp = a.sp + vs.length + 1 := by
  rw [h.sp, List.length_append, List.length_singleton]
  omega

theorem sp_two (h : a.Pushes b (vs ++ [x, y]) m) : b.sp = a.sp + vs.length + 2 := by
  rw [h.sp, List.length_append]
  show a.sp + ((vs.length + 2 : Nat) : Int) = _
  omega

theorem binary (op : FinshBinary) (h : a.Pushes b (vs ++ [x, y]) m) (hx : w.index ≤ x.width.index)
    (hy : w.index ≤ y.width.index) :
    a.Pushes (b.exec M (.binary op w)) (vs ++ [M.value w (op.apply (x.as w) (y.as w))]) m := by
  have hsp := h.sp_two
  have hleft := h.slot.as hx
  have hright := h.slot_next.as hy
  refine h.replace (w.put (op.apply (x.as w) (y.as w)) (b.stack (a.sp + vs.length))) ?_ ?_
    (FinshMachine.value_in (FinshMachine.field_put w _ _)) h.mem
  · show b.sp - 1 = _
    omega
  · show Function.update b.stack (b.sp - 2) (w.put (op.apply (M.field w (b.stack (b.sp - 2)))
      (M.field w (b.stack (b.sp - 1)))) (b.stack (b.sp - 2))) = _
    rw [show b.sp - 2 = a.sp + vs.length by omega, show b.sp - 1 = a.sp + vs.length + 1 by omega,
      hleft, hright]

theorem bitwise (h : a.Pushes b (vs ++ [x]) m) (hx : w.index ≤ x.width.index) :
    a.Pushes (b.exec M (.bitwise w)) (vs ++ [M.value w (~~~ x.as w)]) m := by
  have hsp := h.sp_one
  refine h.replace (w.put (~~~ x.as w) (b.stack (a.sp + vs.length))) hsp ?_
    (FinshMachine.value_in (FinshMachine.field_put w _ _)) h.mem
  show Function.update b.stack (b.sp - 1) (w.put (~~~ M.field w (b.stack (b.sp - 1)))
    (b.stack (b.sp - 1))) = _
  rw [show b.sp - 1 = a.sp + vs.length by omega, h.slot.as hx]

/-- A load puts a value on top of the stack. -/
theorem load {n : FinshSlot} (h : a.Pushes b vs m) (hsp : c.sp = b.sp + 1)
    (hstack : c.stack = Function.update b.stack b.sp (w.put n (b.stack b.sp))) (hmem : c.mem = b.mem) :
    a.Pushes c (vs ++ [M.value w n]) m := by
  rw [← List.append_nil vs] at h
  have hb : b.sp = a.sp + vs.length := by rw [h.sp, List.append_nil]
  refine h.replace (w.put n (b.stack b.sp)) ?_ ?_
    (FinshMachine.value_in (FinshMachine.field_put w _ _)) (hmem.trans h.mem)
  · rw [hsp, hb]
  · rw [hstack, hb]

theorem ldByte (n : Nat) (h : a.Pushes b vs m) :
    a.Pushes (b.exec M (.ldByte n)) (vs ++ [M.value .byte (.ofNat 32 n)]) m := by
  rw [← FinshMachine.value_low (w := .byte) (ofNat_setWidth_mod (n := 8) (by decide) n)]
  exact h.load rfl rfl rfl

theorem ldWord (n : Nat) (h : a.Pushes b vs m) :
    a.Pushes (b.exec M (.ldWord n)) (vs ++ [M.value .word (.ofNat 32 n)]) m := by
  rw [← FinshMachine.value_low (w := .word) (ofNat_setWidth_mod (n := 16) (by decide) n)]
  exact h.load rfl rfl rfl

theorem ldDword (n : Nat) (h : a.Pushes b vs m) :
    a.Pushes (b.exec M (.ldDword n)) (vs ++ [M.value .dword (.ofNat 32 n)]) m :=
  h.load rfl rfl rfl

theorem ldValue (w : FinshWidth) (addr : Nat) (h : a.Pushes b vs m) :
    a.Pushes (b.exec M (.ldValue w addr)) (vs ++ [M.value w (w.load m (.ofNat 32 addr))]) m := by
  rw [← h.mem]
  exact (h.mem ▸ h : a.Pushes b vs b.mem).load rfl rfl rfl

theorem ldOne (w : FinshWidth) (h : a.Pushes b vs m) :
    a.Pushes (b.exec M (ldOne w)) (vs ++ [M.value w 1]) m := by
  cases w with
  | byte => exact h.ldByte 1
  | word => exact h.ldWord 1
  | dword => exact h.ldDword 1

theorem ldValueStack (w : FinshWidth) (h : a.Pushes b (vs ++ [x]) m) (hx : x.width = .dword) :
    a.Pushes (b.exec M (.ldValueStack w)) (vs ++ [M.value w (w.load m x.value)]) m := by
  have hsp := h.sp_one
  refine h.replace (w.put (w.load m x.value) (b.stack (a.sp + vs.length))) hsp ?_
    (FinshMachine.value_in (FinshMachine.field_put w _ _)) h.mem
  show Function.update b.stack (b.sp - 1) (w.put (w.load b.mem (b.stack (b.sp - 1)))
    (b.stack (b.sp - 1))) = _
  rw [show b.sp - 1 = a.sp + vs.length by omega, h.slot.dword hx, h.mem]

/-- A store leaves the address on the stack. -/
theorem st (w : FinshWidth) (h : a.Pushes b (vs ++ [x, y]) m) (hx : x.width = .dword)
    (hy : w.index ≤ y.width.index) :
    a.Pushes (b.exec M (.st w)) (vs ++ [x]) (w.store m x.value y.value) := by
  have hsp := h.sp_two
  have hlow : w.store m x.value (b.stack (b.sp - 1)) = w.store m x.value y.value := by
    apply FinshWidth.store_low
    rw [show b.sp - 1 = a.sp + vs.length + 1 by omega, ← h.slot_next]
    exact (FinshMachine.setWidth_field _ (FinshWidth.bits_le hy) _).symm
  have hmem : (b.exec M (.st w)).mem = w.store m x.value y.value := by
    rw [← hlow]
    show w.store b.mem (b.stack (b.sp - 2)) (b.stack (b.sp - 1)) = _
    rw [h.mem, show b.sp - 2 = a.sp + vs.length by omega, h.slot.dword hx]
  have hb : a.Pushes b ((vs ++ [x]) ++ [y]) m := by
    rw [List.append_assoc]
    exact h
  refine hb.drop ?_ rfl hmem
  show b.sp - 1 = a.sp + ((vs ++ [x]).length : Int)
  rw [List.length_append, List.length_singleton]
  omega

theorem pop (h : a.Pushes b (vs ++ [x]) m) : a.Pushes (b.exec M .pop) vs m := by
  have hsp := h.sp_one
  refine h.drop ?_ rfl h.mem
  show b.sp - 1 = _
  omega

/-- The parameters of a call are whole slots. -/
theorem parameters {args : List (FinshValue M)} (h : a.Pushes b (vs ++ x :: args) m)
    (hargs : ∀ v ∈ args, v.width = .dword) :
    (List.range args.length).map (fun (i : Nat) => b.stack (a.sp + vs.length + 1 + i)) =
      args.map FinshValue.value := by
  apply List.ext_getElem
  · rw [List.length_map, List.length_range, List.length_map]
  · intro i hi hi'
    rw [List.length_map] at hi'
    rw [List.getElem_map, List.getElem_map, List.getElem_range]
    have hin := h.holds (vs.length + 1 + i) args[i] (by
      rw [List.getElem?_append_right (by omega), show vs.length + 1 + i - vs.length = i + 1 by omega,
        List.getElem?_cons_succ, List.getElem?_eq_getElem])
    rw [show a.sp + ((vs.length + 1 + i : Nat) : Int) = a.sp + vs.length + 1 + i by omega] at hin
    exact hin.dword (hargs _ (List.getElem_mem hi'))

theorem syscall {args : List (FinshValue M)} (h : a.Pushes b (vs ++ x :: args) m)
    (hx : x.width = .dword) (hargs : ∀ v ∈ args, v.width = .dword) (hcount : args.length ≤ 16) :
    a.Pushes (b.exec M (.syscall args.length))
      (vs ++ [M.value .dword (M.call x.value (if args = [] then [0] else args.map FinshValue.value) m).1])
      (M.call x.value (if args = [] then [0] else args.map FinshValue.value) m).2 := by
  have hsp : b.sp = a.sp + vs.length + 1 + args.length := by
    rw [h.sp, List.length_append, List.length_cons]
    omega
  have hbase : b.sp - 1 - (args.length : Int) = a.sp + vs.length := by omega
  have hcall : ∀ r, r = M.call x.value (if args = [] then [0] else args.map FinshValue.value) m →
      b.exec M (.syscall args.length) = { b with
        pc := b.pc + (FinshOp.syscall args.length).bytes.length
        stack := Function.update b.stack (a.sp + vs.length) r.1
        sp := a.sp + vs.length + 1
        mem := r.2 } := by
    intro r hr
    have hanswer : (if args.length = 0 then M.call x.value [0] m
        else if args.length ≤ 16 then M.call x.value (args.map FinshValue.value) m else (0, m)) = r := by
      rw [hr, if_pos hcount]
      by_cases hnil : args = []
      · rw [if_pos hnil, hnil, if_pos List.length_nil]
      · rw [if_neg hnil, if_neg (by rwa [List.length_eq_zero_iff])]
    rw [← hanswer, ← h.parameters hargs, ← h.slot.dword hx, ← h.mem, ← hbase]
    rfl
  rw [hcall _ rfl]
  exact h.replace _ rfl rfl (FinshMachine.value_in rfl) rfl

end FinshVm.Pushes

section
variable {vars : FinshVars} {links : FinshLinks} {type : FinshNodeType} {dataType : Nat} {address : Bool}
  {head : Option FinshNodeType} {children : List (FinshValue M)}

open FinshVm

theorem idOps_means {ref : FinshId} (hb : a.Pushes b ([] : List (FinshValue M)) m)
    (h : idMeaning M vars links ref address m = some v) :
    a.Pushes (execAll M (idOps vars links ref address) b) [v] m := by
  have hload : ∀ (t : Option FinshWidth) (addr : Nat) (code : List FinshOp),
      (∀ w, t = some w → code = if address then [.ldDword addr] else [.ldValue w addr]) →
      (t.map fun w => if address then M.value .dword (.ofNat 32 addr)
        else M.value w (w.load m (.ofNat 32 addr))) = some v →
      a.Pushes (execAll M code b) [v] m := by
    intro t addr code hcode h
    obtain ⟨w, hw, rfl⟩ := Option.map_eq_some_iff.mp h
    rw [hcode w hw]
    cases address with
    | true => exact hb.ldDword addr
    | false => exact hb.ldValue w addr
  cases ref with
  | syscall func =>
    obtain rfl := Option.some.inj h
    exact hb.ldDword func
  | var i => exact hload _ _ _ (fun w hw => by unfold idOps; simp only [hw]) h
  | sysvar t addr => exact hload _ addr _ (fun w hw => by unfold idOps; simp only [hw]) h

theorem leaf_means {s : FinshCode} {child : FinshNode} (hb : a.Pushes b ([] : List (FinshValue M)) m)
    (h : leafMeaning M vars links type address m = some v)
    (hops : (compileNode vars links type dataType address child s).ops = s.ops ++ ops) :
    a.Pushes (execAll M ops b) [v] m := by
  have hvalue : ∀ {op : FinshOp} {u : FinshValue M}, a.Pushes (b.exec M op) ([] ++ [u]) m →
      some u = some v → s.ops ++ [op] = s.ops ++ ops → a.Pushes (execAll M ops b) [v] m := by
    intro op u hu h hops
    obtain rfl := List.append_cancel_left hops
    obtain rfl := Option.some.inj h
    exact hu
  cases type with
  | id ref =>
    obtain rfl := List.append_cancel_left hops
    exact idOps_means hb h
  | valueChar n => exact hvalue (hb.ldByte n) h hops
  | valueInt n | valueLong n => exact hvalue (hb.ldDword n) h hops
  | valueNull => exact hvalue (hb.ldDword 0) h hops
  | valueString text => exact hvalue (hb.ldDword (links.stringAddr text)) h hops
  | _ => cases h

theorem field_one (w : FinshWidth) : M.field w 1 = 1 := by
  cases w with
  | byte =>
    unfold FinshMachine.field
    dsimp only
    split
    · rfl
    · rfl
  | word => rfl
  | dword => rfl

/-- The new value of a variable, from its old one and 1 on the stack. -/
theorem FinshVm.Pushes.sum (op : FinshBinary) (i : Nat)
    (h : a.Pushes b (vs ++ [M.value w (w.load m (.ofNat 32 (links.valueAddr (.var i)))), M.value w 1]) m) :
    a.Pushes (b.exec M (.binary op w)) (vs ++ [(increased M links op w i m).1]) m := by
  refine (h.binary op (Nat.le_refl _) (Nat.le_refl _)).narrow (Nat.le_refl _) ?_
  show M.field w (M.field w (op.apply (M.field w (M.field w _)) (M.field w (M.field w 1)))) =
    M.field w (op.apply (M.field w _) 1)
  rw [FinshMachine.field_field (Nat.le_refl _), FinshMachine.field_field (Nat.le_refl _),
    FinshMachine.field_field (Nat.le_refl _), field_one]

/-- Behind the address of a variable its old value and 1 are added or subtracted and stored. -/
theorem stored_means (op : FinshBinary) (w : FinshWidth) {i : Nat}
    (hx : x = M.value .dword (.ofNat 32 (links.valueAddr (.var i)))) (h : a.Pushes b (vs ++ [x]) m) :
    a.Pushes (execAll M [.ldValue w (links.valueAddr (.var i)), ldOne w, .binary op w, .st w] b)
      (vs ++ [x]) (increased M links op w i m).2 := by
  have hload := h.ldValue w (links.valueAddr (.var i))
  have hone := hload.ldOne w
  rw [List.append_assoc] at hone
  have hsum := FinshVm.Pushes.sum op i hone
  rw [List.append_assoc] at hsum
  have hst := hsum.st w (by rw [hx]; rfl) (Nat.le_refl _)
  subst hx
  exact hst

theorem preOps_means (op : FinshBinary) {i : Nat}
    (hx : x = M.value .dword (.ofNat 32 (links.valueAddr (.var i)))) (h : a.Pushes b ([] ++ [x]) m) :
    a.Pushes (execAll M (preOps op w (links.valueAddr (.var i))) b) [(increased M links op w i m).1]
      (increased M links op w i m).2 := by
  have hst := stored_means op w hx h
  have hload := hst.ldValueStack .dword (by rw [hx]; rfl)
  have hwide : w.index ≤ FinshWidth.dword.index := by cases w <;> decide
  refine hload.narrow hwide ?_
  subst hx
  show M.field w (M.field .dword (FinshWidth.dword.load (w.store m (.ofNat 32 _) _) (.ofNat 32 _))) = _
  rw [FinshMachine.field_field hwide, FinshMachine.load_dword, FinshMachine.load_store]
  exact (increased M links op w i m).1.promoted

theorem postOps_means (op : FinshBinary) (i : Nat) (h : a.Pushes b [x] m) :
    a.Pushes (execAll M (postOps op w (links.valueAddr (.var i))) b) [x]
      (increased M links op w i m).2 := by
  have haddr := Pushes.ldDword (links.valueAddr (.var i)) h
  have hst := stored_means op w rfl haddr
  exact Pushes.pop hst

theorem storeCode_means (hx : x.width = .dword) (hy : w.index ≤ y.width.index) (h : a.Pushes b ([] ++ [x, y]) m) :
    a.Pushes (execAll M [.st w, .ldValueStack w] b) [M.value w y.value]
      (w.store m x.value y.value) := by
  have hst := h.st w hx hy
  refine (hst.ldValueStack w hx).narrow (Nat.le_refl _) ?_
  show M.field w (M.field w (w.load (w.store m x.value y.value) x.value)) = M.field w y.value
  rw [FinshMachine.field_field (Nat.le_refl _), FinshMachine.load_store]

/-- The first value of an increment's child is the address of the variable. -/
def PlaceFirst (M : FinshMachine) (links : FinshLinks) (type : FinshNodeType)
    (head : Option FinshNodeType) (children : List (FinshValue M)) : Prop :=
  ∀ i, variableOf head = some i → childAddress type false = true →
    children.head? = some (M.value .dword (.ofNat 32 (links.valueAddr (.var i))))

theorem variableOf_some {i : Nat} (h : variableOf head = some i) : head = some (.id (.var i)) := by
  unfold variableOf at h
  split at h
  · obtain rfl := Option.some.inj h
    rfl
  · cases h

theorem increaseOps_eq {child : FinshNode} {i : Nat} (f : FinshWidth → Nat → List FinshOp)
    (hw : widthOf dataType = some w) (hi : variableOf child.head = some i) :
    increaseOps links f dataType child = f w (links.valueAddr (.var i)) := by
  cases child with
  | null => cases hi
  | node t d ad c sib =>
    obtain rfl := Option.some.inj (variableOf_some hi)
    unfold increaseOps
    rw [hw]

theorem unary_means {s : FinshCode} {child : FinshNode} (hb : a.Pushes b ([] ++ [x]) m)
    (hw : widthOf dataType = some w)
    (h : unaryMeaning M links type w address child.head x m = some (v, m'))
    (hplace : PlaceFirst M links type child.head [x])
    (hops : (compileNode vars links type dataType address child s).ops = s.ops ++ ops) :
    a.Pushes (execAll M ops b) [v] m' := by
  have hpre (op : FinshBinary) (h : (variableOf child.head).map (increased M links op w · m) = some (v, m'))
      (haddr : childAddress type false = true)
      (hops : s.ops ++ increaseOps links (preOps op) dataType child = s.ops ++ ops) :
      a.Pushes (execAll M ops b) [v] m' := by
    obtain ⟨i, hi, h⟩ := Option.map_eq_some_iff.mp h
    obtain ⟨rfl, rfl⟩ := Prod.mk.inj h
    obtain rfl := List.append_cancel_left hops
    rw [increaseOps_eq _ hw hi]
    exact preOps_means op (Option.some.inj (hplace i hi haddr)) hb
  have hpost (op : FinshBinary)
      (h : (variableOf child.head).map (fun i => (x, (increased M links op w i m).2)) = some (v, m'))
      (hops : s.ops ++ increaseOps links (postOps op) dataType child = s.ops ++ ops) :
      a.Pushes (execAll M ops b) [v] m' := by
    obtain ⟨i, hi, h⟩ := Option.map_eq_some_iff.mp h
    obtain ⟨rfl, rfl⟩ := Prod.mk.inj h
    obtain rfl := List.append_cancel_left hops
    rw [increaseOps_eq _ hw hi]
    exact postOps_means op i hb
  cases type with
  | bitwise =>
    have hcode : s.ops ++ ((widthOf dataType).map FinshOp.bitwise).toList = s.ops ++ ops := hops
    rw [hw] at hcode
    obtain rfl := List.append_cancel_left hcode
    unfold unaryMeaning at h
    dsimp only at h
    split at h
    next hx =>
      obtain ⟨rfl, rfl⟩ := Prod.mk.inj (Option.some.inj h)
      exact hb.bitwise hx
    next => cases h
  | preinc => exact hpre .add h rfl hops
  | predec => exact hpre .sub h rfl hops
  | inc => exact hpost .add h hops
  | dec => exact hpost .sub h hops
  | getvalue =>
    unfold unaryMeaning at h
    dsimp only at h
    split at h
    next hx =>
      obtain ⟨rfl, rfl⟩ := Prod.mk.inj (Option.some.inj h)
      cases address with
      | true =>
        have hcode : s.ops = s.ops ++ ops := hops
        obtain rfl := List.self_eq_append_right.mp hcode
        exact hb
      | false =>
        have hcode : s.ops ++ ((widthOf dataType).map FinshOp.ldValueStack).toList = s.ops ++ ops := hops
        rw [hw] at hcode
        obtain rfl := List.append_cancel_left hcode
        exact hb.ldValueStack w hx
    next => cases h
  | getaddr =>
    have hcode : s.ops = s.ops ++ ops := hops
    obtain rfl := List.self_eq_append_right.mp hcode
    unfold unaryMeaning at h
    dsimp only at h
    split at h
    next =>
      obtain ⟨rfl, rfl⟩ := Prod.mk.inj (Option.some.inj h)
      exact hb
    next => cases h
  | _ => cases h

theorem widthOf_mod (hw : widthOf dataType = some w) : widthOf (dataType % 16) = some w := by
  unfold widthOf at hw
  split at hw
  · exact hw
  · exact hw
  · exact hw
  · cases hw

/-- An operator is one operation, for a node of a known width. -/
theorem operator_means {op : FinshBinary} (hb : a.Pushes b ([] ++ [x, y]) m) (hw : widthOf dataType = some w)
    (h : (if w.index ≤ x.width.index ∧ w.index ≤ y.width.index then
      some (M.value w (op.apply (x.as w) (y.as w)), m) else none) = some (v, m')) {s : FinshCode}
    (hops : s.ops ++ ((widthOf dataType).map (FinshOp.binary op)).toList = s.ops ++ ops) :
    a.Pushes (execAll M ops b) [v] m' := by
  rw [hw] at hops
  obtain rfl := List.append_cancel_left hops
  split at h
  next hwide =>
    obtain ⟨rfl, rfl⟩ := Prod.mk.inj (Option.some.inj h)
    exact hb.binary op hwide.1 hwide.2
  next => cases h

theorem assign_means {s : FinshCode} {child : FinshNode} (hb : a.Pushes b [x, y] m)
    (hw : widthOf child.dataType = some w)
    (h : binaryMeaning M .assign w child.head x y m = some (v, m'))
    (hops : (assignCode child s).ops = s.ops ++ ops) : a.Pushes (execAll M ops b) [v] m' := by
  unfold binaryMeaning at h
  dsimp only at h
  split at h
  next hplace =>
    obtain ⟨rfl, rfl⟩ := Prod.mk.inj (Option.some.inj h)
    have hstore : ops = [.st w, .ldValueStack w] := by
      cases child with
      | null => exact absurd hplace.1 (by decide)
      | node t d ad c sib =>
        cases t with
        | id ref =>
          have hcode : (storeCode (widthOf d) s).ops = s.ops ++ ops := hops
          rw [show widthOf d = some w from hw] at hcode
          exact (List.append_cancel_left hcode).symm
        | getvalue =>
          have hcode : (storeCode (widthOf (d % 16)) s).ops = s.ops ++ ops := hops
          rw [widthOf_mod (show widthOf d = some w from hw)] at hcode
          exact (List.append_cancel_left hcode).symm
        | _ => exact absurd hplace.1 (by simp [FinshNode.head, isPlace])
    rw [hstore]
    exact storeCode_means hplace.2.1 hplace.2.2 hb
  next => cases h

theorem binary_means {s : FinshCode} {child : FinshNode} (hb : a.Pushes b [x, y] m)
    (hw : widthOf dataType = some w) (hchild : child.dataType = dataType)
    (h : binaryMeaning M type w child.head x y m = some (v, m'))
    (hops : (compileNode vars links type dataType address child s).ops = s.ops ++ ops) :
    a.Pushes (execAll M ops b) [v] m' := by
  cases type with
  | assign => exact assign_means hb (by rw [hchild, hw]) h hops
  | add | sub | mul | div | mod | and | or | xor | shl | shr => exact operator_means hb hw h hops
  | _ => cases h

theorem call_means {s : FinshCode} {child : FinshNode} {args : List (FinshValue M)}
    (hb : a.Pushes b ([] ++ x :: args) m) (hcount : args.length + 1 = child.siblings)
    (h : callMeaning M x args m = some (v, m'))
    (hops : (compileNode vars links .func dataType address child s).ops = s.ops ++ ops) :
    a.Pushes (execAll M ops b) [v] m' := by
  have hcode : ops = [.syscall args.length] := by
    cases child with
    | null => exact absurd hcount (Nat.succ_ne_zero _)
    | node t d ad c sib =>
      have hemit := List.append_cancel_left hops
      rw [← hcount, Nat.add_sub_cancel] at hemit
      exact hemit.symm
  unfold callMeaning at h
  split at h
  next hall =>
    obtain ⟨rfl, rfl⟩ := Prod.mk.inj (Option.some.inj h)
    rw [hcode]
    exact hb.syscall hall.1 hall.2.1 hall.2.2
  next => cases h

/-- The code of a node replaces the values of its children by its own. -/
theorem compileNode_means {s : FinshCode} {child : FinshNode} (hb : a.Pushes b children m)
    (h : nodeMeaning M vars links type dataType address child.head children m = some (v, m'))
    (hchild : child ≠ .null → child.dataType = dataType) (hcount : children.length = child.siblings)
    (hplace : PlaceFirst M links type child.head children)
    (hops : (compileNode vars links type dataType address child s).ops = s.ops ++ ops) :
    a.Pushes (execAll M ops b) [v] m' := by
  cases children with
  | nil =>
    obtain ⟨u, hleaf, hu⟩ := Option.map_eq_some_iff.mp h
    obtain ⟨rfl, rfl⟩ := Prod.mk.inj hu
    exact leaf_means hb hleaf hops
  | cons x xs =>
    have hnonnull : child ≠ .null := by
      intro hnull
      rw [hnull] at hcount
      exact absurd hcount (Nat.succ_ne_zero _)
    unfold nodeMeaning at h
    dsimp only at h
    split at h
    next hfunc =>
      subst hfunc
      exact call_means hb hcount h hops
    next =>
      obtain ⟨w, hw, h⟩ := Option.bind_eq_some_iff.mp h
      cases xs with
      | nil => exact unary_means hb hw h hplace hops
      | cons y ys =>
        cases ys with
        | nil => exact binary_means hb hw (hchild hnonnull) h hops
        | cons => cases h

theorem treeMeaning_length {n : FinshNode} {isAddr : Bool}
    (h : treeMeaning M vars links n isAddr m = some (vs, m')) : vs.length = n.siblings := by
  induction n generalizing isAddr m vs m' with
  | null =>
    obtain ⟨rfl, -⟩ := Prod.mk.inj (Option.some.inj h)
    rfl
  | node type dataType address child sibling _ ihs =>
    obtain ⟨⟨vs1, m1⟩, -, h⟩ := Option.bind_eq_some_iff.mp h
    obtain ⟨⟨v, m2⟩, -, h⟩ := Option.bind_eq_some_iff.mp h
    obtain ⟨⟨vs2, m3⟩, hsibling, h⟩ := Option.bind_eq_some_iff.mp h
    obtain ⟨rfl, -⟩ := Prod.mk.inj (Option.some.inj h)
    show vs2.length + 1 = sibling.siblings + 1
    rw [ihs hsibling]

theorem treeMeaning_place {n : FinshNode} {i : Nat} (hi : variableOf n.head = some i)
    (h : treeMeaning M vars links n true m = some (vs, m')) :
    vs.head? = some (M.value .dword (.ofNat 32 (links.valueAddr (.var i)))) := by
  cases n with
  | null => cases hi
  | node type dataType address child sibling =>
    obtain rfl := Option.some.inj (variableOf_some hi)
    obtain ⟨⟨vs1, m1⟩, -, h⟩ := Option.bind_eq_some_iff.mp h
    obtain ⟨⟨v, m2⟩, hnode, h⟩ := Option.bind_eq_some_iff.mp h
    obtain ⟨⟨vs2, m3⟩, -, h⟩ := Option.bind_eq_some_iff.mp h
    obtain ⟨rfl, -⟩ := Prod.mk.inj (Option.some.inj h)
    cases vs1 with
    | nil =>
      obtain ⟨u, hleaf, hu⟩ := Option.map_eq_some_iff.mp hnode
      obtain ⟨rfl, -⟩ := Prod.mk.inj hu
      obtain ⟨w, -, hw⟩ := Option.map_eq_some_iff.mp hleaf
      rw [← hw, show (if isSyscall (.id (.var i)) && !address then address else address || true) = true by
        simp [isSyscall]]
      rfl
    | cons x xs =>
      obtain ⟨w, -, hrest⟩ := Option.bind_eq_some_iff.mp hnode
      rcases xs with _ | ⟨y, _ | _⟩ <;> cases hrest

theorem childAddress_of {type : FinshNodeType} (isAddr : Bool) (h : childAddress type false = true) :
    childAddress type isAddr = true := by
  cases type with
  | assign => rfl
  | preinc => rfl
  | predec => rfl
  | getaddr => rfl
  | _ => cases h

/-- The code of a tree and its siblings pushes their values. -/
theorem finshCompile_means {n : FinshNode} {isAddr : Bool} {err : FinshErr} {s : FinshCode}
    (hcount : n.count ≤ 256)
    (hops : (finshCompile vars links (finshTypeCheck vars n isAddr err).1 s).ops = s.ops ++ ops)
    (h : treeMeaning M vars links n isAddr a.mem = some (vs, m')) :
    a.Pushes (execAll M ops a) vs m' := by
  induction n generalizing isAddr err s ops a vs m' with
  | null =>
    obtain rfl := List.self_eq_append_right.mp hops
    obtain ⟨rfl, rfl⟩ := Prod.mk.inj (Option.some.inj h)
    exact .nothing a
  | node type dataType address child sibling ihc ihs =>
    simp only [FinshNode.count] at hcount
    obtain ⟨⟨vs1, m1⟩, hchild, h⟩ := Option.bind_eq_some_iff.mp h
    obtain ⟨⟨v, m2⟩, hnode, h⟩ := Option.bind_eq_some_iff.mp h
    obtain ⟨⟨vs2, m3⟩, hsibling, h⟩ := Option.bind_eq_some_iff.mp h
    obtain ⟨rfl, rfl⟩ := Prod.mk.inj (Option.some.inj h)
    obtain ⟨err1, err2, hcheck⟩ := @finshTypeCheck_node vars type dataType address child sibling isAddr err
    rw [hcheck] at hops
    simp only [finshCompile] at hops
    obtain ⟨ops1, h1, -⟩ := @finshCompile_adds vars links s child (childAddress type isAddr) err1 (by omega)
    obtain ⟨ops2, h2, -⟩ := @FinshCode.Adds.checked vars links
      (finshCompile vars links (finshTypeCheck vars child (childAddress type isAddr) err1).1 s) type
      (exprType vars (.node type dataType address child sibling))
      (if isSyscall type && !address then address else address || isAddr) (childAddress type isAddr)
      child err1 (by omega)
    obtain ⟨ops3, h3, -⟩ := @finshCompile_adds vars links
      (compileNode vars links type (exprType vars (.node type dataType address child sibling))
        (if isSyscall type && !address then address else address || isAddr)
        (finshTypeCheck vars child (childAddress type isAddr) err1).1
        (finshCompile vars links (finshTypeCheck vars child (childAddress type isAddr) err1).1 s))
      sibling false err2 (by omega)
    have hall : ops = ops1 ++ (ops2 ++ ops3) := by
      rw [h3, h2, h1, List.append_assoc, List.append_assoc] at hops
      exact (List.append_cancel_left hops).symm
    have hb := ihc (by omega) h1 hchild
    have hhead := @finshTypeCheck_head vars child (childAddress type isAddr) err1
    have hc : a.Pushes (execAll M ops2 (execAll M ops1 a)) [v] m2 := by
      refine compileNode_means hb (by rw [hhead]; exact hnode) ?_ ?_ ?_ h2
      · intro hne
        rw [ne_eq, finshTypeCheck_null] at hne
        rw [finshTypeCheck_dataType, exprType, if_neg hne]
      · rw [finshTypeCheck_siblings]
        exact treeMeaning_length hchild
      · intro i hi haddr
        rw [hhead] at hi
        rw [childAddress_of isAddr haddr] at hchild
        exact treeMeaning_place hi hchild
    rw [← hc.mem] at hsibling
    have hd := ihs (by omega) h3 hsibling
    rw [hall, execAll_append, execAll_append]
    exact hc.append hd

theorem finshTypeCheck_tree (n : FinshNode) (isAddr : Bool) (err err' : FinshErr) :
    (finshTypeCheck vars n isAddr err).1 = (finshTypeCheck vars n isAddr err').1 := by
  induction n generalizing isAddr err err' with
  | null => rfl
  | node type dataType address child sibling ihc ihs =>
    obtain ⟨err1, err2, h⟩ := @finshTypeCheck_node vars type dataType address child sibling isAddr err
    obtain ⟨err1', err2', h'⟩ := @finshTypeCheck_node vars type dataType address child sibling isAddr err'
    rw [h, h', ihc _ err1 err1', ihs _ err2 err2']

theorem lineMeaning_length {trees : List FinshNode} (htrees : ∀ tree ∈ trees, tree ≠ .null)
    (h : lineMeaning M vars links trees m = some (vs, m')) : vs.length = trees.length := by
  induction trees generalizing m vs with
  | nil =>
    obtain ⟨rfl, -⟩ := Prod.mk.inj (Option.some.inj h)
    rfl
  | cons tree trees ih =>
    obtain ⟨⟨vs1, m1⟩, htree, h⟩ := Option.bind_eq_some_iff.mp h
    obtain ⟨⟨vs2, m2⟩, hrest, h⟩ := Option.bind_eq_some_iff.mp h
    obtain ⟨rfl, rfl⟩ := Prod.mk.inj (Option.some.inj h)
    have hone : (tree.setSibling .null).siblings = 1 := by
      cases tree with
      | null => exact absurd rfl (htrees .null List.mem_cons_self)
      | node => rfl
    rw [List.length_append, treeMeaning_length htree, hone,
      ih (fun t ht => htrees t (List.mem_cons_of_mem tree ht)) hrest, List.length_cons, Nat.add_comm]

/-- The code of a line leaves the value of its last statement on the stack. -/
theorem compileStatements_means {trees : List FinshNode} {err : FinshErr} {s : FinshCode}
    (htrees : ∀ tree ∈ trees, tree ≠ .null) (hcount : (FinshNode.chain trees).count ≤ 256)
    (hops : (compileStatements vars links (finshTypeCheck vars (.chain trees) false err).1 s).ops =
      s.ops ++ ops)
    (h : lineMeaning M vars links trees a.mem = some (vs, m')) :
    a.Pushes (execAll M ops a) vs.getLast?.toList m' := by
  induction trees generalizing s err ops a vs with
  | nil =>
    obtain rfl := List.self_eq_append_right.mp hops
    obtain ⟨rfl, rfl⟩ := Prod.mk.inj (Option.some.inj h)
    exact .nothing a
  | cons tree trees ih =>
    have hrest : ∀ tree ∈ trees, tree ≠ .null := fun t ht => htrees t (List.mem_cons_of_mem tree ht)
    cases tree with
    | null => exact absurd rfl (htrees .null List.mem_cons_self)
    | node type dataType address child sibling =>
      have hchain : FinshNode.chain (.node type dataType address child sibling :: trees) =
        .node type dataType address child (.chain trees) := rfl
      rw [hchain] at hcount hops
      simp only [FinshNode.count] at hcount
      obtain ⟨⟨vs1, m1⟩, htree, h⟩ := Option.bind_eq_some_iff.mp h
      obtain ⟨⟨vs2, m2⟩, hline, h⟩ := Option.bind_eq_some_iff.mp h
      obtain ⟨rfl, rfl⟩ := Prod.mk.inj (Option.some.inj h)
      obtain ⟨v, rfl⟩ : ∃ v, vs1 = [v] := List.length_eq_one_iff.mp (treeMeaning_length htree)
      obtain ⟨err1, err2, hcheck⟩ :=
        @finshTypeCheck_node vars type dataType address child (.chain trees) false err
      obtain ⟨err3, err4, halone⟩ :=
        @finshTypeCheck_node vars type dataType address child .null false err
      rw [hcheck] at hops
      simp only [compileStatements, finshTypeCheck_null, chain_null hrest] at hops
      rw [finshTypeCheck_tree child (childAddress type false) err1 err3] at hops
      obtain ⟨code, hcode, -⟩ := @finshCompile_adds vars links s (.node type dataType address child .null)
        false err (by simp only [FinshNode.count]; omega)
      have hb : a.Pushes (execAll M code a) ([] ++ [v]) m1 :=
        finshCompile_means (by simp only [FinshNode.count]; omega) hcode htree
      rw [halone] at hcode
      split at hops
      next hnil =>
        subst hnil
        obtain ⟨rfl, rfl⟩ := Prod.mk.inj (Option.some.inj hline)
        obtain rfl := List.append_cancel_left (hcode.symm.trans hops)
        exact hb
      next hne =>
        obtain ⟨codes, -, hlast⟩ := @compileStatements_codes vars links _ trees hrest (by omega) err2
        rw [hlast] at hops
        have hc := hb.pop
        rw [← hc.mem] at hline
        have hd := ih hrest (by omega) hlast hline
        have hall : ops = code ++ ([.pop] ++ lineOps codes) := by
          have hemit := congrArg (· ++ [FinshOp.pop] ++ lineOps codes) hcode
          simp only [List.append_assoc] at hemit
          have hsame : s.ops ++ (code ++ ([.pop] ++ lineOps codes)) = s.ops ++ ops := by
            rw [← hemit, ← hops, FinshCode.emit, List.append_assoc]
            rfl
          exact (List.append_cancel_left hsame).symm
        have hvalue : vs2 ≠ [] := by
          intro hvs
          have hlength := lineMeaning_length hrest hline
          rw [hvs] at hlength
          exact hne (List.length_eq_zero_iff.mp hlength.symm)
        rw [hall, execAll_append, execAll_append, List.getLast?_append_of_ne_nil _ hvalue]
        exact hc.append hd

/-- The widths of each statement of a line are known. -/
def WidthsKnown (vars : FinshVars) (trees : List FinshNode) : Prop :=
  ∀ tree ∈ trees, treeWidths vars (tree.setSibling .null) false ≠ none

theorem lineMeaning_known {trees : List FinshNode} (hwidths : WidthsKnown vars trees) (m : Memory) :
    ∃ vs m', lineMeaning M vars links trees m = some (vs, m') := by
  induction trees generalizing m with
  | nil => exact ⟨[], m, rfl⟩
  | cons tree trees ih =>
    obtain ⟨ws, hws⟩ := Option.ne_none_iff_exists'.mp (hwidths tree List.mem_cons_self)
    rw [← @treeMeaning_widths M vars links _ false m] at hws
    obtain ⟨⟨vs1, m1⟩, htree, -⟩ := Option.map_eq_some_iff.mp hws
    obtain ⟨vs2, m2, hline⟩ := ih (fun t ht => hwidths t (List.mem_cons_of_mem tree ht)) m1
    refine ⟨vs1 ++ vs2, m2, ?_⟩
    simp only [lineMeaning, htree, hline, Option.bind_eq_bind, Option.bind_some]

/-- Behind the code the loop goes over the zeros to the end of the text. -/
theorem reach_end {k : Nat} (htext : text.drop a.pc = List.replicate k 0) (hpc : a.pc + k = finshTextMax) :
    VmReach M text a { a with pc := finshTextMax } := by
  induction k generalizing a with
  | zero =>
    rw [← hpc]
    exact .refl
  | succ k ih =>
    have hturn := (turn_zero (M := M) htext).1
    have hnext : text.drop (a.pc + 1) = List.replicate k 0 := by
      rw [← List.tail_drop, htext, List.replicate_succ, List.tail_cons]
    have hrest := ih (a := { a with pc := a.pc + 1 }) hnext (by show a.pc + 1 + k = _; omega)
    exact hrest.head ⟨by omega, hturn⟩

/-- A parsed line whose code fits and whose widths are known does what its trees mean, whatever earlier
lines left on the stack: the virtual machine comes to the end of the text with the memory of the line
and the value of the last statement at the bottom of the stack. -/
theorem finshLine_means {S : FinshSymbols} {vars0 : FinshVars} {line : List FinshToken}
    {root : FinshRoot} {p : FinshParser} {start : FinshVm}
    (hparse : finshParserRun S vars0 line = some (root, p))
    (hnodes : (FinshNode.chain root.trees).count ≤ finshNodeMax)
    (hfits : lineBytes p.vars (.chain root.trees) ≤ finshTextMax)
    (hwidths : WidthsKnown p.vars root.trees) (hstart : start.AtStart) :
    ∃ vs s, lineMeaning M p.vars links root.trees start.mem = some (vs, s.mem) ∧
      VmReach M (textSegment (finshCompilerRun p.vars links root.trees p.errno)) start s ∧
      s.pc = finshTextMax ∧ s.sp = vs.getLast?.toList.length ∧
      ∀ v, vs.getLast? = some v → v.In (s.stack 0) := by
  have htrees : ∀ tree ∈ root.trees, tree ≠ .null := parserLoop_nonnull hparse (by simp)
  have hcount : (FinshNode.chain root.trees).count ≤ 256 := Nat.le_trans hnodes (by decide)
  obtain ⟨vs, m', hmeaning⟩ := @lineMeaning_known M p.vars links _ hwidths start.mem
  obtain ⟨codes, hcodes, hops⟩ :=
    @finshCompilerRun_codes p.vars links root.trees p.errno htrees hcount
  have hpushes : start.Pushes (execAll M (lineOps codes) start) vs.getLast?.toList m' :=
    compileStatements_means htrees hcount hops hmeaning
  rw [← @finshCompilerRun_length p.vars links root.trees p.errno] at hfits
  have htext := textSegment_fits hfits
  have hdrop := htext
  rw [← List.drop_zero (l := textSegment _), ← hstart.1, hops] at hdrop
  obtain ⟨hreach, hpc⟩ := reach_execAll (M := M) (textSegment_length _) (lineOps_encodable hcodes) hdrop
  have hlength : ((lineOps codes).flatMap FinshOp.bytes).length =
      (finshCompilerRun p.vars links root.trees p.errno).text.length := by
    rw [← hops]
    rfl
  rw [hstart.1, Nat.zero_add, hlength] at hpc
  have hzeros : (textSegment (finshCompilerRun p.vars links root.trees p.errno)).drop
      (execAll M (lineOps codes) start).pc =
        List.replicate (finshTextMax - (finshCompilerRun p.vars links root.trees p.errno).text.length) 0 := by
    rw [hpc, htext]
    exact List.drop_left
  have hend := reach_end (M := M) hzeros (by omega)
  refine ⟨vs, _, ?_, hreach.trans hend, rfl, ?_, ?_⟩
  · show _ = some (vs, (execAll M (lineOps codes) start).mem)
    rw [hpushes.mem]
    exact hmeaning
  · show (execAll M (lineOps codes) start).sp = _
    rw [hpushes.sp, hstart.2, zero_add]
  · intro v hv
    have hin := hpushes.holds 0 v (by rw [hv]; rfl)
    rw [hstart.2] at hin
    exact hin

/-- `a = 1; a++;` for an `int`. -/
theorem finshLine_means_two : ∃ root p vs s,
    finshParserRun noSymbols [⟨[97], .int, 0⟩]
      [.identifier [97], .assign, .valueInt 1, .semicolon, .identifier [97], .inc, .semicolon] =
        some (root, p) ∧
      lineMeaning quietMachine p.vars someAddresses root.trees vmStart.mem = some (vs, s.mem) ∧
      VmReach quietMachine (textSegment (finshCompilerRun p.vars someAddresses root.trees p.errno))
        vmStart s ∧ s.pc = finshTextMax := by
  obtain ⟨root, p, hparse, hvars, htrees⟩ : ∃ root p, finshParserRun noSymbols [⟨[97], .int, 0⟩]
      [.identifier [97], .assign, .valueInt 1, .semicolon, .identifier [97], .inc, .semicolon] =
        some (root, p) ∧ p.vars = [⟨[97], .int, 0⟩] ∧
      root.trees = [sysNode .assign (.leaf (.id (.var 0))) [.leaf (.valueInt 1)],
        sysNode .inc (.leaf (.id (.var 0))) []] :=
    ⟨_, _, rfl, rfl, rfl⟩
  have hknown : WidthsKnown p.vars root.trees := by
    rw [hvars, htrees]
    unfold WidthsKnown
    decide
  have hstart : vmStart.AtStart := ⟨rfl, rfl⟩
  obtain ⟨vs, s, hmeaning, hreach, hpc, -⟩ := finshLine_means (M := quietMachine) hparse
    (by rw [htrees]; decide) (by rw [hvars, htrees]; decide) hknown hstart
  exact ⟨root, p, vs, s, hparse, hmeaning, hreach, hpc⟩

end

end RTThread
