import Mathlib.Data.List.TakeWhile
import RTThread.PipeModel

namespace RTThread

/-- The ring buffer is sound, the counts are those of the open descriptors, and one of these is a
reader. -/
structure PipeOk (s : Pipe) : Prop where
  fifo : ∃ fifo d, s.fifo = some fifo ∧ RingbufferRep fifo d
  readers : s.readers = s.opened.countP AccMode.reads
  writers : s.writers = s.opened.countP AccMode.writes
  refCount : s.refCount = s.opened.length
  reader : s.opened.any AccMode.reads = true

/-- A read of a non-zero count finds no writer. -/
def FindsNoWriter (s : Pipe) : PipeAction → Prop
  | .read _ count _ => s.writers = 0 ∧ count ≠ 0
  | .turn t => s.writers = 0 ∧ ∃ count nonblock, s.frame t = .reading count nonblock ∧ count ≠ 0
  | _ => False

/-- The bytes that a write puts into the pipe. -/
def putsBytes (s : Pipe) : PipeAction → List Byte
  | .turn t =>
    match s.frame t, s.fifo with
    | .writing pbuf _ _, some fifo => Pipe.acceptedBytes fifo pbuf
    | _, _ => []
  | _ => []

/-- Where a read finds no writer the pipe is empty, and no write puts bytes into it after an end of
file. -/
def KeepsPipe (x : Pipe × List PipeEvent) (a : PipeAction) : Prop :=
  (FindsNoWriter x.1 a → x.1.contents = []) ∧
    (x.2.any PipeEvent.isEof = true → putsBytes x.1 a = [])

/-- What a step does with the bytes. -/
structure PipeMoves (s : Pipe) (a : PipeAction) (s' : Pipe) (e : List PipeEvent) : Prop where
  ok : PipeOk s'
  flow : s.contents ++ putsBytes s a = e.flatMap PipeEvent.gives ++ s'.contents
  accepted : acceptedOf e = putsBytes s a
  eof : e.any PipeEvent.isEof = true ↔ FindsNoWriter s a
  noWriter : s.writers = 0 → e.flatMap PipeEvent.gives = [] ∧ s'.writers = 0
  noPut : FindsNoWriter s a → putsBytes s a = []

section
variable {s s' : Pipe} {t : ThreadId} {fifo : RtRingbuffer} {pbuf : List Byte} {e : List PipeEvent}
  {f : PipeFrame} {count ret d : Nat} {nonblock : Bool} {log : List PipeEvent}

theorem PipeOk.setFrame (h : PipeOk s) : PipeOk (s.setFrame t f) :=
  ⟨h.fifo, h.readers, h.writers, h.refCount, h.reader⟩

theorem PipeOk.setFifo (h : PipeOk s) {fifo' : RtRingbuffer} (hrep : RingbufferRep fifo' d) :
    PipeOk { s with fifo := some fifo' } :=
  ⟨⟨fifo', d, rfl, hrep⟩, h.readers, h.writers, h.refCount, h.reader⟩

theorem PipeOk.readers_pos (h : PipeOk s) : s.readers ≠ 0 := by
  rw [h.readers]
  obtain ⟨mode, hmode, hreads⟩ := List.any_eq_true.mp h.reader
  exact Nat.pos_iff_ne_zero.mp (List.countP_pos_iff.mpr ⟨mode, hmode, hreads⟩)

/-- A step that gives and takes no bytes and ends no read. -/
theorem quiet_moves {a : PipeAction} (h : PipeOk s') (hcontents : s'.contents = s.contents)
    (hwriters : s.writers = 0 → s'.writers = 0) (hputs : putsBytes s a = [])
    (hgives : e.flatMap PipeEvent.gives = []) (htakes : acceptedOf e = [])
    (heof : e.any PipeEvent.isEof = true ↔ FindsNoWriter s a) : PipeMoves s a s' e where
  ok := h
  flow := by rw [hputs, hgives, hcontents, List.append_nil, List.nil_append]
  accepted := htakes.trans hputs.symm
  eof := heof
  noWriter hw := ⟨hgives, hwriters hw⟩
  noPut _ := hputs

/-- The bytes accepted are those the ring buffer stores. -/
theorem acceptedBytes_eq (hrep : RingbufferRep fifo d) : Pipe.acceptedBytes fifo pbuf =
    (pbuf.take (pbuf.length % 65536)).take (fifo.bufferSize - d) := by
  obtain ⟨hlen, -⟩ := hrep.put (pbuf.take (pbuf.length % 65536))
  have hle := Nat.mod_le pbuf.length 65536
  rw [Pipe.acceptedBytes, hlen, List.take_take, List.length_take, List.take_eq_take_iff]
  omega

theorem readTurn_moves (h : PipeOk s) (hfifo : s.fifo = some fifo)
    (hframe : s.frame t = .reading count nonblock) :
    PipeMoves s (.turn t) (s.readTurn t fifo count nonblock).1
      (s.readTurn t fifo count nonblock).2 := by
  have hputs : putsBytes s (.turn t) = [] := by rw [putsBytes, hframe]
  have hfinds : FindsNoWriter s (.turn t) ↔ s.writers = 0 ∧ count ≠ 0 := by
    constructor
    · rintro ⟨hw, c, b, hc, hne⟩
      obtain ⟨rfl, -⟩ := PipeFrame.reading.inj (hframe.symm.trans hc)
      exact ⟨hw, hne⟩
    · rintro ⟨hw, hne⟩
      exact ⟨hw, count, nonblock, hframe, hne⟩
  obtain ⟨fifo', d, hsome, hrep⟩ := h.fifo
  obtain rfl := Option.some.inj (hfifo.symm.trans hsome)
  have hold : s.contents = fifo.contents := by rw [Pipe.contents, hfifo]; rfl
  obtain ⟨hanswer, hrep', hcontents, -⟩ := hrep.get (count % 65536)
  unfold Pipe.readTurn
  split
  next hw =>
    refine quiet_moves h.setFrame rfl (fun _ => hw) hputs rfl rfl ?_
    rw [hfinds]
    simp [PipeEvent.isEof, hw]
  next hw =>
    have hnone : ¬ FindsNoWriter s (.turn t) := fun hf => hw (hfinds.mp hf).1
    dsimp only
    rw [hanswer]
    have hflow : s.contents = fifo.contents.take (count % 65536) ++
        (rtRingbufferGet fifo (count % 65536)).2.contents := by
      rw [hold, hcontents, List.take_append_drop]
    split
    next hpos =>
      refine ⟨(h.setFifo hrep').setFrame, ?_, hputs.symm, ?_, fun h0 => absurd h0 hw, fun _ => hputs⟩
      · rw [hputs, List.append_nil, hflow]
        simp [PipeEvent.gives, Pipe.contents, Pipe.setFrame]
      · refine iff_of_false ?_ hnone
        cases hmin : min (count % 65536) d with
        | zero => exact absurd (hmin ▸ hpos) (Nat.lt_irrefl 0)
        | succ n => simp [PipeEvent.isEof]
    next hzero =>
      have hnil : fifo.contents.take (count % 65536) = [] := by
        apply List.eq_nil_of_length_eq_zero
        rw [List.length_take, hrep.contents_length]
        exact Nat.eq_zero_of_not_pos hzero
      have hsame : (rtRingbufferGet fifo (count % 65536)).2.contents = s.contents := by
        rw [hflow, hnil, List.nil_append]
      have hok := h.setFifo hrep'
      split
      · refine quiet_moves hok.setFrame hsame (fun h0 => absurd h0 hw) hputs rfl rfl ?_
        exact iff_of_false (by simp [PipeEvent.isEof]) hnone
      · exact quiet_moves hok.setFrame hsame (fun h0 => absurd h0 hw) hputs rfl rfl
          (iff_of_false (by simp) hnone)

theorem writeTurn_moves (h : PipeOk s) (hfifo : s.fifo = some fifo)
    (hframe : s.frame t = .writing pbuf ret nonblock) :
    PipeMoves s (.turn t) (s.writeTurn t fifo pbuf ret nonblock).1
      (s.writeTurn t fifo pbuf ret nonblock).2 := by
  have hputs : putsBytes s (.turn t) = Pipe.acceptedBytes fifo pbuf := by rw [putsBytes, hframe, hfifo]
  have hnone : ¬ FindsNoWriter s (.turn t) := by
    rintro ⟨-, c, b, hc, -⟩
    exact PipeFrame.noConfusion (hframe.symm.trans hc)
  obtain ⟨fifo', d, hsome, hrep⟩ := h.fifo
  obtain rfl := Option.some.inj (hfifo.symm.trans hsome)
  have hold : s.contents = fifo.contents := by rw [Pipe.contents, hfifo]; rfl
  obtain ⟨-, hrep', hcontents, -⟩ := hrep.put (pbuf.take (pbuf.length % 65536))
  have hok := h.setFifo hrep'
  have hflow : s.contents ++ Pipe.acceptedBytes fifo pbuf =
      (rtRingbufferPut fifo (pbuf.take (pbuf.length % 65536))).2.contents := by
    rw [hold, hcontents, acceptedBytes_eq hrep]
  have hmoves : ∀ f rest, acceptedOf rest = [] → rest.flatMap PipeEvent.gives = [] →
      rest.any PipeEvent.isEof = false → PipeMoves s (.turn t)
        (Pipe.setFrame { s with
          fifo := some (rtRingbufferPut fifo (pbuf.take (pbuf.length % 65536))).2 } t f)
        (.accepted (Pipe.acceptedBytes fifo pbuf) :: rest) := by
    intro f rest htakes hgives heof
    refine ⟨hok.setFrame, ?_, ?_, iff_of_false ?_ hnone, fun hw => ⟨?_, hw⟩, fun hf => absurd hf hnone⟩
    · rw [hputs, List.flatMap_cons, hgives]
      exact hflow
    · rw [hputs, acceptedOf, List.flatMap_cons]
      exact (congrArg _ htakes).trans (List.append_nil _)
    · rw [List.any_cons, heof]
      exact Bool.false_ne_true
    · rw [List.flatMap_cons, hgives]
      rfl
  unfold Pipe.writeTurn
  rw [if_neg h.readers_pos]
  dsimp only
  split
  · exact hmoves _ _ rfl rfl rfl
  · split
    · exact hmoves _ _ rfl rfl rfl
    · exact hmoves _ [] rfl rfl rfl

/-- The last reader stays, and with it the ring buffer. -/
theorem PipeOk.refCount_ne_one {mode : AccMode} (h : PipeOk s) (hmode : mode ∈ s.opened)
    (hreader : (s.opened.erase mode).any AccMode.reads = true) : s.refCount ≠ 1 := by
  obtain ⟨m, hm, -⟩ := List.any_eq_true.mp hreader
  have hlen := List.length_erase_of_mem hmode
  have hpos := List.length_pos_of_mem hm
  rw [h.refCount]
  omega

theorem pipeFopsClose_ok {mode : AccMode} (h : PipeOk s) (hmode : mode ∈ s.opened)
    (hreader : (s.opened.erase mode).any AccMode.reads = true) : PipeOk (s.pipeFopsClose mode) := by
  have hcount : ∀ p : AccMode → Bool, (s.opened.erase mode).countP p =
      if p mode then s.opened.countP p - 1 else s.opened.countP p := by
    intro p
    rw [(List.perm_cons_erase hmode).countP_eq (p := p), List.countP_cons]
    split <;> omega
  have hlen := List.length_erase_of_mem hmode
  refine ⟨?_, ?_, ?_, ?_, hreader⟩
  · rw [Pipe.pipeFopsClose, if_neg (h.refCount_ne_one hmode hreader)]
    exact h.fifo
  · rw [Pipe.pipeFopsClose, hcount, ← h.readers]
  · rw [Pipe.pipeFopsClose, hcount, ← h.writers]
  · rw [Pipe.pipeFopsClose, hlen, h.refCount]

/-- What every step of the pipe does with the bytes. -/
theorem pipeStep_moves {a : PipeAction} (h : PipeOk s) (hs : pipeStep s a = some (s', e)) :
    PipeMoves s a s' e := by
  cases a with
  | read t count nonblock =>
    obtain ⟨-, hs⟩ := Option.ite_none_right_eq_some.mp hs
    unfold Pipe.pipeFopsRead at hs
    split at hs <;> obtain ⟨rfl, rfl⟩ := Prod.mk.inj (Option.some.inj hs)
    · next hw _ =>
      refine quiet_moves h rfl id rfl rfl rfl ?_
      simp [PipeEvent.isEof, FindsNoWriter, hw]
    · next hw _ =>
      refine quiet_moves h.setFrame rfl id rfl rfl rfl ?_
      simp [FindsNoWriter, hw]
  | write t buf nonblock =>
    obtain ⟨-, hs⟩ := Option.ite_none_right_eq_some.mp hs
    unfold Pipe.pipeFopsWrite at hs
    rw [if_neg h.readers_pos] at hs
    split at hs <;> obtain ⟨rfl, rfl⟩ := Prod.mk.inj (Option.some.inj hs)
    · exact quiet_moves h rfl id rfl rfl rfl (iff_of_false (by simp [PipeEvent.isEof]) id)
    · exact quiet_moves h.setFrame rfl id rfl rfl rfl (iff_of_false (by simp) id)
  | turn t =>
    obtain ⟨fifo, hfifo, hs⟩ := Option.bind_eq_some_iff.mp hs
    split at hs
    next count nonblock hframe =>
      have hmoves := readTurn_moves h hfifo hframe
      rwa [Option.some.inj hs] at hmoves
    next pbuf ret nonblock hframe =>
      have hmoves := writeTurn_moves h hfifo hframe
      rwa [Option.some.inj hs] at hmoves
    next => simp at hs
  | wake t =>
    obtain ⟨s1, hwake, heq⟩ := Option.map_eq_some_iff.mp hs
    obtain ⟨rfl, rfl⟩ := Prod.mk.inj heq
    obtain ⟨f, rfl⟩ : ∃ f, s1 = s.setFrame t f := by
      unfold pipeWake at hwake
      split at hwake
      next => exact ⟨_, (Option.some.inj hwake).symm⟩
      next => exact ⟨_, (Option.some.inj hwake).symm⟩
      next => simp at hwake
    exact quiet_moves h.setFrame rfl id rfl rfl rfl (iff_of_false (by simp) id)
  | close mode =>
    obtain ⟨⟨hmode, hreader⟩, hs⟩ := Option.ite_none_right_eq_some.mp hs
    obtain ⟨rfl, rfl⟩ := Prod.mk.inj (Option.some.inj hs)
    refine quiet_moves (pipeFopsClose_ok h hmode hreader) ?_ (fun hw => ?_) rfl rfl rfl
      (iff_of_false (by simp) id)
    · rw [Pipe.contents, Pipe.pipeFopsClose, if_neg (h.refCount_ne_one hmode hreader), Pipe.contents]
    · simp [Pipe.pipeFopsClose, hw]

theorem takeWhile_of_no_eof (h : log.any PipeEvent.isEof = false) :
    log.takeWhile (fun x => !x.isEof) = log := by
  refine List.takeWhile_eq_self_iff.mpr fun x hx => ?_
  rw [List.any_eq_false] at h
  simpa using h x hx

theorem deliveredOf_append_of_eof (h : log.any PipeEvent.isEof = true) :
    deliveredOf (log ++ e) = deliveredOf log := by
  rw [deliveredOf, List.takeWhile_append, if_neg, deliveredOf]
  intro hlen
  obtain ⟨x, hx, heof⟩ := List.any_eq_true.mp h
  have hall := (List.takeWhile_prefix fun x => !PipeEvent.isEof x).eq_of_length hlen
  have hx := List.takeWhile_eq_self_iff.mp hall x hx
  rw [heof] at hx
  exact Bool.false_ne_true hx

theorem deliveredOf_append (h : log.any PipeEvent.isEof = false) :
    deliveredOf (log ++ e) = deliveredOf log ++ deliveredOf e := by
  have hall := takeWhile_of_no_eof h
  rw [deliveredOf, List.takeWhile_append, hall, if_pos rfl, List.flatMap_append, deliveredOf, hall,
    deliveredOf]

theorem FindsNoWriter.writers {a : PipeAction} (h : FindsNoWriter s a) : s.writers = 0 := by
  cases a with
  | read t count nonblock => exact h.1
  | turn t => exact h.1
  | write t buf nonblock => exact absurd h id
  | wake t => exact absurd h id
  | close mode => exact absurd h id

/-- What a step delivers; an end of file comes alone. -/
theorem PipeMoves.delivered {a : PipeAction} (h : PipeMoves s a s' e) :
    deliveredOf e = e.flatMap PipeEvent.gives := by
  cases heof : e.any PipeEvent.isEof with
  | false => rw [deliveredOf, takeWhile_of_no_eof heof]
  | true =>
    have hnil := (h.noWriter (h.eof.mp heof).writers).1
    rw [hnil, deliveredOf]
    refine List.flatMap_eq_nil_iff.mpr fun x hx => ?_
    exact List.flatMap_eq_nil_iff.mp hnil x ((List.takeWhile_sublist _).subset hx)

/-- Before an end of file, what is accepted is delivered or in the pipe; afterwards the pipe has no
writer and is empty. -/
structure PipeInv (x : Pipe × List PipeEvent) : Prop where
  ok : PipeOk x.1
  flow : x.2.any PipeEvent.isEof = false → acceptedOf x.2 = deliveredOf x.2 ++ x.1.contents
  ended : x.2.any PipeEvent.isEof = true → x.1.writers = 0 ∧ x.1.contents = []
  delivers : DeliversAll x.2

section
variable {x x' : Pipe × List PipeEvent} {a : PipeAction}

/-- After a step there is no more delivered than accepted just if it keeps to the rule. -/
theorem pipeMoves_delivers_iff {s' : Pipe} {e : List PipeEvent} (h : PipeInv x)
    (hm : PipeMoves x.1 a s' e) : DeliversAll (x.2 ++ e) ↔ KeepsPipe x a := by
  have haccepted : acceptedOf (x.2 ++ e) = acceptedOf x.2 ++ acceptedOf e := List.flatMap_append
  rw [DeliversAll, haccepted, hm.accepted]
  cases hlog : x.2.any PipeEvent.isEof with
  | true =>
    have hended := h.delivers hlog
    have hempty := (h.ended hlog).2
    rw [deliveredOf_append_of_eof hlog, List.any_append, hlog, hended, Bool.true_or]
    rw [KeepsPipe]
    simp [hlog, hempty]
  | false =>
    rw [deliveredOf_append hlog, List.any_append, hlog, Bool.false_or, hm.eof, hm.delivered,
      h.flow hlog, KeepsPipe]
    simp only [hlog, Bool.false_eq_true, false_imp_iff, and_true]
    refine imp_congr_right fun hfinds => ?_
    have hw : x.1.writers = 0 := hfinds.writers
    rw [(hm.noWriter hw).1, hm.noPut hfinds, List.append_nil, List.append_nil]
    exact ⟨fun heq => by simpa using heq.symm, fun hnil => by rw [hnil, List.append_nil]⟩

theorem pipeMoves_inv {s' : Pipe} {e : List PipeEvent} (h : PipeInv x) (hok : KeepsPipe x a)
    (hm : PipeMoves x.1 a s' e) : PipeInv (s', x.2 ++ e) := by
  refine ⟨hm.ok, fun hlog => ?_, fun hlog => ?_, (pipeMoves_delivers_iff h hm).mpr hok⟩
  · have hparts := hlog
    rw [List.any_append, Bool.or_eq_false_iff] at hparts
    have haccepted : acceptedOf (x.2 ++ e) = acceptedOf x.2 ++ acceptedOf e := List.flatMap_append
    rw [haccepted, h.flow hparts.1, hm.accepted, List.append_assoc, hm.flow,
      deliveredOf_append hparts.1, hm.delivered, List.append_assoc]
  · rw [List.any_append, Bool.or_eq_true] at hlog
    rcases hlog with hlog | hnow
    · obtain ⟨hw, hempty⟩ := h.ended hlog
      obtain ⟨hgives, hw'⟩ := hm.noWriter hw
      refine ⟨hw', ?_⟩
      have hflow := hm.flow
      rw [hempty, hok.2 hlog, hgives] at hflow
      exact hflow.symm
    · have hfinds := hm.eof.mp hnow
      obtain ⟨hgives, hw'⟩ := hm.noWriter hfinds.writers
      refine ⟨hw', ?_⟩
      have hflow := hm.flow
      rw [hok.1 hfinds, hm.noPut hfinds, hgives] at hflow
      exact hflow.symm

theorem pipeFopsOpen_ok (A : AlignSize) (pool : Nat → Byte) (bufsz : Nat) (modes : List AccMode) :
    let s := modes.foldl (Pipe.pipeFopsOpen A pool) (createdPipe bufsz)
    s.readers = s.opened.countP AccMode.reads ∧ s.writers = s.opened.countP AccMode.writes ∧
      s.refCount = s.opened.length ∧
      s.bufsz = bufsz ∧ ∀ fifo, s.fifo = some fifo → rtRingbufferCreate A pool bufsz = some fifo := by
  induction modes using List.reverseRecOn with
  | nil => exact ⟨rfl, rfl, rfl, rfl, fun fifo hfifo => by simp [createdPipe] at hfifo⟩
  | append_singleton modes mode ih =>
    obtain ⟨hreaders, hwriters, hcount, hbufsz, hfifo⟩ := ih
    rw [List.foldl_append]
    generalize modes.foldl (Pipe.pipeFopsOpen A pool) (createdPipe bufsz) = s at *
    refine ⟨?_, ?_, ?_, hbufsz, fun fifo hnew => ?_⟩
    · simp [Pipe.pipeFopsOpen, List.countP_cons, hreaders]
      split <;> rfl
    · simp [Pipe.pipeFopsOpen, List.countP_cons, hwriters]
      split <;> rfl
    · simp [Pipe.pipeFopsOpen, hcount]
    · simp only [List.foldl_cons, List.foldl_nil, Pipe.pipeFopsOpen] at hnew
      split at hnew
      · rwa [hbufsz] at hnew
      · exact hfifo fifo hnew

theorem rtRingbufferCreate_rep {A : AlignSize} {pool : Nat → Byte} {n : Nat} {fifo : RtRingbuffer}
    (hn : n < 65536) (h : rtRingbufferCreate A pool n = some fifo) : RingbufferRep fifo 0 := by
  have hdown : rtAlignDown A n = n / A.size * A.size := rtAlignDown_eq A (by omega)
  have hle := Nat.div_mul_le_self n A.size
  unfold rtRingbufferCreate at h
  dsimp only at h
  have hpos := (Option.ite_none_right_eq_some.mp h).1
  by_cases hsmall : rtAlignDown A n < 32768
  · rw [if_pos hsmall] at h hpos
    obtain ⟨hsize, hrep⟩ := rtRingbufferInit_spec h (by omega)
    apply hrep
    have hunit : 0 < A.size := Nat.two_pow_pos _
    rw [hsize, hdown, Nat.mul_div_cancel _ hunit, ← hdown]
    exact Int.natCast_pos.mp hpos
  · rw [if_neg hsmall] at hpos
    omega

theorem pipeStart_inv {A : AlignSize} {s : Pipe} (h : PipeStart A s) : PipeInv (s, []) := by
  obtain ⟨pool, bufsz, modes, hbufsz, hs⟩ := h.opens
  obtain ⟨hreaders, hwriters, hcount, -, hfifo⟩ := pipeFopsOpen_ok A pool bufsz modes
  rw [← hs] at hreaders hwriters hcount hfifo
  obtain ⟨fifo, hsome⟩ := Option.ne_none_iff_exists'.mp h.fifo
  have hrep := rtRingbufferCreate_rep (by omega) (hfifo fifo hsome)
  have hempty : s.contents = [] := by
    rw [Pipe.contents, hsome]
    exact List.eq_nil_of_length_eq_zero hrep.contents_length
  refine ⟨⟨⟨fifo, 0, hsome, hrep⟩, hreaders, hwriters, hcount, h.reader⟩, fun _ => ?_,
    fun hlog => absurd hlog Bool.false_ne_true, fun hlog => absurd hlog Bool.false_ne_true⟩
  exact hempty.symm

/-- The reads of a run deliver every accepted byte before the first end of file exactly where each
step keeps to the rule. -/
theorem pipe_delivers_iff {A : AlignSize} {s : Pipe} {as : List PipeAction} (hstart : PipeStart A s)
    (hrun : runFrom pipeLogStep as (s, []) = some x) :
    RunMeets pipeLogStep (fun y a => ∀ y' ∈ pipeLogStep y a, DeliversAll y'.2) as (s, []) ↔
      RunMeets pipeLogStep KeepsPipe as (s, []) := by
  have hiff : ∀ y a y', PipeInv y → pipeLogStep y a = some y' →
      ((∀ z ∈ pipeLogStep y a, DeliversAll z.2) ↔ KeepsPipe y a) := by
    intro y a y' h hs
    obtain ⟨⟨s1, e⟩, h1, rfl⟩ := Option.map_eq_some_iff.mp hs
    rw [← pipeMoves_delivers_iff h (pipeStep_moves h.ok h1)]
    constructor
    · exact fun hall => hall _ hs
    · intro hgood z hz
      obtain rfl := Option.some.inj (hs.symm.trans hz)
      exact hgood
  refine runMeets_iff (I := PipeInv) hiff (fun y a y' h hok hs => ?_) (pipeStart_inv hstart) hrun
  have hkeeps := (hiff y a y' h hs).mp hok
  obtain ⟨⟨s1, e⟩, h1, rfl⟩ := Option.map_eq_some_iff.mp hs
  exact pipeMoves_inv h hkeeps (pipeStep_moves h.ok h1)

end

end

/-- A pipe with 8 bytes, opened by a reader and a writer. -/
def openedPipe : Pipe :=
  [.rdonly, .wronly].foldl (Pipe.pipeFopsOpen align4 fun _ => 0) (createdPipe 8)

theorem openedPipe_start : PipeStart align4 openedPipe where
  opens := ⟨fun _ => 0, 8, [.rdonly, .wronly], by decide, rfl⟩
  reader := by decide +kernel
  fifo := by
    refine Option.isSome_iff_ne_none.mp ?_
    decide +kernel

/-- Two bytes are written and read, and the writer leaves. -/
def readThenClosed : List PipeAction :=
  [.write 1 [5, 6] false, .turn 1, .read 2 4 false, .turn 2, .close .wronly, .read 2 4 false]

theorem readThenClosed_some : (runFrom pipeLogStep readThenClosed (openedPipe, [])).isSome = true := by
  decide +kernel

theorem pipe_delivers_iff_readThenClosed :
    RunMeets pipeLogStep (fun y a => ∀ y' ∈ pipeLogStep y a, DeliversAll y'.2) readThenClosed
      (openedPipe, []) ↔ RunMeets pipeLogStep KeepsPipe readThenClosed (openedPipe, []) :=
  pipe_delivers_iff openedPipe_start (Option.some_get readThenClosed_some).symm

/-- The writer leaves its two bytes behind. -/
def closedThenRead : List PipeAction :=
  [.write 1 [5, 6] false, .turn 1, .close .wronly, .read 2 4 false]

theorem closedThenRead_some : (runFrom pipeLogStep closedThenRead (openedPipe, [])).isSome = true := by
  decide +kernel

theorem pipe_drops_last_bytes : ¬ ∀ s as x, PipeStart align4 s →
    runFrom pipeLogStep as (s, []) = some x → DeliversAll x.2 := by
  intro h
  have hdelivers := h openedPipe closedThenRead _ openedPipe_start (Option.some_get closedThenRead_some).symm
    (by decide +kernel)
  revert hdelivers
  decide +kernel

end RTThread
