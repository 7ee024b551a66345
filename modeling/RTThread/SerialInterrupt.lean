import RTThread.Runs
import RTThread.SerialModel

namespace RTThread

/-- The stored bytes, oldest first. -/
def SerialRxFifo.stored (bufsz : Nat) (f : SerialRxFifo) : List UInt8 :=
  ringContents f.buffer bufsz f.getIndex (serialFifoCalcRecvedLen bufsz f)

/-- Two FIFOs that give equal bytes and lengths, and stay related. -/
structure FifoRefines {φ ψ : Type} (F : ByteFifo φ) (G : ByteFifo ψ) (R : φ → ψ → Prop) : Prop where
  pop : ∀ f g, R f g → F.pop f = none ∧ G.pop g = none ∨
    ∃ ch f' g', F.pop f = some (ch, f') ∧ G.pop g = some (ch, g') ∧ R f' g'
  push : ∀ f g ch, R f g → R (F.push f ch) (G.push g ch)
  length : ∀ f g, R f g → F.length f = G.length g

theorem FifoRefines.call {φ ψ : Type} {F : ByteFifo φ} {G : ByteFifo ψ} {R : φ → ψ → Prop}
    (h : FifoRefines F G R) (s : SerialReads φ) (t : SerialReads ψ) (a : SerialIntAction)
    (hst : R s.fifo t.fifo ∧ s.reads = t.reads) :
    (serialIntCall F s a).1 = (serialIntCall G t a).1 ∧
      R (serialIntCall F s a).2.fifo (serialIntCall G t a).2.fifo ∧
      (serialIntCall F s a).2.reads = (serialIntCall G t a).2.reads := by
  obtain ⟨hfifo, hreads⟩ := hst
  cases a with
  | read i length =>
    simp only [serialIntCall, hreads]
    cases t.reads i with
    | none => exact ⟨rfl, hfifo, rfl⟩
    | some r => exact ⟨rfl, hfifo, hreads⟩
  | turn i =>
    simp only [serialIntCall, hreads]
    cases t.reads i with
    | none => exact ⟨rfl, hfifo, hreads⟩
    | some r =>
      by_cases hlen : r.length = 0
      · simp only [hlen, if_true]
        exact ⟨trivial, hfifo, trivial⟩
      · simp only [hlen, if_false]
        obtain ⟨hf, hg⟩ | ⟨ch, f', g', hf, hg, hnext⟩ := h.pop _ _ hfifo
        · rw [hf, hg]
          exact ⟨rfl, hfifo, rfl⟩
        · rw [hf, hg]
          exact ⟨rfl, hnext, rfl⟩
  | receive ch => exact ⟨rfl, h.push _ _ ch hfifo, hreads⟩
  | indicate => exact ⟨congrArg _ (h.length _ _ hfifo), hfifo, hreads⟩

/-- The FIFO of the interrupt mode stores a queue of at most `bufsz - 1` bytes. -/
structure IntFifoRep (bufsz : Nat) (f : SerialRxFifo) (q : List UInt8) : Prop where
  put_lt : f.putIndex < bufsz
  get_lt : f.getIndex < bufsz
  full : f.isFull = true → serialRxLength bufsz f = bufsz - 1
  contents : ringContents f.buffer bufsz f.getIndex (serialRxLength bufsz f) = q

section
variable {bufsz : Nat} {f : SerialRxFifo} {q : List UInt8}

theorem IntFifoRep.length_eq (h : IntFifoRep bufsz f q) : serialRxLength bufsz f = q.length := by
  rw [← h.contents, ringContents_length]

theorem serialRxLength_lt (hput : f.putIndex < bufsz) (hget : f.getIndex < bufsz) :
    serialRxLength bufsz f ≤ bufsz - 1 := by
  unfold serialRxLength
  split <;> omega

theorem serialRxLength_end (hput : f.putIndex < bufsz) (hget : f.getIndex < bufsz) :
    (f.getIndex + serialRxLength bufsz f) % bufsz = f.putIndex := by
  unfold serialRxLength
  split
  · next hle => rw [Nat.add_sub_of_le hle, Nat.mod_eq_of_lt hput]
  · have hround : f.getIndex + (bufsz - (f.getIndex - f.putIndex)) = f.putIndex + bufsz := by omega
    rw [hround, Nat.add_mod_right, Nat.mod_eq_of_lt hput]

/-- An index goes one step round the buffer. -/
theorem index16_next {i : Nat} (h16 : bufsz < 65536) (hi : i < bufsz) :
    (if bufsz ≤ index16 (i + 1) then 0 else index16 (i + 1)) = nextSlot bufsz i := by
  have hindex : index16 (i + 1) = i + 1 := Nat.mod_eq_of_lt (by omega)
  rw [hindex, nextSlot]

theorem IntFifoRep.calcRecvedLen (h2 : 2 ≤ bufsz) (h : IntFifoRep bufsz f q) :
    serialFifoCalcRecvedLen bufsz f = q.length := by
  have hfull := h.full
  rw [← h.length_eq]
  unfold serialFifoCalcRecvedLen serialRxLength at *
  grind

theorem IntFifoRep.stored_eq (h2 : 2 ≤ bufsz) (h : IntFifoRep bufsz f q) : f.stored bufsz = q := by
  rw [SerialRxFifo.stored, h.calcRecvedLen h2, ← h.length_eq, h.contents]

theorem IntFifoRep.pop (h2 : 2 ≤ bufsz) (h16 : bufsz < 65536) (h : IntFifoRep bufsz f q) :
    serialIntRxTurn bufsz f = none ∧ q = [] ∨
    ∃ ch f' rest, serialIntRxTurn bufsz f = some (ch, f') ∧ q = ch :: rest ∧
      IntFifoRep bufsz f' rest := by
  have hput := h.put_lt
  have hget := h.get_lt
  have hfull := h.full
  have hcontents := h.contents
  unfold serialIntRxTurn
  simp only [index16_next h16 hget]
  split
  · next hempty =>
    left
    refine ⟨rfl, ?_⟩
    rw [← hcontents, serialRxLength, if_pos hempty.1.le, hempty.1, Nat.sub_self, ringContents_zero]
  · next hdata =>
    right
    have hne : f.getIndex ≠ f.putIndex := by
      intro heq
      have hisFull : f.isFull = true := by simpa [heq] using hdata
      have hlen := hfull hisFull
      rw [serialRxLength, if_pos heq.le] at hlen
      omega
    let f' : SerialRxFifo := { f with getIndex := nextSlot bufsz f.getIndex, isFull := false }
    have hlen : serialRxLength bufsz f = serialRxLength bufsz f' + 1 := by
      simp only [f', serialRxLength, nextSlot]
      grind
    rw [hlen, ringContents_take hget, ← nextSlot_eq_mod hget] at hcontents
    exact ⟨f.buffer f.getIndex, f', _, rfl, hcontents.symm, hput, nextSlot_lt hget, nofun, rfl⟩

theorem IntFifoRep.push (h2 : 2 ≤ bufsz) (h16 : bufsz < 65536) (h : IntFifoRep bufsz f q)
    (ch : UInt8) :
    IntFifoRep bufsz (serialRxInd bufsz f ch) (keepLast (bufsz - 1) (q ++ [ch])) := by
  have hput := h.put_lt
  have hget := h.get_lt
  have hlt := serialRxLength_lt hput hget
  have hend := serialRxLength_end hput hget
  -- the byte goes behind the stored ones, whether or not it takes the last free slot
  have hwritten : ringContents (Function.update f.buffer f.putIndex ch) bufsz f.getIndex
      (serialRxLength bufsz f + 1) = q ++ [ch] := by
    rw [← h.contents, ← ringContents_put (by omega), hend]
  have hqlen := h.length_eq
  unfold serialRxInd
  simp only [index16_next h16 hput, index16_next h16 hget]
  split
  · next hmeet =>
    have hall : serialRxLength bufsz f = bufsz - 1 := by
      unfold serialRxLength nextSlot at *
      grind
    have hnew : serialRxLength bufsz { f with
        buffer := Function.update f.buffer f.putIndex ch, putIndex := nextSlot bufsz f.putIndex,
        getIndex := nextSlot bufsz f.getIndex, isFull := true } = bufsz - 1 := by
      simp only [serialRxLength, nextSlot] at *
      grind
    refine ⟨nextSlot_lt hput, nextSlot_lt hget, fun _ => hnew, ?_⟩
    rw [hnew]
    have hcut : (q ++ [ch]).length - (bufsz - 1) = 1 := by
      rw [List.length_append, ← hqlen, List.length_singleton]
      omega
    rw [keepLast, hcut, ← hwritten, ringContents_drop_le (by omega), nextSlot_eq_mod hget,
      ringContents_mod, hall]
    rfl
  · next hapart =>
    have hnew : serialRxLength bufsz { f with
        buffer := Function.update f.buffer f.putIndex ch, putIndex := nextSlot bufsz f.putIndex } =
        serialRxLength bufsz f + 1 := by
      simp only [serialRxLength, nextSlot] at *
      grind
    have hroom : serialRxLength bufsz f + 1 ≤ bufsz - 1 := by
      rw [← hnew]
      exact serialRxLength_lt (nextSlot_lt hput) hget
    refine ⟨nextSlot_lt hput, hget, fun hisFull => ?_, ?_⟩
    · have hfull := h.full hisFull
      omega
    · rw [hnew, keepLast_of_le, hwritten]
      rw [List.length_append, ← hqlen, List.length_singleton]
      exact hroom

theorem serialIntFifo_refines (h2 : 2 ≤ bufsz) (h16 : bufsz < 65536) :
    FifoRefines (serialIntFifo bufsz) (newestBytes (bufsz - 1)) (IntFifoRep bufsz) where
  pop f q h := by
    rcases h.pop h2 h16 with ⟨hf, rfl⟩ | ⟨ch, f', rest, hf, rfl, hrest⟩
    · exact .inl ⟨hf, rfl⟩
    · exact .inr ⟨ch, f', rest, hf, rfl, hrest⟩
  push f q ch h := h.push h2 h16 ch
  length f q h := h.length_eq

theorem openedFifo_intRep (h2 : 2 ≤ bufsz) : IntFifoRep bufsz openedFifo [] :=
  ⟨by simp [openedFifo]; omega, by simp [openedFifo]; omega, nofun, by
    simp [openedFifo, serialRxLength, ringContents]⟩

end

end RTThread
