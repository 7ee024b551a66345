import RTThread.SerialInterrupt

namespace RTThread

/-- The FIFO of the DMA mode stores a queue of at most `bufsz` bytes; the get index may be
`bufsz`, which is as good as 0. -/
structure DmaFifoRep (bufsz : Nat) (f : SerialRxFifo) (q : List UInt8) : Prop where
  put_lt : f.putIndex < bufsz
  get_le : f.getIndex ≤ bufsz
  full : f.isFull = true → f.getIndex = f.putIndex
  contents : f.stored bufsz = q

/-- The sums of an index and a length fit 16 bits. -/
def IndexFits (bufsz : Nat) (f : SerialRxFifo) : SerialDmaAction → Prop
  | .read length => f.getIndex + min length (rtDmaCalcRecvedLen bufsz f) < 65536
  | .done bytes => f.putIndex + bytes.length < 65536
  | .recvedLen => True

instance (bufsz : Nat) (f : SerialRxFifo) : (a : SerialDmaAction) → Decidable (IndexFits bufsz f a)
  | .read _ => inferInstanceAs (Decidable (_ < _))
  | .done _ => inferInstanceAs (Decidable (_ < _))
  | .recvedLen => isTrue trivial

def serialDmaStep (bufsz : Nat) (f : SerialRxFifo) (a : SerialDmaAction) : Option SerialRxFifo :=
  some (serialDmaCall bufsz f a).2

section
variable {bufsz len : Nat} {f : SerialRxFifo} {q bytes : List UInt8}

theorem mod_once {n : Nat} (h : n < 2 * bufsz) :
    n % bufsz = if n < bufsz then n else n - bufsz := by
  split
  · next hlt => exact Nat.mod_eq_of_lt hlt
  · next hge =>
    rw [Nat.mod_eq_sub_mod (by omega), Nat.mod_eq_of_lt (by omega)]

theorem DmaFifoRep.length_eq (h : DmaFifoRep bufsz f q) :
    rtDmaCalcRecvedLen bufsz f = q.length := by
  rw [← h.contents, SerialRxFifo.stored, ringContents_length, rtDmaCalcRecvedLen]

theorem DmaFifoRep.calc_le (h : DmaFifoRep bufsz f q) : rtDmaCalcRecvedLen bufsz f ≤ bufsz := by
  have hput := h.put_lt
  have hget := h.get_le
  unfold rtDmaCalcRecvedLen serialFifoCalcRecvedLen
  grind

/-- The bytes end where the next one goes. -/
theorem DmaFifoRep.calc_end (h : DmaFifoRep bufsz f q) :
    (f.getIndex + rtDmaCalcRecvedLen bufsz f) % bufsz = f.putIndex := by
  have hput := h.put_lt
  have hget := h.get_le
  rw [mod_once (by unfold rtDmaCalcRecvedLen serialFifoCalcRecvedLen; grind)]
  unfold rtDmaCalcRecvedLen serialFifoCalcRecvedLen
  grind

/-- The length is read off the distance of the indices. -/
theorem calc_of_end {n : Nat} (hget : f.getIndex ≤ bufsz)
    (hfull : f.isFull = false) (hn : n < bufsz) (hend : (f.getIndex + n) % bufsz = f.putIndex) :
    rtDmaCalcRecvedLen bufsz f = n := by
  rw [mod_once (by omega)] at hend
  unfold rtDmaCalcRecvedLen serialFifoCalcRecvedLen
  grind

/-- After an event the put index has gone round, and either nothing was overwritten or the buffer
is full from the put index on. -/
theorem updatePutIndex_cases (h : DmaFifoRep bufsz f q) (hlen : len ≤ bufsz)
    (hfit : f.putIndex + len < 65536) :
    (rtDmaRecvUpdatePutIndex bufsz f len).buffer = f.buffer ∧
    (rtDmaRecvUpdatePutIndex bufsz f len).putIndex = (f.putIndex + len) % bufsz ∧
    (rtDmaRecvUpdatePutIndex bufsz f len).getIndex < bufsz ∧
    (rtDmaCalcRecvedLen bufsz f + len < bufsz ∧
        (rtDmaRecvUpdatePutIndex bufsz f len).isFull = false ∧
        (rtDmaRecvUpdatePutIndex bufsz f len).getIndex = f.getIndex % bufsz ∨
      bufsz ≤ rtDmaCalcRecvedLen bufsz f + len ∧
        (rtDmaRecvUpdatePutIndex bufsz f len).isFull = true ∧
        (rtDmaRecvUpdatePutIndex bufsz f len).getIndex =
          (rtDmaRecvUpdatePutIndex bufsz f len).putIndex) := by
  have hput := h.put_lt
  have hget := h.get_le
  have hfull := h.full
  have hindex : index16 (f.putIndex + len) = f.putIndex + len := Nat.mod_eq_of_lt hfit
  have hsum := mod_once (by omega : f.putIndex + len < 2 * bufsz)
  have hget' := mod_once (by omega : f.getIndex < 2 * bufsz)
  unfold rtDmaRecvUpdatePutIndex rtDmaCalcRecvedLen serialFifoCalcRecvedLen
  simp only [hindex, hsum, hget']
  grind

theorem DmaFifoRep.done (h : DmaFifoRep bufsz f q) (hlen : bytes.length ≤ bufsz)
    (hfit : f.putIndex + bytes.length < 65536) :
    DmaFifoRep bufsz (serialDmaDone bufsz f bytes) (keepLast bufsz (q ++ bytes)) := by
  have hpos : 0 < bufsz := by
    have hput := h.put_lt
    omega
  let written : SerialRxFifo := { f with buffer := ringWrite f.buffer bufsz f.putIndex bytes }
  have hrep : DmaFifoRep bufsz written (written.stored bufsz) := ⟨h.put_lt, h.get_le, h.full, rfl⟩
  have hend := h.calc_end
  have hold := h.contents
  have hsame : written.buffer =
      ringWrite f.buffer bufsz (f.getIndex + rtDmaCalcRecvedLen bufsz f) bytes := by
    rw [← ringWrite_mod, hend]
  obtain ⟨hbuffer, hput, hget, hcases⟩ := updatePutIndex_cases hrep hlen hfit
  have hput' : (rtDmaRecvUpdatePutIndex bufsz written bytes.length).putIndex =
      (f.getIndex + rtDmaCalcRecvedLen bufsz f + bytes.length) % bufsz := by
    rw [hput, ← Nat.mod_add_mod (f.getIndex + _), hend]
  have hqlen := h.length_eq
  refine ⟨hput ▸ Nat.mod_lt _ hpos, hget.le, fun hfull => ?_, ?_⟩
  · rcases hcases with ⟨-, hnot, -⟩ | ⟨-, -, heq⟩
    · exact absurd (hfull.symm.trans hnot) nofun
    · exact heq
  rw [serialDmaDone, SerialRxFifo.stored]
  rcases hcases with ⟨hroom, hnot, hstart⟩ | ⟨hover, hfull, hstart⟩
  · change rtDmaCalcRecvedLen bufsz f + bytes.length < bufsz at hroom
    change _ = f.getIndex % bufsz at hstart
    have hlength : serialFifoCalcRecvedLen bufsz
        (rtDmaRecvUpdatePutIndex bufsz written bytes.length) =
        rtDmaCalcRecvedLen bufsz f + bytes.length := by
      refine calc_of_end hget.le hnot hroom ?_
      rw [hstart, hput', Nat.mod_add_mod, Nat.add_assoc]
    rw [hlength, hbuffer, hstart, ringContents_mod, hsame, ringContents_write hroom.le,
      keepLast_of_le]
    · exact congrArg (· ++ bytes) hold
    · rw [List.length_append, ← hqlen]
      exact hroom.le
  · change bufsz ≤ rtDmaCalcRecvedLen bufsz f + bytes.length at hover
    have hlength : serialFifoCalcRecvedLen bufsz
        (rtDmaRecvUpdatePutIndex bufsz written bytes.length) = bufsz := by
      simp [serialFifoCalcRecvedLen, hstart, hfull]
    rw [hlength, hbuffer, hstart, hput', ringContents_mod, hsame, ringContents_overwrite hlen hover]
    exact congrArg (fun q => keepLast bufsz (q ++ bytes)) hold

theorem fifoBytes_eq (size : Nat) {i n : Nat} (h : i + n ≤ size) :
    fifoBytes f i n = ringContents f.buffer size i n :=
  (ringContents_of_le h).symm

/-- The two pieces of a read are one stretch of the buffer. -/
theorem serialDmaRx_data (h : DmaFifoRep bufsz f q) (length : Nat) :
    (serialDmaRx bufsz f length).1 = q.take length := by
  have hget := h.get_le
  have hcalc := h.calc_le
  have hqlen := h.length_eq
  have hrecv : (if length < rtDmaCalcRecvedLen bufsz f then length else rtDmaCalcRecvedLen bufsz f) =
      min length q.length := by
    rw [← hqlen]
    split <;> omega
  have htake : q.take length = ringContents f.buffer bufsz f.getIndex (min length q.length) := by
    rw [List.take_eq_take_min, ← ringContents_take_le (Nat.min_le_right length q.length), ← hqlen]
    exact congrArg _ h.contents.symm
  unfold serialDmaRx
  simp only [hrecv]
  split
  · next hroom => rw [htake, fifoBytes_eq bufsz hroom.le]
  · next hround =>
    have hsplit : min length q.length =
        bufsz - f.getIndex + (min length q.length + f.getIndex - bufsz) := by omega
    have hend : f.getIndex + (bufsz - f.getIndex) = bufsz + 0 := by omega
    rw [htake, hsplit, ringContents_add, hend, ringContents_size_add, ← hsplit,
      fifoBytes_eq bufsz (by omega), fifoBytes_eq bufsz (by omega)]

theorem DmaFifoRep.advance (h : DmaFifoRep bufsz f q) (hlen : len ≤ rtDmaCalcRecvedLen bufsz f)
    (hfit : f.getIndex + len < 65536) :
    DmaFifoRep bufsz (rtDmaRecvUpdateGetIndex bufsz f len) (q.drop len) := by
  have hput := h.put_lt
  have hget := h.get_le
  have hcalc := h.calc_le
  have hend := h.calc_end
  have hindex : index16 (f.getIndex + len) = f.getIndex + len := Nat.mod_eq_of_lt hfit
  let f' := rtDmaRecvUpdateGetIndex bufsz f len
  have hget' : f'.getIndex = if bufsz < f.getIndex + len then (f.getIndex + len) % bufsz
      else f.getIndex + len := by
    simp only [f', rtDmaRecvUpdateGetIndex, hindex]
  have hround : f'.getIndex % bufsz = (f.getIndex + len) % bufsz := by
    rw [hget']
    split
    · exact Nat.mod_mod _ _
    · rfl
  have hle : f'.getIndex ≤ bufsz := by
    rw [hget']
    split
    · exact (Nat.mod_lt _ (by omega)).le
    · omega
  have hfull' : f'.isFull = true → len = 0 ∧ f.isFull = true := by
    simp only [f', rtDmaRecvUpdateGetIndex]
    grind
  have hlength : rtDmaCalcRecvedLen bufsz f' = rtDmaCalcRecvedLen bufsz f - len := by
    by_cases hzero : len = 0
    · have hsame : f' = f := by
        subst hzero
        simp only [f', rtDmaRecvUpdateGetIndex, hindex]
        rw [if_neg (by omega), if_neg (by simp)]
        rfl
      rw [hsame, hzero, Nat.sub_zero]
    · refine calc_of_end hle ?_ (by omega) ?_
      · by_contra hfull
        exact hzero (hfull' (by simpa using hfull)).1
      · have hsum : f.getIndex + len + (rtDmaCalcRecvedLen bufsz f - len) =
            f.getIndex + rtDmaCalcRecvedLen bufsz f := by omega
        rw [← Nat.mod_add_mod, hround, Nat.mod_add_mod, hsum, hend]
        rfl
  refine ⟨hput, hle, fun hfull => ?_, ?_⟩
  · obtain ⟨hzero, hwas⟩ := hfull' hfull
    have hmeet := h.full hwas
    rw [hget', if_neg (by omega), hzero]
    exact hmeet
  · have hlength' : serialFifoCalcRecvedLen bufsz f' = rtDmaCalcRecvedLen bufsz f - len := hlength
    have hbuffer : f'.buffer = f.buffer := rfl
    rw [SerialRxFifo.stored, hlength', hbuffer, ← ringContents_mod, hround, ringContents_mod,
      ← ringContents_drop_le hlen]
    exact congrArg _ h.contents

theorem DmaFifoRep.read (h : DmaFifoRep bufsz f q) (length : Nat)
    (hfit : f.getIndex + min length (rtDmaCalcRecvedLen bufsz f) < 65536) :
    DmaFifoRep bufsz (serialDmaRx bufsz f length).2 (q.drop length) := by
  have hrecv : (if length < rtDmaCalcRecvedLen bufsz f then length else rtDmaCalcRecvedLen bufsz f) =
      min length (rtDmaCalcRecvedLen bufsz f) := by
    split <;> omega
  have hdrop : q.drop length = q.drop (min length (rtDmaCalcRecvedLen bufsz f)) := by
    rw [h.length_eq]
    rcases Nat.le_total length q.length with hle | hge
    · rw [Nat.min_eq_left hle]
    · rw [Nat.min_eq_right hge, List.drop_of_length_le hge, List.drop_length]
  unfold serialDmaRx
  simp only [hrecv, hdrop]
  exact h.advance (Nat.min_le_right _ _) hfit

theorem DmaFifoRep.call (h : DmaFifoRep bufsz f q) (a : SerialDmaAction)
    (hlen : ∀ bytes, a = .done bytes → bytes.length ≤ bufsz) (hfit : IndexFits bufsz f a) :
    (serialDmaCall bufsz f a).1 = (newestCall bufsz q a).1 ∧
      DmaFifoRep bufsz (serialDmaCall bufsz f a).2 (newestCall bufsz q a).2 := by
  cases a with
  | read length => exact ⟨congrArg _ (serialDmaRx_data h length), h.read length hfit⟩
  | done bytes => exact ⟨rfl, h.done (hlen bytes rfl) hfit⟩
  | recvedLen => exact ⟨congrArg _ h.length_eq, h⟩

theorem openedFifo_dmaRep (h2 : 2 ≤ bufsz) : DmaFifoRep bufsz openedFifo [] :=
  ⟨by simp [openedFifo]; omega, Nat.zero_le _, fun _ => rfl, rfl⟩

theorem DmaFifoRep.run {as : List SerialDmaAction} (h : DmaFifoRep bufsz f q)
    (hlen : ∀ bytes, .done bytes ∈ as → bytes.length ≤ bufsz)
    (hfit : RunMeets (serialDmaStep bufsz) (IndexFits bufsz) as f) :
    (runAnswers (serialDmaCall bufsz) f as).1 = (runAnswers (newestCall bufsz) q as).1 ∧
      DmaFifoRep bufsz (runAnswers (serialDmaCall bufsz) f as).2
        (runAnswers (newestCall bufsz) q as).2 := by
  induction as generalizing f q with
  | nil => exact ⟨rfl, h⟩
  | cons a as ih =>
    obtain ⟨hanswer, hnext⟩ := h.call a (fun bytes ha => hlen bytes (ha ▸ List.mem_cons_self)) hfit.1
    obtain ⟨hanswers, hend⟩ := ih hnext (fun bytes hmem => hlen bytes (List.mem_cons_of_mem a hmem))
      (hfit.2 _ rfl)
    exact ⟨congrArg₂ List.cons hanswer hanswers, hend⟩

/-- In interrupt mode the FIFO is a queue of the newest `bufsz - 1` bytes, whatever reads and
interrupts come in which order; in DMA mode it is one of the newest `bufsz` bytes as long as no sum
of an index and a length leaves 16 bits. -/
theorem serialFifos_keep_newest (bufsz : Nat) (h2 : 2 ≤ bufsz) (h16 : bufsz < 65536) :
    (∀ as, let run := runAnswers (serialIntCall (serialIntFifo bufsz)) ⟨openedFifo, fun _ => none⟩ as
      let queue := runAnswers (serialIntCall (newestBytes (bufsz - 1))) ⟨[], fun _ => none⟩ as
      run.1 = queue.1 ∧ run.2.reads = queue.2.reads ∧
        run.2.fifo.stored bufsz = queue.2.fifo ∧
        serialFifoCalcRecvedLen bufsz run.2.fifo = queue.2.fifo.length) ∧
    ∀ as, (∀ bytes, .done bytes ∈ as → bytes.length ≤ bufsz) →
      RunMeets (serialDmaStep bufsz) (IndexFits bufsz) as openedFifo →
      let run := runAnswers (serialDmaCall bufsz) openedFifo as
      let queue := runAnswers (newestCall bufsz) [] as
      run.1 = queue.1 ∧ run.2.stored bufsz = queue.2 ∧
        rtDmaCalcRecvedLen bufsz run.2 = queue.2.length := by
  constructor
  · intro as
    obtain ⟨hanswers, hfifo, hreads⟩ := runAnswers_refines (serialIntFifo_refines h2 h16).call
      (s := ⟨openedFifo, fun _ => none⟩) (t := ⟨[], fun _ => none⟩) ⟨openedFifo_intRep h2, rfl⟩ as
    exact ⟨hanswers, hreads, hfifo.stored_eq h2, hfifo.calcRecvedLen h2⟩
  · intro as hlen hfit
    obtain ⟨hanswers, hrep⟩ := (openedFifo_dmaRep h2).run hlen hfit
    exact ⟨hanswers, hrep.contents, hrep.length_eq⟩

theorem serialFifos_keep_newest_four :
    (runAnswers (serialDmaCall 4) openedFifo [.done [1, 2, 3], .read 2, .done [4, 5, 6, 7], .read 9]).1 =
      [.none, .data [1, 2], .none, .data [4, 5, 6, 7]] := by
  have hrun := (serialFifos_keep_newest 4 (by decide) (by decide)).2
    [.done [1, 2, 3], .read 2, .done [4, 5, 6, 7], .read 9] (by simp)
    (by decide)
  exact hrun.1

theorem putIndex_wraps {xs ys : List UInt8} (hx : xs.length = 30000) (hy : ys.length = 35536) :
    rtDmaCalcRecvedLen 40000
      (runAnswers (serialDmaCall 40000) openedFifo [.done xs, .done ys]).2 = 0 := by
  have hfirst : index16 (0 + 30000) = 30000 := by decide +kernel
  have hsecond : index16 (30000 + 35536) = 0 := by decide +kernel
  simp only [runAnswers, serialDmaCall, serialDmaDone, rtDmaRecvUpdatePutIndex, hx, hy, openedFifo,
    hfirst]
  simp [hsecond, rtDmaCalcRecvedLen, serialFifoCalcRecvedLen]

/-- The put index wraps at 65536 instead of 40000, and a full FIFO counts as empty. -/
theorem serialDma_loses_wrapped_index : ¬∀ as : List SerialDmaAction,
    (∀ bytes, .done bytes ∈ as → bytes.length ≤ 40000) →
    rtDmaCalcRecvedLen 40000 (runAnswers (serialDmaCall 40000) openedFifo as).2 =
      (runAnswers (newestCall 40000) [] as).2.length := by
  intro h
  obtain ⟨xs, hx⟩ : ∃ xs : List UInt8, xs.length = 30000 := ⟨List.replicate _ 0, List.length_replicate⟩
  obtain ⟨ys, hy⟩ : ∃ ys : List UInt8, ys.length = 35536 := ⟨List.replicate _ 0, List.length_replicate⟩
  have hempty := h [.done xs, .done ys] fun bytes hmem => by
    simp only [List.mem_cons, SerialDmaAction.done.injEq, List.not_mem_nil, or_false] at hmem
    rcases hmem with rfl | rfl
    · omega
    · omega
  rw [putIndex_wraps hx hy] at hempty
  simp only [runAnswers, newestCall, keepLast_length, List.length_append, List.nil_append, hx,
    hy] at hempty
  omega

end

end RTThread
