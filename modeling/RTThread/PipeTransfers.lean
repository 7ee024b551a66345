import RTThread.PipeModel

namespace RTThread

/-- The loop of `rt_pipe_read`: `got` is what is read so far. -/
def pipeReadLoop (count : Nat) (fifo : RtRingbuffer) (got : RingAnswer) : RingAnswer × RtRingbuffer :=
  if got.count < count then
    let (len, fifo') := rtRingbufferGet fifo ((count - got.count) % 65536)
    if len.count = 0 then (got, fifo')
    else pipeReadLoop count fifo' ⟨got.count + len.count, got.bytes ++ len.bytes⟩
  else (got, fifo)
termination_by count - got.count

/-- The loop of `rt_pipe_write`: `pbuf` is what is still to be written. -/
def pipeWriteLoop (fifo : RtRingbuffer) (pbuf : List Byte) (writeBytes : Nat) : Nat × RtRingbuffer :=
  if 0 < pbuf.length then
    let (len, fifo') := rtRingbufferPut fifo (pbuf.take (pbuf.length % 65536))
    if len = 0 then (writeBytes, fifo')
    else pipeWriteLoop fifo' (pbuf.drop len) (writeBytes + len)
  else (writeBytes, fifo)
termination_by pbuf.length

def rtPipeRead (fifo : RtRingbuffer) (count : Nat) : RingAnswer × RtRingbuffer :=
  if count = 0 then (⟨0, []⟩, fifo) else pipeReadLoop count fifo ⟨0, []⟩

def rtPipeWrite (fifo : RtRingbuffer) (buffer : List Byte) : Nat × RtRingbuffer :=
  if buffer = [] then (0, fifo) else pipeWriteLoop fifo buffer 0

/-- What the loops move of a count where `available` can be moved: a call is told the count modulo
65536, and the first that moves nothing ends the loop. -/
def chunkedTotal (count available : Nat) : Nat :=
  if 65536 ≤ count ∧ count % 65536 < available then count % 65536 else min count available

section
variable {fifo : RtRingbuffer} {count d n : Nat} {got : RingAnswer} {pbuf : List Byte}

theorem chunkedTotal_step (count available : Nat) :
    min (count % 65536) available + chunkedTotal (count - min (count % 65536) available)
      (available - min (count % 65536) available) = chunkedTotal count available := by
  unfold chunkedTotal
  rcases Nat.lt_or_ge (count % 65536) available with h | h
  · rw [Nat.min_eq_left h.le]
    split <;> split <;> omega
  · rw [Nat.min_eq_right h]
    split <;> split <;> omega

theorem chunkedTotal_stops {available : Nat} (h : min (count % 65536) available = 0) :
    chunkedTotal count available = 0 := by
  unfold chunkedTotal
  split <;> omega

/-- The count is moved as far as possible exactly where its last sixteen bits do not cut it off. -/
theorem chunkedTotal_eq_min {available : Nat} :
    chunkedTotal count available = min count available ↔
      count < 65536 ∨ available ≤ count % 65536 := by
  unfold chunkedTotal
  split <;> omega

/-- The bytes read are the oldest ones, as many as the loop gets. -/
theorem pipeReadLoop_spec (h : RingbufferRep fifo d) :
    (pipeReadLoop count fifo got).1 =
      ⟨got.count + chunkedTotal (count - got.count) d,
        got.bytes ++ fifo.contents.take (chunkedTotal (count - got.count) d)⟩ := by
  fun_induction pipeReadLoop count fifo got generalizing d with
  | case1 fifo got hlt len fifo' hget hzero =>
    obtain ⟨hlen, -, -⟩ := h.get ((count - got.count) % 65536)
    rw [hget] at hlen
    have hnone : chunkedTotal (count - got.count) d = 0 := by
      apply chunkedTotal_stops
      rw [← hzero, show len = _ from hlen]
    simp [hnone]
  | case2 fifo got hlt len fifo' hget hmore ih =>
    obtain ⟨hlen, hrep, hrest, -⟩ := h.get ((count - got.count) % 65536)
    rw [hget] at hlen hrep hrest
    have hcount : len.count = min ((count - got.count) % 65536) d := by rw [show len = _ from hlen]
    have htaken : len.bytes = fifo.contents.take len.count := by
      have hshort := h.contents_length
      rw [show len = _ from hlen]
      rw [List.take_eq_take_min, hshort]
    have hleft : d - (count - got.count) % 65536 = d - len.count := by omega
    have hdrop : fifo'.contents = fifo.contents.drop len.count := by
      have hshort := h.contents_length
      rw [hcount, ← hshort, ← List.drop_eq_drop_min]
      exact hrest
    rw [hleft] at hrep
    have hstep := chunkedTotal_step (count - got.count) d
    rw [← hcount] at hstep
    rw [ih hrep, Nat.sub_add_eq, hdrop, htaken, ← hstep, List.append_assoc, ← List.take_add,
      Nat.add_assoc]
  | case3 fifo got hge =>
    have hnone : chunkedTotal (count - got.count) d = 0 := by
      apply chunkedTotal_stops
      omega
    simp [hnone]

theorem pipeWriteLoop_spec (h : RingbufferRep fifo d) :
    (pipeWriteLoop fifo pbuf n).1 = n + chunkedTotal pbuf.length (fifo.bufferSize - d) := by
  fun_induction pipeWriteLoop fifo pbuf n generalizing d with
  | case1 fifo pbuf n hlt fifo' hput =>
    obtain ⟨hlen, -, -⟩ := h.put (pbuf.take (pbuf.length % 65536))
    rw [hput, List.length_take, List.length_take] at hlen
    have hnone : chunkedTotal pbuf.length (fifo.bufferSize - d) = 0 := by
      apply chunkedTotal_stops
      omega
    omega
  | case2 fifo pbuf n hlt len fifo' hput hmore ih =>
    obtain ⟨hlen, hrep, -, hsize⟩ := h.put (pbuf.take (pbuf.length % 65536))
    rw [hput] at hlen hrep hsize
    rw [← hlen] at hrep
    rw [List.length_take, List.length_take] at hlen
    have hleft : fifo.bufferSize - (d + len) = fifo.bufferSize - d - len := by omega
    have hcount : len = min (pbuf.length % 65536) (fifo.bufferSize - d) := by omega
    have hstep := chunkedTotal_step pbuf.length (fifo.bufferSize - d)
    rw [← hcount] at hstep
    rw [ih hrep, hsize, hleft, List.length_drop]
    omega
  | case3 fifo pbuf n hge =>
    have hnone : chunkedTotal pbuf.length (fifo.bufferSize - d) = 0 := by
      apply chunkedTotal_stops
      omega
    omega

theorem rtPipeRead_count (h : RingbufferRep fifo d) (count : Nat) :
    (rtPipeRead fifo count).1.count = chunkedTotal count d := by
  unfold rtPipeRead
  split
  next hzero => simp [hzero, chunkedTotal]
  next => simp [pipeReadLoop_spec h]

theorem rtPipeWrite_count (h : RingbufferRep fifo d) (buffer : List Byte) :
    (rtPipeWrite fifo buffer).1 = chunkedTotal buffer.length (fifo.bufferSize - d) := by
  unfold rtPipeWrite
  split
  next hzero => simp [hzero, chunkedTotal]
  next => simp [pipeWriteLoop_spec h]

/-- A turn of `pipe_fops_read` that gets bytes returns their number. -/
theorem readTurn_returns {s : Pipe} (t : ThreadId) (nonblock : Bool) (count : Nat)
    (h : RingbufferRep fifo d) (hwriters : s.writers ≠ 0) (hdata : 0 < d) :
    (∃ n bytes, 0 < n ∧
      (s.readTurn t fifo count nonblock).2 = [.read count (.count n) bytes]) ↔ count % 65536 ≠ 0 := by
  obtain ⟨hget, -⟩ := h.get (count % 65536)
  unfold Pipe.readTurn
  rw [if_neg hwriters]
  dsimp only
  rw [hget]
  by_cases hcount : count % 65536 = 0
  · have hnone : ¬0 < min (count % 65536) d := by omega
    rw [if_neg hnone]
    cases nonblock <;> simp [hcount]
  · have hsome : 0 < min (count % 65536) d := by omega
    rw [if_pos hsome]
    simp only [hcount, not_false_eq_true, ne_eq, iff_true]
    exact ⟨_, _, hsome, rfl⟩

end

/-- `pipe_fops_read`, called where no other call comes between its entry and its first turn,
returns a positive number of bytes. -/
def FopsReadGives (s : Pipe) (t : ThreadId) (fifo : RtRingbuffer) (count : Nat) (nonblock : Bool) :
    Prop :=
  ∃ s' n bytes, s.pipeFopsRead t count nonblock = (s', []) ∧ 0 < n ∧
    (s'.readTurn t fifo count nonblock).2 = [.read count (.count n) bytes]

/-- What the transfers of `count` bytes are to do, on a pipe whose ring buffer is `fifo`. -/
structure TransfersMaximal (s : Pipe) (fifo : RtRingbuffer) (count : Nat) : Prop where
  read : (rtPipeRead fifo count).1.count = min count (rtRingbufferDataLen fifo)
  write : ∀ buffer : List Byte, buffer.length = count →
    (rtPipeWrite fifo buffer).1 = min count (rtRingbufferSpaceLen fifo)
  fopsRead : count ≠ 0 → rtRingbufferDataLen fifo ≠ 0 → ∀ t nonblock,
    FopsReadGives s t fifo count nonblock

/-- The last sixteen bits of the count do not cut a transfer off, and data is read while the pipe
has a writer. -/
def TransferFits (s : Pipe) (fifo : RtRingbuffer) (count : Nat) : Prop :=
  (count < 65536 ∨
    rtRingbufferDataLen fifo ≤ count % 65536 ∧ rtRingbufferSpaceLen fifo ≤ count % 65536) ∧
  (count ≠ 0 → rtRingbufferDataLen fifo ≠ 0 → s.writers ≠ 0)

section
variable {s : Pipe} {fifo : RtRingbuffer} {count d : Nat}

theorem fopsReadGives_iff {t : ThreadId} {nonblock : Bool} (h : RingbufferRep fifo d) (hdata : 0 < d) :
    FopsReadGives s t fifo count nonblock ↔ s.writers ≠ 0 ∧ count % 65536 ≠ 0 := by
  unfold FopsReadGives Pipe.pipeFopsRead
  by_cases hwriters : s.writers = 0
  · simp [hwriters]
  · have hturn := readTurn_returns (s := s.setFrame t (.reading count nonblock)) t nonblock count h
      hwriters hdata
    rw [if_neg hwriters, ← hturn]
    simp only [Prod.mk.injEq, and_true, ne_eq, hwriters, not_false_eq_true, true_and]
    constructor
    · rintro ⟨s', n, bytes, rfl, hn, he⟩
      exact ⟨n, bytes, hn, he⟩
    · rintro ⟨n, bytes, hn, he⟩
      exact ⟨_, n, bytes, rfl, hn, he⟩

/-- The transfers of a count are maximal exactly where the count fits. -/
theorem pipe_transfers_iff (hr : RingbufferReach fifo) (hpos : 0 < fifo.bufferSize) (s : Pipe)
    (count : Nat) : TransfersMaximal s fifo count ↔ TransferFits s fifo count := by
  obtain ⟨d, h⟩ := ringbufferReach_rep hr hpos
  have hsize := h.size_lt
  have hwrite : (∀ buffer : List Byte, buffer.length = count →
      (rtPipeWrite fifo buffer).1 = min count (fifo.bufferSize - d)) ↔
      chunkedTotal count (fifo.bufferSize - d) = min count (fifo.bufferSize - d) := by
    constructor
    · intro hall
      have hone := hall (List.replicate count 0) List.length_replicate
      rwa [rtPipeWrite_count h, List.length_replicate] at hone
    · rintro hcount buffer rfl
      rw [rtPipeWrite_count h, hcount]
  have hread := rtPipeRead_count h count
  have hdata := h.dataLen
  have hspace := h.spaceLen
  constructor
  · rintro ⟨h1, h2, h3⟩
    rw [hdata, hread, chunkedTotal_eq_min] at h1
    rw [hspace, hwrite, chunkedTotal_eq_min] at h2
    refine ⟨by omega, fun hcount hsome => ?_⟩
    exact ((fopsReadGives_iff h (by omega)).mp (h3 hcount hsome 0 false)).1
  · rintro ⟨hfits, hwriters⟩
    rw [hdata, hspace] at hfits
    refine ⟨?_, ?_, fun hcount hsome t nonblock => ?_⟩
    · rw [hdata, hread, chunkedTotal_eq_min]
      omega
    · rw [hspace, hwrite, chunkedTotal_eq_min]
      omega
    · rw [fopsReadGives_iff h (by omega)]
      exact ⟨hwriters hcount hsome, by omega⟩

end

/-- Two bytes are stored, and a reader asks for 65536. -/
theorem pipe_transfers_none : ¬∀ (fifo : RtRingbuffer), RingbufferReach fifo →
    0 < fifo.bufferSize → ∀ (s : Pipe) (count : Nat), TransfersMaximal s fifo count := by
  intro hall
  have hread := (hall twoStored twoStored_reach (by decide) (createdPipe 4) 65536).read
  rw [rtPipeRead, if_neg (by decide), pipeReadLoop] at hread
  revert hread
  decide

theorem pipe_transfers_iff_twoStored :
    TransfersMaximal (createdPipe 4) twoStored 2 ↔ TransferFits (createdPipe 4) twoStored 2 :=
  pipe_transfers_iff twoStored_reach (by decide) (createdPipe 4) 2

end RTThread
