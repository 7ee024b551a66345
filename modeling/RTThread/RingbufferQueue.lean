import RTThread.HeapHeaders
import RTThread.Runs
import RTThread.RingbufferModel

namespace RTThread

/-- A position went `n` slots on, to the other side of the mirror where it reached the end. -/
def Moved (size : Nat) (m m' : Bool) (i i' n : Nat) : Prop :=
  (i + n < size ∧ m' = m ∧ i' = i + n) ∨ (size ≤ i + n ∧ m' = !m ∧ i' + size = i + n)

/-- The write position is `d` slots ahead of the read position. -/
structure RingbufferRep (rb : RtRingbuffer) (d : Nat) : Prop where
  size_lt : rb.bufferSize < 32768
  read_lt : rb.readIndex < rb.bufferSize
  write_lt : rb.writeIndex < rb.bufferSize
  stored_le : d ≤ rb.bufferSize
  ahead : Moved rb.bufferSize rb.readMirror rb.writeMirror rb.readIndex rb.writeIndex d

section
variable {rb rb' : RtRingbuffer} {d n : Nat} {ptr : List Byte} {ch : Byte} {A : AlignSize}
  {pool : Nat → Byte} {size : Nat}

theorem bool_ne_not (b : Bool) : b ≠ !b := by cases b <;> decide

theorem RingbufferRep.dataLen (h : RingbufferRep rb d) : rtRingbufferDataLen rb = d := by
  obtain ⟨-, hr, hw, hd, ⟨hlt, hm, hi⟩ | ⟨hge, hm, hi⟩⟩ := h
  · unfold rtRingbufferDataLen rtRingbufferStatus
    by_cases he : rb.readIndex = rb.writeIndex
    · simp only [if_pos he, if_pos hm.symm]
      omega
    · simp only [if_neg he, if_pos (by omega : rb.readIndex < rb.writeIndex)]
      omega
  · unfold rtRingbufferDataLen rtRingbufferStatus
    have hne : rb.readMirror ≠ rb.writeMirror := hm ▸ bool_ne_not _
    by_cases he : rb.readIndex = rb.writeIndex
    · simp only [if_pos he, if_neg hne]
      omega
    · simp only [if_neg he, if_neg (by omega : ¬rb.readIndex < rb.writeIndex)]
      omega

theorem RingbufferRep.spaceLen (h : RingbufferRep rb d) :
    rtRingbufferSpaceLen rb = rb.bufferSize - d := by
  rw [rtRingbufferSpaceLen, h.dataLen]

theorem RingbufferRep.contents_eq (h : RingbufferRep rb d) :
    rb.contents = ringContents rb.bufferPtr rb.bufferSize rb.readIndex d := by
  rw [RtRingbuffer.contents, h.dataLen]

theorem RingbufferRep.contents_length (h : RingbufferRep rb d) : rb.contents.length = d := by
  rw [h.contents_eq, ringContents_length]

theorem Moved.mod_eq {m m' : Bool} {i i' : Nat} (h : Moved size m m' i i' n) (hi : i' < size) :
    (i + n) % size = i' := by
  obtain ⟨hlt, -, rfl⟩ | ⟨hge, -, he⟩ := h
  · exact Nat.mod_eq_of_lt hlt
  · rw [← he, Nat.add_mod_right, Nat.mod_eq_of_lt hi]

/-- Moving the write position on stores `n` more bytes. -/
theorem RingbufferRep.write (h : RingbufferRep rb d) (hn : d + n ≤ rb.bufferSize)
    (hsize : rb'.bufferSize = rb.bufferSize) (hrm : rb'.readMirror = rb.readMirror)
    (hr : rb'.readIndex = rb.readIndex) (hw : rb'.writeIndex < rb.bufferSize)
    (hmoved : Moved rb.bufferSize rb.writeMirror rb'.writeMirror rb.writeIndex rb'.writeIndex n) :
    RingbufferRep rb' (d + n) := by
  obtain ⟨hlt, hread, hwrite, hd, hahead⟩ := h
  refine ⟨hsize ▸ hlt, by omega, by omega, by omega, ?_⟩
  rw [hsize, hrm, hr]
  obtain ⟨h1, h2, h3⟩ | ⟨h1, h2, h3⟩ := hahead <;> obtain ⟨g1, g2, g3⟩ | ⟨g1, g2, g3⟩ := hmoved
  · exact .inl ⟨by omega, g2.trans h2, by omega⟩
  · exact .inr ⟨by omega, by rw [g2, h2], by omega⟩
  · exact .inr ⟨by omega, g2.trans h2, by omega⟩
  · omega

/-- Moving the read position on drops the oldest `n` bytes. -/
theorem RingbufferRep.read (h : RingbufferRep rb (n + d))
    (hsize : rb'.bufferSize = rb.bufferSize) (hwm : rb'.writeMirror = rb.writeMirror)
    (hw : rb'.writeIndex = rb.writeIndex) (hr : rb'.readIndex < rb.bufferSize)
    (hmoved : Moved rb.bufferSize rb.readMirror rb'.readMirror rb.readIndex rb'.readIndex n) :
    RingbufferRep rb' d := by
  obtain ⟨hlt, hread, hwrite, hd, hahead⟩ := h
  refine ⟨hsize ▸ hlt, by omega, by omega, by omega, ?_⟩
  rw [hsize, hwm, hw]
  obtain ⟨h1, h2, h3⟩ | ⟨h1, h2, h3⟩ := hahead <;> obtain ⟨g1, g2, g3⟩ | ⟨g1, g2, g3⟩ := hmoved
  · exact .inl ⟨by omega, h2.trans g2.symm, by omega⟩
  · omega
  · exact .inr ⟨by omega, by rw [h2, g2], by omega⟩
  · exact .inl ⟨by omega, by rw [h2, g2], by omega⟩

theorem copyIn_eq {buffer : Nat → Byte} {i : Nat} {xs : List Byte} (size : Nat)
    (h : i + xs.length ≤ size) :
    copyIn buffer i xs = ringWrite buffer size i xs := by
  induction xs generalizing buffer i with
  | nil => rfl
  | cons x xs ih =>
    rw [List.length_cons] at h
    rw [copyIn, ringWrite, Nat.mod_eq_of_lt (by omega : i < size), ih (by omega)]

theorem copyOut_eq {buffer : Nat → Byte} {i : Nat} (h : i + n ≤ size) :
    copyOut buffer i n = ringContents buffer size i n :=
  (ringContents_of_le h).symm

/-- The two pieces of a block transfer are one write round the buffer. -/
theorem writeBlock_bufferPtr (hw : rb.writeIndex < rb.bufferSize) (hn : n ≤ rb.bufferSize)
    (hlen : n ≤ ptr.length) : (writeBlock rb ptr n).bufferPtr =
      ringWrite rb.bufferPtr rb.bufferSize rb.writeIndex (ptr.take n) := by
  unfold writeBlock
  by_cases hroom : n < rb.bufferSize - rb.writeIndex
  · simp only [if_pos hroom]
    exact copyIn_eq _ (by rw [List.length_take]; omega)
  · simp only [if_neg hroom]
    have hfirst : (ptr.take (rb.bufferSize - rb.writeIndex)).length = rb.bufferSize - rb.writeIndex :=
      List.length_take_of_le (by omega)
    have hsplit : ptr.take n = ptr.take (rb.bufferSize - rb.writeIndex) ++
        (ptr.drop (rb.bufferSize - rb.writeIndex)).take (n - (rb.bufferSize - rb.writeIndex)) := by
      rw [← List.take_add]
      congr 1
      omega
    have hend : rb.writeIndex + (rb.bufferSize - rb.writeIndex) = rb.bufferSize := by omega
    rw [hsplit, ringWrite_append, hfirst, hend, ← ringWrite_mod, Nat.mod_self,
      copyIn_eq rb.bufferSize (by rw [List.length_take]; omega), copyIn_eq rb.bufferSize (by omega)]

theorem writeBlock_moved (ptr : List Byte) (hlt : rb.bufferSize < 32768) (hw : rb.writeIndex < rb.bufferSize)
    (hn : n ≤ rb.bufferSize) : (writeBlock rb ptr n).writeIndex < rb.bufferSize ∧
      Moved rb.bufferSize rb.writeMirror (writeBlock rb ptr n).writeMirror rb.writeIndex
        (writeBlock rb ptr n).writeIndex n := by
  unfold writeBlock Moved index15
  by_cases hroom : n < rb.bufferSize - rb.writeIndex
  · simp only [if_pos hroom]
    exact ⟨by omega, .inl ⟨by omega, trivial, by omega⟩⟩
  · simp only [if_neg hroom]
    exact ⟨by omega, .inr ⟨by omega, trivial, by omega⟩⟩

theorem writeBlock_frame (rb : RtRingbuffer) (ptr : List Byte) (n : Nat) :
    (writeBlock rb ptr n).bufferSize = rb.bufferSize ∧
    (writeBlock rb ptr n).readMirror = rb.readMirror ∧
    (writeBlock rb ptr n).readIndex = rb.readIndex := by
  unfold writeBlock
  by_cases hroom : n < rb.bufferSize - rb.writeIndex
  · simp only [if_pos hroom, and_self]
  · simp only [if_neg hroom, and_self]

theorem RingbufferRep.stored (h : RingbufferRep rb d) (hn : d + n ≤ rb.bufferSize)
    (hlen : n ≤ ptr.length) : RingbufferRep (writeBlock rb ptr n) (d + n) ∧
      (writeBlock rb ptr n).contents = rb.contents ++ ptr.take n := by
  obtain ⟨hsize, hrm, hr⟩ := writeBlock_frame rb ptr n
  obtain ⟨hw, hmoved⟩ := writeBlock_moved ptr h.size_lt h.write_lt (by omega : n ≤ _)
  have hrep := h.write hn hsize hrm hr hw hmoved
  refine ⟨hrep, ?_⟩
  have htaken : (ptr.take n).length = n := List.length_take_of_le hlen
  have hwrite : ringContents (ringWrite rb.bufferPtr rb.bufferSize rb.writeIndex (ptr.take n))
      rb.bufferSize rb.readIndex (d + n) =
      ringContents rb.bufferPtr rb.bufferSize rb.readIndex d ++ ptr.take n := by
    rw [← ringContents_write (by omega), htaken, ← h.ahead.mod_eq h.write_lt, ringWrite_mod]
  rw [hrep.contents_eq, h.contents_eq, hsize, hr,
    writeBlock_bufferPtr h.write_lt (by omega) hlen, hwrite]

theorem writeChar_eq (h : RingbufferRep rb d) : writeChar rb ch = writeBlock rb [ch] 1 := by
  have hw := h.write_lt
  unfold writeChar writeBlock
  by_cases hend : rb.writeIndex = rb.bufferSize - 1
  · have hroom : rb.bufferSize - rb.writeIndex = 1 := by omega
    simp only [if_pos hend, hroom, Nat.lt_irrefl, if_false, Nat.sub_self]
    rfl
  · simp only [if_neg hend, if_pos (by omega : 1 < rb.bufferSize - rb.writeIndex)]
    rfl

theorem putchar_eq (h : RingbufferRep rb d) :
    rtRingbufferPutchar rb ch = rtRingbufferPut rb [ch] := by
  unfold rtRingbufferPutchar rtRingbufferPut
  by_cases hfull : rtRingbufferSpaceLen rb = 0
  · simp only [if_pos hfull]
  · have hlen : ¬rtRingbufferSpaceLen rb < [ch].length := by
      rw [List.length_singleton]
      omega
    simp only [if_neg hfull, if_neg hlen, writeChar_eq h]
    rfl

theorem getchar_eq (h : RingbufferRep rb d) : rtRingbufferGetchar rb = rtRingbufferGet rb 1 := by
  have hr := h.read_lt
  have hlt := h.size_lt
  unfold rtRingbufferGetchar rtRingbufferGet
  by_cases hempty : rtRingbufferDataLen rb = 0
  · simp only [if_pos hempty]
  · simp only [if_neg hempty, if_neg (by omega : ¬rtRingbufferDataLen rb < 1)]
    by_cases hend : rb.readIndex = rb.bufferSize - 1
    · have hroom : rb.bufferSize - rb.readIndex = 1 := by omega
      simp only [if_pos hend, hroom, Nat.lt_irrefl, if_false, Nat.sub_self]
      rfl
    · simp only [if_neg hend, if_pos (by omega : 1 < rb.bufferSize - rb.readIndex)]
      rfl

/-- `rt_ringbuffer_put` appends the longest prefix that fits. -/
theorem RingbufferRep.put (h : RingbufferRep rb d) (ptr : List Byte) :
    (rtRingbufferPut rb ptr).1 = (ptr.take (rb.bufferSize - d)).length ∧
    RingbufferRep (rtRingbufferPut rb ptr).2 (d + (ptr.take (rb.bufferSize - d)).length) ∧
    (rtRingbufferPut rb ptr).2.contents = rb.contents ++ ptr.take (rb.bufferSize - d) ∧
    (rtRingbufferPut rb ptr).2.bufferSize = rb.bufferSize := by
  have hd := h.stored_le
  unfold rtRingbufferPut
  by_cases hfull : rtRingbufferSpaceLen rb = 0
  · have hnone : rb.bufferSize - d = 0 := by rw [← h.spaceLen, hfull]
    simp only [if_pos hfull, hnone, List.take_zero, List.length_nil, List.append_nil, Nat.add_zero,
      and_true, true_and]
    exact h
  · have hmin : (if rtRingbufferSpaceLen rb < ptr.length then rtRingbufferSpaceLen rb
        else ptr.length) = (ptr.take (rb.bufferSize - d)).length := by
      rw [h.spaceLen, List.length_take]
      split <;> omega
    have htake : ptr.take (ptr.take (rb.bufferSize - d)).length = ptr.take (rb.bufferSize - d) := by
      rw [List.length_take]
      rcases Nat.le_total (rb.bufferSize - d) ptr.length with hle | hle
      · rw [Nat.min_eq_left hle]
      · rw [Nat.min_eq_right hle, List.take_length, List.take_of_length_le hle]
    have hlen := List.length_take (i := rb.bufferSize - d) (l := ptr)
    have hfits : d + (ptr.take (rb.bufferSize - d)).length ≤ rb.bufferSize := by omega
    obtain ⟨hrep, hcontents⟩ := h.stored hfits (by omega : _ ≤ ptr.length)
    rw [htake] at hcontents
    simp only [if_neg hfull, hmin]
    exact ⟨trivial, hrep, hcontents, (writeBlock_frame _ _ _).1⟩

/-- `rt_ringbuffer_get` hands out the oldest bytes and removes them. -/
theorem RingbufferRep.get (h : RingbufferRep rb d) (length : Nat) :
    (rtRingbufferGet rb length).1 = ⟨min length d, rb.contents.take length⟩ ∧
    RingbufferRep (rtRingbufferGet rb length).2 (d - length) ∧
    (rtRingbufferGet rb length).2.contents = rb.contents.drop length ∧
    (rtRingbufferGet rb length).2.bufferSize = rb.bufferSize := by
  have hd := h.stored_le
  have hlt := h.size_lt
  have hread := h.read_lt
  unfold rtRingbufferGet
  rw [h.dataLen]
  by_cases hempty : d = 0
  · subst hempty
    have hnil : rb.contents = [] := List.length_eq_zero_iff.mp h.contents_length
    simp only [if_true, hnil, List.take_nil, List.drop_nil, Nat.min_zero, Nat.zero_sub, and_true,
      true_and]
    exact h
  · obtain ⟨n, hn⟩ : ∃ n, n = min length d := ⟨_, rfl⟩
    have hmin : (if d < length then d else length) = n := by split <;> omega
    have htake : rb.contents.take length = ringContents rb.bufferPtr rb.bufferSize rb.readIndex n := by
      rw [List.take_eq_take_min, h.contents_length, ← hn, h.contents_eq,
        ringContents_take_le (by omega)]
    have hdrop : rb.contents.drop length =
        ringContents rb.bufferPtr rb.bufferSize (rb.readIndex + n) (d - n) := by
      rw [List.drop_eq_drop_min, h.contents_length, ← hn, h.contents_eq,
        ringContents_drop_le (by omega)]
    have hleft : d - length = d - n := by omega
    have hrep : RingbufferRep rb (n + (d - n)) := by rwa [Nat.add_sub_of_le (by omega)]
    simp only [if_neg hempty, hmin, htake, hdrop, hleft, ← hn]
    by_cases hroom : n < rb.bufferSize - rb.readIndex
    · simp only [if_pos hroom, copyOut_eq (by omega : rb.readIndex + n ≤ rb.bufferSize), index15,
        Nat.mod_eq_of_lt (by omega : rb.readIndex + n < 32768), true_and, and_true]
      have hrest : RingbufferRep { rb with readIndex := rb.readIndex + n } (d - n) := by
        refine hrep.read rfl rfl rfl ?_ (.inl ⟨by omega, rfl, rfl⟩)
        show rb.readIndex + n < rb.bufferSize
        omega
      exact ⟨hrest, hrest.contents_eq⟩
    · have hwrap : rb.readIndex + (rb.bufferSize - rb.readIndex) = rb.bufferSize := by omega
      have hbytes : ringContents rb.bufferPtr rb.bufferSize rb.readIndex n =
          copyOut rb.bufferPtr rb.readIndex (rb.bufferSize - rb.readIndex) ++
            copyOut rb.bufferPtr 0 (n - (rb.bufferSize - rb.readIndex)) := by
        have hn' : n = rb.bufferSize - rb.readIndex + (n - (rb.bufferSize - rb.readIndex)) := by omega
        rw [copyOut_eq (by omega : _ ≤ rb.bufferSize), copyOut_eq (by omega : _ ≤ rb.bufferSize)]
        conv_lhs => rw [hn', ringContents_add, hwrap]
        exact congrArg _ (ringContents_size_add 0)
      have hindex : index15 (n - (rb.bufferSize - rb.readIndex)) =
          n - (rb.bufferSize - rb.readIndex) := Nat.mod_eq_of_lt (by omega)
      have hrest : RingbufferRep { rb with
          readMirror := !rb.readMirror
          readIndex := n - (rb.bufferSize - rb.readIndex) } (d - n) := by
        refine hrep.read rfl rfl rfl ?_ (.inr ⟨by omega, rfl, ?_⟩)
        · show n - (rb.bufferSize - rb.readIndex) < rb.bufferSize
          omega
        · show n - (rb.bufferSize - rb.readIndex) + rb.bufferSize = rb.readIndex + n
          omega
      simp only [if_neg hroom, hbytes, hindex, true_and, and_true]
      have hout : rb.readIndex + n =
          rb.bufferSize + (n - (rb.bufferSize - rb.readIndex)) := by omega
      rw [hout, ringContents_size_add]
      exact ⟨hrest, hrest.contents_eq⟩

theorem RingbufferRep.reset (h : RingbufferRep rb d) : RingbufferRep (rtRingbufferReset rb) 0 := by
  have hpos : 0 < rb.bufferSize := Nat.zero_lt_of_lt h.read_lt
  exact ⟨h.size_lt, hpos, hpos, Nat.zero_le _, .inl ⟨hpos, rfl, rfl⟩⟩

/-- A call answers as the queue does and leaves the bytes the queue holds. -/
theorem ringbufferCall_spec (h : RingbufferRep rb d) (c : RingbufferCall) :
    (ringbufferCall rb c).1 = (queueCall rb.bufferSize rb.contents c).1 ∧
    (∃ d', RingbufferRep (ringbufferCall rb c).2 d') ∧
    (ringbufferCall rb c).2.contents = (queueCall rb.bufferSize rb.contents c).2 ∧
    (ringbufferCall rb c).2.bufferSize = rb.bufferSize := by
  have hcount := h.contents_length
  cases c with
  | put ptr =>
    obtain ⟨hlen, hrep, hcontents, hsize⟩ := h.put ptr
    rw [ringbufferCall, queueCall, hcount]
    exact ⟨congrArg (RingAnswer.mk · []) hlen, ⟨_, hrep⟩, hcontents, hsize⟩
  | putchar ch =>
    obtain ⟨hlen, hrep, hcontents, hsize⟩ := h.put [ch]
    rw [ringbufferCall, queueCall, hcount, putchar_eq h]
    exact ⟨congrArg (RingAnswer.mk · []) hlen, ⟨_, hrep⟩, hcontents, hsize⟩
  | get length =>
    obtain ⟨hanswer, hrep, hcontents, hsize⟩ := h.get length
    rw [ringbufferCall, queueCall, hcount]
    exact ⟨hanswer, ⟨_, hrep⟩, hcontents, hsize⟩
  | getchar =>
    obtain ⟨hanswer, hrep, hcontents, hsize⟩ := h.get 1
    rw [ringbufferCall, queueCall, hcount, getchar_eq h]
    exact ⟨hanswer, ⟨_, hrep⟩, hcontents, hsize⟩
  | dataLen =>
    rw [ringbufferCall, queueCall, hcount, h.dataLen]
    exact ⟨rfl, ⟨d, h⟩, rfl, rfl⟩
  | reset =>
    exact ⟨rfl, ⟨0, h.reset⟩, h.reset.contents_eq, rfl⟩

theorem rtRingbufferInit_spec (h : rtRingbufferInit A pool size = some rb) (hhi : size ≤ 32767) :
    rb.bufferSize = size / A.size * A.size ∧
      (0 < rb.bufferSize → RingbufferRep rb 0) := by
  have hround : rtAlignDown A size = size / A.size * A.size := rtAlignDown_eq A (by omega)
  have hle := Nat.div_mul_le_self size A.size
  unfold rtRingbufferInit at h
  split at h
  next =>
    obtain rfl := Option.some.inj h
    refine ⟨hround, fun hpos => ⟨?_, hpos, hpos, Nat.zero_le _, .inl ⟨hpos, rfl, rfl⟩⟩⟩
    show rtAlignDown A size < 32768
    omega
  next => cases h

/-- The ring buffer is a queue of bytes that holds at most `buffer_size` of them. -/
theorem ringbuffer_refines_queue (pool : Nat → Byte) (hlo : A.size ≤ size) (hhi : size ≤ 32767) :
    ∃ rb, rtRingbufferInit A pool size = some rb ∧ rb.bufferSize = size / A.size * A.size ∧
      ∀ calls : List RingbufferCall,
        let after := runAnswers ringbufferCall rb calls
        let queue := runAnswers (queueCall rb.bufferSize) [] calls
        after.1 = queue.1 ∧ after.2.contents = queue.2 ∧ after.2.bufferSize = rb.bufferSize ∧
          rtRingbufferDataLen after.2 + rtRingbufferSpaceLen after.2 = rb.bufferSize := by
  have hpos : 0 < A.size := Nat.two_pow_pos _
  obtain ⟨rb, hinit⟩ : ∃ rb, rtRingbufferInit A pool size = some rb :=
    ⟨_, if_pos (by omega : 0 < (size : Int))⟩
  obtain ⟨hsize, hrep⟩ := rtRingbufferInit_spec hinit hhi
  have hfirst : 0 < rb.bufferSize := by
    rw [hsize]
    exact Nat.mul_pos (Nat.div_pos hlo hpos) hpos
  refine ⟨rb, hinit, hsize, fun calls => ?_⟩
  obtain ⟨hanswers, ⟨d, hd⟩, hcontents, hsame⟩ := runAnswers_refines
    (R := fun (x : RtRingbuffer) q => (∃ d, RingbufferRep x d) ∧ x.contents = q ∧
      x.bufferSize = rb.bufferSize)
    (fun x q c ⟨⟨d, hd⟩, hq, hx⟩ => by
      obtain ⟨hanswer, hnext, hcontents, hsize⟩ := ringbufferCall_spec hd c
      rw [hq, hx] at hanswer hcontents
      exact ⟨hanswer, hnext, hcontents, hsize.trans hx⟩)
    ⟨⟨0, hrep hfirst⟩, (hrep hfirst).contents_eq, rfl⟩ calls
  have hle := hd.stored_le
  refine ⟨hanswers, hcontents, hsame, ?_⟩
  rw [hd.spaceLen, hd.dataLen]
  omega

end

theorem ringbuffer_refines_queue_forty : ∃ rb, rtRingbufferInit align4 (fun _ => 0) 42 = some rb ∧
    rb.bufferSize = 42 / align4.size * align4.size ∧ ∀ calls : List RingbufferCall,
      let after := runAnswers ringbufferCall rb calls
      let queue := runAnswers (queueCall rb.bufferSize) [] calls
      after.1 = queue.1 ∧ after.2.contents = queue.2 ∧ after.2.bufferSize = rb.bufferSize ∧
        rtRingbufferDataLen after.2 + rtRingbufferSpaceLen after.2 = rb.bufferSize :=
  ringbuffer_refines_queue (fun _ => 0) (by decide) (by decide)

/-- The stored bytes do not go round the end of the buffer, and the string does not fit. -/
def ForceOverruns (rb : RtRingbuffer) (str : List Byte) : Prop :=
  rb.readMirror = rb.writeMirror ∧ rtRingbufferSpaceLen rb < min str.length rb.bufferSize

/-- Writing a string byte by byte with `rt_ringbuffer_putchar_force`. -/
def putcharsForce (rb : RtRingbuffer) (str : List Byte) : RtRingbuffer :=
  str.foldl (fun rb ch => (rtRingbufferPutcharForce rb ch).2) rb

/-- The buffers reached from `rt_ringbuffer_init` by any calls. -/
def RingbufferReach (rb : RtRingbuffer) : Prop :=
  Reach (fun rb a => some (ringbufferStep rb a)) (fun _ _ => True)
    (fun rb => ∃ A pool, ∃ size : Nat, size ≤ 32767 ∧ rtRingbufferInit A pool size = some rb) rb

section
variable {rb rb' : RtRingbuffer} {d n : Nat} {str : List Byte} {ch : Byte}

theorem keptPart (str : List Byte) (n : Nat) :
    (if n < str.length then str.drop (str.length - n) else str) = keepLast n str ∧
    (if n < str.length then n else str.length) = (keepLast n str).length := by
  rw [keepLast_length]
  by_cases h : n < str.length
  · rw [if_pos h, if_pos h, Nat.min_eq_left h.le]
    exact ⟨rfl, rfl⟩
  · rw [if_neg h, if_neg h, Nat.min_eq_right (by omega), keepLast_of_le (by omega)]
    exact ⟨rfl, rfl⟩

/-- `rt_ringbuffer_put_force` writes the last bytes of the string as a block and then, where they did
not fit, moves the read position to the write position. -/
theorem rtRingbufferPutForce_eq (h : RingbufferRep rb d) :
    (rtRingbufferPutForce rb str).2 =
      let kept := keepLast rb.bufferSize str
      let rb' := writeBlock rb kept kept.length
      if rb.bufferSize - d < kept.length then
        { rb' with
          readMirror := if kept.length < rb.bufferSize - rb.writeIndex then rb.readMirror
            else !rb.readMirror
          readIndex := rb'.writeIndex }
      else rb' := by
  obtain ⟨-, hrm, -⟩ := writeBlock_frame rb (keepLast rb.bufferSize str)
    (keepLast rb.bufferSize str).length
  simp only [rtRingbufferPutForce, (keptPart str rb.bufferSize).1, (keptPart str rb.bufferSize).2,
    h.spaceLen]
  by_cases hroom : (keepLast rb.bufferSize str).length < rb.bufferSize - rb.writeIndex
  · simp only [if_pos hroom, ← hrm]
  · simp only [if_neg hroom, hrm]

theorem putForce_fits (h : RingbufferRep rb d)
    (hfits : (keepLast rb.bufferSize str).length ≤ rb.bufferSize - d) :
    RingbufferRep (rtRingbufferPutForce rb str).2 (d + (keepLast rb.bufferSize str).length) ∧
    (rtRingbufferPutForce rb str).2.contents = keepLast rb.bufferSize (rb.contents ++ str) := by
  have hd := h.stored_le
  rw [rtRingbufferPutForce_eq h]
  simp only [if_neg (by omega : ¬rb.bufferSize - d < (keepLast rb.bufferSize str).length)]
  obtain ⟨hrep, hcontents⟩ := h.stored (by omega) (le_refl (keepLast rb.bufferSize str).length)
  have hshort : (rb.contents ++ keepLast rb.bufferSize str).length ≤ rb.bufferSize := by
    rw [List.length_append, h.contents_length]
    omega
  refine ⟨hrep, ?_⟩
  rw [hcontents, List.take_length, ← keepLast_append_right, keepLast_of_le hshort]

/-- Overwriting moves the read position as far as the write position gets ahead of it. -/
theorem overwritten_contents {w : Nat} {kept : List Byte} (h : RingbufferRep rb d)
    (hlen : kept.length ≤ rb.bufferSize) (hover : rb.bufferSize - d < kept.length)
    (hw : (rb.writeIndex + kept.length) % rb.bufferSize = w) :
    ringContents (ringWrite rb.bufferPtr rb.bufferSize rb.writeIndex kept) rb.bufferSize w
      rb.bufferSize = keepLast rb.bufferSize (rb.contents ++ kept) := by
  have hstart : rb.writeIndex = (rb.readIndex + d) % rb.bufferSize :=
    (h.ahead.mod_eq h.write_lt).symm
  rw [← hw, hstart, Nat.mod_add_mod, ringContents_mod, ringWrite_mod, h.contents_eq,
    ringContents_overwrite hlen (by omega)]

theorem putForce_overwrites (h : RingbufferRep rb d)
    (hover : rb.bufferSize - d < (keepLast rb.bufferSize str).length)
    (hm : rb.readMirror ≠ rb.writeMirror) :
    RingbufferRep (rtRingbufferPutForce rb str).2 rb.bufferSize ∧
    (rtRingbufferPutForce rb str).2.contents = keepLast rb.bufferSize (rb.contents ++ str) := by
  have hlen : (keepLast rb.bufferSize str).length ≤ rb.bufferSize := by
    rw [keepLast_length]
    exact Nat.min_le_left _ _
  rw [rtRingbufferPutForce_eq h, ← keepLast_append_right]
  generalize hkept : keepLast rb.bufferSize str = kept at hover hlen ⊢
  obtain ⟨hw, hmoved⟩ := writeBlock_moved kept h.size_lt h.write_lt hlen
  obtain ⟨hsize, hrm, hr⟩ := writeBlock_frame rb kept kept.length
  have hbuffer := writeBlock_bufferPtr h.write_lt hlen (le_refl kept.length)
  rw [List.take_length] at hbuffer
  have hother : rb.writeMirror = !rb.readMirror := Bool.eq_not.mpr hm.symm
  have hmirror : (writeBlock rb kept kept.length).writeMirror =
      !(if kept.length < rb.bufferSize - rb.writeIndex then rb.readMirror else !rb.readMirror) := by
    obtain ⟨h1, h2, -⟩ | ⟨h1, h2, -⟩ := hmoved
    · rw [h2, if_pos (by omega), hother]
    · rw [h2, if_neg (by omega), hother]
  simp only [if_pos hover]
  have hrep : RingbufferRep { writeBlock rb kept kept.length with
      readMirror := if kept.length < rb.bufferSize - rb.writeIndex then rb.readMirror
        else !rb.readMirror
      readIndex := (writeBlock rb kept kept.length).writeIndex } rb.bufferSize :=
    ⟨hsize ▸ h.size_lt, hsize ▸ hw, hsize ▸ hw, hsize.ge, .inr ⟨by dsimp only; omega, hmirror, by
      dsimp only; rw [hsize]⟩⟩
  refine ⟨hrep, ?_⟩
  rw [hrep.contents_eq]
  dsimp only
  rw [hsize, hbuffer, overwritten_contents h hlen hover (hmoved.mod_eq hw)]

/-- Where the stored bytes do not go round the end, both mirrors change and the buffer reads as
empty. -/
theorem putForce_overruns (h : RingbufferRep rb d) (hbad : ForceOverruns rb str) :
    RingbufferRep (rtRingbufferPutForce rb str).2 0 := by
  obtain ⟨hm, hover⟩ := hbad
  rw [h.spaceLen, Nat.min_comm, ← keepLast_length] at hover
  have hlen : (keepLast rb.bufferSize str).length ≤ rb.bufferSize := by
    rw [keepLast_length]
    exact Nat.min_le_left _ _
  rw [rtRingbufferPutForce_eq h]
  generalize hkept : keepLast rb.bufferSize str = kept at hover hlen ⊢
  obtain ⟨hw, hmoved⟩ := writeBlock_moved kept h.size_lt h.write_lt hlen
  obtain ⟨hsize, -, -⟩ := writeBlock_frame rb kept kept.length
  have hwrap : rb.bufferSize ≤ rb.writeIndex + kept.length := by
    obtain ⟨h1, -, h3⟩ | ⟨-, h2, -⟩ := h.ahead
    · omega
    · exact absurd (hm.trans h2) (bool_ne_not _)
  have hflip : (writeBlock rb kept kept.length).writeMirror = !rb.readMirror := by
    obtain ⟨h1, -, -⟩ | ⟨-, h2, -⟩ := hmoved
    · omega
    · rw [h2, hm]
  simp only [if_pos hover, if_neg (by omega : ¬kept.length < rb.bufferSize - rb.writeIndex)]
  exact ⟨hsize ▸ h.size_lt, hsize ▸ hw, hsize ▸ hw, Nat.zero_le _,
    .inl ⟨hsize ▸ hw, hflip, rfl⟩⟩

theorem putForce_keeps (h : RingbufferRep rb d) (hok : ¬ForceOverruns rb str) :
    (∃ d', RingbufferRep (rtRingbufferPutForce rb str).2 d') ∧
    (rtRingbufferPutForce rb str).2.contents = keepLast rb.bufferSize (rb.contents ++ str) := by
  by_cases hover : rb.bufferSize - d < (keepLast rb.bufferSize str).length
  · have hm : rb.readMirror ≠ rb.writeMirror := by
      refine fun hm => hok ⟨hm, ?_⟩
      rwa [h.spaceLen, Nat.min_comm, ← keepLast_length]
    obtain ⟨hrep, hcontents⟩ := putForce_overwrites h hover hm
    exact ⟨⟨_, hrep⟩, hcontents⟩
  · obtain ⟨hrep, hcontents⟩ := putForce_fits h (Nat.not_lt.mp hover)
    exact ⟨⟨_, hrep⟩, hcontents⟩

/-- The buffer is full exactly where there is no room for a byte. -/
theorem status_full_iff (h : RingbufferRep rb d) :
    rtRingbufferStatus rb = .full ↔ rb.bufferSize - d < 1 := by
  have hd := h.stored_le
  have hr := h.read_lt
  have hw := h.write_lt
  obtain ⟨h1, h2, h3⟩ | ⟨h1, h2, h3⟩ := h.ahead
  · have hne : rtRingbufferStatus rb ≠ .full := by
      rw [rtRingbufferStatus, if_pos h2.symm]
      split <;> decide
    exact ⟨fun hf => absurd hf hne, fun hf => by omega⟩
  · by_cases he : rb.readIndex = rb.writeIndex
    · refine ⟨fun _ => by omega, fun _ => ?_⟩
      rw [rtRingbufferStatus, if_pos he, if_neg (h2 ▸ bool_ne_not _)]
    · refine ⟨fun hf => ?_, fun hf => by omega⟩
      rw [rtRingbufferStatus, if_neg he] at hf
      cases hf

theorem putForce_bufferSize : (rtRingbufferPutForce rb str).2.bufferSize = rb.bufferSize := by
  simp only [rtRingbufferPutForce, apply_ite Prod.snd, apply_ite RtRingbuffer.bufferSize,
    (writeBlock_frame _ _ _).1, ite_self]

theorem writeChar_bufferSize : (writeChar rb ch).bufferSize = rb.bufferSize := by
  simp only [writeChar, apply_ite RtRingbuffer.bufferSize, ite_self]

theorem putcharForce_bufferSize :
    (rtRingbufferPutcharForce rb ch).2.bufferSize = rb.bufferSize := by
  simp only [rtRingbufferPutcharForce, apply_ite Prod.snd, apply_ite RtRingbuffer.bufferSize,
    writeChar_bufferSize, ite_self]

/-- No call changes the size, whatever the state. -/
theorem ringbufferCall_bufferSize (rb : RtRingbuffer) (c : RingbufferCall) :
    (ringbufferCall rb c).2.bufferSize = rb.bufferSize := by
  cases c <;> simp only [ringbufferCall, rtRingbufferPut, rtRingbufferPutchar, rtRingbufferGet,
    rtRingbufferGetchar, rtRingbufferReset, apply_ite Prod.snd, apply_ite RtRingbuffer.bufferSize,
    (writeBlock_frame _ _ _).1, writeChar_bufferSize, ite_self]

theorem putcharForce_eq (h : RingbufferRep rb d) :
    rtRingbufferPutcharForce rb ch = rtRingbufferPutForce rb [ch] := by
  have hw := h.write_lt
  have hlen : ¬rb.bufferSize < 1 := by omega
  have hend : (1 < rb.bufferSize - rb.writeIndex) = ¬rb.writeIndex = rb.bufferSize - 1 :=
    propext ⟨by omega, by omega⟩
  simp only [rtRingbufferPutcharForce, rtRingbufferPutForce, List.length_singleton, if_neg hlen,
    writeChar_eq h, status_full_iff h, h.spaceLen, hend, ite_not]

/-- A single byte never overruns. -/
theorem not_forceOverruns_singleton (ch : Byte) (h : RingbufferRep rb d) : ¬ForceOverruns rb [ch] := by
  rintro ⟨hm, hover⟩
  have hr := h.read_lt
  rw [h.spaceLen, List.length_singleton] at hover
  obtain ⟨h1, -, -⟩ | ⟨-, h2, -⟩ := h.ahead
  · omega
  · exact bool_ne_not _ (hm.trans h2)

/-- Byte by byte the newest bytes are kept. -/
theorem putcharsForce_keep (h : RingbufferRep rb d) :
    (putcharsForce rb str).contents = keepLast rb.bufferSize (rb.contents ++ str) := by
  induction str generalizing rb d with
  | nil =>
    have hle := h.stored_le
    rw [List.append_nil, keepLast_of_le (h.contents_length ▸ hle)]
    rfl
  | cons ch str ih =>
    obtain ⟨⟨d', hrep⟩, hcontents⟩ := putForce_keeps h (not_forceOverruns_singleton ch h)
    have hrest : (putcharsForce (rtRingbufferPutForce rb [ch]).2 str).contents =
        keepLast rb.bufferSize (rb.contents ++ ch :: str) := by
      rw [ih hrep, putForce_bufferSize, hcontents, keepLast_append, List.append_assoc,
        List.singleton_append]
    rwa [← putcharForce_eq h] at hrest

theorem ringbufferStep_bufferSize (rb : RtRingbuffer) (a : RingbufferStep) :
    (ringbufferStep rb a).bufferSize = rb.bufferSize := by
  cases a with
  | call c => exact ringbufferCall_bufferSize rb c
  | putForce str => exact putForce_bufferSize
  | putcharForce ch => exact putcharForce_bufferSize

theorem ringbufferReach_rep (hr : RingbufferReach rb) (hpos : 0 < rb.bufferSize) :
    ∃ d, RingbufferRep rb d := by
  refine Reach.invariant (I := fun rb => 0 < rb.bufferSize → ∃ d, RingbufferRep rb d) ?_ ?_ hr hpos
  · rintro rb ⟨A, pool, size, hhi, hinit⟩ hpos
    exact ⟨0, (rtRingbufferInit_spec hinit hhi).2 hpos⟩
  · rintro rb a rb' ih - hs hpos
    obtain rfl := Option.some.inj hs
    rw [ringbufferStep_bufferSize] at hpos
    obtain ⟨d, h⟩ := ih hpos
    cases a with
    | call c => exact (ringbufferCall_spec h c).2.1
    | putForce str =>
      by_cases hbad : ForceOverruns rb str
      · exact ⟨0, putForce_overruns h hbad⟩
      · exact (putForce_keeps h hbad).1
    | putcharForce ch =>
      rw [ringbufferStep, putcharForce_eq h]
      exact (putForce_keeps h (not_forceOverruns_singleton ch h)).1

/-- `rt_ringbuffer_put_force` leaves the newest bytes, and does what `rt_ringbuffer_putchar_force`
does byte by byte, exactly where it does not overrun. -/
theorem putForce_keepsNewest (hr : RingbufferReach rb) (hpos : 0 < rb.bufferSize)
    (str : List Byte) :
    ((rtRingbufferPutForce rb str).2.contents = keepLast rb.bufferSize (rb.contents ++ str) ∧
      (rtRingbufferPutForce rb str).2.contents = (putcharsForce rb str).contents) ↔
    ¬ForceOverruns rb str := by
  obtain ⟨d, h⟩ := ringbufferReach_rep hr hpos
  rw [putcharsForce_keep h, and_self]
  refine ⟨fun hkept hbad => ?_, fun hok => (putForce_keeps h hok).2⟩
  have hempty := (putForce_overruns h hbad).contents_length
  have hover := hbad.2
  rw [hkept, keepLast_length, List.length_append] at hempty
  omega

end

/-- A buffer of four bytes with two bytes in it. -/
def twoStored : RtRingbuffer := (rtRingbufferPut ⟨fun _ => 0, false, 0, false, 0, 4⟩ [1, 2]).2

theorem twoStored_reach : RingbufferReach twoStored :=
  Reach.step (a := .call (.put [1, 2])) (.start ⟨align4, fun _ => 0, 4, by decide, rfl⟩) trivial rfl

theorem putForce_keepsNewest_twoStored :
    ((rtRingbufferPutForce twoStored [3]).2.contents = keepLast 4 (twoStored.contents ++ [3]) ∧
      (rtRingbufferPutForce twoStored [3]).2.contents = (putcharsForce twoStored [3]).contents) ↔
    ¬ForceOverruns twoStored [3] :=
  putForce_keepsNewest twoStored_reach (by decide) [3]

theorem putForce_empties : ¬∀ rb, RingbufferReach rb → 0 < rb.bufferSize → ∀ str,
    (rtRingbufferPutForce rb str).2.contents = keepLast rb.bufferSize (rb.contents ++ str) ∧
      (rtRingbufferPutForce rb str).2.contents = (putcharsForce rb str).contents := by
  intro h
  have hkept := (h twoStored twoStored_reach (by decide) [3, 4, 5]).1
  revert hkept
  decide +kernel

end RTThread
