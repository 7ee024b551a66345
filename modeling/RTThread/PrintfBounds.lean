import RTThread.PrintfOutput

namespace RTThread

/-- A buffer that would end above the top of the address space ends there. -/
theorem bufferEnd_size {buf size : Nat} (hsize : 0 < size) (hword : size < 4294967296)
    (htop : buf < 4294967296) :
    bufferEnd buf size = buf + size - 1 ∧ buf + size ≤ 4294967296 ∨
      bufferEnd buf size = 0xffffffff ∧ 4294967296 < buf + size := by
  by_cases hroom : buf + size ≤ 4294967296
  · have hend : wordSub (word (buf + size)) 1 = buf + size - 1 := by
      unfold wordSub word
      omega
    unfold bufferEnd
    rw [hend, if_neg (by omega)]
    exact .inl ⟨rfl, hroom⟩
  · have hend : wordSub (word (buf + size)) 1 = buf + size - 1 - 4294967296 := by
      unfold wordSub word
      omega
    unfold bufferEnd
    rw [hend, if_pos (by omega)]
    exact .inr ⟨rfl, by omega⟩

theorem bufferEnd_zero {buf : Nat} (hbuf : 0 < buf) (hroom : buf < 4294967296) :
    bufferEnd buf 0 = 0xffffffff := by
  have hend : wordSub (word (buf + 0)) 1 = buf - 1 := by
    unfold wordSub word
    omega
  unfold bufferEnd
  rw [hend, if_pos (by omega)]

/-- What is put into a buffer of `size` bytes at `buf`. -/
def storedOutput (buf size : Nat) (ps : List Piece) : List UInt8 :=
  renderFrom (fun k => decide (word (buf + k) ≤ bufferEnd buf size)) 0 ps

/-- The output where the first `size` positions are stored. -/
def sizedOutput (size : Nat) (ps : List Piece) : List UInt8 := renderFrom (fun k => decide (k < size)) 0 ps

/-- The memory behind the call, and where the NUL stands. -/
def endOutput (m : Memory) (e str : Nat) : Memory := write8 m (if str ≤ e then str else e) 0

theorem endOutput_byte (m : Memory) (e str x : Nat) :
    (endOutput m e str).byte x = if x = min str e then 0 else m.byte x := by
  have hmin : (if str ≤ e then str else e) = min str e := rfl
  unfold endOutput
  rw [hmin]
  rfl

theorem rtVsnprintf_eq {buf size : Nat} {fmt : List UInt8} {args : List PrintfArg} {ps : List Piece}
    (hps : formatPieces fmt args = some ps) (hbuf : buf < 4294967296) (m : Memory) :
    rtVsnprintf m buf size fmt args = some
      (endOutput (putAll (bufferEnd buf size) ⟨m, buf⟩ (storedOutput buf size ps)).mem (bufferEnd buf size)
          (word (buf + (storedOutput buf size ps).length)),
        Int.bmod (wordSub (word (buf + (storedOutput buf size ps).length)) buf) 4294967296) := by
  unfold rtVsnprintf
  rw [hps, Option.map_some]
  simp only [printPieces_start m ps hbuf]
  have hstr := putAll_str (storedOutput buf size ps) (e := bufferEnd buf size) (b := ⟨m, buf⟩) hbuf
  show some (endOutput _ _ (putAll _ _ (storedOutput buf size ps)).str, Int.bmod (wordSub (putAll _ _
    (storedOutput buf size ps)).str buf) _) = _
  rw [hstr]
  rfl

/-- Below the top of the address space the pointer tells the positions inside the buffer. -/
theorem storedOutput_sized {buf size : Nat} (ps : List Piece) (hsize : 0 < size)
    (hword : size < 4294967296) (htop : buf < 4294967296)
    (hfits : buf + (storedOutput buf size ps).length < 4294967296 ∨
      buf + (sizedOutput size ps).length < 4294967296) :
    storedOutput buf size ps = sizedOutput size ps := by
  have hsame : ∀ k, buf + k < 4294967296 →
      decide (word (buf + k) ≤ bufferEnd buf size) = decide (k < size) := by
    intro k hk
    have hend := bufferEnd_size hsize hword htop
    rw [word_of_lt hk]
    apply decide_eq_decide.mpr
    omega
  rcases hfits with h | h
  · apply renderFrom_congr
    intro k _ hk
    apply hsame
    unfold storedOutput at h
    omega
  · apply Eq.symm
    apply renderFrom_congr
    intro k _ hk
    apply Eq.symm
    apply hsame
    unfold sizedOutput at h
    omega

/-- What is asked of the output into `size` bytes: nothing else is written, a NUL ends it, and in
front of the NUL stand the first characters of `out`. -/
def OutputBounded (buf size : Nat) (fmt : List UInt8) (args : List PrintfArg) (out : List UInt8) : Prop :=
  ∀ m m' n, rtVsnprintf m buf size fmt args = some (m', n) →
    (∀ x, x < buf ∨ buf + size ≤ x → m'.byte x = m.byte x) ∧
    (0 < size → m'.byte (buf + min (size - 1) out.length) = 0 ∧
      ∀ i, i < min (size - 1) out.length → out[i]? = some (m'.byte (buf + i)))

/-- An address outside the buffer whose last byte does not depend on the memory has been written. -/
theorem OutputBounded.not_written {buf size : Nat} {fmt : List UInt8} {args : List PrintfArg}
    {ps : List Piece} {out : List UInt8} (hps : formatPieces fmt args = some ps)
    (hbuf : buf < 4294967296) (h : OutputBounded buf size fmt args out) {x : Nat}
    (hx : x < buf ∨ buf + size ≤ x) (v : UInt8)
    (hv : ∀ m, (endOutput (putAll (bufferEnd buf size) ⟨m, buf⟩ (storedOutput buf size ps)).mem
      (bufferEnd buf size) (word (buf + (storedOutput buf size ps).length))).byte x = v) : False := by
  have hkeeps := (h ⟨fun _ => v + 1⟩ _ _ (rtVsnprintf_eq hps hbuf _)).1 x hx
  rw [hv] at hkeeps
  exact uint8_ne_succ v hkeeps

theorem outputBounded_of_fits {buf size : Nat} {fmt : List UInt8} {args : List PrintfArg}
    {ps : List Piece} (hps : formatPieces fmt args = some ps) (hsize : 0 < size)
    (hword : size < 4294967296) (hfits : buf + (sizedOutput size ps).length < 4294967296) :
    OutputBounded buf size fmt args (unboundedOutput ps) := by
  intro m m' n h
  have hend := bufferEnd_size hsize hword (by omega : buf < 4294967296)
  rw [rtVsnprintf_eq hps (by omega), storedOutput_sized ps hsize hword (by omega) (.inr hfits),
    word_of_lt hfits] at h
  obtain ⟨rfl, -⟩ := Prod.mk.inj (Option.some.inj h)
  have hmin := render_length_min size ps
  have htake := renderFrom_take size ps 0
  rw [Nat.sub_zero] at htake
  have hroom' : buf + (sizedOutput size ps).length ≤ 4294967296 := by omega
  change min size (sizedOutput size ps).length = _ at hmin
  change (sizedOutput size ps).take size = _ at htake
  refine ⟨?_, ?_⟩
  · intro x hx
    rw [endOutput_byte, if_neg (by omega)]
    exact putAll_outside _ hroom' (by show x < buf ∨ _ ∨ buf + _ ≤ x; omega)
  · intro _
    refine ⟨?_, ?_⟩
    · rw [endOutput_byte, if_pos (by omega)]
    · intro i hi
      have hin := putAll_inside (sizedOutput size ps) (e := bufferEnd buf size) (b := ⟨m, buf⟩) hroom'
        (by omega : i < _) (by show buf + i ≤ _; omega)
      have hfront := congrArg (fun l => l[i]?) htake
      simp only [List.getElem?_take] at hfront
      rw [if_pos (by omega), if_pos (by omega), hin] at hfront
      rw [endOutput_byte, if_neg (by omega)]
      exact hfront.symm

/-- `end` is meant to stop every store. With a size of 0 it becomes the top of the address space, and
an output that goes past that top comes back to the addresses in front of the buffer. -/
theorem rtVsnprintf_bounded_iff {buf size : Nat} {fmt : List UInt8} {args : List PrintfArg}
    {ps : List Piece} (hps : formatPieces fmt args = some ps) (hbuf : 0 < buf)
    (htop : buf < 4294967296) (hword : size < 4294967296) :
    OutputBounded buf size fmt args (unboundedOutput ps) ↔
      0 < size ∧ buf + (sizedOutput size ps).length < 4294967296 := by
  constructor
  · intro h
    rcases Nat.eq_zero_or_pos size with rfl | hsize
    · exfalso
      apply h.not_written hps htop (x := word (buf + (storedOutput buf 0 ps).length)) (by omega) 0
      intro m
      rw [endOutput_byte, bufferEnd_zero hbuf htop]
      exact if_pos (by have := word_lt (buf + (storedOutput buf 0 ps).length); omega)
    · refine ⟨hsize, ?_⟩
      by_contra hfits
      have hlong : 4294967296 ≤ buf + (storedOutput buf size ps).length := by
        by_contra hshort
        rw [storedOutput_sized ps hsize hword htop (.inl (by omega))] at hshort
        omega
      rcases Nat.eq_or_lt_of_le hlong with heq | hlt
      · apply h.not_written hps htop (x := 0) (.inl hbuf) 0
        intro m
        rw [endOutput_byte, ← heq]
        exact if_pos (Nat.zero_min _).symm
      · apply h.not_written hps htop (x := 0) (.inl hbuf)
          ((endOutput (putAll (bufferEnd buf size) ⟨⟨fun _ => 0⟩, buf⟩ (storedOutput buf size ps)).mem
            (bufferEnd buf size) (word (buf + (storedOutput buf size ps).length))).byte 0)
        intro m
        rw [endOutput_byte, endOutput_byte]
        have hsame := putAll_wraps (storedOutput buf size ps) (e := bufferEnd buf size) (b := ⟨m, buf⟩)
          htop hlt ⟨fun _ => 0⟩
        rw [hsame]
  · rintro ⟨hsize, hfits⟩
    exact outputBounded_of_fits hps hsize hword hfits

theorem rtVsnprintf_bounded_size_eight :
    OutputBounded 4096 8 [37, 53, 100] [.word 42] [32, 32, 32, 52, 50] := by
  have hps : formatPieces [37, 53, 100] [.word 42] =
      some [.number 42 10 5 (-1) { PrintFlags.none with sign := true }] := by decide +kernel
  exact (rtVsnprintf_bounded_iff hps (by decide) (by decide) (by decide)).2 ⟨by decide, by decide +kernel⟩

/-- A size of 0 leaves no end at all: both characters are stored. -/
theorem rtVsnprintf_size_zero :
    formatPieces [111, 107] [] = some [.char 111, .char 107] ∧
      ¬OutputBounded 4096 0 [111, 107] [] (unboundedOutput [.char 111, .char 107]) := by
  refine ⟨by decide +kernel, ?_⟩
  intro h
  have hkeeps := (h ⟨fun _ => 0⟩ _ _ rfl).1 4096 (by decide)
  have hstored : ((((rtVsnprintf ⟨fun _ => 0⟩ 4096 0 [111, 107] []).map Prod.fst).map
      fun m => m.byte 4096) : Option UInt8) = some 111 := by decide +kernel
  exact absurd (Option.some.inj (hstored.symm.trans (congrArg some hkeeps))) (by decide)

end RTThread
