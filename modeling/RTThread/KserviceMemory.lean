import RTThread.ByteMemory

namespace RTThread

/-- Each byte of the `n` from `dst` holds what the one of the same index from `src` held in `m`, and no
other byte has changed; the addresses wrap at the top of the address space. -/
structure MovedBytes (m m' : Memory) (dst src n : Nat) : Prop where
  inside : ∀ i < n, m'.byte (word (dst + i)) = m.byte (word (src + i))
  outside : ∀ x, (∀ i < n, x ≠ word (dst + i)) → m'.byte x = m.byte x

/-- No byte of the copy upwards is overwritten before it is read. -/
def AheadOf (dst src n : Nat) : Prop := ∀ i j, i < j → j < n → word (dst + i) ≠ word (src + j)

namespace Kservice

/-- `while (count--) *m++ = (char)d;` -/
def setBytes (m : Memory) (p d : Nat) : Nat → Memory
  | 0 => m
  | count + 1 => setBytes (write8 m p d) (word (p + 1)) d count

def setWords (m : Memory) (alignedAddr buffer count : Nat) : Memory × Nat × Nat :=
  if 4 ≤ count then setWords (write32 m alignedAddr buffer) (word (alignedAddr + 4)) buffer (count - 4)
  else (m, alignedAddr, count)
termination_by count

def setBlocks (m : Memory) (alignedAddr buffer count : Nat) : Memory × Nat × Nat :=
  if 16 ≤ count then
    let m := write32 m alignedAddr buffer
    let m := write32 m (word (alignedAddr + 4)) buffer
    let m := write32 m (word (alignedAddr + 8)) buffer
    let m := write32 m (word (alignedAddr + 12)) buffer
    setBlocks m (word (alignedAddr + 16)) buffer (count - 16)
  else (m, alignedAddr, count)
termination_by count

/-- `c & 0xff` of an `int`. -/
def lowByte (c : Int) : Nat := (c % 256).toNat

def fillBuffer (d : Nat) : Nat :=
  let buffer := (d <<< 8) ||| d
  buffer ||| word (buffer <<< 16)

/-- The pointer returned and the memory; `tiny` is `RT_USING_TINY_SIZE`. -/
def rtMemset (tiny : Bool) (m : Memory) (s : Nat) (c : Int) (count : Nat) : Nat × Memory :=
  let d := lowByte c
  if tiny then (s, setBytes m s d count)
  else if 4 ≤ count ∧ s % 4 = 0 then
    let (m, alignedAddr, count) := setBlocks m s (fillBuffer d) count
    let (m, alignedAddr, count) := setWords m alignedAddr (fillBuffer d) count
    (s, setBytes m alignedAddr d count)
  else (s, setBytes m s d count)

/-- `while (count--) *tmp ++ = *s ++;` -/
def copyUp (m : Memory) (tmp s : Nat) : Nat → Memory
  | 0 => m
  | count + 1 => copyUp (write8 m tmp (m.byte s).toNat) (word (tmp + 1)) (word (s + 1)) count

/-- `for (len = count; len > 0; len --) tmp[len - 1] = s[len - 1];` -/
def copyDown (m : Memory) (tmp s : Nat) : Nat → Memory
  | 0 => m
  | len + 1 => copyDown (write8 m (word (tmp + len)) (m.byte (word (s + len))).toNat) tmp s len

def copyWords (m : Memory) (alignedDst alignedSrc len : Nat) : Memory × Nat × Nat × Nat :=
  if 4 ≤ len then
    copyWords (write32 m alignedDst (read32 m alignedSrc)) (word (alignedDst + 4)) (word (alignedSrc + 4))
      (len - 4)
  else (m, alignedDst, alignedSrc, len)
termination_by len

def copyBlocks (m : Memory) (alignedDst alignedSrc len : Nat) : Memory × Nat × Nat × Nat :=
  if 16 ≤ len then
    let m := write32 m alignedDst (read32 m alignedSrc)
    let m := write32 m (word (alignedDst + 4)) (read32 m (word (alignedSrc + 4)))
    let m := write32 m (word (alignedDst + 8)) (read32 m (word (alignedSrc + 8)))
    let m := write32 m (word (alignedDst + 12)) (read32 m (word (alignedSrc + 12)))
    copyBlocks m (word (alignedDst + 16)) (word (alignedSrc + 16)) (len - 16)
  else (m, alignedDst, alignedSrc, len)
termination_by len

/-- `int len` is compared as unsigned with the block sizes; up to `INT_MAX` it is the count itself. -/
def rtMemcpy (tiny : Bool) (m : Memory) (dst src count : Nat) : Nat × Memory :=
  if tiny then
    if dst ≤ src ∨ word (src + count) < dst then (dst, copyUp m dst src count)
    else (dst, copyDown m dst src count)
  else if 16 ≤ count ∧ (src % 4 = 0 ∧ dst % 4 = 0) then
    let (m, alignedDst, alignedSrc, len) := copyBlocks m dst src count
    let (m, alignedDst, alignedSrc, len) := copyWords m alignedDst alignedSrc len
    (dst, copyUp m alignedDst alignedSrc len)
  else (dst, copyUp m dst src count)

/-- `while (n--) *(--tmp) = *(--s);` -/
def copyBack (m : Memory) (tmp s : Nat) : Nat → Memory
  | 0 => m
  | n + 1 =>
    copyBack (write8 m (wordSub tmp 1) (m.byte (wordSub s 1)).toNat) (wordSub tmp 1) (wordSub s 1) n

def rtMemmove (m : Memory) (dest src n : Nat) : Nat × Memory :=
  if src < dest ∧ dest < word (src + n) then (dest, copyBack m (word (dest + n)) (word (src + n)) n)
  else (dest, copyUp m dest src n)

end Kservice

section
open Kservice
variable {m m' m1 m2 : Memory} {p d n k dst src count : Nat} {tiny : Bool}

theorem word_next (a i : Nat) : word (word (a + 1) + i) = word (a + (i + 1)) := by
  rw [word_word, Nat.add_assoc, Nat.add_comm 1 i]

theorem word_ne_of_lt {a i j : Nat} (h : i < j) (hj : j < i + 4294967296) :
    word (a + i) ≠ word (a + j) := by
  unfold word
  omega

theorem MovedBytes.unique (h1 : MovedBytes m m1 dst src n) (h2 : MovedBytes m m2 dst src n) : m1 = m2 := by
  suffices h : m1.byte = m2.byte by
    cases m1
    cases m2
    exact congrArg Memory.mk h
  funext x
  by_cases hx : ∃ i < n, x = word (dst + i)
  · obtain ⟨i, hi, rfl⟩ := hx
    rw [h1.inside i hi, h2.inside i hi]
  · push Not at hx
    rw [h1.outside x hx, h2.outside x hx]

theorem AheadOf.drop (h : AheadOf dst src (k + n)) : AheadOf (word (dst + k)) (word (src + k)) n := by
  intro i j hij hj
  rw [word_word, word_word, Nat.add_assoc, Nat.add_assoc]
  exact h (k + i) (k + j) (by omega) (by omega)

theorem copyUp_moved (hdst : dst < 4294967296) (hsrc : src < 4294967296) (hn : n ≤ 4294967296)
    (hsafe : AheadOf dst src n) : MovedBytes m (copyUp m dst src n) dst src n := by
  induction n generalizing m dst src with
  | zero => exact ⟨fun i hi => absurd hi (Nat.not_lt_zero i), fun x _ => rfl⟩
  | succ n ih =>
    have hsafe' : AheadOf (word (dst + 1)) (word (src + 1)) n := by
      rw [Nat.add_comm] at hsafe
      exact hsafe.drop
    obtain ⟨hinside, houtside⟩ :=
      ih (m := write8 m dst (m.byte src).toNat) (word_lt _) (word_lt _) (by omega) hsafe'
    have hdst0 : word (dst + 0) = dst := word_of_lt hdst
    refine ⟨fun i hi => ?_, fun x hx => ?_⟩
    · cases i with
      | zero =>
        rw [hdst0, show word (src + 0) = src from word_of_lt hsrc]
        refine (houtside dst fun i hi => ?_).trans ?_
        · rw [word_next]
          have hne : word (dst + 0) ≠ word (dst + (i + 1)) := word_ne_of_lt (Nat.succ_pos i) (by omega)
          rwa [hdst0] at hne
        · simp only [write8, if_true, UInt8.ofNat_toNat]
      | succ i =>
        have h := hinside i (by omega)
        rw [word_next, word_next] at h
        refine h.trans (if_neg fun heq => ?_)
        exact hsafe 0 (i + 1) (by omega) hi (hdst0.trans heq.symm)
    · refine (houtside x fun i hi => ?_).trans (if_neg fun heq => hx 0 (by omega) (heq.trans hdst0.symm))
      rw [word_next]
      exact hx (i + 1) (by omega)

/-- The byte copy downwards. -/
theorem copyDown_moved (hn : n ≤ 4294967296)
    (hsafe : ∀ i j, j < i → i < n → word (dst + i) ≠ word (src + j)) :
    MovedBytes m (copyDown m dst src n) dst src n := by
  induction n generalizing m with
  | zero => exact ⟨fun i hi => absurd hi (Nat.not_lt_zero i), fun x _ => rfl⟩
  | succ n ih =>
    obtain ⟨hinside, houtside⟩ :=
      ih (m := write8 m (word (dst + n)) (m.byte (word (src + n))).toNat) (by omega)
        fun i j hij hi => hsafe i j hij (by omega)
    refine ⟨fun i hi => ?_, fun x hx => ?_⟩
    · rcases Nat.lt_or_eq_of_le (Nat.le_of_lt_succ hi) with hlt | rfl
      · refine (hinside i hlt).trans (if_neg fun heq => ?_)
        exact hsafe n i hlt (by omega) heq.symm
      · refine (houtside _ fun j hj => (word_ne_of_lt hj (by omega)).symm).trans ?_
        simp only [write8, if_true, UInt8.ofNat_toNat]
    · refine (houtside x fun i hi => hx i (by omega)).trans (if_neg fun heq => hx n (by omega) heq)

theorem wordSub_word_succ (a : Nat) : wordSub (word (a + 1)) 1 = word a := by
  unfold wordSub word
  omega

theorem copyBack_eq : copyBack m (word (dst + n)) (word (src + n)) n = copyDown m dst src n := by
  induction n generalizing m with
  | zero => rfl
  | succ n ih =>
    simp only [copyBack, copyDown, ← Nat.add_assoc, wordSub_word_succ]
    exact ih

theorem rtMemmove_moved (hsrc : src + n < 4294967296) (hdst : dst + n ≤ 4294967296) :
    MovedBytes m (Kservice.rtMemmove m dst src n).2 dst src n := by
  have hword : ∀ i < n, word (dst + i) = dst + i ∧ word (src + i) = src + i := fun i hi =>
    ⟨word_of_lt (by omega), word_of_lt (by omega)⟩
  unfold Kservice.rtMemmove
  rw [word_of_lt hsrc]
  split
  next hback =>
    show MovedBytes m (copyBack m (word (dst + n)) (src + n) n) dst src n
    rw [← word_of_lt hsrc, copyBack_eq]
    refine copyDown_moved (by omega) fun i j hij hi => ?_
    rw [(hword i hi).1, (hword j (by omega)).2]
    omega
  next hup =>
    rcases Nat.eq_zero_or_pos n with rfl | hn
    · exact ⟨fun i hi => absurd hi (Nat.not_lt_zero i), fun x _ => rfl⟩
    · refine copyUp_moved (by omega) (by omega) (by omega) fun i j hij hj => ?_
      rw [(hword i (by omega)).1, (hword j hj).2]
      omega

theorem write32_byte (m : Memory) (a v : Nat) {i : Nat} (hi : i < 4) :
    (write32 m a v).byte (a + i) = UInt8.ofNat (v / 256 ^ i) := by
  simp only [write32, write16, write8]
  rcases (by omega : i = 0 ∨ i = 1 ∨ i = 2 ∨ i = 3) with rfl | rfl | rfl | rfl
  · rw [if_neg (by omega), if_neg (by omega), if_neg (by omega), if_pos (Nat.add_zero a), Nat.pow_zero,
      Nat.div_one]
  · rw [if_neg (by omega), if_neg (by omega), if_pos rfl, Nat.pow_one]
  · rw [if_neg (by omega), if_pos rfl, show 256 ^ 2 = 65536 from rfl]
  · rw [if_pos rfl, Nat.div_div_eq_div_mul, show 256 ^ 3 = 65536 * 256 from rfl]

theorem read32_byte (m : Memory) (a : Nat) {i : Nat} (hi : i < 4) :
    UInt8.ofNat (read32 m a / 256 ^ i) = m.byte (a + i) := by
  have h0 := (m.byte a).toNat_lt
  have h1 := (m.byte (a + 1)).toNat_lt
  have h2 := (m.byte (a + 2)).toNat_lt
  have h3 := (m.byte (a + 2 + 1)).toNat_lt
  apply UInt8.toNat.inj
  simp only [UInt8.toNat_ofNat', read32, read16]
  rcases (by omega : i = 0 ∨ i = 1 ∨ i = 2 ∨ i = 3) with rfl | rfl | rfl | rfl
  · rw [Nat.add_zero a, Nat.pow_zero]
    omega
  · omega
  · omega
  · rw [show a + 3 = a + 2 + 1 from rfl]
    omega

/-- What the loops over words need of both pointers. -/
structure WordsAhead (dst src n : Nat) : Prop where
  dst_aligned : dst % 4 = 0
  src_aligned : src % 4 = 0
  dst_lt : dst < 4294967296
  src_lt : src < 4294967296
  ahead : AheadOf dst src n

theorem WordsAhead.next (h : WordsAhead dst src (4 + n)) :
    WordsAhead (word (dst + 4)) (word (src + 4)) n := by
  refine ⟨?_, ?_, word_lt _, word_lt _, h.ahead.drop⟩
  · have := h.dst_aligned
    unfold word
    omega
  · have := h.src_aligned
    unfold word
    omega

theorem WordsAhead.write32_moved (h : WordsAhead dst src n) :
    MovedBytes m (write32 m dst (read32 m src)) dst src 4 := by
  obtain ⟨hdst, hsrc, hdst', hsrc', -⟩ := h
  refine ⟨fun i hi => ?_, fun x hx => write32_outside ?_⟩
  · rw [word_of_lt (by omega), word_of_lt (by omega), write32_byte _ _ _ hi, read32_byte _ _ hi]
  · by_contra hin
    refine hx (x - dst) (by omega) ?_
    rw [word_of_lt (by omega)]
    omega

theorem WordsAhead.copyUp_word (h : WordsAhead dst src (4 + n)) :
    copyUp m dst src (4 + n) =
      copyUp (write32 m dst (read32 m src)) (word (dst + 4)) (word (src + 4)) n := by
  have hword : copyUp m dst src 4 = write32 m dst (read32 m src) :=
    (copyUp_moved h.dst_lt h.src_lt (by decide) fun i j hij hj => h.ahead i j hij (by omega)).unique
      h.write32_moved
  rw [← hword, Nat.add_comm 4 n]
  simp only [copyUp, word_next]

theorem WordsAhead.copyWords_eq (h : WordsAhead dst src n) : ∃ m' dst' src' n',
    copyWords m dst src n = (m', dst', src', n') ∧ copyUp m dst src n = copyUp m' dst' src' n' := by
  induction n using Nat.strong_induction_on generalizing m dst src with
  | _ n ih =>
    unfold copyWords
    split
    next hle =>
      obtain ⟨rest, rfl⟩ := Nat.exists_eq_add_of_le hle
      rw [h.copyUp_word, Nat.add_sub_cancel_left]
      exact ih rest (by omega) h.next
    next => exact ⟨m, dst, src, n, rfl, rfl⟩

theorem WordsAhead.copyBlocks_eq (h : WordsAhead dst src n) : ∃ m' dst' src' n',
    copyBlocks m dst src n = (m', dst', src', n') ∧ copyUp m dst src n = copyUp m' dst' src' n' ∧
      WordsAhead dst' src' n' := by
  induction n using Nat.strong_induction_on generalizing m dst src with
  | _ n ih =>
    unfold copyBlocks
    split
    next hle =>
      obtain ⟨rest, rfl⟩ : ∃ rest, n = 4 + (4 + (4 + (4 + rest))) := ⟨n - 16, by omega⟩
      rw [h.copyUp_word, h.next.copyUp_word, h.next.next.copyUp_word, h.next.next.next.copyUp_word]
      have hlast := h.next.next.next.next
      rw [show 4 + (4 + (4 + (4 + rest))) - 16 = rest by omega]
      simp only [word_word, Nat.add_assoc, Nat.reduceAdd] at hlast ⊢
      exact ih rest (by omega) hlast
    next => exact ⟨m, dst, src, n, rfl, rfl, h⟩

theorem rtMemcpy_eq_copyUp (hdst : dst < 4294967296) (hsrc : src < 4294967296) (hn : n ≤ 4294967296)
    (happart : ∀ i < n, ∀ j < n, word (dst + i) ≠ word (src + j)) :
    Kservice.rtMemcpy tiny m dst src n = (dst, copyUp m dst src n) := by
  have hahead : AheadOf dst src n := fun i j hij hj => happart i (by omega) j hj
  have hdown : copyDown m dst src n = copyUp m dst src n :=
    (copyDown_moved hn fun i j hij hi => happart i hi j (by omega)).unique
      (copyUp_moved hdst hsrc hn hahead)
  unfold Kservice.rtMemcpy
  split
  next =>
    split
    next => rfl
    next => rw [hdown]
  next =>
    split
    next h =>
      obtain ⟨m1, dst1, src1, n1, hblocks, heq1, hwords⟩ :=
        WordsAhead.copyBlocks_eq (m := m) ⟨h.2.2, h.2.1, hdst, hsrc, hahead⟩
      obtain ⟨m2, dst2, src2, n2, hcopy, heq2⟩ := hwords.copyWords_eq (m := m1)
      rw [heq1, heq2]
      simp only [hblocks, hcopy]
    next => rfl

theorem fillBuffer_eq (hd : d < 256) : fillBuffer d = d * 16843009 := by
  have hlow : (d <<< 8) ||| d = d * 257 := by
    rw [Nat.shiftLeft_eq, Nat.mul_comm, ← Nat.two_pow_add_eq_or_of_lt hd]
    omega
  have hhigh : word ((d * 257) <<< 16) = 2 ^ 16 * (d * 257) := by
    rw [Nat.shiftLeft_eq, Nat.mul_comm]
    exact word_of_lt (by omega)
  have hfits : d * 257 < 2 ^ 16 := by omega
  simp only [fillBuffer, hlow, hhigh]
  rw [Nat.or_comm, ← Nat.two_pow_add_eq_or_of_lt hfits]
  omega

theorem write8_congr {v : Nat} (h : v % 256 = d % 256) : write8 m p v = write8 m p d := by
  have hbyte : UInt8.ofNat v = UInt8.ofNat d := UInt8.toNat.inj (by simpa only [UInt8.toNat_ofNat'] using h)
  unfold write8
  rw [hbyte]

/-- Each quotient of the buffer ends in the byte `d`. -/
theorem buffer_quotients (hd : d < 256) :
    d * 16843009 / 256 = d * 65793 ∧ d * 16843009 / 65536 = d * 257 ∧ d * 257 / 256 = d := by
  refine ⟨?_, ?_, ?_⟩
  · omega
  · omega
  · omega

theorem setBytes_word (hp : p % 4 = 0) (hp' : p < 4294967296) (hd : d < 256) :
    setBytes m p d (4 + n) = setBytes (write32 m p (fillBuffer d)) (word (p + 4)) d n := by
  have h1 : word (p + 1) = p + 1 := word_of_lt (by omega)
  have h2 : word (p + 1 + 1) = p + 2 := word_of_lt (by omega)
  have h3 : word (p + 2 + 1) = p + 2 + 1 := word_of_lt (by omega)
  rw [Nat.add_comm 4 n]
  obtain ⟨hsecond, hthird, hfourth⟩ := buffer_quotients hd
  simp only [setBytes, h1, h2, h3, write32, write16, fillBuffer_eq hd, hsecond, hthird, hfourth]
  rw [write8_congr (show d * 257 % 256 = d % 256 by omega),
    write8_congr (show d * 65793 % 256 = d % 256 by omega),
    write8_congr (show d * 16843009 % 256 = d % 256 by omega)]

theorem word_add_aligned (hp : p % 4 = 0) (hk : k % 4 = 0) : word (p + k) % 4 = 0 := by
  unfold word
  omega

theorem setWords_eq (hp : p % 4 = 0) (hp' : p < 4294967296) (hd : d < 256) : ∃ m' p' n',
    setWords m p (fillBuffer d) n = (m', p', n') ∧ setBytes m p d n = setBytes m' p' d n' := by
  induction n using Nat.strong_induction_on generalizing m p with
  | _ n ih =>
    unfold setWords
    split
    next hle =>
      obtain ⟨rest, rfl⟩ := Nat.exists_eq_add_of_le hle
      rw [setBytes_word hp hp' hd, Nat.add_sub_cancel_left]
      exact ih rest (by omega) (word_add_aligned hp rfl) (word_lt _)
    next => exact ⟨m, p, n, rfl, rfl⟩

theorem setBlocks_eq (hp : p % 4 = 0) (hp' : p < 4294967296) (hd : d < 256) : ∃ m' p' n',
    setBlocks m p (fillBuffer d) n = (m', p', n') ∧ setBytes m p d n = setBytes m' p' d n' ∧
      p' % 4 = 0 ∧ p' < 4294967296 := by
  induction n using Nat.strong_induction_on generalizing m p with
  | _ n ih =>
    unfold setBlocks
    split
    next hle =>
      obtain ⟨rest, rfl⟩ : ∃ rest, n = 4 + (4 + (4 + (4 + rest))) := ⟨n - 16, by omega⟩
      have hnext : ∀ {q : Nat}, q % 4 = 0 → word (q + 4) % 4 = 0 := fun hq => word_add_aligned hq rfl
      rw [setBytes_word hp hp' hd, setBytes_word (hnext hp) (word_lt _) hd,
        setBytes_word (hnext (hnext hp)) (word_lt _) hd,
        setBytes_word (hnext (hnext (hnext hp))) (word_lt _) hd,
        show 4 + (4 + (4 + (4 + rest))) - 16 = rest by omega]
      simp only [word_word, Nat.add_assoc, Nat.reduceAdd]
      exact ih rest (by omega) (word_add_aligned hp rfl) (word_lt _)
    next => exact ⟨m, p, n, rfl, rfl, hp, hp'⟩

theorem lowByte_lt (c : Int) : lowByte c < 256 := by
  unfold lowByte
  omega

theorem rtMemset_eq_setBytes (c : Int) (hp : p < 4294967296) :
    Kservice.rtMemset tiny m p c n = (p, setBytes m p (lowByte c) n) := by
  unfold Kservice.rtMemset
  split
  next => rfl
  next =>
    split
    next h =>
      obtain ⟨m1, p1, n1, hblocks, heq1, hp1, hp1'⟩ :=
        setBlocks_eq (m := m) (n := n) h.2 hp (lowByte_lt c)
      obtain ⟨m2, p2, n2, hwords, heq2⟩ := setWords_eq (m := m1) (n := n1) hp1 hp1' (lowByte_lt c)
      rw [heq1, heq2]
      simp only [hblocks, hwords]
    next => rfl

theorem inRange_succ {x : Nat} (hp : p < 4294967296) (hx : x < 4294967296) (hn : n + 1 ≤ 4294967296) :
    InRange p (n + 1) x ↔ InRange (word (p + 1)) n x ∨ x = p := by
  unfold InRange wordSub word
  omega

/-- The heaps' `rtMemset` is what the byte loop leaves in the address space. -/
theorem setBytes_byte (hp : p < 4294967296) (hn : n ≤ 4294967296) {x : Nat} (hx : x < 4294967296) :
    (setBytes m p d n).byte x = (RTThread.rtMemset m p d n).byte x := by
  induction n generalizing m p with
  | zero => exact (rtMemset_outside (Nat.not_lt_zero _)).symm
  | succ n ih =>
    rw [setBytes, ih (word_lt _) (by omega)]
    simp only [RTThread.rtMemset, write8, inRange_succ hp hx hn]
    by_cases hin : InRange (word (p + 1)) n x
    · rw [if_pos hin, if_pos (Or.inl hin)]
    · simp only [hin, false_or, if_false]

/-- The heaps' `rtMemcpy` is what a range moved looks like in the address space. -/
theorem MovedBytes.byte_eq (h : MovedBytes m m' dst src n) (hdst : dst < 4294967296) {x : Nat}
    (hx : x < 4294967296) :
    m'.byte x = (RTThread.rtMemcpy m dst src n).byte x := by
  have hat : word (dst + wordSub x dst) = x := by
    unfold word wordSub
    omega
  by_cases hin : InRange dst n x
  · have hmoved := h.inside (wordSub x dst) hin
    rw [hat] at hmoved
    exact hmoved.trans (if_pos hin).symm
  · refine (h.outside x fun i hi heq => hin ?_).trans (if_neg hin).symm
    subst heq
    unfold InRange wordSub word
    omega

/-- On every pair of addresses the fast paths leave the memory of the byte loops, and a move gives `dest`
the source bytes as they were, whether or not the ranges overlap. -/
theorem memory_copies_right (tiny : Bool) (m : Memory) :
    (∀ (s : Nat) (c : Int) (count : Nat), s < 4294967296 →
      Kservice.rtMemset tiny m s c count = (s, setBytes m s (lowByte c) count)) ∧
    (∀ dst src count : Nat, dst < 4294967296 → src < 4294967296 → count < 2147483648 →
      (∀ i < count, ∀ j < count, word (dst + i) ≠ word (src + j)) →
      Kservice.rtMemcpy tiny m dst src count = (dst, copyUp m dst src count)) ∧
    ∀ dest src n : Nat, dest + n ≤ 4294967296 → src + n < 4294967296 →
      (Kservice.rtMemmove m dest src n).1 = dest ∧
        MovedBytes m (Kservice.rtMemmove m dest src n).2 dest src n := by
  refine ⟨fun s c count hs => rtMemset_eq_setBytes c hs, fun dst src count hdst hsrc hcount happart => ?_,
    fun dest src n hdest hsrc => ⟨?_, rtMemmove_moved hsrc hdest⟩⟩
  · exact rtMemcpy_eq_copyUp hdst hsrc (by omega) happart
  · unfold Kservice.rtMemmove
    split <;> rfl

theorem memory_copies_right_zeroed :
    Kservice.rtMemset false ⟨fun _ => 0⟩ 8 (-1) 23 = (8, setBytes ⟨fun _ => 0⟩ 8 (lowByte (-1)) 23) ∧
      Kservice.rtMemcpy false ⟨fun x => UInt8.ofNat x⟩ 64 8 23 =
        (64, copyUp ⟨fun x => UInt8.ofNat x⟩ 64 8 23) ∧
      MovedBytes ⟨fun x => UInt8.ofNat x⟩ (Kservice.rtMemmove ⟨fun x => UInt8.ofNat x⟩ 12 8 23).2 12 8 23 :=
  ⟨(memory_copies_right false ⟨fun _ => 0⟩).1 8 (-1) 23 (by decide),
    (memory_copies_right false ⟨fun x => UInt8.ofNat x⟩).2.1 64 8 23 (by decide) (by decide) (by decide)
      (fun i hi j hj => by unfold word; omega),
    ((memory_copies_right false ⟨fun x => UInt8.ofNat x⟩).2.2 12 8 23 (by decide) (by decide)).2⟩

end

end RTThread
