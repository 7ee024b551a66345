import RTThread.HeapRealloc
import RTThread.Runs

namespace RTThread

inductive HeapCall where
  | malloc (size : UInt32)
  | calloc (count size : UInt32)
  | realloc (rmem : Nat) (newsize : UInt32)
  | free (rmem : Nat)
  | store (rmem offset value : Nat)

/-- The heap and the pointers its callers hold. -/
structure HeapState where
  heap : Heap
  live : List Nat

/-- Where the usable region of a live pointer ends. -/
def usableEnd (A : AlignSize) (h : Heap) (p : Nat) : Nat :=
  h.heapPtr + (header h.mem (wordSub p (h.heapPtr + A.sizeofStructMem))).next

/-- A completed call, and a caller's own write into a block it holds. A pointer passed in is
live or null; a failed `rt_realloc` leaves the old pointer with its caller. -/
def heapCall (A : AlignSize) (fuel : Nat) (s : HeapState) : HeapCall → Option HeapState
  | .malloc size => do
    let (h, p) ← rtMalloc A fuel s.heap size.toNat
    some ⟨h, if p = 0 then s.live else p :: s.live⟩
  | .calloc count size => do
    let (h, p) ← rtCalloc A fuel s.heap count.toNat size.toNat
    some ⟨h, if p = 0 then s.live else p :: s.live⟩
  | .realloc rmem newsize =>
    if rmem = 0 ∨ rmem ∈ s.live then do
      let (h, p) ← rtRealloc A fuel s.heap rmem newsize.toNat
      some ⟨h, if newsize.toNat = 0 then s.live.erase rmem
        else if p = 0 then s.live else p :: s.live.erase rmem⟩
    else none
  | .free rmem =>
    if rmem = 0 ∨ rmem ∈ s.live then do
      let h ← rtFree A s.heap rmem
      some ⟨h, s.live.erase rmem⟩
    else none
  | .store rmem offset value =>
    if rmem ∈ s.live ∧ rmem + offset < usableEnd A s.heap rmem then
      some { s with heap := { s.heap with
        mem := write8 s.heap.mem (rmem + offset - s.heap.heapPtr) value } }
    else none

/-- A heap that `rt_system_heap_init` accepted, with nothing allocated yet. -/
def HeapFresh (A : AlignSize) (m : Memory) (beginAddr endAddr : UInt32) (s : HeapState) : Prop :=
  rtSystemHeapInit A m beginAddr.toNat endAddr.toNat = some s.heap ∧ s.live = []

/-- The heap states of runs whose calls, each with the fuel its loops get, all meet `ok`. -/
abbrev HeapReach (A : AlignSize) (ok : Nat → Heap → HeapCall → Prop) (m : Memory)
    (beginAddr endAddr : UInt32) : HeapState → Prop :=
  Reach (fun s (c : Nat × HeapCall) => heapCall A c.1 s c.2) (fun s c => ok c.1 s.heap c.2)
    (HeapFresh A m beginAddr endAddr)

/-- No size wraps when it is rounded: a cleared block holds what is cleared, and `rt_realloc`
frees its block only when asked for zero bytes. -/
def CallFits (A : AlignSize) (fuel : Nat) (h : Heap) : HeapCall → Prop
  | .calloc count size => CallocClears A fuel h count.toNat size.toNat
  | .realloc rmem newsize => rmem = 0 ∨ newsize.toNat = 0 ∨ AlignFits A newsize.toNat
  | _ => True

def CallKeepsLowest (A : AlignSize) (h : Heap) : HeapCall → Prop
  | .realloc rmem newsize => ReallocKeepsLowest A h rmem newsize.toNat
  | _ => True

section
variable {A : AlignSize} {h h' : Heap} {s s' : HeapState} {bs : List Block} {fuel : Nat}
  {c : HeapCall} {m : Memory} {beginAddr endAddr : UInt32}

theorem rtAlignDown_dvd (A : AlignSize) {n : Nat} (hn : n < 4294967296) :
    A.size ∣ rtAlignDown A n ∧ rtAlignDown A n ≤ n := by
  rw [rtAlignDown_eq A hn]
  exact ⟨Nat.dvd_mul_left _ _, Nat.div_mul_le_self _ _⟩

theorem rtAlign_zero (A : AlignSize) : rtAlign A 0 = 0 :=
  rtAlign_of_dvd (Nat.dvd_zero _) (by omega)

def initialBlock (h : Heap) : Block := ⟨0, h.heapEnd, freeTag⟩

theorem rtSystemHeapInit_spec {b e : Nat} (he : e < 4294967296)
    (hi : rtSystemHeapInit A m b e = some h) :
    HeapRep A h [initialBlock h] ∧ h.lfree = 0 ∧ h.heapPtr = rtAlign A b ∧
      h.heapPtr + h.heapEnd + A.sizeofStructMem = rtAlignDown A e := by
  have hW := sizeofStructMem_ge A
  obtain ⟨hdvd, hle⟩ := rtAlignDown_dvd A he
  simp only [rtSystemHeapInit] at hi
  split at hi
  next hfit =>
    obtain ⟨hbig, hroom⟩ := hfit
    generalize hz : rtAlignDown A e - rtAlign A b - 2 * A.sizeofStructMem = size at hi
    have hap : Apart 0 (size + A.sizeofStructMem) := by unfold Apart; omega
    have hlt : size + A.sizeofStructMem < 4294967296 := by omega
    have hend := word_of_lt hlt
    simp only [header_setUsed, header_setPrev, header_setNext, hend, Option.some.injEq] at hi
    subst hi
    refine ⟨⟨⟨?_, ?_, ?_, rfl, ?_, rtAlign_dvd A b, ?_, ?_, Or.inr ⟨_, List.mem_singleton_self _,
      rfl, rfl⟩⟩, List.isChain_singleton _, rfl, ?_⟩, rfl, rfl, ?_⟩
    · refine ⟨rfl, ?_, by show 0 + A.sizeofStructMem ≤ size + A.sizeofStructMem; omega, rfl⟩
      simp [header_setPrev_apart hap, header_setNext_apart hap, header_setUsed_apart hap,
        header_setMagic_apart hap, initialBlock, freeTag, heapMagic, word, hlt]
    · simp
    · simp [hend]
    · show rtAlign A b + (size + A.sizeofStructMem) + A.sizeofStructMem < 4294967296
      omega
    · intro k hk
      obtain rfl := List.mem_singleton.mp hk
      exact Nat.dvd_zero _
    · intro k hk
      obtain rfl := List.mem_singleton.mp hk
      exact Or.inr rfl
    · intro k hk
      simp [usedBlocks, initialBlock, isFree, freeTag] at hk
    · show rtAlign A b + (size + A.sizeofStructMem) + A.sizeofStructMem = rtAlignDown A e
      omega
  next => simp at hi

/-- What holds between calls: the blocks of the arena, and one live pointer for each one in use. -/
def HeapHolds (A : AlignSize) (s : HeapState) (bs : List Block) : Prop :=
  HeapRep A s.heap bs ∧ s.live.Perm (livePtrs A s.heap bs)

theorem HeapHolds.live_ne_zero (hh : HeapHolds A s bs) {p : Nat} (hp : p ∈ s.live) : p ≠ 0 := by
  obtain ⟨_, k, _, _, _, rfl⟩ := mem_livePtrs (hh.2.mem_iff.mp hp)
  exact blockPtr_pos A s.heap k

/-- `rt_malloc` and a fitting `rt_calloc` either fail or add one live pointer. -/
theorem HeapHolds.gain {p : Nat} (hh : HeapHolds A s bs)
    (hspec : p = 0 ∧ h' = s.heap ∨ ∃ bs', HeapRep A h' bs' ∧ SameBounds s.heap h' ∧
      LowestKept s.heap h' bs bs' ∧ p ≠ 0 ∧ (livePtrs A h' bs').Perm (p :: livePtrs A s.heap bs)) :
    ∃ bs', HeapHolds A ⟨h', if p = 0 then s.live else p :: s.live⟩ bs' ∧ SameBounds s.heap h' ∧
      LowestKept s.heap h' bs bs' := by
  rcases hspec with ⟨rfl, rfl⟩ | ⟨bs', hr', hb, hl, hp, hperm⟩
  · exact ⟨bs, hh, .refl _, fun hl => hl⟩
  · refine ⟨bs', ⟨hr', ?_⟩, hb, hl⟩
    simp only [if_neg hp]
    exact (hh.2.cons p).trans hperm.symm

theorem rtMalloc_gain {size p : Nat} (hr : HeapRep A h bs)
    (hm : rtMalloc A fuel h size = some (h', p)) :
    p = 0 ∧ h' = h ∨ ∃ bs', HeapRep A h' bs' ∧ SameBounds h h' ∧ LowestKept h h' bs bs' ∧
      p ≠ 0 ∧ (livePtrs A h' bs').Perm (p :: livePtrs A h bs) := by
  refine (rtMalloc_spec hr hm).imp_right ?_
  rintro ⟨bs', hr', hb, hl, hperm, k, _, _, hq, _⟩
  exact ⟨bs', hr', hb, hl, hq ▸ blockPtr_pos A h' k, hperm⟩

theorem rtAlign_pos {n : Nat} (hn : n ≠ 0) (hf : AlignFits A n) : rtAlign A n ≠ 0 := by
  have := le_rtAlign hf
  omega

/-- A null pointer makes `rt_realloc` an `rt_malloc`. -/
theorem rtRealloc_null {n p : Nat} (hm : rtRealloc A fuel h 0 n = some (h', p)) :
    p = 0 ∧ h' = h ∨ rtMalloc A fuel h (rtAlign A n) = some (h', p) := by
  simp only [rtRealloc] at hm
  split at hm
  · left
    simpa [eq_comm, and_comm] using hm
  split at hm
  · left
    simpa [rtFree, eq_comm, and_comm] using hm
  · rw [if_pos trivial] at hm
    exact Or.inr hm

theorem rtRealloc_null_zero {p : Nat} (hm : rtRealloc A fuel h 0 0 = some (h', p)) : p = 0 := by
  simp only [rtRealloc, rtAlign_zero] at hm
  split at hm
  · simpa [eq_comm] using congrArg (Option.map Prod.snd) hm
  · rw [if_pos trivial] at hm
    simpa [rtFree, eq_comm] using congrArg (Option.map Prod.snd) hm

/-- One call keeps the blocks and the live pointers in step. -/
theorem heapCall_holds (hh : HeapHolds A s bs) (hc : CallFits A fuel s.heap c)
    (hs : heapCall A fuel s c = some s') :
    ∃ bs', HeapHolds A s' bs' ∧ SameBounds s.heap s'.heap ∧
      (CallKeepsLowest A s.heap c → LowestKept s.heap s'.heap bs bs') := by
  have hrep := hh.1
  have hnull : 0 ∉ s.live := fun h0 => hh.live_ne_zero h0 rfl
  cases c with
  | malloc size =>
    simp only [heapCall, Option.bind_eq_bind, Option.bind_eq_some_iff] at hs
    obtain ⟨⟨h', p⟩, hm, hs⟩ := hs
    obtain rfl := Option.some.inj hs
    obtain ⟨bs', hh', hb, hl⟩ := hh.gain (rtMalloc_gain hrep hm)
    exact ⟨bs', hh', hb, fun _ => hl⟩
  | calloc count size =>
    simp only [heapCall, Option.bind_eq_bind, Option.bind_eq_some_iff] at hs
    obtain ⟨⟨h', p⟩, hm, hs⟩ := hs
    obtain rfl := Option.some.inj hs
    obtain ⟨bs', hh', hb, hl⟩ := hh.gain (rtCalloc_spec hrep hc hm)
    exact ⟨bs', hh', hb, fun _ => hl⟩
  | realloc rmem newsize =>
    simp only [heapCall] at hs
    split at hs
    next hlive =>
      simp only [Option.bind_eq_bind, Option.bind_eq_some_iff] at hs
      obtain ⟨⟨h', p⟩, hm, hs⟩ := hs
      obtain rfl := Option.some.inj hs
      by_cases hz : rmem = 0
      · subst hz
        have hspec : p = 0 ∧ h' = s.heap ∨ ∃ bs', HeapRep A h' bs' ∧ SameBounds s.heap h' ∧
            LowestKept s.heap h' bs bs' ∧ p ≠ 0 ∧
            (livePtrs A h' bs').Perm (p :: livePtrs A s.heap bs) :=
          (rtRealloc_null hm).elim Or.inl fun hm' => rtMalloc_gain hrep hm'
        obtain ⟨bs', hh', hb, hl⟩ := hh.gain hspec
        refine ⟨bs', ?_, hb, fun _ => hl⟩
        simp only [List.erase_of_not_mem hnull]
        by_cases hn : newsize.toNat = 0
        · have hp : p = 0 := by
            rw [hn] at hm
            exact rtRealloc_null_zero hm
          rw [if_pos hp] at hh'
          rwa [if_pos hn]
        · rwa [if_neg hn]
      · have hp := hlive.resolve_left hz
        obtain ⟨ps, hps⟩ : ∃ ps, s.live.Perm (rmem :: ps) := ⟨_, List.perm_cons_erase hp⟩
        have herase : (s.live.erase rmem).Perm ps := by
          have := hps.erase rmem
          rwa [List.erase_cons_head] at this
        obtain ⟨bs', hr', hb, hcases, hl⟩ := rtRealloc_spec hrep (hh.2.mem_iff.mp hp) hm
        refine ⟨bs', ⟨hr', ?_⟩, hb, hl⟩
        simp only
        rcases hcases with ⟨rfl, hnz, rfl, rfl⟩ | ⟨rfl, hzero, hperm⟩ | ⟨hq, hnz, qs, hold, hnew⟩
        · rw [if_neg, if_pos rfl]
          · exact hh.2
          · intro hn
            exact hnz (by rw [hn, rtAlign_zero])
        · have hn : newsize.toNat = 0 := by
            by_contra hn
            rcases hc with hc | hc | hc
            · exact hz hc
            · exact hn hc
            · exact rtAlign_pos hn hc hzero
          rw [if_pos hn]
          exact herase.trans (hps.symm.trans (hh.2.trans hperm)).cons_inv
        · rw [if_neg, if_neg hq]
          · have hrest : ps.Perm qs := (hps.symm.trans (hh.2.trans hold)).cons_inv
            exact ((herase.trans hrest).cons p).trans hnew.symm
          · intro hn
            exact hnz (by rw [hn, rtAlign_zero])
    next => simp at hs
  | free rmem =>
    simp only [heapCall] at hs
    split at hs
    next hlive =>
      simp only [Option.bind_eq_bind, Option.bind_eq_some_iff] at hs
      obtain ⟨h', hf, hs⟩ := hs
      obtain rfl := Option.some.inj hs
      by_cases hz : rmem = 0
      · subst hz
        obtain rfl : s.heap = h' := by simpa [rtFree] using hf
        rw [List.erase_of_not_mem hnull]
        exact ⟨bs, hh, .refl _, fun _ hl => hl⟩
      · have hp := hlive.resolve_left hz
        obtain ⟨h1, bs', hf', hr', hb, hl, hperm⟩ := rtFree_live hrep (hh.2.mem_iff.mp hp)
        obtain rfl : h1 = h' := Option.some.inj (hf'.symm.trans hf)
        refine ⟨bs', ⟨hr', ?_⟩, hb, fun _ => hl⟩
        exact ((List.perm_cons_erase hp).symm.trans (hh.2.trans hperm)).cons_inv
    next => simp at hs
  | store rmem offset value =>
    simp only [heapCall] at hs
    split at hs
    next hin =>
      obtain rfl := Option.some.inj hs
      obtain ⟨hp, hlt⟩ := hin
      obtain ⟨xs, k, ys, rfl, hu, rfl⟩ := mem_livePtrs (hh.2.mem_iff.mp hp)
      have hshape := hrep.toHeapShape
      rw [usableEnd, hshape.wordSub_blockPtr (by simp), hshape.header_eq] at hlt
      refine ⟨xs ++ k :: ys, ⟨hrep.write (k := k) (by simp) ?_, hh.2⟩, .refl _, fun _ hl => hl⟩
      intro x _ hout
      have hx : x ≠ blockPtr A s.heap k + offset - s.heap.heapPtr := by
        unfold blockPtr at hlt ⊢
        simp only at hlt
        omega
      exact if_neg hx
    next => simp at hs

end

end RTThread
