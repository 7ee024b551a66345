import RTThread.HeapInvariant

namespace RTThread

/-- Block `k` is one that the loop of `rt_malloc` takes for `size` bytes when it comes to it. -/
def SearchTakes (A : AlignSize) (h : Heap) (size : Nat) (k : Block) : Prop :=
  k.off < h.memSizeAligned - size ∧ isFree k ∧ k.off + A.sizeofStructMem + size ≤ k.next

instance (A : AlignSize) (h : Heap) (size : Nat) (k : Block) : Decidable (SearchTakes A h size k) :=
  inferInstanceAs (Decidable (_ ∧ _ ∧ _))

/-- Where the walk along `next` stands when the blocks `rest` are still before it. -/
def walkAt (h : Heap) (rest : List Block) : Nat := (rest.head?.map Cell.off).getD h.heapEnd

section
variable {A : AlignSize} {h h' : Heap} {xs ys rest bs : List Block} {k : Block} {fuel size q : Nat}

theorem HeapShape.walk_next (hs : HeapShape A h (xs ++ k :: ys)) : walkAt h ys = k.next := by
  cases ys with
  | nil => exact hs.last_next.symm
  | cons n ys => exact hs.next_off

theorem minSizeAligned_add_lt (A : AlignSize) : A.minSizeAligned + A.sizeofStructMem < 4294967296 := by
  have hm := rtAlign_le A minSize
  have hS := rtAlign_le A sizeofHeapMem
  have hA := A.size_le
  unfold AlignSize.minSizeAligned AlignSize.sizeofStructMem
  simp only [minSize, sizeofHeapMem] at *
  omega

/-- The walk of `rt_malloc` finds the first block it takes, where the bound of its loop does not
wrap. -/
theorem mallocSearch_eq (hs : HeapShape A h (xs ++ rest)) (hsize : size ≤ h.memSizeAligned)
    (hfuel : rest.length < fuel) :
    mallocSearch A h size fuel (walkAt h rest) =
      some ((rest.find? fun k => SearchTakes A h size k).map Cell.off) := by
  have hend := hs.end_lt
  have hoff := hs.endOff
  have hW := sizeofStructMem_ge A
  have hbound : wordSub h.memSizeAligned size = h.memSizeAligned - size :=
    wordSub_of_le (by omega) hsize
  induction fuel generalizing xs rest with
  | zero => omega
  | succ fuel ih =>
    rw [mallocSearch, hbound]
    cases rest with
    | nil =>
      rw [if_neg (by simp only [walkAt, List.head?_nil, Option.map_none, Option.getD_none]; omega)]
      rfl
    | cons k rest =>
      have hkb := hs.bounds (k := k) (by simp)
      have hstart : walkAt h (k :: rest) = k.off := rfl
      have hfit : (k.tag.used = 0 ∧ wordSub k.next (k.off + A.sizeofStructMem) ≥ size) ↔
          isFree k ∧ k.off + A.sizeofStructMem + size ≤ k.next := by
        rw [wordSub_of_le (by omega) (by omega)]
        simp only [isFree, beq_iff_eq]
        omega
      simp only [hstart, hs.header_eq, hfit]
      by_cases hlt : k.off < h.memSizeAligned - size
      · rw [if_pos hlt]
        by_cases htake : isFree k ∧ k.off + A.sizeofStructMem + size ≤ k.next
        · have hhead : SearchTakes A h size k := ⟨hlt, htake⟩
          simp [htake, hhead]
        · have hpass : ¬SearchTakes A h size k := fun ht => htake ht.2
          rw [if_neg htake, List.find?_cons, ← hs.walk_next]
          simp only [hpass, decide_false]
          have hs' : HeapShape A h ((xs ++ [k]) ++ rest) := by simpa using hs
          exact ih hs' (by simpa using hfuel)
      · rw [if_neg hlt]
        have hnone : (k :: rest).find? (fun k => SearchTakes A h size k) = none := by
          rw [List.find?_eq_none]
          intro c hc ht
          have hlow : c.off < h.memSizeAligned - size := (of_decide_eq_true ht).1
          rcases List.mem_cons.mp hc with rfl | hc
          · exact hlt hlow
          · have := hs.after hc
            omega
        rw [hnone]
        rfl

/-- The loop that looks for the next free block ends. -/
theorem advanceLfree_total {p a : Nat} (ht : Tiled A.sizeofStructMem (header h.mem) p a bs h.heapEnd)
    (hfuel : bs.length < fuel) : ∃ l, advanceLfree h fuel a = some l := by
  induction fuel generalizing p a bs with
  | zero => omega
  | succ fuel ih =>
    rw [advanceLfree]
    split
    next hgo =>
      cases bs with
      | nil => exact absurd ht hgo.2
      | cons k bs =>
        obtain ⟨-, hr, -, ht⟩ := ht
        rw [hr]
        exact ih ht (by simpa using hfuel)
    next => exact ⟨a, rfl⟩

theorem lowestFree_unused {m : Memory} {p a : Nat}
    (ht : Tiled A.sizeofStructMem (header m) p a bs h.heapEnd) :
    lowestFree h.heapEnd bs = h.heapEnd ∨ (header m (lowestFree h.heapEnd bs)).tag.used = 0 := by
  rcases lowestFree_spec h.heapEnd bs with ⟨he, -⟩ | ⟨us, v, ws, rfl, hv, he, -⟩
  · exact Or.inl he
  · right
    rw [he, (ht.reads (c := v) (by simp)).1]
    simpa [isFree] using hv

/-- `rt_malloc` completes on the block that its search found. -/
theorem mallocTake_total (hr : HeapRep A h (xs ++ k :: ys)) (hf : isFree k) (hsize : A.size ∣ size)
    (hfit : k.off + A.sizeofStructMem + size ≤ k.next) :
    ∃ n, ∀ fuel, n < fuel → ∃ h', mallocTake A fuel h k.off size = some (h', blockPtr A h k) := by
  have hs := hr.toHeapShape
  have hkb := hs.bounds (k := k) (by simp)
  obtain ⟨m, w, k', zs, heq, htiles, -, hko, -, -, -, -, -, -⟩ := mallocCarve_spec hr hf hsize hfit
  obtain ⟨a, -, hrest⟩ := tiled_append.mp htiles
  obtain rfl : k'.off = a := hrest.1
  refine ⟨(k' :: zs).length, fun fuel hfuel => ?_⟩
  let h1 : Heap := { h with mem := m, usedMem := h.usedMem + (k'.next - k'.off), maxMem := w }
  obtain ⟨l, hl, hassert⟩ : ∃ l, nextLfree fuel h1 k.off = some l ∧
      (k.off = h1.lfree → l = h1.heapEnd ∨ (header h1.mem l).tag.used = 0) := by
    unfold nextLfree
    by_cases hlow : k.off = h1.lfree
    · rw [if_pos hlow, ← hlow, ← hko]
      have hrest' : Tiled A.sizeofStructMem (header h1.mem) (lastOff 0 xs) k'.off (k' :: zs)
        h1.heapEnd := hrest
      obtain ⟨l, hl⟩ := advanceLfree_total hrest' hfuel
      refine ⟨l, hl, fun _ => ?_⟩
      rw [advanceLfree_eq hrest' hl]
      exact lowestFree_unused hrest'
    · rw [if_neg hlow]
      exact ⟨_, rfl, fun he => absurd he hlow⟩
  have hptr : (h1.heapPtr + k.off + A.sizeofStructMem) % A.size = 0 :=
    hs.blockPtr_aligned (k := k) (by simp)
  have hdvd : (h1.heapPtr + k.off) % A.size = 0 :=
    Nat.mod_eq_zero_of_dvd (Nat.dvd_add hs.ptrAligned (hs.aligned k (by simp)))
  have hinside : k.off + A.sizeofStructMem + size ≤ h1.heapEnd := by
    show _ ≤ h.heapEnd
    omega
  refine ⟨{ h1 with lfree := l }, ?_⟩
  rw [mallocTake, heq]
  show mallocFinish A fuel h1 k.off size = _
  simp only [mallocFinish, hl, rtAssert, Option.bind_eq_bind, Option.bind_some]
  rw [if_pos hassert, if_pos hinside, if_pos hptr, if_pos hdvd]
  rfl

theorem mallocSearch_mono {ptr fuel' : Nat} {found : Option Nat} (hle : fuel ≤ fuel')
    (hf : mallocSearch A h size fuel ptr = some found) :
    mallocSearch A h size fuel' ptr = some found := by
  induction fuel generalizing ptr fuel' with
  | zero => simp [mallocSearch] at hf
  | succ fuel ih =>
    obtain ⟨n, rfl⟩ : ∃ n, fuel' = n + 1 := ⟨fuel' - 1, by omega⟩
    rw [mallocSearch] at hf ⊢
    split at hf
    next hlt =>
      rw [if_pos hlt]
      dsimp only at hf ⊢
      split at hf
      next hfit => rwa [if_pos hfit]
      next hfit =>
        rw [if_neg hfit]
        exact ih (by omega) hf
    next hge => rwa [if_neg hge]

theorem advanceLfree_mono {a l fuel' : Nat} (hle : fuel ≤ fuel')
    (hl : advanceLfree h fuel a = some l) : advanceLfree h fuel' a = some l := by
  induction fuel generalizing a fuel' with
  | zero => simp [advanceLfree] at hl
  | succ fuel ih =>
    obtain ⟨n, rfl⟩ : ∃ n, fuel' = n + 1 := ⟨fuel' - 1, by omega⟩
    rw [advanceLfree] at hl ⊢
    split at hl
    next hgo =>
      rw [if_pos hgo]
      exact ih (by omega) hl
    next hstop => rwa [if_neg hstop]

theorem mallocTake_mono {ptr fuel' : Nat} {r : Heap × Nat} (hle : fuel ≤ fuel')
    (ht : mallocTake A fuel h ptr size = some r) : mallocTake A fuel' h ptr size = some r := by
  simp only [mallocTake, mallocFinish, Option.bind_eq_bind, Option.bind_eq_some_iff] at ht ⊢
  obtain ⟨l, hl, hrest⟩ := ht
  refine ⟨l, ?_, hrest⟩
  unfold nextLfree at hl ⊢
  split at hl
  next hlow =>
    rw [if_pos hlow]
    exact advanceLfree_mono hle hl
  next hlow => rwa [if_neg hlow]

/-- More fuel does not change what a completed `rt_malloc` does. -/
theorem rtMalloc_mono {fuel' : Nat} {r : Heap × Nat} (hle : fuel ≤ fuel')
    (hm : rtMalloc A fuel h size = some r) : rtMalloc A fuel' h size = some r := by
  unfold rtMalloc at hm ⊢
  split at hm
  next hzero => rwa [if_pos hzero]
  next hzero =>
    rw [if_neg hzero]
    dsimp only at hm ⊢
    split at hm
    next hbig => rwa [if_pos hbig]
    next hbig =>
      rw [if_neg hbig]
      rw [← mallocSize, Option.bind_eq_some_iff] at hm ⊢
      obtain ⟨found, hf, hm⟩ := hm
      refine ⟨found, mallocSearch_mono hle hf, ?_⟩
      cases found with
      | none => exact hm
      | some ptr => exact mallocTake_mono hle hm

/-- The blocks before the one `lfree` points to, and those from it on. -/
theorem HeapShape.split_lfree (hs : HeapShape A h bs) :
    ∃ xs rest, bs = xs ++ rest ∧ walkAt h rest = h.lfree ∧ (∀ c ∈ xs, c.off < h.lfree) ∧
      ∀ c ∈ rest, h.lfree ≤ c.off := by
  have hW := sizeofStructMem_ge A
  rcases hs.lfreeAt with he | ⟨k, hk, hko, -⟩
  · refine ⟨bs, [], by simp, he.symm, fun c hc => ?_, by simp⟩
    have := hs.bounds hc
    omega
  · obtain ⟨xs, ys, rfl⟩ := List.append_of_mem hk
    refine ⟨xs, k :: ys, rfl, hko, fun c hc => ?_, fun c hc => ?_⟩
    · have := hs.before hc
      omega
    · have hkb := hs.bounds (k := k) (by simp)
      rcases List.mem_cons.mp hc with rfl | hc
      · omega
      · have := hs.after hc
        omega

theorem mallocSize_le (hle : rtAlign A size ≤ h.memSizeAligned) (hmin : A.minSizeAligned ≤ h.memSizeAligned) :
    mallocSize A size ≤ h.memSizeAligned := by
  unfold mallocSize
  split <;> omega

theorem rtMalloc_notFound (hsize : size ≠ 0) (hle : rtAlign A size ≤ h.memSizeAligned)
    (hsearch : mallocSearch A h (mallocSize A size) fuel h.lfree = some none) :
    rtMalloc A fuel h size = some (h, 0) := by
  rw [rtMalloc, if_neg hsize]
  dsimp only
  rw [if_neg (by omega), ← mallocSize, hsearch]
  rfl

theorem rtMalloc_found {ptr : Nat} (hsize : size ≠ 0) (hle : rtAlign A size ≤ h.memSizeAligned)
    (hsearch : mallocSearch A h (mallocSize A size) fuel h.lfree = some (some ptr)) :
    rtMalloc A fuel h size = mallocTake A fuel h ptr (mallocSize A size) := by
  rw [rtMalloc, if_neg hsize]
  dsimp only
  rw [if_neg (by omega), ← mallocSize, hsearch]
  rfl

/-- A completed `rt_malloc` took the first block from `lfree` on that its loop takes, or found none. -/
theorem rtMalloc_finds (hr : HeapRep A h bs) (hsize : size ≠ 0)
    (hle : rtAlign A size ≤ h.memSizeAligned) (hmin : A.minSizeAligned ≤ h.memSizeAligned) :
    ∃ n, ∀ fuel, n < fuel →
      (∃ k ∈ bs, h.lfree ≤ k.off ∧ SearchTakes A h (mallocSize A size) k ∧
        (∀ c ∈ bs, h.lfree ≤ c.off → SearchTakes A h (mallocSize A size) c → k.off ≤ c.off) ∧
        ∃ h', rtMalloc A fuel h size = some (h', blockPtr A h k)) ∨
      (∀ c ∈ bs, h.lfree ≤ c.off → ¬SearchTakes A h (mallocSize A size) c) ∧
        rtMalloc A fuel h size = some (h, 0) := by
  have hs := hr.toHeapShape
  have hfits := mallocSize_le hle hmin
  obtain ⟨xs, rest, rfl, hwalk, hbefore, hfrom⟩ := hs.split_lfree
  have hsearch : ∀ fuel, rest.length < fuel → mallocSearch A h (mallocSize A size) fuel h.lfree =
      some ((rest.find? fun k => SearchTakes A h (mallocSize A size) k).map Cell.off) := by
    intro fuel hfuel
    rw [← hwalk]
    exact mallocSearch_eq hs hfits hfuel
  cases hfind : rest.find? fun k => SearchTakes A h (mallocSize A size) k with
  | none =>
    refine ⟨rest.length, fun fuel hfuel => Or.inr ⟨?_, ?_⟩⟩
    · intro c hc hfromc htakes
      rcases List.mem_append.mp hc with hc | hc
      · have := hbefore c hc
        omega
      · exact List.find?_eq_none.mp hfind c hc (decide_eq_true htakes)
    · have hnone := hsearch fuel hfuel
      rw [hfind] at hnone
      exact rtMalloc_notFound hsize hle hnone
  | some k =>
    obtain ⟨htakes, us, ws, rfl, hus⟩ := List.find?_eq_some_iff_append.mp hfind
    have hk : SearchTakes A h (mallocSize A size) k := of_decide_eq_true htakes
    have hr' : HeapRep A h ((xs ++ us) ++ k :: ws) := by simpa using hr
    obtain ⟨n, htotal⟩ := mallocTake_total hr' hk.2.1 (mallocSize_dvd A size) hk.2.2
    refine ⟨max n (us ++ k :: ws).length, fun fuel hfuel => Or.inl ⟨k, by simp,
      hfrom k (by simp), hk, ?_, ?_⟩⟩
    · intro c hc hfromc htakesc
      have hkb := hr'.toHeapShape.bounds (k := k) (by simp)
      simp only [List.mem_append, List.mem_cons] at hc
      rcases hc with hc | hc | rfl | hc
      · have := hbefore c hc
        omega
      · simpa [htakesc] using hus c hc
      · exact Nat.le_refl _
      · have := hr'.toHeapShape.after hc
        omega
    · have hsome := hsearch fuel (by omega)
      rw [hfind] at hsome
      rw [rtMalloc_found hsize hle hsome]
      exact htotal fuel (by omega)

/-- In an arena below the least block size the bound of the loop wraps and the walk never ends. -/
theorem mallocSearch_endless (hs : HeapShape A h bs) (hsmall : h.memSizeAligned < A.minSizeAligned)
    {ptr : Nat} (hp : ptr = h.heapEnd ∨ ∃ k ∈ bs, k.off = ptr) :
    mallocSearch A h A.minSizeAligned fuel ptr = none := by
  have hend := hs.end_lt
  have hoff := hs.endOff
  have hW := sizeofStructMem_ge A
  have hsum := minSizeAligned_add_lt A
  have hbound : wordSub h.memSizeAligned A.minSizeAligned =
      4294967296 + h.memSizeAligned - A.minSizeAligned := by
    unfold wordSub
    omega
  induction fuel generalizing ptr with
  | zero => rfl
  | succ fuel ih =>
    rw [mallocSearch, hbound]
    rcases hp with rfl | ⟨k, hk, rfl⟩
    · rw [if_pos (by omega), if_neg (fun hfree => hs.endUsed hfree.1), hs.endNext]
      exact ih (Or.inl rfl)
    · have hkb := hs.bounds hk
      obtain ⟨xs, ys, rfl⟩ := List.append_of_mem hk
      simp only [hs.header_eq]
      rw [if_pos (by omega), if_neg (by
        rw [wordSub_of_le (by omega) (by omega)]
        omega)]
      refine ih ?_
      rw [← hs.walk_next]
      cases ys with
      | nil => exact Or.inl rfl
      | cons n ys => exact Or.inr ⟨n, by simp, rfl⟩

/-- `rt_malloc` completes, exactly where it does not search an arena that is too small. -/
theorem rtMalloc_completes_iff (hr : HeapRep A h bs) :
    (∃ fuel, (rtMalloc A fuel h size).isSome) ↔
      size = 0 ∨ h.memSizeAligned < rtAlign A size ∨ A.minSizeAligned ≤ h.memSizeAligned := by
  have hs := hr.toHeapShape
  by_cases hsize : size = 0
  · simp [rtMalloc, hsize]
  by_cases hbig : rtAlign A size > h.memSizeAligned
  · simp only [hbig, true_or, or_true, iff_true]
    exact ⟨0, by simp [rtMalloc, hsize, hbig]⟩
  by_cases hmin : A.minSizeAligned ≤ h.memSizeAligned
  · simp only [hmin, or_true, iff_true]
    obtain ⟨n, hfinds⟩ := rtMalloc_finds hr hsize (by omega) hmin
    refine ⟨n + 1, ?_⟩
    rcases hfinds (n + 1) (by omega) with ⟨k, -, -, -, -, h', he⟩ | ⟨-, he⟩ <;> simp [he]
  · simp only [hsize, hbig, hmin, or_self, iff_false, not_exists]
    intro fuel
    have hraise : rtAlign A size < A.minSizeAligned := by omega
    simp [rtMalloc, hsize, hbig, hraise, mallocSearch_endless hs (by omega) hs.lfree_start]

end

/-- Block at `o` is free and its usable size is at least what `rt_malloc` looks for. -/
def BlockFits (A : AlignSize) (h : Heap) (size o : Nat) : Prop :=
  (header h.mem o).tag.used = 0 ∧ o + A.sizeofStructMem + mallocSize A size ≤ (header h.mem o).next

/-- The lowest of the blocks `offs` that fits. -/
def LowestFit (A : AlignSize) (h : Heap) (offs : List Nat) (size o : Nat) : Prop :=
  o ∈ offs ∧ BlockFits A h size o ∧ ∀ o' ∈ offs, BlockFits A h size o' → o ≤ o'

/-- `rt_malloc` fails only where no block fits, and otherwise returns the lowest one that does. -/
def FirstFit (A : AlignSize) (h : Heap) (offs : List Nat) (size : Nat) : Prop :=
  (∀ fuel h', rtMalloc A fuel h size = some (h', 0) → ∀ o ∈ offs, ¬BlockFits A h size o) ∧
  ∀ o, LowestFit A h offs size o →
    ∃ fuel h', rtMalloc A fuel h size = some (h', h.heapPtr + o + A.sizeofStructMem)

/-- Bytes are asked for, and the lowest block that fits does not end the arena with no byte to
spare. -/
def NotExactLast (A : AlignSize) (h : Heap) (offs : List Nat) (size : Nat) : Prop :=
  ∀ o, LowestFit A h offs size o →
    size ≠ 0 ∧ o + A.sizeofStructMem + mallocSize A size ≠ h.heapEnd

section
variable {A : AlignSize} {h h' : Heap} {s : HeapState} {bs : List Block} {k : Block}
  {offs : List Nat} {size fuel q : Nat} {m : Memory} {beginAddr endAddr : UInt32}

theorem links_le_end {next : Nat → Nat} {w e : Nat} {xs : List Nat} {x : Nat}
    (hc : (xs ++ [e]).IsChain fun a b => next a = b ∧ a + w ≤ b) (hx : (xs ++ [e]).head? = some x) :
    x ≤ e := by
  induction xs generalizing x with
  | nil => simp at hx; omega
  | cons a xs ih =>
    obtain rfl : a = x := by simpa using hx
    obtain ⟨hhead, hrest⟩ := List.isChain_cons.mp hc
    obtain ⟨y, hy⟩ : ∃ y, (xs ++ [e]).head? = some y := by cases xs <;> simp
    have hstep := hhead y hy
    have := ih hrest hy
    omega

theorem links_unique {next : Nat → Nat} {w e x : Nat} (hw : 0 < w) {xs ys : List Nat}
    (hxs : (xs ++ [e]).IsChain fun a b => next a = b ∧ a + w ≤ b)
    (hys : (ys ++ [e]).IsChain fun a b => next a = b ∧ a + w ≤ b)
    (hx : (xs ++ [e]).head? = some x) (hy : (ys ++ [e]).head? = some x) : xs = ys := by
  have hbelow : ∀ {a : Nat} {zs : List Nat},
      ((a :: zs) ++ [e]).IsChain (fun a b => next a = b ∧ a + w ≤ b) → a < e := by
    intro a zs hc
    obtain ⟨hhead, hrest⟩ := List.isChain_cons.mp hc
    obtain ⟨y, hy⟩ : ∃ y, (zs ++ [e]).head? = some y := by cases zs <;> simp
    have hstep := hhead y hy
    have := links_le_end hrest hy
    omega
  induction xs generalizing ys x with
  | nil =>
    obtain rfl : e = x := by simpa using hx
    cases ys with
    | nil => rfl
    | cons b ys =>
      obtain rfl : b = e := by simpa using hy
      exact absurd (hbelow hys) (Nat.lt_irrefl _)
  | cons a xs ih =>
    obtain rfl : a = x := by simpa using hx
    cases ys with
    | nil =>
      obtain rfl : e = a := by simpa using hy
      exact absurd (hbelow hxs) (Nat.lt_irrefl _)
    | cons b ys =>
      obtain rfl : b = a := by simpa using hy
      obtain ⟨hxhead, hxrest⟩ := List.isChain_cons.mp hxs
      obtain ⟨hyhead, hyrest⟩ := List.isChain_cons.mp hys
      obtain ⟨u, hu⟩ : ∃ u, (xs ++ [e]).head? = some u := by cases xs <;> simp
      obtain ⟨v, hv⟩ : ∃ v, (ys ++ [e]).head? = some v := by cases ys <;> simp
      have huv : u = v := (hxhead u hu).1.symm.trans (hyhead v hv).1
      rw [ih hxrest hyrest hu (huv ▸ hv)]

/-- Following `next` from the start of the arena visits the blocks and nothing else. -/
theorem HeapShape.chain_unique (hs : HeapShape A h bs) (hc : HeapChain A h offs) :
    offs = bs.map Cell.off := by
  have hW := sizeofStructMem_ge A
  have hown := hs.chain
  exact links_unique (by omega) hc.follows hown.follows hc.start hown.start

theorem HeapShape.blockFits (hs : HeapShape A h bs) (hk : k ∈ bs) :
    BlockFits A h size k.off ↔ isFree k ∧ k.off + A.sizeofStructMem + mallocSize A size ≤ k.next := by
  rw [BlockFits, hs.read_used hk, (hs.read hk).2]

/-- In a heap whose `lfree` is the lowest free block, first fit is complete but for an exact fit at
the end of the arena. -/
theorem rtMalloc_firstFit (hr : HeapRep A h bs) (hc : HeapChain A h offs) (hl : LfreeLowest h offs)
    (hle : rtAlign A size ≤ h.memSizeAligned) :
    FirstFit A h offs size ↔ NotExactLast A h offs size := by
  have hs := hr.toHeapShape
  have hW := sizeofStructMem_ge A
  have hend := hs.end_lt
  have hendOff := hs.endOff
  obtain rfl := hs.chain_unique hc
  have hfrom : ∀ k ∈ bs, isFree k → h.lfree ≤ k.off := by
    intro k hk hf
    rcases hl with ⟨-, hnone⟩ | ⟨-, -, hlow⟩
    · exact absurd ((hs.read_used hk).mpr hf) (hnone _ (List.mem_map_of_mem hk))
    · exact hlow _ (List.mem_map_of_mem hk) ((hs.read_used hk).mpr hf)
  have htakes : ∀ k ∈ bs, SearchTakes A h (mallocSize A size) k ↔
      BlockFits A h size k.off ∧ k.off + A.sizeofStructMem + mallocSize A size ≠ h.heapEnd := by
    intro k hk
    have hkb := hs.bounds hk
    rw [hs.blockFits hk, SearchTakes]
    constructor
    · rintro ⟨hlt, hf, hfit⟩
      exact ⟨⟨hf, hfit⟩, by omega⟩
    · rintro ⟨⟨hf, hfit⟩, hne⟩
      exact ⟨by omega, hf, hfit⟩
  have hroom : ∀ o, LowestFit A h (bs.map Cell.off) size o → A.minSizeAligned ≤ h.memSizeAligned := by
    rintro o ⟨ho, hfit, -⟩
    obtain ⟨k, hk, rfl⟩ := List.mem_map.mp ho
    have hkb := hs.bounds hk
    have hge : A.minSizeAligned ≤ mallocSize A size := by unfold mallocSize; split <;> omega
    have := ((hs.blockFits hk).mp hfit).2
    omega
  have hlowest : ∀ k ∈ bs, SearchTakes A h (mallocSize A size) k →
      (∀ c ∈ bs, h.lfree ≤ c.off → SearchTakes A h (mallocSize A size) c → k.off ≤ c.off) →
      ∀ o, LowestFit A h (bs.map Cell.off) size o →
        o + A.sizeofStructMem + mallocSize A size ≠ h.heapEnd → k.off = o := by
    rintro k hk hk' hfirst o ⟨ho, hfit, hmin⟩ hne
    obtain ⟨c, hc, rfl⟩ := List.mem_map.mp ho
    have h1 := hmin k.off (List.mem_map_of_mem hk) ((htakes k hk).mp hk').1
    have h2 := hfirst c hc (hfrom c hc ((hs.blockFits hc).mp hfit).1) ((htakes c hc).mpr ⟨hfit, hne⟩)
    omega
  have hfinds : size ≠ 0 → (∃ o, LowestFit A h (bs.map Cell.off) size o) → ∃ n, ∀ fuel, n < fuel →
      (∃ k ∈ bs, SearchTakes A h (mallocSize A size) k ∧
        (∀ c ∈ bs, h.lfree ≤ c.off → SearchTakes A h (mallocSize A size) c → k.off ≤ c.off) ∧
        ∃ h', rtMalloc A fuel h size = some (h', blockPtr A h k)) ∨
      (∀ c ∈ bs, ¬SearchTakes A h (mallocSize A size) c) ∧ rtMalloc A fuel h size = some (h, 0) := by
    rintro hsize ⟨o, ho⟩
    obtain ⟨n, hn⟩ := rtMalloc_finds hr hsize hle (hroom o ho)
    refine ⟨n, fun fuel hfuel => ?_⟩
    rcases hn fuel hfuel with ⟨k, hk, -, hk', hfirst, hm⟩ | ⟨hnone, hm⟩
    · exact Or.inl ⟨k, hk, hk', hfirst, hm⟩
    · exact Or.inr ⟨fun c hc htake => hnone c hc (hfrom c hc htake.2.1) htake, hm⟩
  constructor
  · rintro ⟨-, hfound⟩ o ho
    obtain ⟨fuel, h', hm⟩ := hfound o ho
    have hsize : size ≠ 0 := by
      rintro rfl
      simp only [rtMalloc, if_true, Option.some.injEq, Prod.mk.injEq] at hm
      omega
    refine ⟨hsize, ?_⟩
    obtain ⟨n, hn⟩ := hfinds hsize ⟨o, ho⟩
    have hm' := rtMalloc_mono (Nat.le_max_left fuel (n + 1)) hm
    rcases hn (max fuel (n + 1)) (by omega) with ⟨k, hk, hk', -, h1, h2⟩ | ⟨-, h2⟩
    · have hq := (Prod.mk.inj (Option.some.inj (hm'.symm.trans h2))).2
      obtain rfl : o = k.off := by
        unfold blockPtr at hq
        omega
      exact ((htakes k hk).mp hk').2
    · have hq := (Prod.mk.inj (Option.some.inj (hm'.symm.trans h2))).2
      omega
  · intro hcond
    refine ⟨fun fuel h' hm o ho hfit => ?_, fun o ho => ?_⟩
    · have hex : ∃ o, o ∈ bs.map Cell.off ∧ BlockFits A h size o := ⟨o, ho, hfit⟩
      classical
      have hlow : LowestFit A h (bs.map Cell.off) size (Nat.find hex) :=
        ⟨(Nat.find_spec hex).1, (Nat.find_spec hex).2, fun o' ho' hf' => Nat.find_min' hex ⟨ho', hf'⟩⟩
      obtain ⟨hsize, hne⟩ := hcond _ hlow
      obtain ⟨c, hc, hco⟩ := List.mem_map.mp hlow.1
      obtain ⟨n, hn⟩ := hfinds hsize ⟨_, hlow⟩
      have hm' := rtMalloc_mono (Nat.le_max_left fuel (n + 1)) hm
      rcases hn (max fuel (n + 1)) (by omega) with ⟨k, -, -, -, h1, h2⟩ | ⟨hnone, -⟩
      · have hq := (Prod.mk.inj (Option.some.inj (hm'.symm.trans h2))).2
        exact blockPtr_pos A h k hq.symm
      · rw [← hco] at hlow hne
        exact hnone c hc ((htakes c hc).mpr ⟨hlow.2.1, hne⟩)
    · obtain ⟨hsize, hne⟩ := hcond o ho
      obtain ⟨n, hn⟩ := hfinds hsize ⟨o, ho⟩
      rcases hn (n + 1) (by omega) with ⟨k, hk, hk', hfirst, h1, h2⟩ | ⟨hnone, -⟩
      · obtain rfl := hlowest k hk hk' hfirst o ho hne
        exact ⟨n + 1, h1, h2⟩
      · obtain ⟨c, hc, rfl⟩ := List.mem_map.mp ho.1
        exact absurd ((htakes c hc).mpr ⟨ho.2.1, hne⟩) (hnone c hc)

/-- First fit in every state reached in which `lfree` is the lowest free block. -/
theorem heapReach_firstFit_iff (hr : HeapReach A (CallFits A) m beginAddr endAddr s)
    (hc : HeapChain A s.heap offs) (hl : LfreeLowest s.heap offs) (size : UInt32)
    (hle : rtAlign A size.toNat ≤ s.heap.memSizeAligned) :
    FirstFit A s.heap offs size.toNat ↔ NotExactLast A s.heap offs size.toNat := by
  obtain ⟨bs, hh, -⟩ := heapReach_holds (fun _ _ _ hc => hc) hr
  exact rtMalloc_firstFit hh.1 hc hl hle

/-- `rt_malloc` ends in every state reached, but in an arena below the least block size. -/
theorem heapReach_malloc_completes_iff (hr : HeapReach A (CallFits A) m beginAddr endAddr s)
    (size : UInt32) : (∃ fuel, (rtMalloc A fuel s.heap size.toNat).isSome) ↔
      size.toNat = 0 ∨ s.heap.memSizeAligned < rtAlign A size.toNat ∨
        A.minSizeAligned ≤ s.heap.memSizeAligned := by
  obtain ⟨bs, hh, -⟩ := heapReach_holds (fun _ _ _ hc => hc) hr
  exact rtMalloc_completes_iff hh.1

end

/-- An arena of 480 usable bytes with nothing allocated. -/
def freshArena : HeapState := (heapRun align8 clearedMemory 4096 4608 []).get (by decide +kernel)

theorem freshArena_reach (ok : Nat → Heap → HeapCall → Prop) :
    HeapReach align8 ok clearedMemory 4096 4608 freshArena :=
  heapReach_run (fun _ _ hc => absurd hc List.not_mem_nil) (Option.some_get _).symm

theorem freshArena_chain : HeapChain align8 freshArena.heap [0] where
  start := rfl
  follows := by
    have hend : freshArena.heap.heapEnd = 496 := by decide +kernel
    have hnext : (header freshArena.heap.mem 0).next = 496 := by decide +kernel
    have hW : align8.sizeofStructMem = 16 := by decide +kernel
    simp [hend, hnext, hW]

theorem freshArena_lowest : LfreeLowest freshArena.heap [0] := by
  have hlow : freshArena.heap.lfree = 0 := by decide +kernel
  have hfree : (header freshArena.heap.mem 0).tag.used = 0 := by decide +kernel
  right
  rw [hlow]
  exact ⟨List.mem_singleton_self 0, hfree, fun o _ _ => Nat.zero_le o⟩

theorem heapReach_firstFit_iff_fresh :
    FirstFit align8 freshArena.heap [0] 100 ↔ NotExactLast align8 freshArena.heap [0] 100 :=
  heapReach_firstFit_iff (freshArena_reach _) freshArena_chain freshArena_lowest 100
    (by decide +kernel)

/-- All 480 bytes are free, and `rt_malloc(480)` fails. -/
theorem malloc_whole_arena : ¬∀ (A : AlignSize) (m : Memory) (b e : UInt32) (s : HeapState)
    (offs : List Nat), HeapReach A (CallFits A) m b e s → HeapChain A s.heap offs →
    LfreeLowest s.heap offs → ∀ size : UInt32,
    rtAlign A size.toNat ≤ s.heap.memSizeAligned → FirstFit A s.heap offs size.toNat := by
  intro hall
  obtain ⟨hnull, -⟩ := hall align8 clearedMemory 4096 4608 freshArena [0] (freshArena_reach _)
    freshArena_chain freshArena_lowest 480 (by decide +kernel)
  have hmalloc : (rtMalloc align8 1 freshArena.heap 480).map Prod.snd = some 0 := by decide +kernel
  obtain ⟨⟨h', q⟩, hm, rfl⟩ := Option.map_eq_some_iff.mp hmalloc
  refine hnull 1 h' hm 0 (List.mem_singleton_self 0) ?_
  show _ ∧ _
  decide +kernel

theorem heapReach_malloc_completes_iff_fresh :
    (∃ fuel, (rtMalloc align8 fuel freshArena.heap 100).isSome) ↔
      100 = 0 ∨ freshArena.heap.memSizeAligned < rtAlign align8 100 ∨
        align8.minSizeAligned ≤ freshArena.heap.memSizeAligned :=
  heapReach_malloc_completes_iff (freshArena_reach _) 100

/-- An arena of eight usable bytes, fewer than `MIN_SIZE_ALIGNED`. -/
def tinyArena : HeapState := (heapRun align4 clearedMemory 4096 4128 []).get (by decide +kernel)

theorem malloc_turns_forever : ¬∀ (A : AlignSize) (m : Memory) (b e : UInt32) (s : HeapState),
    HeapReach A (CallFits A) m b e s → ∀ size : UInt32,
    ∃ fuel, (rtMalloc A fuel s.heap size.toNat).isSome := by
  intro hall
  have hr : HeapReach align4 (CallFits align4) clearedMemory 4096 4128 tinyArena :=
    heapReach_run (fun _ _ hc => absurd hc List.not_mem_nil) (Option.some_get _).symm
  obtain ⟨bs, hh, -⟩ := heapReach_holds (fun _ _ _ hc => hc) hr
  have hends := (rtMalloc_completes_iff hh.1).mp (hall _ _ _ _ _ hr 4)
  revert hends
  decide +kernel

end RTThread
