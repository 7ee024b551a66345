import RTThread.HeapInvariant
import RTThread.MemHeapInit

namespace RTThread

inductive MemHeapCall where
  | alloc (size : UInt32)
  | realloc (ptr : Nat) (newsize : UInt32)
  | free (ptr : Nat)
  | store (ptr offset value : Nat)

/-- The memheap and the pointers its callers hold. -/
structure MemHeapState where
  heap : MemHeap
  live : List Nat

/-- A completed call, and a caller's own write into a block it holds. A pointer passed in is live
or null; a failed `rt_memheap_realloc` leaves the old pointer with its caller. -/
def memHeapCall (A : AlignSize) (fuel : Nat) (s : MemHeapState) : MemHeapCall → Option MemHeapState
  | .alloc size => do
    let (h, p) ← rtMemheapAlloc A fuel s.heap size.toNat
    some ⟨h, if p = 0 then s.live else p :: s.live⟩
  | .realloc ptr newsize =>
    if ptr = 0 ∨ ptr ∈ s.live then do
      let (h, p) ← rtMemheapRealloc A fuel s.heap ptr newsize.toNat
      some ⟨h, if newsize.toNat = 0 then s.live.erase ptr
        else if p = 0 then s.live else p :: s.live.erase ptr⟩
    else none
  | .free ptr =>
    if ptr = 0 ∨ ptr ∈ s.live then do
      let h ← rtMemheapFree A s.heap ptr
      some ⟨h, s.live.erase ptr⟩
    else none
  | .store ptr offset value =>
    if ptr ∈ s.live ∧ offset < memitemSize A s.heap.mem (wordSub ptr A.memheapSize) then
      some { s with heap := { s.heap with mem := write8 s.heap.mem (ptr + offset) value } }
    else none

/-- A memheap that `rt_memheap_init` has set up, with nothing allocated yet. -/
def MemHeapFresh (A : AlignSize) (m : Memory) (self freeHeader startAddr : Nat) (size : UInt32)
    (s : MemHeapState) : Prop :=
  PoolPlaced self freeHeader startAddr size.toNat ∧
    s.heap = rtMemheapInit A m self freeHeader startAddr size.toNat ∧ s.live = []

/-- The states of runs whose calls, each with the fuel its walk gets, all meet `ok`. -/
abbrev MemHeapReach (A : AlignSize) (ok : MemHeap → MemHeapCall → Prop) (m : Memory)
    (self freeHeader startAddr : Nat) (size : UInt32) : MemHeapState → Prop :=
  Reach (fun s (c : Nat × MemHeapCall) => memHeapCall A c.1 s c.2) (fun s c => ok s.heap c.2)
    (MemHeapFresh A m self freeHeader startAddr size)

/-- The sum in `rt_memheap_realloc` does not wrap where it is compared. -/
def MemCallFits (A : AlignSize) (h : MemHeap) : MemHeapCall → Prop
  | .realloc ptr newsize => ptr = 0 ∨ GrowFits A h ptr newsize.toNat
  | _ => True

/-- What holds between calls: the blocks of the pool, and one live pointer for each one in use. -/
def MemHeapHolds (A : AlignSize) (s : MemHeapState) : Prop :=
  ∃ bs fs, MemHeapRep A s.heap bs fs ∧ s.live.Perm ((usedOffs bs).map (· + A.memheapSize))

section
variable {A : AlignSize} {s s' : MemHeapState} {bs bs' : List MemBlock} {fs : List Nat} {fuel p : Nat}
  {c : MemHeapCall} {h h' : MemHeap} {k : MemBlock}

theorem mem_usedOffs {x : Nat} (hx : x ∈ usedOffs bs) :
    ∃ k ∈ bs, memBlockFree k = false ∧ k.off = x := by
  obtain ⟨k, hk, rfl⟩ := List.mem_map.mp hx
  obtain ⟨hin, hfree⟩ := List.mem_filter.mp hk
  exact ⟨k, hin, by simpa using hfree, rfl⟩

theorem liveItem (hlive : s.live.Perm ((usedOffs bs).map (· + A.memheapSize))) (hp : p ∈ s.live) :
    ∃ k ∈ bs, memBlockFree k = false ∧ p = k.off + A.memheapSize := by
  obtain ⟨o, ho, rfl⟩ := List.mem_map.mp (hlive.mem_iff.mp hp)
  obtain ⟨k, hk, hu, rfl⟩ := mem_usedOffs ho
  exact ⟨k, hk, hu, rfl⟩

theorem ptr_ne_zero (A : AlignSize) (o : Nat) : o + A.memheapSize ≠ 0 := by
  have := memheapSize_ge A
  have hsize : sizeofMemheapItem = 24 := rfl
  omega

theorem live_not_zero (hlive : s.live.Perm ((usedOffs bs).map (· + A.memheapSize))) : 0 ∉ s.live := by
  intro hz
  obtain ⟨k, -, -, he⟩ := liveItem hlive hz
  exact ptr_ne_zero A k.off he.symm

theorem rtMemheapFree_null (h : MemHeap) : rtMemheapFree A h 0 = some h := by
  unfold rtMemheapFree
  rw [if_pos rfl]

/-- An allocation fails and changes nothing, or adds one live pointer. -/
theorem memHeap_gain {size : Nat} (hr : MemHeapRep A s.heap bs fs)
    (hlive : s.live.Perm ((usedOffs bs).map (· + A.memheapSize)))
    (hm : rtMemheapAlloc A fuel s.heap size = some (h', p)) :
    MemHeapHolds A ⟨h', if p = 0 then s.live else p :: s.live⟩ := by
  rcases rtMemheapAlloc_cases hr hm with ⟨rfl, rfl, -⟩ | ⟨-, bs', k, rfl, htook, -⟩
  · exact ⟨bs, fs, hr, hlive⟩
  · obtain ⟨fs', hr'⟩ := htook.rep
    refine ⟨bs', fs', hr', ?_⟩
    dsimp only
    rw [if_neg (ptr_ne_zero A k.off)]
    exact (hlive.cons _).trans (htook.offs.map (· + A.memheapSize)).symm

theorem erase_head (hlive : s.live.Perm ((usedOffs bs).map (· + A.memheapSize)))
    (hoffs : (usedOffs bs).Perm (k.off :: usedOffs bs')) :
    (s.live.erase (k.off + A.memheapSize)).Perm ((usedOffs bs').map (· + A.memheapSize)) := by
  have hall := hlive.trans (hoffs.map (· + A.memheapSize))
  have hrest := hall.erase (k.off + A.memheapSize)
  rwa [List.map_cons, List.erase_cons_head] at hrest

/-- One call keeps the blocks and the live pointers in step. -/
theorem memHeapCall_holds (hh : MemHeapHolds A s) (hfits : MemCallFits A s.heap c)
    (hs : memHeapCall A fuel s c = some s') : MemHeapHolds A s' := by
  obtain ⟨bs, fs, hr, hlive⟩ := hh
  have hnull := live_not_zero hlive
  cases c with
  | alloc size =>
    simp only [memHeapCall, Option.bind_eq_bind, Option.bind_eq_some_iff] at hs
    obtain ⟨⟨h', p⟩, hm, hs⟩ := hs
    obtain rfl := Option.some.inj hs
    exact memHeap_gain hr hlive hm
  | free ptr =>
    simp only [memHeapCall] at hs
    split at hs
    next hptr =>
      simp only [Option.bind_eq_bind, Option.bind_eq_some_iff] at hs
      obtain ⟨h', hm, hs⟩ := hs
      obtain rfl := Option.some.inj hs
      by_cases hz : ptr = 0
      · subst hz
        rw [rtMemheapFree_null] at hm
        have he : h' = s.heap := (Option.some.inj hm).symm
        refine ⟨bs, fs, he ▸ hr, ?_⟩
        dsimp only
        rwa [List.erase_of_not_mem hnull]
      · obtain ⟨k, hk, hu, rfl⟩ := liveItem hlive (hptr.resolve_left hz)
        obtain ⟨h1, bs', he, hgave⟩ := rtMemheapFree_spec hr hk hu
        rw [hm] at he
        obtain rfl := Option.some.inj he
        obtain ⟨fs', hr'⟩ := hgave.rep
        exact ⟨bs', fs', hr', erase_head hlive hgave.offs⟩
    next => cases hs
  | realloc ptr newsize =>
    simp only [memHeapCall] at hs
    split at hs
    next hptr =>
      simp only [Option.bind_eq_bind, Option.bind_eq_some_iff] at hs
      obtain ⟨⟨h', p⟩, hm, hs⟩ := hs
      obtain rfl := Option.some.inj hs
      by_cases hz : ptr = 0
      · subst hz
        dsimp only
        rw [List.erase_of_not_mem hnull]
        by_cases hn : newsize.toNat = 0
        · rw [rtMemheapRealloc, if_pos hn, rtMemheapFree_null] at hm
          have he : s.heap = h' := congrArg Prod.fst (Option.some.inj hm)
          rw [if_pos hn]
          exact ⟨bs, fs, he ▸ hr, hlive⟩
        · rw [if_neg hn]
          have halloc : rtMemheapAlloc A fuel s.heap (memheapAlign A newsize.toNat) = some (h', p) := by
            rw [rtMemheapRealloc, if_neg hn] at hm
            dsimp only at hm
            rwa [if_pos rfl] at hm
          exact memHeap_gain hr hlive halloc
      · obtain ⟨k, hk, hu, rfl⟩ := liveItem hlive (hptr.resolve_left hz)
        obtain ⟨bs', fs', hr', -, hcases⟩ := rtMemheapRealloc_cases hr hk hu (hfits.resolve_left hz) hm
        refine ⟨bs', fs', hr', ?_⟩
        dsimp only
        rcases hcases with ⟨hn, -, hoffs⟩ | ⟨hn, rfl, hoffs⟩ | ⟨hn, o, rfl, hoffs⟩
        · rw [if_pos hn]
          exact erase_head hlive hoffs
        · rw [if_neg hn, if_pos rfl, hoffs]
          exact hlive
        · rw [if_neg hn, if_neg (ptr_ne_zero A o)]
          have hold : k.off + A.memheapSize ∈ s.live := hptr.resolve_left hz
          have hall := ((List.perm_cons_erase hold).symm.cons (o + A.memheapSize)).trans
            ((hlive.cons (o + A.memheapSize)).trans (hoffs.symm.map (· + A.memheapSize)))
          exact (List.perm_cons _).mp ((List.Perm.swap _ _ _).trans hall)
    next => cases hs
  | store ptr offset value =>
    simp only [memHeapCall] at hs
    split at hs
    next hptr =>
      obtain rfl := Option.some.inj hs
      obtain ⟨k, hk, hu, rfl⟩ := liveItem hlive hptr.1
      have hkb := hr.layout.bounds hk
      have htail := hr.arena.tail_lt
      have hsize : sizeofMemheapItem = 24 := rfl
      have hwithin := hptr.2
      have hheader : wordSub (k.off + A.memheapSize) A.memheapSize = k.off := by
        rw [wordSub_of_le (by omega) (by omega)]
        omega
      obtain ⟨xs, ys, rfl⟩ := List.append_of_mem hk
      rw [hheader, memitemSize_eq hr.arena hr.layout, dataSize] at hwithin
      refine ⟨_, fs, hr.payload hk fun y _ hout => ?_, hlive⟩
      exact if_neg (by omega)
    next => cases hs

end

/-- `blocks` are the blocks of the pool in their order, `fs` is the free list. -/
structure MemHeapSound (A : AlignSize) (h : MemHeap) (blocks fs : List Nat) : Prop where
  start : (blocks ++ [h.tail A]).head? = some h.startAddr
  tiles : (blocks ++ [h.tail A]).IsChain fun a b => getItem h.mem .next a = b ∧ a + A.memheapSize ≤ b
  ring : Ring (getItem h.mem .next) (getItem h.mem .prev) (h.tail A) blocks
  tailUsed : memheapIsUsed h.mem (h.tail A) = true
  noPair : blocks.IsChain fun a b => memheapIsUsed h.mem a = true ∨ memheapIsUsed h.mem b = true
  freeList : FreeRing h.mem h.freeList fs
  listed : fs.Perm (blocks.filter fun a => !memheapIsUsed h.mem a)
  accounts : h.availableSize =
    ((blocks.filter fun a => !memheapIsUsed h.mem a).map (memitemSize A h.mem)).sum

section
variable {A : AlignSize} {s : MemHeapState} {bs : List MemBlock} {fs offs : List Nat} {h h' : MemHeap}
  {m : Memory} {self freeHeader startAddr n fuel : Nat} {size : UInt32}

theorem Tiled.linkedPath {τ : Type} {w p a b : Nat} {rd : Nat → Links τ} {cs : List (Cell τ)}
    (ht : Tiled w rd p a cs b) (hp : (rd p).next = a) (hb : (rd b).prev = lastOff p cs) :
    LinkedPath (fun x => (rd x).next) (fun x => (rd x).prev) p (cs.map Cell.off) b := by
  induction cs generalizing p a with
  | nil =>
    have he : a = b := ht
    exact ⟨hp.trans he, hb⟩
  | cons c cs ih =>
    obtain ⟨ho, hr, -, ht⟩ := ht
    subst ho
    exact ⟨hp, congrArg Links.prev hr, ih ht (congrArg Links.next hr) hb⟩

theorem MemHeapRep.unused_eq (hr : MemHeapRep A h bs fs) :
    ((bs.map Cell.off).filter fun a => !memheapIsUsed h.mem a) = freeOffs bs := by
  unfold freeOffs
  rw [List.filter_map]
  refine congrArg (List.map Cell.off) (List.filter_congr fun k hk => ?_)
  obtain ⟨xs, ys, rfl⟩ := List.append_of_mem hk
  rw [Function.comp_apply, memheapIsUsed_eq hr.layout, Bool.not_not]

theorem MemHeapRep.sound (hr : MemHeapRep A h bs fs) : MemHeapSound A h (bs.map Cell.off) fs := by
  have hl := hr.layout
  have hused : ∀ k ∈ bs, memheapIsUsed h.mem k.off = !memBlockFree k := by
    intro k hk
    obtain ⟨xs, ys, rfl⟩ := List.append_of_mem hk
    exact memheapIsUsed_eq hl
  have hfollows := hl.tiles.follows
  refine ⟨hfollows.1, hfollows.2, ⟨?_, ?_⟩, hl.tail_used, ?_, ?_, ?_, ?_⟩
  · exact hl.tiles.linkedPath (congrArg Links.next hl.tail) (congrArg Links.prev hl.tail)
  · refine List.nodup_cons.mpr ⟨fun hin => ?_, hl.off_nodup⟩
    obtain ⟨k, hk, he⟩ := List.mem_map.mp hin
    have hkb := hl.bounds hk
    have := memheapSize_ge A
    have hsize : sizeofMemheapItem = 24 := rfl
    omega
  · refine (List.isChain_map Cell.off).mpr (List.IsChain.imp_of_mem_imp ?_ hr.noPair)
    intro x y hx hy hxy
    rw [hused x hx, hused y hy]
    exact hxy.imp (fun he => by rw [he]; rfl) fun he => by rw [he]; rfl
  · rw [hr.arena.freeList]
    exact hl.ring
  · rw [hr.unused_eq]
    exact hr.listed
  · have hsizes : (freeOffs bs).map (memitemSize A h.mem) =
        (bs.filter memBlockFree).map (dataSize A) := by
      unfold freeOffs
      rw [List.map_map]
      refine List.map_congr_left fun k hk => ?_
      obtain ⟨xs, ys, rfl⟩ := List.append_of_mem (List.mem_filter.mp hk).1
      rw [Function.comp_apply, memitemSize_eq hr.arena hl]
    rw [hr.unused_eq, hsizes, hr.accounts]
    rfl

theorem memHeapReach_holds (hbig : 2 * A.memheapSize ≤ rtAlignDown A size.toNat)
    (hr : MemHeapReach A (MemCallFits A) m self freeHeader startAddr size s) : MemHeapHolds A s := by
  refine Reach.invariant (fun s hs => ?_) (fun s c s' hh hc hs => memHeapCall_holds hh hc hs) hr
  obtain ⟨hplaced, hheap, hlive⟩ := hs
  obtain ⟨k, hk, hrep⟩ := rtMemheapInit_spec (m := m) hplaced hbig
  rw [← hheap] at hrep
  refine ⟨[k], [k.off], hrep, ?_⟩
  rw [hlive, usedOffs_free hk]
  exact List.Perm.refl _

/-- Runs of the calls keep both lists consistent and the count of the free bytes exact. -/
theorem memHeapReach_sound (hbig : 2 * A.memheapSize ≤ rtAlignDown A size.toNat)
    (hr : MemHeapReach A (MemCallFits A) m self freeHeader startAddr size s) :
    ∃ blocks fs, MemHeapSound A s.heap blocks fs := by
  obtain ⟨bs, fs, hrep, -⟩ := memHeapReach_holds hbig hr
  exact ⟨bs.map Cell.off, fs, hrep.sound⟩
end

/-- The request rounded up to `RT_ALIGN_SIZE` and `RT_MEMHEAP_MINIALLOC`, without overflow. -/
def roundedRequest (A : AlignSize) (size : Nat) : Nat :=
  max ((size + A.size - 1) / A.size * A.size) memheapMinialloc

section
variable {A : AlignSize} {s : MemHeapState} {bs : List MemBlock} {fs offs : List Nat} {h h' : MemHeap}
  {m : Memory} {self freeHeader startAddr n fuel x : Nat} {size : UInt32}

theorem memheapAlign_eq (hn : n + A.size ≤ 4294967296) : memheapAlign A n = roundedRequest A n := by
  have hpos := A.size_pos
  unfold memheapAlign roundedRequest
  rw [rtAlign_eq, word_of_lt (by omega)]
  split <;> omega

theorem roundUp_wraps (A : AlignSize) (hn : 4294967296 < n + A.size) :
    4294967296 ≤ (n + A.size - 1) / A.size * A.size := by
  have hdvd : A.size ∣ 4294967296 := by
    have hlog := A.log_le
    exact pow_dvd_pow 2 (show A.log ≤ 32 by omega)
  obtain ⟨q, hq⟩ := hdvd
  have hle : q ≤ (n + A.size - 1) / A.size := by
    rw [Nat.le_div_iff_mul_le A.size_pos, Nat.mul_comm, ← hq]
    omega
  calc 4294967296 = q * A.size := by rw [hq, Nat.mul_comm]
    _ ≤ (n + A.size - 1) / A.size * A.size := Nat.mul_le_mul_right _ hle

/-- The blocks on the free list. -/
theorem MemHeapRep.free_size (hr : MemHeapRep A h bs fs) (hx : x ∈ fs) :
    ∃ k ∈ bs, memBlockFree k = true ∧ memitemSize A h.mem x = dataSize A k := by
  obtain ⟨k, hk, rfl⟩ := List.mem_map.mp (hr.listed.mem_iff.mp hx)
  obtain ⟨hin, hfree⟩ := List.mem_filter.mp hk
  obtain ⟨xs, ys, rfl⟩ := List.append_of_mem hin
  exact ⟨k, hin, hfree, memitemSize_eq hr.arena hr.layout⟩

theorem MemHeapRep.free_le (hr : MemHeapRep A h bs fs) (hx : x ∈ fs) :
    memitemSize A h.mem x ≤ h.availableSize := by
  obtain ⟨k, hk, hfree, he⟩ := hr.free_size hx
  obtain ⟨xs, ys, rfl⟩ := List.append_of_mem hk
  rw [he, hr.accounts, freeBytes_append, freeBytes_free hfree]
  omega

/-- `rt_memheap_alloc` fails only for want of a block, exactly where the one block that is left is
not the size asked for. -/
theorem memHeapReach_alloc_iff (hbig : 2 * A.memheapSize ≤ rtAlignDown A size.toNat)
    (hr : MemHeapReach A (MemCallFits A) m self freeHeader startAddr size s)
    (hf : FreeRing s.heap.mem s.heap.freeList fs) (request : UInt32) :
    (∀ fuel h', rtMemheapAlloc A fuel s.heap request.toNat = some (h', 0) →
      ∀ x ∈ fs, memitemSize A s.heap.mem x < roundedRequest A request.toNat) ↔
    ∀ x ∈ fs, memitemSize A s.heap.mem x = s.heap.availableSize →
      memitemSize A s.heap.mem x ≠ roundedRequest A request.toNat := by
  obtain ⟨bs, gs, hrep, -⟩ := memHeapReach_holds hbig hr
  have hring : FreeRing s.heap.mem s.heap.freeList gs := hrep.sound.freeList
  obtain rfl := Ring.unique hring hf
  have hlt : s.heap.availableSize < 4294967296 := hrep.accounts ▸ hrep.free_lt
  have hwhole : memheapAlign A request.toNat = roundedRequest A request.toNat ∨
      4294967296 ≤ roundedRequest A request.toNat := by
    by_cases hn : request.toNat + A.size ≤ 4294967296
    · exact Or.inl (memheapAlign_eq hn)
    · exact Or.inr (le_trans (roundUp_wraps A (by omega)) (Nat.le_max_left _ _))
  constructor
  · intro hclaim x hx hall hexact
    have hfit : memheapAlign A request.toNat = roundedRequest A request.toNat :=
      hwhole.resolve_right (by omega)
    have hnull : rtMemheapAlloc A 0 s.heap request.toNat = some (s.heap, 0) := by
      unfold rtMemheapAlloc
      dsimp only
      rw [if_neg (by omega)]
    have := hclaim 0 s.heap hnull x hx
    omega
  · intro hcond fuel h' hnull x hx
    have hle := hrep.free_le hx
    rcases hwhole with hfit | hbeyond
    · rcases rtMemheapAlloc_cases hrep hnull with ⟨-, -, hnone | hnone⟩ | ⟨-, bs', k, hk, -⟩
      · have hne := hcond x hx
        omega
      · obtain ⟨k, hk, hfree, he⟩ := hrep.free_size hx
        have := hnone k hk hfree
        omega
      · exact absurd hk.symm (ptr_ne_zero A k.off)
    · omega

end

/-- The state after the calls `cs` on a new memheap. -/
def memHeapRun (A : AlignSize) (m : Memory) (self freeHeader startAddr : Nat) (size : UInt32)
    (cs : List (Nat × MemHeapCall)) : Option MemHeapState :=
  runFrom (fun s c => memHeapCall A c.1 s c.2) cs
    ⟨rtMemheapInit A m self freeHeader startAddr size.toNat, []⟩

theorem memHeapReach_run {A : AlignSize} {ok : MemHeap → MemHeapCall → Prop} {m : Memory}
    {self freeHeader startAddr : Nat} {size : UInt32} {cs : List (Nat × MemHeapCall)} {s : MemHeapState}
    (hp : PoolPlaced self freeHeader startAddr size.toNat) (hok : ∀ h, ∀ c ∈ cs, ok h c.2)
    (hs : memHeapRun A m self freeHeader startAddr size cs = some s) :
    MemHeapReach A ok m self freeHeader startAddr size s := by
  have hstart : MemHeapReach A ok m self freeHeader startAddr size
      ⟨rtMemheapInit A m self freeHeader startAddr size.toNat, []⟩ := .start ⟨hp, rfl, rfl⟩
  exact Reach.runFrom (runMeets_of_forall fun s => hok s.heap) hstart hs

/-- A pool of 256 bytes, two blocks handed out and the first one freed. -/
def freedFirst : MemHeapState :=
  (memHeapRun align4 clearedMemory 100 200 4096 256
    [(9, .alloc 100), (9, .alloc 40), (0, .free 4120)]).get (by decide +kernel)

theorem freedFirst_reach :
    MemHeapReach align4 (MemCallFits align4) clearedMemory 100 200 4096 256 freedFirst := by
  refine memHeapReach_run ⟨by decide, by decide, by decide, by decide, by decide⟩ (fun h c hc => ?_)
    (Option.some_get _).symm
  simp only [List.mem_cons, List.not_mem_nil, or_false] at hc
  rcases hc with rfl | rfl | rfl
  · trivial
  · trivial
  · trivial

theorem memHeapReach_sound_freedFirst : ∃ blocks fs, MemHeapSound align4 freedFirst.heap blocks fs :=
  memHeapReach_sound (by decide +kernel) freedFirst_reach

/-- A pool with room for one item only. -/
def onlyOneItem : MemHeapState := ⟨rtMemheapInit align4 clearedMemory 100 200 4096 24, []⟩

theorem small_pool_unsound : ¬∀ (m : Memory) (self freeHeader startAddr : Nat) (size : UInt32)
    (s : MemHeapState), MemHeapReach align4 (fun _ _ => True) m self freeHeader startAddr size s →
    ∃ blocks fs, MemHeapSound align4 s.heap blocks fs := by
  intro hall
  have hstart : MemHeapReach align4 (fun _ _ => True) clearedMemory 100 200 4096 24 onlyOneItem :=
    .start ⟨⟨by decide, by decide, by decide, by decide, by decide⟩, rfl, rfl⟩
  obtain ⟨blocks, fs, hsound⟩ := hall clearedMemory 100 200 4096 24 onlyOneItem hstart
  have htail : onlyOneItem.heap.tail align4 = 4096 := by decide +kernel
  have hfirst : onlyOneItem.heap.startAddr = 4096 := by decide +kernel
  have hbytes : onlyOneItem.heap.availableSize = 4294967272 := by decide +kernel
  cases blocks with
  | nil =>
    have haccounts := hsound.accounts
    rw [hbytes] at haccounts
    cases haccounts
  | cons b blocks =>
    -- the first block would be the tail
    have hb : b = 4096 := by
      have hstart := hsound.start
      rw [hfirst] at hstart
      exact Option.some.inj hstart
    have hnot := (List.nodup_cons.mp hsound.ring.nodup).1
    rw [htail, ← hb] at hnot
    exact hnot List.mem_cons_self

/-- A pool of 256 bytes with nothing allocated. -/
def wholePool : MemHeapState := ⟨rtMemheapInit align4 clearedMemory 100 200 4096 256, []⟩

theorem wholePool_reach (ok : MemHeap → MemHeapCall → Prop) :
    MemHeapReach align4 ok clearedMemory 100 200 4096 256 wholePool :=
  .start ⟨⟨by decide, by decide, by decide, by decide, by decide⟩, rfl, rfl⟩

theorem wholePool_free : FreeRing wholePool.heap.mem wholePool.heap.freeList [4096] where
  path := by
    show _ ∧ _ ∧ _ ∧ _
    decide +kernel
  nodup := by decide +kernel

theorem memHeapReach_alloc_iff_wholePool :
    (∀ fuel h', rtMemheapAlloc align4 fuel wholePool.heap (100 : UInt32).toNat = some (h', 0) →
      ∀ x ∈ [4096], memitemSize align4 wholePool.heap.mem x <
        roundedRequest align4 (100 : UInt32).toNat) ↔
    ∀ x ∈ [4096], memitemSize align4 wholePool.heap.mem x = wholePool.heap.availableSize →
      memitemSize align4 wholePool.heap.mem x ≠ roundedRequest align4 (100 : UInt32).toNat :=
  memHeapReach_alloc_iff (by decide +kernel) (wholePool_reach _) wholePool_free 100

/-- All 208 bytes are free in one block, and `rt_memheap_alloc(208)` fails. -/
theorem alloc_whole_pool : ¬∀ (A : AlignSize) (m : Memory) (self freeHeader startAddr : Nat)
    (size : UInt32) (s : MemHeapState) (fs : List Nat),
    2 * A.memheapSize ≤ rtAlignDown A size.toNat →
    MemHeapReach A (MemCallFits A) m self freeHeader startAddr size s →
    FreeRing s.heap.mem s.heap.freeList fs → ∀ (request : UInt32) (fuel : Nat) (h' : MemHeap),
    rtMemheapAlloc A fuel s.heap request.toNat = some (h', 0) →
    ∀ x ∈ fs, memitemSize A s.heap.mem x < roundedRequest A request.toNat := by
  intro hall
  have hnull : (rtMemheapAlloc align4 1 wholePool.heap 208).map Prod.snd = some 0 := by decide +kernel
  obtain ⟨⟨h', p⟩, hm, rfl⟩ := Option.map_eq_some_iff.mp hnull
  have hshort := hall align4 clearedMemory 100 200 4096 256 wholePool [4096] (by decide +kernel)
    (wholePool_reach _) wholePool_free 208 1 h' hm 4096 (List.mem_singleton_self _)
  have hlong : ¬memitemSize align4 wholePool.heap.mem 4096 <
      roundedRequest align4 (208 : UInt32).toNat := by decide +kernel
  exact hlong hshort

end RTThread
