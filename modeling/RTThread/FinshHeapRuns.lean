import RTThread.FinshHeapAlloc
import RTThread.HeapHeaders

namespace RTThread

inductive FinshHeapCall where
  | allocate (size : Nat) (vars : FinshVars)
  | free (ptr : Nat)
  | store (x v : Nat)

/-- `none` is a call that never returns. `store` is a byte that the owner of a block writes. -/
def finshHeapStep (s : FinshHeap) : FinshHeapCall → Option FinshHeap
  | .allocate size vars => (finshHeapAllocate s vars size).map Prod.snd
  | .free ptr => finshHeapFree s ptr
  | .store x v => some { s with mem := write8 s.mem x v }

/-- The allocate list holds block `h`. -/
def IsAllocated (s : FinshHeap) (h : Nat) : Prop :=
  ∃ ns, NodeList (blockNext s.mem) 0 s.allocateList ns ∧ h ∈ ns

/-- What the callers promise: positive sizes, pointers to live blocks, and no byte written
outside the data of a live block. -/
def FinshHeapPromise (s : FinshHeap) : FinshHeapCall → Prop
  | .allocate size _ => 0 < size ∧ size < 4294967296
  | .free ptr => ∃ h, IsAllocated s h ∧ ptr = blockGetData h
  | .store x _ => ∃ h, IsAllocated s h ∧ blockGetData h ≤ x ∧ x < blockGetData h + blockLength s.mem h

/-- The sizes whose rounded value fits 32 bits, but not together with a header. -/
def SizeWraps (size : Nat) : Prop := 4294967285 ≤ size ∧ size ≤ 4294967292

instance (size : Nat) : Decidable (SizeWraps size) := inferInstanceAs (Decidable (_ ∧ _))

def KeepsSizes : FinshHeapCall → Prop
  | .allocate size _ => ¬SizeWraps size
  | _ => True

/-- Both lists are sorted by address and end in null, their blocks tile the array, and no two
neighbours are both on the free list. -/
def FinshHeapOk (P : FinshPlace) (s : FinshHeap) : Prop :=
  ∃ free allocated blocks : List Nat,
    (NodeList (blockNext s.mem) 0 s.freeList free ∧ free.Pairwise (· < ·)) ∧
    (NodeList (blockNext s.mem) 0 s.allocateList allocated ∧ allocated.Pairwise (· < ·)) ∧
    Segment (fun h => h + blockHeader + blockLength s.mem h) P.addr blocks
      (P.addr + finshHeapMax) ∧
    blocks.Perm (free ++ allocated) ∧ blocks.IsChain fun x y => ¬(x ∈ free ∧ y ∈ free)

section
variable {P : FinshPlace} {m : Memory} {s s' : FinshHeap} {bs : List FinshBlock} {size : Nat}

theorem heapAlignSize_eq (size : Nat) : heapAlignSize size = word (size + 3) / 4 * 4 :=
  and_high_bits (k := 2) (word_lt _) (by decide)

theorem heapAlignSize_fits (hsize : size < 4294967296) :
    heapAlignSize size + blockHeader < 4294967296 ↔ ¬SizeWraps size := by
  rw [heapAlignSize_eq]
  unfold SizeWraps word blockHeader
  omega

theorem finshHeapInit_rep : FinshHeapRep P (finshHeapInit P m) [⟨P.addr, 120, true⟩] := by
  have hpos := P.pos
  have hfits := P.fits
  have hnull : blockNext (finshHeapInit P m).mem P.addr = 0 := by
    unfold finshHeapInit
    rw [blockNext_setBlockNext (Or.inl rfl), if_pos rfl]
    rfl
  refine ⟨⟨⟨rfl, rfl⟩, fun b hb => ?_, ?_, rfl, List.not_mem_nil⟩, List.isChain_singleton _, ?_⟩
  · obtain rfl := List.mem_singleton.mp hb
    unfold finshHeapInit
    rw [blockLength_setBlockNext (Or.inl rfl), blockLength_setLength (Or.inl rfl), if_pos rfl]
    rfl
  · exact nodeList_cons.mpr ⟨rfl, by simp; omega, nodeList_nil.mpr hnull⟩
  · exact ⟨_, rfl, rfl⟩

theorem FinshHeapRep.allocated (h : FinshHeapRep P s bs) {x : Nat} (hx : IsAllocated s x) :
    ∃ ls b rs, bs = ls ++ b :: rs ∧ b.free = false ∧ b.addr = x := by
  obtain ⟨ns, hns, hmem⟩ := hx
  rw [hns.unique h.used] at hmem
  obtain ⟨b, hb, rfl⟩ := List.mem_map.mp hmem
  obtain ⟨hbs, hbf⟩ := mem_blocksUsed.mp hb
  obtain ⟨ls, rs, rfl⟩ := List.append_of_mem hbs
  exact ⟨ls, b, rs, rfl, hbf, rfl⟩

theorem FinshHeapRep.isAllocated (h : FinshHeapRep P s bs) {b : FinshBlock}
    (hb : b ∈ blocksUsed bs) : IsAllocated s b.addr :=
  ⟨_, h.used, List.mem_map_of_mem hb⟩

/-- Each call that the callers may make returns, and keeps the invariant. -/
theorem FinshHeapRep.step {c : FinshHeapCall} (h : FinshHeapRep P s bs)
    (hc : FinshHeapPromise s c) (hsizes : KeepsSizes c) :
    ∃ s' bs', finshHeapStep s c = some s' ∧ FinshHeapRep P s' bs' := by
  cases c with
  | allocate size vars =>
    obtain ⟨ptr, s', bs', us, halloc, hrep, -⟩ :=
      h.allocate vars ((heapAlignSize_fits hc.2).mpr hsizes)
    exact ⟨s', bs', by simp [finshHeapStep, halloc], hrep⟩
  | free ptr =>
    obtain ⟨x, hx, rfl⟩ := hc
    obtain ⟨ls, b, rs, rfl, hb, rfl⟩ := h.allocated hx
    obtain ⟨s', bs', hfree, hrep, -⟩ := h.free_block hb
    exact ⟨s', bs', hfree, hrep⟩
  | store i v =>
    obtain ⟨x, hx, hlo, hhi⟩ := hc
    obtain ⟨ls, b, rs, rfl, hb, rfl⟩ := h.allocated hx
    have hbm : b ∈ ls ++ b :: rs := by simp
    have hfits := P.fits
    have hstop := (h.tiles.bounds hbm).2
    rw [h.lengths b hbm] at hhi
    refine ⟨_, _, rfl, ⟨h.data_written hbm fun j hj hout => ?_, h.apart, h.last⟩⟩
    have hdata : blockGetData b.addr = b.addr + blockHeader := by
      apply word_of_lt
      simp only [FinshBlock.stop] at hstop
      omega
    have hne : j ≠ i := by
      simp only [FinshBlock.stop] at hout
      omega
    exact if_neg hne

theorem segment_of_tiles {a e : Nat} (ht : BlockTiles a bs e)
    (hlen : ∀ b ∈ bs, blockLength m b.addr = b.len) :
    Segment (fun h => h + blockHeader + blockLength m h) a (addrs bs) e := by
  induction bs generalizing a with
  | nil => exact ht
  | cons b bs ih =>
    refine ⟨ht.1.symm, ?_⟩
    simp only [hlen b List.mem_cons_self]
    exact ih ht.2 fun c hc => hlen c (List.mem_cons_of_mem b hc)

theorem FinshHeapRep.ok (h : FinshHeapRep P s bs) : FinshHeapOk P s := by
  have hascend := h.tiles.ascending
  refine ⟨addrs (blocksFree bs), addrs (blocksUsed bs), addrs bs, ⟨h.free, ?_⟩, ⟨h.used, ?_⟩,
    segment_of_tiles h.tiles h.lengths, ?_, ?_⟩
  · exact hascend.sublist (List.filter_sublist.map _)
  · exact hascend.sublist (List.filter_sublist.map _)
  · rw [← addrs_append]
    exact (List.filter_append_perm _ bs).symm.map _
  · have hfreeOf : ∀ b ∈ bs, b.addr ∈ addrs (blocksFree bs) → b.free = true := by
      intro b hb hmem
      obtain ⟨c, hc, heq⟩ := List.mem_map.mp hmem
      obtain ⟨hcb, hcf⟩ := mem_blocksFree.mp hc
      rw [← h.tiles.eq_of_addr hcb hb heq]
      exact hcf
    refine (List.isChain_map _).mpr (List.IsChain.imp_of_mem_imp ?_ h.apart)
    intro b c hb hc hbc hcon
    exact hbc ⟨hfreeOf b hb hcon.1, hfreeOf c hc hcon.2⟩

theorem finshHeap_reach_rep (h : Reach finshHeapStep (fun s c => FinshHeapPromise s c ∧ KeepsSizes c)
    (fun s => ∃ m, s = finshHeapInit P m) s) : ∃ bs, FinshHeapRep P s bs := by
  refine h.invariant (I := fun s => ∃ bs, FinshHeapRep P s bs) ?_ ?_
  · rintro s ⟨m, rfl⟩
    exact ⟨_, finshHeapInit_rep⟩
  · rintro s c s' ⟨bs, hrep⟩ ⟨hc, hsizes⟩ hs
    obtain ⟨s1, bs1, hstep, hrep1⟩ := hrep.step hc hsizes
    obtain rfl := Option.some.inj (hstep.symm.trans hs)
    exact ⟨bs1, hrep1⟩

/-- In every run without a size that wraps the heap keeps its invariant, and each call the callers
may make next returns. -/
theorem finshHeap_ok_in_every_run
    (h : Reach finshHeapStep (fun s c => FinshHeapPromise s c ∧ KeepsSizes c)
      (fun s => ∃ m, s = finshHeapInit P m) s) :
    FinshHeapOk P s ∧
      ∀ c, FinshHeapPromise s c → KeepsSizes c → (finshHeapStep s c).isSome = true := by
  obtain ⟨bs, hrep⟩ := finshHeap_reach_rep h
  refine ⟨hrep.ok, fun c hc hsizes => ?_⟩
  obtain ⟨s', bs', hstep, -⟩ := hrep.step hc hsizes
  rw [hstep]
  rfl

end

def finshArray : FinshPlace := ⟨4096, by decide, by decide⟩

def finshFresh : FinshHeap := finshHeapInit finshArray ⟨fun _ => 0⟩

theorem finshOnce_some : (finshHeapStep finshFresh (.allocate 16 [])).isSome = true := by
  decide +kernel

def finshOnce : FinshHeap := (finshHeapStep finshFresh (.allocate 16 [])).get finshOnce_some

theorem finshFreed_some : (finshHeapStep finshOnce (.free 4104)).isSome = true := by
  decide +kernel

/-- An allocation of 16 bytes that is freed again. -/
theorem finshHeap_ok_after_free :
    FinshHeapOk finshArray ((finshHeapStep finshOnce (.free 4104)).get finshFreed_some) := by
  have hlist : NodeList (blockNext finshOnce.mem) 0 finshOnce.allocateList [4096] :=
    nodeList_cons.mpr ⟨by decide +kernel, by decide, nodeList_nil.mpr (by decide +kernel)⟩
  have hsize : FinshHeapPromise finshFresh (.allocate 16 []) := ⟨by decide, by decide⟩
  have hkeeps : KeepsSizes (.allocate 16 []) := (by decide : ¬SizeWraps 16)
  have hlive : FinshHeapPromise finshOnce (.free 4104) :=
    ⟨4096, ⟨_, hlist, List.mem_singleton.mpr rfl⟩, rfl⟩
  have hstart : Reach finshHeapStep (fun s c => FinshHeapPromise s c ∧ KeepsSizes c)
      (fun s => ∃ m, s = finshHeapInit finshArray m) finshFresh := .start ⟨_, rfl⟩
  have honce := hstart.step ⟨hsize, hkeeps⟩ (Option.some_get finshOnce_some).symm
  have hfreed := honce.step ⟨hlive, trivial⟩ (Option.some_get finshFreed_some).symm
  exact (finshHeap_ok_in_every_run hfreed).1

theorem finshWrapped_some :
    (finshHeapStep finshFresh (.allocate 4294967288 [])).isSome = true := by
  decide +kernel

/-- With a size that wraps the remainder of the block is the block itself, and both lists hold it. -/
theorem finshHeap_breaks_on_wrapped_size :
    ¬∀ P s, Reach finshHeapStep FinshHeapPromise (fun s => ∃ m, s = finshHeapInit P m) s →
      FinshHeapOk P s := by
  intro hall
  have hsize : FinshHeapPromise finshFresh (.allocate 4294967288 []) := ⟨by decide, by decide⟩
  have hstart : Reach finshHeapStep FinshHeapPromise
      (fun s => ∃ m, s = finshHeapInit finshArray m) finshFresh := .start ⟨_, rfl⟩
  obtain ⟨free, allocated, blocks, ⟨hfree, -⟩, ⟨halloc, -⟩, hseg, hperm, -⟩ :=
    hall finshArray _ (hstart.step hsize (Option.some_get finshWrapped_some).symm)
  have hone : ∀ p, p = 4096 → NodeList (blockNext ((finshHeapStep finshFresh
      (.allocate 4294967288 [])).get finshWrapped_some).mem) 0 p [4096] := fun p hp =>
    nodeList_cons.mpr ⟨hp, by decide, nodeList_nil.mpr (by decide +kernel)⟩
  obtain rfl := hfree.unique (hone _ (by decide +kernel))
  obtain rfl := halloc.unique (hone _ (by decide +kernel))
  obtain rfl : blocks = [4096, 4096] := List.perm_replicate (n := 2).mp hperm
  obtain ⟨-, hnext, -⟩ := hseg
  revert hnext
  decide +kernel

end RTThread
