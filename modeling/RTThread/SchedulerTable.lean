import RTThread.SchedulerModel

namespace RTThread

/-- The priorities whose bits are set, in the layout that `RT_THREAD_PRIORITY_MAX` selects. -/
def ReadyMap.prios (cfg : SchedConfig) (m : ReadyMap) : Set Nat :=
  if cfg.priorityMax ≤ 32 then bits m.group else tableBits m.table

/-- In the two-level layout a group bit stands for a word of the table that is not zero. -/
def ReadyMap.GroupOk (cfg : SchedConfig) (m : ReadyMap) : Prop :=
  32 < cfg.priorityMax → ∀ n, n ∈ bits m.group ↔ m.table n ≠ 0

theorem lowestBitBitmap_spec : ∀ b : Fin 256, b ≠ 0 →
    b.val.testBit (lowestBitBitmap.getD b.val 0) = true ∧
      (∀ j < lowestBitBitmap.getD b.val 0, b.val.testBit j = false) := by
  intro b hb
  -- One walk over the table instead of one for each byte.
  have hall : ∀ p ∈ lowestBitBitmap.zipIdx, p.2 ≠ 0 →
      p.2.testBit p.1 = true ∧ ∀ j < p.1, p.2.testBit j = false := by
    decide +kernel
  have hlength : lowestBitBitmap.length = 256 := by decide +kernel
  have hlt : b.val < lowestBitBitmap.length := b.isLt.trans_eq hlength.symm
  have hentry : lowestBitBitmap[b.val]? = some (lowestBitBitmap.getD b.val 0) := by
    rw [List.getD_eq_getElem?_getD, List.getElem?_eq_getElem hlt, Option.getD_some]
  exact hall (lowestBitBitmap.getD b.val 0, b.val) (List.mk_mem_zipIdx_iff_getElem?.mpr hentry)
    fun h => hb (Fin.ext h)

section
variable {value byte : BitVec 32} {k : Nat}

/-- The lowest set byte, `k` bits up, holds the lowest set bit. -/
theorem lowestBit_isLeast (hbyte : ∀ j, byte.getLsbD j = (decide (j < 8) && value.getLsbD (k + j)))
    (hne : byte ≠ 0) (hlow : ∀ j < k, value.getLsbD j = false) :
    IsLeast (bits value) (lowestBit byte + k) := by
  have hlt : byte.toNat < 256 := by
    have h := Nat.lt_pow_two_of_testBit (n := 8) byte.toNat fun i hi => by
      have hb := hbyte i
      rw [BitVec.getLsbD] at hb
      simp [hb, show ¬i < 8 by omega]
    simpa using h
  obtain ⟨hset, hmin⟩ : byte.toNat.testBit (lowestBit byte) = true ∧
      ∀ j < lowestBit byte, byte.toNat.testBit j = false :=
    lowestBitBitmap_spec ⟨byte.toNat, hlt⟩ fun h =>
      hne (BitVec.eq_of_toNat_eq (congrArg (fun b : Fin 256 => b.val) h))
  have hat := (hbyte (lowestBit byte)).symm.trans hset
  rw [Bool.and_eq_true, decide_eq_true_eq] at hat
  refine ⟨?_, fun j hj => ?_⟩
  · rw [Nat.add_comm]
    exact hat.2
  · by_contra hlt
    rcases Nat.lt_or_ge j k with h | h
    · rw [mem_bits, hlow j h] at hj
      simp at hj
    · have hoff : byte.getLsbD (j - k) = false := hmin (j - k) (by omega)
      rw [hbyte, show k + (j - k) = j by omega, mem_bits.mp hj] at hoff
      simp only [Bool.and_true, decide_eq_false_iff_not] at hoff
      omega

theorem byteAt_getLsbD (value : BitVec 32) {mask : BitVec 32} (hmask : mask = 0xff#32 <<< k) (j : Nat) :
    ((value &&& mask) >>> k).getLsbD j = (decide (j < 8) && value.getLsbD (k + j)) := by
  subst hmask
  rw [BitVec.getLsbD_ushiftRight, BitVec.getLsbD_and, BitVec.getLsbD_shiftLeft]
  have hff : (0xff#32).getLsbD j = decide (j < 8) := Nat.testBit_two_pow_sub_one 8 j
  by_cases h : k + j < 32
  · simp [h, hff, Bool.and_comm]
  · simp [BitVec.getLsbD_of_ge value (k + j) (by omega)]

/-- A byte that is zero has no bits, so the bits below the next one are those below it. -/
theorem low_of_byte_zero {mask : BitVec 32} (hmask : mask = 0xff#32 <<< k) (hzero : value &&& mask = 0)
    (hlow : ∀ j < k, value.getLsbD j = false) : ∀ j < k + 8, value.getLsbD j = false := by
  intro j hj
  rcases Nat.lt_or_ge j k with h | h
  · exact hlow j h
  · have hbyte := byteAt_getLsbD value hmask (j - k)
    rw [hzero, show k + (j - k) = j by omega] at hbyte
    simpa [show j - k < 8 by omega] using hbyte

theorem byte_ne_zero {mask : BitVec 32} (hmask : mask = 0xff#32 <<< k) (hne : value &&& mask ≠ 0) :
    (value &&& mask) >>> k ≠ 0 := by
  intro hzero
  apply hne
  refine BitVec.eq_of_getLsbD_eq fun j _ => ?_
  have hbyte := byteAt_getLsbD value hmask (j - k)
  rw [hzero] at hbyte
  rw [hmask, BitVec.getLsbD_and, BitVec.getLsbD_shiftLeft]
  rcases Nat.lt_or_ge j k with h | h
  · simp [h]
  · rw [show k + (j - k) = j by omega] at hbyte
    have hff : (0xff#32).getLsbD (j - k) = decide (j - k < 8) := Nat.testBit_two_pow_sub_one 8 (j - k)
    rw [hff]
    rw [show (0 : BitVec 32).getLsbD (j - k) = false by simp, eq_comm, Bool.and_eq_false_iff,
      decide_eq_false_iff_not] at hbyte
    rcases hbyte with h8 | hval
    · simp [h8]
    · simp [hval]

/-- `__rt_ffs` gives the position, counted from one, of the lowest set bit. -/
theorem rtFfs_isLeast (value : BitVec 32) (h : value ≠ 0) : ∃ i, rtFfs value = i + 1 ∧ IsLeast (bits value) i := by
  have hbyte : ∀ k mask, mask = 0xff#32 <<< k → value &&& mask ≠ 0 →
      (∀ j < k, value.getLsbD j = false) →
      IsLeast (bits value) (lowestBit ((value &&& mask) >>> k) + k) := fun k mask hmask hne hlow =>
    lowestBit_isLeast (byteAt_getLsbD value hmask) (byte_ne_zero hmask hne) hlow
  unfold rtFfs
  rw [if_neg h]
  split
  next h0 => exact ⟨_, rfl, hbyte 0 0xff rfl h0 (by simp)⟩
  next h0 =>
    have low8 := low_of_byte_zero (k := 0) rfl (not_not.mp h0) (by simp)
    split
    next h1 => exact ⟨_, rfl, hbyte 8 0xff00 rfl h1 low8⟩
    next h1 =>
      have low16 := low_of_byte_zero (k := 8) rfl (not_not.mp h1) low8
      split
      next h2 => exact ⟨_, rfl, hbyte 16 0xff0000 rfl h2 low16⟩
      next h2 =>
        have low24 := low_of_byte_zero (k := 16) rfl (not_not.mp h2) low16
        have h3 : value &&& 0xff000000 ≠ 0 := fun h3 => h (by
          have low32 := low_of_byte_zero (k := 24) rfl h3 low24
          exact BitVec.eq_of_getLsbD_eq fun j hj => by simp [low32 j hj])
        exact ⟨_, rfl, hbyte 24 0xff000000 rfl h3 low24⟩

end

section
variable {cfg : SchedConfig} {m : ReadyMap} {p : Nat}

theorem setMask_prios (hp : p < cfg.priorityMax) :
    (m.setMask cfg (priorityMasks cfg p)).prios cfg = m.prios cfg ∪ {p} := by
  unfold ReadyMap.setMask ReadyMap.prios priorityMasks
  by_cases h : cfg.priorityMax ≤ 32
  · simp only [if_pos h]
    rw [bits_or, bits_shiftOne (by omega)]
  · simp only [if_neg h]
    exact tableBits_insert (by omega)

theorem setMask_groupOk (hm : m.GroupOk cfg) (hp : p < cfg.priorityMax) :
    (m.setMask cfg (priorityMasks cfg p)).GroupOk cfg := by
  intro h32 n
  have hle := cfg.le
  unfold ReadyMap.setMask priorityMasks
  simp only [if_neg (Nat.not_le.mpr h32)]
  rw [bits_or, bits_shiftOne (by omega)]
  by_cases hn : n = p / 8
  · subst hn
    simp only [Set.mem_union, Set.mem_singleton_iff, or_true, Function.update_self, ne_eq, true_iff]
    rw [eq_zero_iff_bits, bits_or, bits_shiftOne (Nat.mod_lt p (by omega)), Set.union_singleton]
    exact (Set.insert_nonempty _ _).ne_empty
  · rw [Function.update_of_ne hn, ← hm h32 n]
    simp [hn]

theorem clearMask_prios (hp : p < cfg.priorityMax) :
    (m.clearMask cfg (priorityMasks cfg p)).prios cfg = m.prios cfg \ {p} := by
  unfold ReadyMap.clearMask ReadyMap.prios priorityMasks
  by_cases h : cfg.priorityMax ≤ 32
  · simp only [if_pos h]
    rw [bits_andNot, bits_shiftOne (by omega)]
  · simp only [if_neg h]
    exact tableBits_erase (by omega)

theorem clearMask_groupOk (hm : m.GroupOk cfg) (hp : p < cfg.priorityMax) :
    (m.clearMask cfg (priorityMasks cfg p)).GroupOk cfg := by
  intro h32 n
  have hle := cfg.le
  unfold ReadyMap.clearMask priorityMasks
  simp only [if_neg (Nat.not_le.mpr h32)]
  by_cases hn : n = p / 8
  · subst hn
    split
    next hz =>
      rw [bits_andNot, bits_shiftOne (by omega), hz]
      simp
    next hz =>
      refine iff_of_true ((hm h32 (p / 8)).mpr fun h0 => hz ?_) hz
      rw [Function.update_self, h0]
      simp
  · rw [Function.update_of_ne hn, ← hm h32 n]
    split
    · rw [bits_andNot, bits_shiftOne (by omega)]
      simp [hn]
    · rfl

/-- A thread that was never started has no masks to clear. -/
theorem clearMask_noMasks : m.clearMask cfg noMasks = m := by
  have hgroup : m.group &&& ~~~0 = m.group := by rw [BitVec.ofNat_eq_ofNat, BitVec.not_zero, BitVec.and_allOnes]
  have htable : m.table 0 &&& ~~~0 = m.table 0 := by
    rw [BitVec.ofNat_eq_ofNat, BitVec.not_zero, BitVec.and_allOnes]
  unfold ReadyMap.clearMask noMasks
  simp only [hgroup, htable, Function.update_eq_self, ite_self]

/-- The index of `rt_schedule` is the least priority whose bits are set. -/
theorem highest_isLeast (hm : m.GroupOk cfg) (hne : (m.prios cfg).Nonempty) :
    IsLeast (m.prios cfg) (m.highest cfg) := by
  unfold ReadyMap.highest
  by_cases h : cfg.priorityMax ≤ 32
  · simp only [ReadyMap.prios, if_pos h] at hne ⊢
    obtain ⟨i, hi, hleast⟩ := rtFfs_isLeast m.group fun h0 => by simp [h0] at hne
    rwa [hi, Nat.add_sub_cancel]
  · simp only [ReadyMap.prios, if_neg h] at hne ⊢
    have hgroup := hm (by omega)
    obtain ⟨p, hp⟩ := hne
    have hword : m.table (p / 8) ≠ 0 := fun h0 => by simp [mem_tableBits, h0] at hp
    obtain ⟨n, hn, hleast⟩ := rtFfs_isLeast m.group fun h0 => by
      have hbit := (hgroup (p / 8)).mpr hword
      simp [h0] at hbit
    have hbits : bits ((m.table n).setWidth 32) = bits (m.table n) := by
      ext i
      simp only [mem_bits, BitVec.getLsbD_setWidth]
      by_cases hi : i < 32
      · simp [hi]
      · simp [BitVec.getLsbD_of_ge (m.table n) i (by omega)]
    obtain ⟨i, hi, hlow⟩ := rtFfs_isLeast ((m.table n).setWidth 32) fun h0 =>
      (hgroup n).mp hleast.1 (eq_zero_iff_bits.mpr (by rw [← hbits, h0]; simp))
    rw [hbits] at hlow
    simp only [hn, hi, Nat.add_sub_cancel]
    exact isLeast_tableBits (by omega) hgroup hleast hlow

end

/-- Never started threads have no masks. -/
def MasksOk (cfg : SchedConfig) (x : SchedThread) : Prop :=
  x.masks = priorityMasks cfg x.currentPriority ∨
    x.masks = noMasks ∧ (x.stat = .init ∨ x.stat = .close)

/-- The tables of the scheduler agree, but for the thread `out` whose node is on no list. -/
structure SchedInv (cfg : SchedConfig) (out : Option ThreadId) (s : Scheduler) : Prop where
  nodup : ∀ h, (s.list h).Nodup
  one : ∀ t h h', t ∈ s.list h → t ∈ s.list h' → h = h'
  unlinked : ∀ t, out = some t → ∀ h, t ∉ s.list h
  ready : ∀ t, out ≠ some t → ∀ p, t ∈ s.list (.ready p) ↔
    (s.thread t).stat = .ready ∧ p = (s.thread t).currentPriority
  init : ∀ t, out ≠ some t → (s.thread t).stat = .init → ∀ h, t ∉ s.list h
  priority : ∀ t, (s.thread t).initPriority < cfg.priorityMax ∧
    (s.thread t).currentPriority < cfg.priorityMax
  masks : ∀ t, MasksOk cfg (s.thread t)
  groupOk : s.readyMap.GroupOk cfg
  prios : s.readyMap.prios cfg = {p | s.list (.ready p) ≠ []}

section
variable {cfg : SchedConfig} {s s' : Scheduler} {t u : ThreadId} {p : Nat} {h : ListHead}
  {f : SchedThread → SchedThread} {out : Option ThreadId}

@[simp] theorem Scheduler.set_self : (s.set t f).thread t = f (s.thread t) := Function.update_self ..

@[simp] theorem Scheduler.set_ne (hu : u ≠ t) : (s.set t f).thread u = s.thread u :=
  Function.update_of_ne hu ..

@[simp] theorem Scheduler.set_list : (s.set t f).list = s.list := rfl

@[simp] theorem Scheduler.set_readyMap : (s.set t f).readyMap = s.readyMap := rfl

theorem Scheduler.insertBefore_self : (s.insertBefore h t).list h = s.list h ++ [t] :=
  Function.update_self ..

theorem Scheduler.insertBefore_ne {h' : ListHead} (hh : h' ≠ h) :
    (s.insertBefore h t).list h' = s.list h' := Function.update_of_ne hh ..

theorem Scheduler.mem_rtListRemove : u ∈ (s.rtListRemove t).list h ↔ u ∈ s.list h ∧ u ≠ t := by
  simp [Scheduler.rtListRemove]

@[simp] theorem Scheduler.rtScheduleRemoveThread_thread :
    (s.rtScheduleRemoveThread cfg t).thread = s.thread := by
  unfold Scheduler.rtScheduleRemoveThread
  dsimp only
  split
  · rfl
  · rfl

/-- Taking a thread off the schedule looks at its priority and its masks only. -/
theorem set_rtScheduleRemoveThread (hp : (f (s.thread t)).currentPriority = (s.thread t).currentPriority)
    (hm : (f (s.thread t)).masks = (s.thread t).masks) :
    (s.set t f).rtScheduleRemoveThread cfg t = (s.rtScheduleRemoveThread cfg t).set t f := by
  have ht : ((s.set t f).rtListRemove t).thread t = f (s.thread t) := Scheduler.set_self
  have hl : ((s.set t f).rtListRemove t).list = (s.rtListRemove t).list := rfl
  unfold Scheduler.rtScheduleRemoveThread
  dsimp only
  rw [ht, hl, hp, hm]
  by_cases hc : (s.rtListRemove t).list (.ready (s.thread t).currentPriority) = []
  · rw [if_pos hc, if_pos (show (s.rtListRemove t).list (.ready ((s.rtListRemove t).thread t).currentPriority) = [] from hc)]
    rfl
  · rw [if_neg hc, if_neg (show (s.rtListRemove t).list (.ready ((s.rtListRemove t).thread t).currentPriority) ≠ [] from hc)]
    rfl

theorem SchedInv.frame (hi : SchedInv cfg out s) (hthread : s'.thread = s.thread)
    (hlist : s'.list = s.list) (hmap : s'.readyMap = s.readyMap) : SchedInv cfg out s' := by
  cases s
  cases s'
  subst hthread hlist hmap
  exact ⟨hi.nodup, hi.one, hi.unlinked, hi.ready, hi.init, hi.priority, hi.masks, hi.groupOk, hi.prios⟩

/-- A change of an unlinked thread. -/
theorem SchedInv.set_unlinked (hi : SchedInv cfg (some t) s)
    (hprio : (f (s.thread t)).initPriority < cfg.priorityMax ∧
      (f (s.thread t)).currentPriority < cfg.priorityMax)
    (hmasks : MasksOk cfg (f (s.thread t))) : SchedInv cfg (some t) (s.set t f) := by
  have hne : ∀ {u}, some t ≠ some u → u ≠ t := fun hu h => hu (h ▸ rfl)
  refine ⟨hi.nodup, hi.one, hi.unlinked, fun u hu => ?_, fun u hu => ?_, fun u => ?_, fun u => ?_,
    hi.groupOk, hi.prios⟩
  · rw [Scheduler.set_ne (hne hu)]
    exact hi.ready u hu
  · rw [Scheduler.set_ne (hne hu)]
    exact hi.init u hu
  · by_cases hu : u = t
    · subst hu
      rwa [Scheduler.set_self]
    · rw [Scheduler.set_ne hu]
      exact hi.priority u
  · by_cases hu : u = t
    · subst hu
      rwa [Scheduler.set_self]
    · rw [Scheduler.set_ne hu]
      exact hi.masks u

/-- A change of a linked thread that keeps what the lists say of it. -/
theorem SchedInv.set_linked (hi : SchedInv cfg none s)
    (hstat : (f (s.thread t)).stat = (s.thread t).stat)
    (hready : (s.thread t).stat = .ready → (f (s.thread t)).currentPriority = (s.thread t).currentPriority)
    (hprio : (f (s.thread t)).initPriority < cfg.priorityMax ∧
      (f (s.thread t)).currentPriority < cfg.priorityMax)
    (hmasks : MasksOk cfg (f (s.thread t))) : SchedInv cfg none (s.set t f) := by
  refine ⟨hi.nodup, hi.one, fun u hu => by simp at hu, fun u hu p => ?_, fun u hu => ?_, fun u => ?_,
    fun u => ?_, hi.groupOk, hi.prios⟩
  · by_cases hut : u = t
    · subst hut
      rw [Scheduler.set_self, Scheduler.set_list, hi.ready u hu p, hstat]
      refine and_congr_right fun hr => ?_
      rw [hready hr]
    · rw [Scheduler.set_ne hut]
      exact hi.ready u hu p
  · by_cases hut : u = t
    · subst hut
      rw [Scheduler.set_self, hstat]
      exact hi.init u hu
    · rw [Scheduler.set_ne hut]
      exact hi.init u hu
  · by_cases hut : u = t
    · subst hut
      rwa [Scheduler.set_self]
    · rw [Scheduler.set_ne hut]
      exact hi.priority u
  · by_cases hut : u = t
    · subst hut
      rwa [Scheduler.set_self]
    · rw [Scheduler.set_ne hut]
      exact hi.masks u

/-- Unlinking a node leaves the other threads on the lists they are on. -/
theorem SchedInv.unlink (hi : SchedInv cfg none s) (hthread : s'.thread = s.thread)
    (hlist : s'.list = (s.rtListRemove t).list) (hgroup : s'.readyMap.GroupOk cfg)
    (hprios : s'.readyMap.prios cfg = {p | (s.rtListRemove t).list (.ready p) ≠ []}) :
    SchedInv cfg (some t) s' := by
  have hmem : ∀ {u h}, u ∈ s'.list h ↔ u ∈ s.list h ∧ u ≠ t := by
    intro u h
    rw [hlist]
    exact Scheduler.mem_rtListRemove
  have hne : ∀ {u}, some t ≠ some u → u ≠ t := fun hu h => hu (h ▸ rfl)
  refine ⟨fun h => ?_, fun u h h' hu hu' => hi.one u h h' (hmem.mp hu).1 (hmem.mp hu').1, ?_,
    fun u hu p => ?_, fun u hu hinit h hmemu => ?_, fun u => hthread ▸ hi.priority u,
    fun u => hthread ▸ hi.masks u, hgroup, hlist ▸ hprios⟩
  · rw [hlist]
    exact (hi.nodup h).filter _
  · rintro u ⟨⟩ h hu
    exact (hmem.mp hu).2 rfl
  · rw [hmem, hthread, hi.ready u (by simp) p]
    simp [hne hu]
  · rw [hthread] at hinit
    exact hi.init u (by simp) hinit h (hmem.mp hmemu).1

/-- A thread that is not ready is on no ready list, so they keep their bits. -/
theorem SchedInv.rtListRemove (hi : SchedInv cfg none s) (ht : (s.thread t).stat ≠ .ready) :
    SchedInv cfg (some t) (s.rtListRemove t) := by
  have hsame : ∀ p, (s.rtListRemove t).list (.ready p) = s.list (.ready p) := fun p => by
    refine List.filter_eq_self.mpr fun u hu => ?_
    have hut : u ≠ t := by
      rintro rfl
      exact ht ((hi.ready u (by simp) p).mp hu).1
    simpa using hut
  refine hi.unlink rfl rfl hi.groupOk ?_
  simp only [hsame]
  exact hi.prios

theorem SchedInv.rtScheduleRemoveThread (hi : SchedInv cfg none s) (t : ThreadId) :
    SchedInv cfg (some t) (s.rtScheduleRemoveThread cfg t) := by
  have hother : ∀ q, q ≠ (s.thread t).currentPriority →
      (s.rtListRemove t).list (.ready q) = s.list (.ready q) := fun q hq => by
    refine List.filter_eq_self.mpr fun u hu => ?_
    have hut : u ≠ t := by
      rintro rfl
      exact hq ((hi.ready u (by simp) q).mp hu).2
    simpa using hut
  by_cases hempty : (s.rtListRemove t).list (.ready (s.thread t).currentPriority) = []
  · have heq : s.rtScheduleRemoveThread cfg t = { s.rtListRemove t with
        readyMap := s.readyMap.clearMask cfg (s.thread t).masks } := if_pos hempty
    rw [heq]
    rcases hi.masks t with hmasks | ⟨hmasks, hstat⟩
    · have hp := (hi.priority t).2
      refine hi.unlink rfl rfl (hmasks ▸ clearMask_groupOk hi.groupOk hp) ?_
      rw [hmasks, clearMask_prios hp, hi.prios]
      ext q
      by_cases hq : q = (s.thread t).currentPriority
      · subst hq
        simp [hempty]
      · simp [hother q hq, hq]
    · rw [hmasks, clearMask_noMasks]
      refine (hi.rtListRemove ?_).frame rfl rfl rfl
      rcases hstat with hstat | hstat
      · simp [hstat]
      · simp [hstat]
  · have heq : s.rtScheduleRemoveThread cfg t = s.rtListRemove t := if_neg hempty
    rw [heq]
    refine hi.unlink rfl rfl hi.groupOk ?_
    rw [show (s.rtListRemove t).readyMap = s.readyMap from rfl, hi.prios]
    ext q
    by_cases hq : q = (s.thread t).currentPriority
    · subst hq
      refine iff_of_true (fun h0 => hempty ?_) hempty
      simp [Scheduler.rtListRemove, h0]
    · simp [hother q hq]

/-- Linking an unlinked thread where its state says. -/
theorem SchedInv.link (hi : SchedInv cfg (some t) s) (hthread : s'.thread = s.thread)
    (hat : (s'.list h).Perm (t :: s.list h)) (hother : ∀ h', h' ≠ h → s'.list h' = s.list h')
    (hready : ∀ p, h = .ready p ↔ (s.thread t).stat = .ready ∧ p = (s.thread t).currentPriority)
    (hinit : (s.thread t).stat ≠ .init) (hgroup : s'.readyMap.GroupOk cfg)
    (hprios : s'.readyMap.prios cfg = {p | s.list (.ready p) ≠ [] ∨ h = .ready p}) :
    SchedInv cfg none s' := by
  have hout := hi.unlinked t rfl
  have hmem : ∀ {u h'}, u ∈ s'.list h' ↔ u ∈ s.list h' ∨ u = t ∧ h' = h := by
    intro u h'
    by_cases hh : h' = h
    · subst hh
      rw [hat.mem_iff, List.mem_cons]
      tauto
    · rw [hother h' hh]
      tauto
  refine ⟨fun h' => ?_, fun u h1 h2 hu1 hu2 => ?_, fun u hu => by simp at hu, fun u _ p => ?_,
    fun u _ hstat h' hu => ?_, fun u => hthread ▸ hi.priority u, fun u => hthread ▸ hi.masks u,
    hgroup, ?_⟩
  · by_cases hh : h' = h
    · subst hh
      rw [hat.nodup_iff, List.nodup_cons]
      exact ⟨hout h', hi.nodup h'⟩
    · rw [hother h' hh]
      exact hi.nodup h'
  · rcases hmem.mp hu1 with h1' | ⟨rfl, rfl⟩
    · rcases hmem.mp hu2 with h2' | ⟨rfl, rfl⟩
      · exact hi.one u h1 h2 h1' h2'
      · exact absurd h1' (hout h1)
    · rcases hmem.mp hu2 with h2' | ⟨-, rfl⟩
      · exact absurd h2' (hout h2)
      · rfl
  · rw [hmem, hthread]
    by_cases hut : u = t
    · subst hut
      have hnot := hout (.ready p)
      rw [← hready p]
      tauto
    · rw [hi.ready u (fun h => hut (Option.some.inj h).symm) p]
      tauto
  · rw [hthread] at hstat
    rcases hmem.mp hu with hu | ⟨rfl, -⟩
    · have hut : u ≠ t := by
        rintro rfl
        exact hout h' hu
      exact hi.init u (fun h => hut (Option.some.inj h).symm) hstat h' hu
    · exact hinit hstat
  · rw [hprios]
    ext p
    by_cases hh : ListHead.ready p = h
    · subst hh
      have hne : s'.list (.ready p) ≠ [] := by
        intro h0
        have ht : t ∈ s'.list (.ready p) := hmem.mpr (Or.inr ⟨rfl, rfl⟩)
        simp [h0] at ht
      simp [hne]
    · simp [hother _ hh, Ne.symm hh]

theorem SchedInv.rtScheduleInsertThread (hi : SchedInv cfg (some t) s)
    (hmasks : (s.thread t).masks = priorityMasks cfg (s.thread t).currentPriority) :
    SchedInv cfg none (s.rtScheduleInsertThread cfg t) := by
  have hp := (hi.priority t).2
  have hset : SchedInv cfg (some t) (s.set t fun x => { x with stat := .ready }) :=
    hi.set_unlinked (hi.priority t) (Or.inl hmasks)
  have hself : (s.set t fun x => { x with stat := .ready }).thread t =
      { s.thread t with stat := .ready } := Scheduler.set_self
  have hlist : (s.rtScheduleInsertThread cfg t).list = Function.update s.list
      (.ready (s.thread t).currentPriority)
      (s.list (.ready (s.thread t).currentPriority) ++ [t]) := by
    simp [Scheduler.rtScheduleInsertThread, Scheduler.insertBefore]
  have hmap : (s.rtScheduleInsertThread cfg t).readyMap =
      s.readyMap.setMask cfg (priorityMasks cfg (s.thread t).currentPriority) := by
    rw [← hmasks]
    simp [Scheduler.rtScheduleInsertThread, Scheduler.insertBefore]
  refine hset.link (h := .ready (s.thread t).currentPriority) rfl ?_ (fun h' hh => ?_) (fun p => ?_)
    (by simp) ?_ ?_
  · rw [hlist, Function.update_self]
    exact List.perm_append_singleton t _
  · rw [hlist, Function.update_of_ne hh]
    rfl
  · simp [eq_comm]
  · rw [hmap]
    exact setMask_groupOk hi.groupOk hp
  · rw [hmap, setMask_prios hp, hi.prios]
    ext q
    refine or_congr Iff.rfl ⟨fun hq => ?_, fun hq => (ListHead.ready.inj hq).symm⟩
    rw [show q = (s.thread t).currentPriority from hq]

/-- Linking a thread that is not ready on a list that is no ready list. -/
theorem SchedInv.linkWaiting (hi : SchedInv cfg (some t) s) (hthread : s'.thread = s.thread)
    (hmap : s'.readyMap = s.readyMap) (hat : (s'.list h).Perm (t :: s.list h))
    (hother : ∀ h', h' ≠ h → s'.list h' = s.list h') (hh : ∀ p, h ≠ .ready p)
    (hstat : (s.thread t).stat = .suspend ∨ (s.thread t).stat = .close) : SchedInv cfg none s' := by
  have hne : (s.thread t).stat ≠ .ready ∧ (s.thread t).stat ≠ .init := by
    rcases hstat with hstat | hstat
    · simp [hstat]
    · simp [hstat]
  refine hi.link hthread hat hother (fun p => ?_) hne.2 (hmap ▸ hi.groupOk) ?_
  · simp [hh p, hne.1]
  · rw [hmap, hi.prios]
    simp [hh]

/-- A thread that is not ready may be left on no list. -/
theorem SchedInv.leave (hi : SchedInv cfg (some t) s) (hstat : (s.thread t).stat ≠ .ready) :
    SchedInv cfg none s := by
  have hout := hi.unlinked t rfl
  refine ⟨hi.nodup, hi.one, fun u hu => by simp at hu, fun u _ p => ?_, fun u _ hinit h => ?_,
    hi.priority, hi.masks, hi.groupOk, hi.prios⟩
  · by_cases hut : u = t
    · subst hut
      simp [hout, hstat]
    · exact hi.ready u (fun h => hut (Option.some.inj h).symm) p
  · by_cases hut : u = t
    · subst hut
      exact hout h
    · exact hi.init u (fun h => hut (Option.some.inj h).symm) hinit h

theorem SchedInv.insertAfter (hi : SchedInv cfg (some t) s) (hstat : (s.thread t).stat = .close) :
    SchedInv cfg none (s.insertAfter .defunct t) :=
  hi.linkWaiting (h := .defunct) rfl rfl (by simp [Scheduler.insertAfter])
    (fun h' hh => by simp [Scheduler.insertAfter, hh]) (fun p => by simp) (Or.inr hstat)

theorem SchedInv.rtSchedule (hi : SchedInv cfg none s) (hs : s.rtSchedule cfg = some s') :
    SchedInv cfg none s' := by
  unfold Scheduler.rtSchedule at hs
  split at hs
  next =>
    obtain ⟨toThread, -, rfl⟩ := Option.map_eq_some_iff.mp hs
    split
    · exact hi
    · exact hi.frame rfl rfl rfl
  next =>
    obtain rfl := Option.some.inj hs
    exact hi

/-- A started thread that is not closed has the masks of its priority. -/
theorem SchedInv.masks_eq (hi : SchedInv cfg out s)
    (hstat : (s.thread t).stat = .ready ∨ (s.thread t).stat = .suspend) :
    (s.thread t).masks = priorityMasks cfg (s.thread t).currentPriority := by
  rcases hi.masks t with hmasks | ⟨-, hclosed⟩
  · exact hmasks
  · rcases hstat with h | h
    · simp [h] at hclosed
    · simp [h] at hclosed

/-- The state between the suspension of a ready thread and its insertion into a suspend list. -/
theorem SchedInv.rtThreadSuspend_unlinked (hi : SchedInv cfg none s)
    (hready : (s.thread t).stat = .ready) : SchedInv cfg (some t) (s.rtThreadSuspend cfg t).2 ∧
      ((s.rtThreadSuspend cfg t).2.thread t).stat = .suspend := by
  have hmasks := hi.masks_eq (Or.inl hready)
  unfold Scheduler.rtThreadSuspend Scheduler.stopThreadTimer
  rw [if_pos hready, set_rtScheduleRemoveThread rfl rfl]
  have hremoved := hi.rtScheduleRemoveThread t
  have hsuspended : SchedInv cfg (some t)
      ((s.rtScheduleRemoveThread cfg t).set t fun x => { x with stat := .suspend }) := by
    refine hremoved.set_unlinked (hremoved.priority t) (Or.inl ?_)
    simpa using hmasks
  dsimp only
  refine ⟨hsuspended.set_unlinked (hsuspended.priority t) (Or.inl ?_), by simp⟩
  simpa using hmasks

theorem SchedInv.rtThreadSuspend (hi : SchedInv cfg none s) (t : ThreadId) :
    SchedInv cfg none (s.rtThreadSuspend cfg t).2 := by
  by_cases hready : (s.thread t).stat = .ready
  · obtain ⟨hs, hstat⟩ := hi.rtThreadSuspend_unlinked hready
    exact hs.leave (by simp [hstat])
  · unfold Scheduler.rtThreadSuspend
    rw [if_neg hready]
    exact hi

theorem SchedInv.rtThreadResume (hi : SchedInv cfg none s) (t : ThreadId) :
    SchedInv cfg none (s.rtThreadResume cfg t).2 := by
  unfold Scheduler.rtThreadResume Scheduler.stopThreadTimer
  split
  next hsusp =>
    have hmasks := hi.masks_eq (Or.inr hsusp)
    have hremoved := hi.rtListRemove (t := t) (by simp [hsusp])
    refine (hremoved.set_unlinked (hremoved.priority t) (Or.inl hmasks)).rtScheduleInsertThread ?_
    rw [Scheduler.set_self]
    exact hmasks
  next => exact hi

/-- A thread that was never started is on no list. -/
theorem SchedInv.of_init (hi : SchedInv cfg none s) (hinit : (s.thread t).stat = .init) :
    SchedInv cfg (some t) s := by
  refine ⟨hi.nodup, hi.one, ?_, fun u _ => hi.ready u (by simp), fun u _ => hi.init u (by simp),
    hi.priority, hi.masks, hi.groupOk, hi.prios⟩
  rintro u ⟨⟩
  exact hi.init t (by simp) hinit

theorem SchedInv.rtThreadStartup (hi : SchedInv cfg none s)
    (hs : s.rtThreadStartup cfg t = some s') : SchedInv cfg none s' := by
  obtain ⟨hinit, hs⟩ := Option.ite_none_right_eq_some.mp hs
  have hp := (hi.priority t).1
  have hset := (hi.of_init hinit).set_unlinked (f := fun x =>
    { x with
      currentPriority := x.initPriority
      masks := priorityMasks cfg x.initPriority
      stat := .suspend }) ⟨hp, hp⟩ (Or.inl rfl)
  have hresumed := (hset.leave (by simp)).rtThreadResume t
  dsimp only at hs
  split at hs
  · exact Option.some.inj hs ▸ hresumed
  · exact hresumed.rtSchedule hs

theorem MasksOk.close {x : SchedThread} (hx : MasksOk cfg x) :
    MasksOk cfg { x with stat := .close } := by
  rcases hx with hmasks | ⟨hmasks, -⟩
  · exact Or.inl hmasks
  · exact Or.inr ⟨hmasks, Or.inr rfl⟩

theorem SchedInv.closeThread (hi : SchedInv cfg none s) (t : ThreadId) :
    SchedInv cfg (some t) (s.closeThread cfg t) ∧ ((s.closeThread cfg t).thread t).stat = .close := by
  have hclosed : ∀ {s}, SchedInv cfg (some t) s → SchedInv cfg (some t)
      ((s.stopThreadTimer t).set t fun x => { x with stat := .close }) := fun {s} hu => by
    have hstopped : SchedInv cfg (some t) (s.stopThreadTimer t) :=
      hu.set_unlinked (hu.priority t) (hu.masks t)
    exact hstopped.set_unlinked (hstopped.priority t) (hstopped.masks t).close
  refine ⟨?_, by simp [Scheduler.closeThread]⟩
  unfold Scheduler.closeThread
  dsimp only
  split
  next => exact hclosed (hi.rtScheduleRemoveThread t)
  next hinit => exact hclosed (hi.of_init (not_not.mp hinit))

theorem SchedInv.changePriority (hi : SchedInv cfg none s) (hp : p < cfg.priorityMax) :
    SchedInv cfg none (s.changePriority cfg t p) := by
  unfold Scheduler.changePriority Scheduler.setPriority
  have hprio := (hi.priority t).1
  split
  next hready =>
    have hremoved := hi.rtScheduleRemoveThread t
    refine (hremoved.set_unlinked ?_ (Or.inl rfl)).rtScheduleInsertThread ?_
    · simpa using ⟨hprio, hp⟩
    · simp
  next hready => exact hi.set_linked rfl (fun h => absurd h hready) ⟨hprio, hp⟩ (Or.inl rfl)

theorem SchedInv.rtThreadDetach (hi : SchedInv cfg none s) (t : ThreadId) :
    SchedInv cfg none (s.rtThreadDetach cfg t) := by
  obtain ⟨hclosed, hstat⟩ := hi.closeThread t
  unfold Scheduler.rtThreadDetach
  dsimp only
  split
  · exact hclosed.insertAfter hstat
  · exact hclosed.leave (by simp [hstat])

theorem SchedInv.rtThreadDelete (hi : SchedInv cfg none s) (t : ThreadId) :
    SchedInv cfg none (s.rtThreadDelete cfg t) := by
  obtain ⟨hclosed, hstat⟩ := hi.closeThread t
  exact hclosed.insertAfter hstat

theorem SchedInv.rtThreadExit (hi : SchedInv cfg none s) (hs : s.rtThreadExit cfg = some s') :
    SchedInv cfg none s' := by
  obtain ⟨t, -, hs⟩ := Option.bind_eq_some_iff.mp hs
  have hremoved := hi.rtScheduleRemoveThread t
  have hclosed := hremoved.set_unlinked (f := fun x => { x with stat := .close })
    (hremoved.priority t) (hremoved.masks t).close
  have hstopped : SchedInv cfg (some t)
      (((s.rtScheduleRemoveThread cfg t).set t fun x => { x with stat := .close }).stopThreadTimer t) :=
    hclosed.set_unlinked (hclosed.priority t) (hclosed.masks t)
  refine SchedInv.rtSchedule ?_ hs
  split
  · exact hstopped.leave (by simp [Scheduler.stopThreadTimer])
  · exact hstopped.insertAfter (by simp [Scheduler.stopThreadTimer])

/-- The running thread moves to the end of the ready list it is on. -/
theorem SchedInv.rtThreadYield (hi : SchedInv cfg none s) (hs : s.rtThreadYield cfg = some s') :
    SchedInv cfg none s' := by
  obtain ⟨t, -, hs⟩ := Option.bind_eq_some_iff.mp hs
  dsimp only at hs
  split at hs
  next hmoves =>
    refine SchedInv.rtSchedule ?_ hs
    have ht : t ∈ s.list (.ready (s.thread t).currentPriority) :=
      (hi.ready t (by simp) _).mpr ⟨hmoves.1, rfl⟩
    have hperm : ∀ h, (((s.rtListRemove t).insertBefore (.ready (s.thread t).currentPriority) t).list
        h).Perm (s.list h) := fun h => by
      by_cases hh : h = .ready (s.thread t).currentPriority
      · subst hh
        rw [Scheduler.insertBefore_self]
        refine (List.perm_append_singleton t _).trans ?_
        have herase : (s.rtListRemove t).list (.ready (s.thread t).currentPriority) =
            (s.list (.ready (s.thread t).currentPriority)).erase t := by
          rw [(hi.nodup _).erase_eq_filter]
          refine List.filter_congr fun u _ => ?_
          by_cases hut : u = t
          · simp [hut]
          · simp [hut]
        rw [herase]
        exact (List.perm_cons_erase ht).symm
      · rw [Scheduler.insertBefore_ne hh]
        refine List.Perm.of_eq (List.filter_eq_self.mpr fun u hu => ?_)
        have hut : u ≠ t := by
          rintro rfl
          exact hh (hi.one u h _ hu ht)
        simpa using hut
    refine ⟨fun h => ?_, fun u h h' hu hu' => hi.one u h h' ((hperm h).mem_iff.mp hu)
        ((hperm h').mem_iff.mp hu'), fun u hu => by simp at hu, fun u hu p => ?_,
      fun u hu hinit h => ?_, hi.priority, hi.masks, hi.groupOk, ?_⟩
    · exact (hperm h).nodup_iff.mpr (hi.nodup h)
    · rw [(hperm _).mem_iff]
      exact hi.ready u hu p
    · rw [(hperm h).mem_iff]
      exact hi.init u hu hinit h
    · refine hi.prios.trans ?_
      ext p
      refine not_congr ⟨fun h0 => ?_, fun h0 => ?_⟩
      · exact List.perm_nil.mp (h0 ▸ hperm (.ready p))
      · exact List.perm_nil.mp (h0 ▸ (hperm (.ready p)).symm)
  next => exact Option.some.inj hs ▸ hi

theorem SchedInv.rtThreadSleep (hi : SchedInv cfg none s) (hs : s.rtThreadSleep cfg = some s') :
    SchedInv cfg none s' := by
  obtain ⟨t, -, hs⟩ := Option.bind_eq_some_iff.mp hs
  have hsuspended := hi.rtThreadSuspend t
  exact (hsuspended.set_linked rfl (fun _ => rfl) (hsuspended.priority t)
    (hsuspended.masks t)).rtSchedule hs

theorem SchedInv.rtThreadTimeout (hi : SchedInv cfg none s)
    (hs : s.rtThreadTimeout cfg t = some s') : SchedInv cfg none s' := by
  obtain ⟨hsusp, hs⟩ := Option.ite_none_right_eq_some.mp hs
  have hmasks := hi.masks_eq (Or.inr hsusp)
  have hset : SchedInv cfg none (s.set t fun x => { x with error := .etimeout, timerActive := false }) :=
    hi.set_linked rfl (fun _ => rfl) (hi.priority t) (hi.masks t)
  have hremoved := hset.rtListRemove (t := t) (by simp [hsusp])
  refine (hremoved.rtScheduleInsertThread ?_).rtSchedule hs
  simpa [Scheduler.rtListRemove] using hmasks

theorem SchedInv.rtIpcListSuspend {q : ObjectId} {flag : IpcFlag} (hi : SchedInv cfg none s)
    (hready : (s.thread t).stat = .ready) : SchedInv cfg none (s.rtIpcListSuspend cfg q t flag) := by
  obtain ⟨hs, hstat⟩ := hi.rtThreadSuspend_unlinked hready
  refine hs.linkWaiting (h := .suspended q) rfl rfl ?_ (fun h' hh => ?_) (fun p => by simp)
    (Or.inl hstat)
  · simp only [Scheduler.rtIpcListSuspend, Function.update_self]
    cases flag with
    | fifo => exact List.perm_append_singleton t _
    | prio => exact insertByPriority_perm
  · simp [Scheduler.rtIpcListSuspend, hh]

theorem schedulerInit_inv (hs : SchedulerInit cfg s) : SchedInv cfg none s := by
  refine ⟨fun h => by simp [hs.list], fun u h h' hu => by simp [hs.list] at hu, fun u hu => by simp at hu,
    fun u _ p => by simp [hs.list, hs.stat], fun u _ _ h => by simp [hs.list], fun u => ?_,
    fun u => Or.inr ⟨hs.masks u, Or.inl (hs.stat u)⟩, fun _ n => ?_, ?_⟩
  · rw [(hs.priority u).2]
    exact ⟨(hs.priority u).1, (hs.priority u).1⟩
  · simp [hs.group, hs.table]
  · simp [ReadyMap.prios, hs.group, hs.table, hs.list, tableBits_zero]

/-- A new priority is below `RT_THREAD_PRIORITY_MAX`; `rt_thread_control` does not check it. -/
def PriorityInRange (cfg : SchedConfig) (_ : Scheduler) : SchedCall → Prop
  | .changePriority _ priority => priority < cfg.priorityMax
  | _ => True

theorem schedStep_inv {a : SchedCall} (hi : SchedInv cfg none s) (hok : PriorityInRange cfg s a)
    (hs : schedStep cfg s a = some s') : SchedInv cfg none s' := by
  cases a with
  | startup t => exact hi.rtThreadStartup hs
  | suspend t => exact Option.some.inj hs ▸ hi.rtThreadSuspend t
  | resume t => exact Option.some.inj hs ▸ hi.rtThreadResume t
  | yield => exact hi.rtThreadYield hs
  | sleep => exact hi.rtThreadSleep hs
  | timeout t => exact hi.rtThreadTimeout hs
  | changePriority t priority => exact Option.some.inj hs ▸ hi.changePriority hok
  | detach t => exact Option.some.inj hs ▸ hi.rtThreadDetach t
  | delete t => exact Option.some.inj hs ▸ hi.rtThreadDelete t
  | exit => exact hi.rtThreadExit hs
  | block q flag =>
    obtain ⟨t, -, hs⟩ := Option.bind_eq_some_iff.mp hs
    obtain ⟨hready, hs⟩ := Option.ite_none_right_eq_some.mp hs
    exact Option.some.inj hs ▸ hi.rtIpcListSuspend hready
  | schedule => exact hi.rtSchedule hs
  | schedulerStart =>
    obtain ⟨toThread, -, rfl⟩ := Option.map_eq_some_iff.mp hs
    exact hi.frame rfl rfl rfl
  | enterCritical => exact Option.some.inj hs ▸ hi.frame rfl rfl rfl
  | exitCritical =>
    simp only [schedStep, Scheduler.rtExitCritical] at hs
    split at hs
    · have hunlocked : SchedInv cfg none { s with lockNest := 0 } := hi.frame rfl rfl rfl
      exact hunlocked.rtSchedule hs
    · exact Option.some.inj hs ▸ hi.frame rfl rfl rfl

/-- The states of runs of calls on any threads. -/
abbrev SchedReach (cfg : SchedConfig) : Scheduler → Prop :=
  Reach (schedStep cfg) (PriorityInRange cfg) (SchedulerInit cfg)

theorem schedReach_inv (hr : SchedReach cfg s) : SchedInv cfg none s :=
  hr.invariant (fun _ hs => schedulerInit_inv hs) fun _ _ _ hi hok hs => schedStep_inv hi hok hs

end

/-- The widest configuration, with a ready table. -/
def wideConfig : SchedConfig := ⟨256, by decide, by decide⟩

def neverStarted (cfg : SchedConfig) (priority : ThreadId → Nat) : Scheduler :=
  { thread := fun t => ⟨⟨.init, priority t, priority t, .eok, false, 0, 0, []⟩, noMasks, false, false⟩
    list := fun _ => []
    readyMap := ⟨0, fun _ => 0⟩
    currentThread := none
    currentPriority := cfg.priorityMax - 1
    lockNest := 0 }

theorem neverStarted_init {cfg : SchedConfig} {priority : ThreadId → Nat}
    (h : ∀ t, priority t < cfg.priorityMax) : SchedulerInit cfg (neverStarted cfg priority) :=
  ⟨fun _ => rfl, rfl, rfl, rfl, rfl, rfl, fun _ => rfl, fun t => ⟨h t, rfl⟩, fun _ => rfl⟩

/-- Thread 1 is suspended, made more urgent than thread 2 and resumed. -/
def twoStarted : Scheduler :=
  (runFrom (schedStep wideConfig)
    [.startup 1, .startup 2, .schedulerStart, .suspend 1, .changePriority 1 3, .resume 1]
    (neverStarted wideConfig fun _ => 40)).get (by decide +kernel)

end RTThread
