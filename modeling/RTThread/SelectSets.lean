import RTThread.PollWaits

namespace RTThread

/-- What the file of a descriptor answers `do_pollfd`: it is not open, or the conditions its `poll`
function returns (`POLLMASK_DEFAULT` without one). -/
abbrev PollAnswer := Option PollMask

/-- The mask of `do_pollfd`. -/
def doPollfdMask (file : PollAnswer) (f : PollFd) : PollMask :=
  if f.fd < 0 then 0
  else
    match file with
    | none => pollNval
    | some mask => mask &&& pollKey f

def pollReport (files : Int → PollAnswer) (f : PollFd) : PollFd :=
  { f with revents := (doPollfdMask (files f.fd) f).setWidth 16 }

/-- What `poll` returns and leaves in the array, by the answers in its last pass. -/
def pollFds (files : Int → PollAnswer) (fds : List PollFd) : Int × List PollFd :=
  (fds.countP fun f => doPollfdMask (files f.fd) f ≠ 0, fds.map (pollReport files))

def pollIn : BitVec 16 := 1

def pollOut : BitVec 16 := 2

/-- The three arguments of type `fd_set *`, of `w` bits each; `none` is null. -/
structure SelectSets (w : Nat) where
  read : Option (BitVec w)
  write : Option (BitVec w)
  except : Option (BitVec w)
deriving DecidableEq

variable {w : Nat}

/-- `p && FD_ISSET(fd, p)`; the outer `none` is an access behind the array. -/
def fdIsSet (fd : Nat) : Option (BitVec w) → Option Bool
  | none => some false
  | some p => if fd < w then some (p.getLsbD fd) else none

/-- `FD_SET`. -/
def fdSet (fd : Nat) (p : BitVec w) : BitVec w := p ||| BitVec.twoPow w fd

namespace SelectSets

/-- The first loop: how many of the descriptors below `n` are in a set. -/
def npfds (s : SelectSets w) : Nat → Option Nat
  | 0 => some 0
  | n + 1 => do
    let before ← s.npfds n
    if ← fdIsSet n s.read then some (before + 1)
    else if ← fdIsSet n s.write then some (before + 1)
    else if ← fdIsSet n s.except then some (before + 1)
    else some before

/-- The second loop; the array comes from `rt_calloc`. -/
def pollset (s : SelectSets w) : Nat → Option (List PollFd)
  | 0 => some []
  | n + 1 => do
    let before ← s.pollset n
    let read ← fdIsSet n s.read
    let write ← fdIsSet n s.write
    let except ← fdIsSet n s.except
    let events := (if read then pollIn else 0) ||| (if write then pollOut else 0)
    some (if read || write || except then before ++ [⟨n, events, 0⟩] else before)

/-- One of the three tests of the last loop, with the number of bits set so far. -/
def replySet (mask : BitVec 16) (f : PollFd) (ret : Nat) : Option (BitVec w) → Nat × Option (BitVec w)
  | none => (ret, none)
  | some p => if f.revents &&& mask ≠ 0 then (ret + 1, some (fdSet f.fd.toNat p)) else (ret, some p)

def replyFd (ret : Nat) (s : SelectSets w) (f : PollFd) : Nat × SelectSets w :=
  let (ret, read) := replySet (pollIn ||| pollHup) f ret s.read
  let (ret, write) := replySet pollOut f ret s.write
  let (ret, except) := replySet pollErr f ret s.except
  (ret, ⟨read, write, except⟩)

/-- The last loop. -/
def reply : Nat → SelectSets w → List PollFd → Nat × SelectSets w
  | ret, s, [] => (ret, s)
  | ret, s, f :: fs => reply (s.replyFd ret f).1 (s.replyFd ret f).2 fs

/-- `memset(fds, 0, sizeof(fd_set))` of the sets that are there. -/
def cleared (s : SelectSets w) : SelectSets w :=
  ⟨s.read.map fun _ => 0, s.write.map fun _ => 0, s.except.map fun _ => 0⟩

/-- `mem` tells if `rt_calloc` has memory; the timeout goes to `poll` in milliseconds. -/
def select (poll : List PollFd → Int → Int × List PollFd) (mem : Bool) (nfds : Int) (s : SelectSets w)
    (timeout : Option (Int × Int)) : Option (Int × SelectSets w) := do
  let npfds ← s.npfds nfds.toNat
  if 0 < npfds ∧ mem = false then some (-1, s)
  else do
    let fds ← s.pollset nfds.toNat
    if fds.length = npfds then
      let msec := match timeout with
        | some (sec, usec) => sec * 1000 + usec.tdiv 1000
        | none => -1
      let (ret, reports) := poll fds msec
      if 0 < ret then
        let (ret, s) := reply 0 s.cleared reports
        some (ret, s)
      else some (ret, s.cleared)
    else none

/-- The entry of a descriptor that is in a set. -/
def entry (s : SelectSets w) (fd : Nat) : PollFd :=
  ⟨fd, (if fdIsSet fd s.read = some true then pollIn else 0) |||
    (if fdIsSet fd s.write = some true then pollOut else 0), 0⟩

/-- The descriptor is in one of the sets. -/
def Asked (s : SelectSets w) (fd : Nat) : Prop :=
  fdIsSet fd s.read = some true ∨ fdIsSet fd s.write = some true ∨ fdIsSet fd s.except = some true

/-- `poll` reports one of these conditions of the descriptor. -/
def Reported (files : Int → PollAnswer) (s : SelectSets w) (mask : BitVec 16) (fd : Nat) : Prop :=
  (pollReport files (s.entry fd)).revents &&& mask ≠ 0

end SelectSets

/-- The descriptors in a set. -/
def fdMembers (p : BitVec w) : Finset Nat := (Finset.range w).filter fun fd => p.getLsbD fd = true

instance (files : Int → PollAnswer) (s : SelectSets w) (mask : BitVec 16) :
    DecidablePred (s.Reported files mask) := fun _ => inferInstanceAs (Decidable (_ ≠ _))

instance (s : SelectSets w) : DecidablePred s.Asked := fun _ => inferInstanceAs (Decidable (_ ∨ _))

def fdCount : Option (BitVec w) → Nat
  | none => 0
  | some p => (fdMembers p).card

/-- The reply of one set: the descriptors asked for in it of which `poll` reports the condition. -/
def SelectSets.Replies (files : Int → PollAnswer) (s : SelectSets w) (nfds : Int) (mask : BitVec 16)
    (asked reply : Option (BitVec w)) : Prop :=
  reply.map fdMembers = asked.map fun p =>
    (fdMembers p).filter fun fd : Nat => (fd : Int) < nfds ∧ s.Reported files mask fd

structure SelectRight (files : Int → PollAnswer) (s : SelectSets w) (nfds : Int) (ret : Int)
    (out : SelectSets w) : Prop where
  read : s.Replies files nfds (pollIn ||| pollHup) s.read out.read
  write : s.Replies files nfds pollOut s.write out.write
  except : s.Replies files nfds pollErr s.except out.except
  count : 0 < ret → ret = fdCount out.read + fdCount out.write + fdCount out.except

/-- The sets that are there have a bit for every descriptor below `nfds`. -/
def SelectSets.Reach (s : SelectSets w) (nfds : Int) : Prop :=
  nfds ≤ w ∨ s.read = none ∧ s.write = none ∧ s.except = none

/-- What `poll` adds on its own of a descriptor is asked for, or there is no set for it. -/
def SelectSets.Clean (files : Int → PollAnswer) (s : SelectSets w) (nfds : Int) : Prop :=
  ∀ fd : Nat, (fd : Int) < nfds → s.Asked fd →
    (s.Reported files pollHup fd → s.read = none ∨ fdIsSet fd s.read = some true) ∧
      (s.Reported files pollErr fd → s.except = none ∨ fdIsSet fd s.except = some true)

section
variable {files : Int → PollAnswer} {s : SelectSets w} {p : Option (BitVec w)} {mask : BitVec 16}
  {f : PollFd} {fds : List PollFd} {n fd ret : Nat} {nfds : Int}

theorem fdIsSet_exists (h : fd < w ∨ p = none) : ∃ b, fdIsSet fd p = some b := by
  cases p with
  | none => exact ⟨false, rfl⟩
  | some p => exact ⟨_, if_pos (h.resolve_right nofun)⟩

theorem fdIsSet_outside (h : w ≤ fd) (hp : p ≠ none) : fdIsSet fd p = none := by
  cases p with
  | none => exact absurd rfl hp
  | some p => exact if_neg (Nat.not_lt.mpr h)

/-- The entries of the descriptors below `n` that are in a set. -/
def SelectSets.entries (s : SelectSets w) (n : Nat) : List PollFd :=
  ((List.range n).filter s.Asked).map s.entry

theorem SelectSets.entries_succ (s : SelectSets w) (n : Nat) :
    s.entries (n + 1) = s.entries n ++ if s.Asked n then [s.entry n] else [] := by
  unfold entries
  rw [List.range_succ, List.filter_append, List.map_append]
  by_cases h : s.Asked n <;> simp [h]

/-- Both loops find the same descriptors. -/
theorem pollset_entries (h : n ≤ w ∨ s.read = none ∧ s.write = none ∧ s.except = none) :
    s.pollset n = some (s.entries n) ∧ s.npfds n = some (s.entries n).length := by
  induction n with
  | zero => exact ⟨rfl, rfl⟩
  | succ n ih =>
    obtain ⟨hset, hcount⟩ := ih (h.imp_left (by omega))
    obtain ⟨r, hr⟩ := fdIsSet_exists (h.imp Nat.lt_of_succ_le (·.1))
    obtain ⟨v, hv⟩ := fdIsSet_exists (h.imp Nat.lt_of_succ_le (·.2.1))
    obtain ⟨e, he⟩ := fdIsSet_exists (h.imp Nat.lt_of_succ_le (·.2.2))
    have hasked : s.Asked n ↔ (r || v || e) = true := by
      simp [SelectSets.Asked, hr, hv, he, or_assoc]
    rw [SelectSets.entries_succ]
    constructor
    · simp only [SelectSets.pollset, hset, hr, hv, he, Option.bind_eq_bind, Option.bind_some, hasked]
      by_cases hany : (r || v || e) = true
      · rw [if_pos hany, if_pos hany]
        unfold SelectSets.entry
        simp [hr, hv]
      · rw [if_neg hany, if_neg hany, List.append_nil]
    · simp only [SelectSets.npfds, hcount, hr, hv, he, Option.bind_eq_bind, Option.bind_some, hasked]
      cases r <;> cases v <;> cases e <;> simp

/-- A descriptor behind the bits of a set is a fault. -/
theorem npfds_outside (hlt : w < n) (hsets : ¬(s.read = none ∧ s.write = none ∧ s.except = none)) :
    s.npfds n = none := by
  induction n with
  | zero => exact absurd hlt (Nat.not_lt_zero w)
  | succ n ih =>
    rw [SelectSets.npfds]
    rcases Nat.lt_or_ge w n with hlt | hge
    · rw [ih hlt]
      rfl
    · cases s.npfds n with
      | none => rfl
      | some before =>
        have hat : w ≤ n := by omega
        simp only [Option.bind_eq_bind, Option.bind_some]
        by_cases hread : s.read = none
        · by_cases hwrite : s.write = none
          · have hexcept : s.except ≠ none := fun h => hsets ⟨hread, hwrite, h⟩
            rw [hread, hwrite, fdIsSet_outside hat hexcept]
            rfl
          · rw [hread, fdIsSet_outside hat hwrite]
            rfl
        · rw [fdIsSet_outside hat hread]
          rfl

theorem fdMembers_fdSet (p : BitVec w) (h : fd < w) : fdMembers (fdSet fd p) = insert fd (fdMembers p) := by
  ext i
  simp only [fdMembers, fdSet, Finset.mem_filter, Finset.mem_range, Finset.mem_insert, BitVec.getLsbD_or,
    BitVec.getLsbD_twoPow, Bool.or_eq_true, Bool.and_eq_true, decide_eq_true_eq]
  constructor
  · rintro ⟨hi, hbit | ⟨-, rfl⟩⟩
    · exact .inr ⟨hi, hbit⟩
    · exact .inl rfl
  · rintro (rfl | ⟨hi, hbit⟩)
    · exact ⟨h, .inr ⟨h, rfl⟩⟩
    · exact ⟨hi, .inl hbit⟩

/-- The descriptors of these entries with one of the conditions. -/
def fdHits (mask : BitVec 16) (fds : List PollFd) : Finset Nat :=
  ((fds.filter fun f => f.revents &&& mask ≠ 0).map fun f => f.fd.toNat).toFinset

theorem fdHits_cons : fdHits mask (f :: fds) =
    if f.revents &&& mask ≠ 0 then insert f.fd.toNat (fdHits mask fds) else fdHits mask fds := by
  unfold fdHits
  by_cases h : f.revents &&& mask ≠ 0
  · rw [List.filter_cons, if_pos (by simpa using h), if_pos h, List.map_cons, List.toFinset_cons]
  · rw [List.filter_cons, if_neg (by simpa using h), if_neg h]

/-- The entries are of descriptors that the set can hold and does not hold yet. -/
def FdFresh (fds : List PollFd) (p : Option (BitVec w)) : Prop :=
  ∀ q ∈ p, ∀ f ∈ fds, f.fd.toNat < w ∧ f.fd.toNat ∉ fdMembers q

/-- A test of the last loop sets at most the bit of its descriptor, and counts it. -/
theorem replySet_spec (mask : BitVec 16) (ret : Nat) (hfresh : FdFresh (f :: fds) p) :
    (SelectSets.replySet mask f ret p).1 + fdCount p = ret + fdCount (SelectSets.replySet mask f ret p).2 ∧
      (SelectSets.replySet mask f ret p).2.map fdMembers = p.map fun q =>
        if f.revents &&& mask ≠ 0 then insert f.fd.toNat (fdMembers q) else fdMembers q := by
  cases p with
  | none => exact ⟨rfl, rfl⟩
  | some q =>
    unfold SelectSets.replySet
    by_cases h : f.revents &&& mask ≠ 0
    · obtain ⟨hlt, hnew⟩ := hfresh q rfl f List.mem_cons_self
      simp only [if_pos h, Option.map_some, fdMembers_fdSet q hlt, fdCount]
      rw [Finset.card_insert_of_notMem hnew]
      exact ⟨by omega, trivial⟩
    · simp only [if_neg h, Option.map_some]
      exact ⟨trivial, trivial⟩

theorem FdFresh.replySet (hfresh : FdFresh (f :: fds) p)
    (hother : f.fd.toNat ∉ fds.map fun g => g.fd.toNat) :
    FdFresh fds (SelectSets.replySet mask f ret p).2 := by
  intro q hq g hg
  have hmap := (replySet_spec mask ret hfresh).2
  rw [Option.mem_def.mp hq] at hmap
  obtain ⟨q0, rfl, hmembers⟩ := Option.map_eq_some_iff.mp hmap.symm
  obtain ⟨hlt, hnew⟩ := hfresh q0 rfl g (List.mem_cons_of_mem f hg)
  refine ⟨hlt, ?_⟩
  rw [← hmembers]
  have hne : g.fd.toNat ≠ f.fd.toNat := fun h => hother (List.mem_map.mpr ⟨g, hg, h⟩)
  split
  · exact fun hin => (Finset.mem_insert.mp hin).elim hne hnew
  · exact hnew

/-- What a run of these tests makes of one set. -/
def FdReply (mask : BitVec 16) (fds : List PollFd) (p q : Option (BitVec w)) : Prop :=
  q.map fdMembers = p.map fun r => fdHits mask fds ∪ fdMembers r

theorem FdReply.cons {r : Option (BitVec w)} (hfresh : FdFresh (f :: fds) p)
    (h : FdReply mask fds (SelectSets.replySet mask f ret p).2 r) : FdReply mask (f :: fds) p r := by
  have hmap := (replySet_spec mask ret hfresh).2
  have hstep := congrArg (Option.map fun m => fdHits mask fds ∪ m) hmap
  simp only [Option.map_map] at hstep
  unfold FdReply at h ⊢
  rw [h]
  refine hstep.trans ?_
  congr 1
  funext q
  simp only [Function.comp_apply, fdHits_cons]
  split
  · rw [Finset.union_insert, Finset.insert_union]
  · rfl

/-- The last loop sets the bits of the reported conditions and counts them. -/
theorem reply_spec (ret : Nat) (hnodup : (fds.map fun f => f.fd.toNat).Nodup) (hread : FdFresh fds s.read)
    (hwrite : FdFresh fds s.write) (hexcept : FdFresh fds s.except) :
    (SelectSets.reply ret s fds).1 + (fdCount s.read + fdCount s.write + fdCount s.except) =
        ret + (fdCount (SelectSets.reply ret s fds).2.read + fdCount (SelectSets.reply ret s fds).2.write +
          fdCount (SelectSets.reply ret s fds).2.except) ∧
      FdReply (pollIn ||| pollHup) fds s.read (SelectSets.reply ret s fds).2.read ∧
      FdReply pollOut fds s.write (SelectSets.reply ret s fds).2.write ∧
      FdReply pollErr fds s.except (SelectSets.reply ret s fds).2.except := by
  induction fds generalizing ret s with
  | nil =>
    refine ⟨rfl, ?_, ?_, ?_⟩
    all_goals
      exact congrArg (fun m => Option.map m _) (funext fun q => (Finset.empty_union _).symm)
  | cons f fds ih =>
    obtain ⟨hother, hnodup⟩ := List.nodup_cons.mp hnodup
    have hr := replySet_spec (pollIn ||| pollHup) ret hread
    have hw := replySet_spec pollOut (SelectSets.replySet (pollIn ||| pollHup) f ret s.read).1 hwrite
    have he := replySet_spec pollErr (SelectSets.replySet pollOut f
      (SelectSets.replySet (pollIn ||| pollHup) f ret s.read).1 s.write).1 hexcept
    obtain ⟨hcount, hread', hwrite', hexcept'⟩ := @ih (s.replyFd ret f).2 (s.replyFd ret f).1
      hnodup (hread.replySet hother) (hwrite.replySet hother) (hexcept.replySet hother)
    refine ⟨?_, hread'.cons hread, hwrite'.cons hwrite, hexcept'.cons hexcept⟩
    have h1 := hr.1
    have h2 := hw.1
    have h3 := he.1
    simp only [SelectSets.reply]
    simp only [SelectSets.replyFd] at hcount ⊢
    omega

theorem SelectSets.mem_entries {g : PollFd} : g ∈ s.entries n ↔ ∃ fd < n, s.Asked fd ∧ s.entry fd = g := by
  simp [entries, and_assoc]

theorem mem_fdHits_entries (files : Int → PollAnswer) (s : SelectSets w) (n : Nat) :
    fd ∈ fdHits mask ((s.entries n).map (pollReport files)) ↔
    fd < n ∧ s.Asked fd ∧ s.Reported files mask fd := by
  unfold fdHits
  rw [List.mem_toFinset, List.mem_map]
  constructor
  · rintro ⟨g, hg, rfl⟩
    obtain ⟨hg, hhit⟩ := List.mem_filter.mp hg
    obtain ⟨g, hentry, rfl⟩ := List.mem_map.mp hg
    obtain ⟨fd, hlt, hasked, rfl⟩ := SelectSets.mem_entries.mp hentry
    exact ⟨hlt, hasked, of_decide_eq_true hhit⟩
  · rintro ⟨hlt, hasked, hhit⟩
    exact ⟨pollReport files (s.entry fd), List.mem_filter.mpr ⟨List.mem_map.mpr
      ⟨_, SelectSets.mem_entries.mpr ⟨fd, hlt, hasked, rfl⟩, rfl⟩, decide_eq_true hhit⟩, rfl⟩

theorem entries_nodup (s : SelectSets w) (files : Int → PollAnswer) (n : Nat) :
    (((s.entries n).map (pollReport files)).map fun f => f.fd.toNat).Nodup := by
  have hfds : (((s.entries n).map (pollReport files)).map fun f => f.fd.toNat) =
      (List.range n).filter s.Asked := by
    unfold SelectSets.entries
    rw [List.map_map, List.map_map]
    exact List.map_id _
  rw [hfds]
  exact List.nodup_range.filter _

/-- `poll` reports no condition that it was not asked about, other than those it adds on its own. -/
theorem not_reported (hkey : (pollKey (s.entry fd)).setWidth 16 &&& mask = 0) (hmask : 16 &&& mask = 0) :
    ¬ s.Reported files mask fd := by
  unfold SelectSets.Reported pollReport doPollfdMask
  rw [if_neg (show ¬ (s.entry fd).fd < 0 from Int.not_lt.mpr (Int.natCast_nonneg fd)), not_not]
  cases files (s.entry fd).fd with
  | none => exact hmask
  | some m =>
    show (m &&& pollKey (s.entry fd)).setWidth 16 &&& mask = 0
    rw [BitVec.setWidth_and, BitVec.and_assoc, hkey]
    exact BitVec.and_zero

theorem reported_or (a b : BitVec 16) : s.Reported files (a ||| b) fd ↔
    s.Reported files a fd ∨ s.Reported files b fd := by
  unfold SelectSets.Reported
  rw [BitVec.and_or_distrib_left]
  exact BitVec.or_eq_zero_iff.not.trans not_and_or

theorem reported_in (h : s.Reported files pollIn fd) : fdIsSet fd s.read = some true := by
  by_contra hnot
  refine not_reported ?_ (by decide) h
  unfold SelectSets.entry pollKey
  rw [if_neg hnot]
  split
  · exact (by decide : ((0 ||| pollOut ||| pollErr ||| pollHup).signExtend 32).setWidth 16 &&& pollIn = 0)
  · exact (by decide : ((0 ||| 0 ||| pollErr ||| pollHup).signExtend 32).setWidth 16 &&& pollIn = 0)

theorem reported_out (h : s.Reported files pollOut fd) : fdIsSet fd s.write = some true := by
  by_contra hnot
  refine not_reported ?_ (by decide) h
  unfold SelectSets.entry pollKey
  rw [if_neg hnot]
  split
  · exact (by decide : ((pollIn ||| 0 ||| pollErr ||| pollHup).signExtend 32).setWidth 16 &&& pollOut = 0)
  · exact (by decide : ((0 ||| 0 ||| pollErr ||| pollHup).signExtend 32).setWidth 16 &&& pollOut = 0)

theorem mem_fdMembers {q : BitVec w} : fd ∈ fdMembers q ↔ fdIsSet fd (some q) = some true := by
  unfold fdMembers fdIsSet
  rw [Finset.mem_filter, Finset.mem_range]
  by_cases h : fd < w <;> simp [h]

theorem fdMembers_zero : fdMembers (0 : BitVec w) = ∅ := by
  simp [fdMembers]

/-- A set that begins empty and gets the hits is the reply when each hit was asked for in it. -/
theorem replies_iff {reply : Option (BitVec w)} (hasked : ∀ fd, fdIsSet fd p = some true → s.Asked fd)
    (h : FdReply mask ((s.entries nfds.toNat).map (pollReport files)) (p.map fun _ => 0) reply) :
    s.Replies files nfds mask p reply ↔ ∀ fd : Nat, (fd : Int) < nfds → s.Asked fd →
      s.Reported files mask fd → p = none ∨ fdIsSet fd p = some true := by
  unfold FdReply at h
  unfold SelectSets.Replies
  rw [h]
  cases p with
  | none => simp
  | some q =>
    simp only [Option.map_some, Option.some.injEq, fdMembers_zero, Finset.union_empty, reduceCtorEq, false_or]
    constructor
    · intro heq fd hlt hhere hreported
      have hin := (mem_fdHits_entries files s nfds.toNat).mpr ⟨by omega, hhere, hreported⟩
      rw [heq] at hin
      exact mem_fdMembers.mp (Finset.mem_filter.mp hin).1
    · intro hall
      ext fd
      rw [mem_fdHits_entries, Finset.mem_filter]
      constructor
      · rintro ⟨hlt, hhere, hreported⟩
        exact ⟨mem_fdMembers.mpr (hall fd (by omega) hhere hreported), by omega, hreported⟩
      · rintro ⟨hin, hlt, hreported⟩
        exact ⟨by omega, hasked fd (mem_fdMembers.mp hin), hreported⟩

theorem reply_silent {fds : List PollFd} (h : ∀ f ∈ fds, f.revents = 0) (ret : Nat) (s : SelectSets w) :
    SelectSets.reply ret s fds = (ret, s) := by
  induction fds with
  | nil => rfl
  | cons f fds ih =>
    have hstep : s.replyFd ret f = (ret, s) := by
      have htest : ∀ (mask : BitVec 16) (p : Option (BitVec w)), SelectSets.replySet mask f ret p = (ret, p) := by
        intro mask p
        cases p with
        | none => rfl
        | some q =>
          refine if_neg ?_
          rw [h f List.mem_cons_self, not_not]
          exact BitVec.zero_and
      simp only [SelectSets.replyFd, htest]
    rw [SelectSets.reply, hstep]
    exact ih fun g hg => h g (List.mem_cons_of_mem f hg)

/-- Whatever `poll` returns, the sets and the number are those of the last loop. -/
theorem select_reply (hreach : s.Reach nfds) (timeout : Option (Int × Int)) :
    s.select (fun fds _ => pollFds files fds) true nfds timeout =
      some (((SelectSets.reply 0 s.cleared ((s.entries nfds.toNat).map (pollReport files))).1 : Int),
        (SelectSets.reply 0 s.cleared ((s.entries nfds.toNat).map (pollReport files))).2) := by
  obtain ⟨hset, hcount⟩ := pollset_entries (n := nfds.toNat) (hreach.imp_left (by omega))
  unfold SelectSets.select
  simp only [hset, hcount, Option.bind_eq_bind, Option.bind_some, Bool.true_eq_false, and_false, if_false, if_true]
  split
  · rfl
  next hnone =>
    have hzero : (s.entries nfds.toNat).countP (fun f => doPollfdMask (files f.fd) f ≠ 0) = 0 := by
      unfold pollFds at hnone
      simp only at hnone
      omega
    have hsilent : ∀ f ∈ (s.entries nfds.toNat).map (pollReport files), f.revents = 0 := by
      intro f hf
      obtain ⟨g, hg, rfl⟩ := List.mem_map.mp hf
      have hmask : doPollfdMask (files g.fd) g = 0 := by simpa using List.countP_eq_zero.mp hzero g hg
      show (doPollfdMask (files g.fd) g).setWidth 16 = 0
      rw [hmask]
      rfl
    rw [reply_silent hsilent]
    unfold pollFds
    rw [hzero]

theorem fdFresh_cleared (hreach : s.Reach nfds) (hp : p = s.read ∨ p = s.write ∨ p = s.except) :
    FdFresh ((s.entries nfds.toNat).map (pollReport files)) (p.map fun _ => (0 : BitVec w)) := by
  intro q hq f hf
  obtain ⟨r, hr, rfl⟩ := Option.map_eq_some_iff.mp hq
  obtain ⟨g, hg, rfl⟩ := List.mem_map.mp hf
  obtain ⟨fd, hlt, -, rfl⟩ := SelectSets.mem_entries.mp hg
  rw [fdMembers_zero]
  refine ⟨?_, Finset.notMem_empty _⟩
  have hbits : nfds ≤ w := by
    rcases hreach with hbits | ⟨hread, hwrite, hexcept⟩
    · exact hbits
    · rw [hread, hwrite, hexcept, or_self, or_self] at hp
      rw [hp] at hr
      cases hr
  show (fd : Int).toNat < w
  omega

theorem select_right (hreach : s.Reach nfds) :
    SelectRight files s nfds
        (SelectSets.reply 0 s.cleared ((s.entries nfds.toNat).map (pollReport files))).1
        (SelectSets.reply 0 s.cleared ((s.entries nfds.toNat).map (pollReport files))).2 ↔
      s.Clean files nfds := by
  obtain ⟨hcount, hread, hwrite, hexcept⟩ := reply_spec (s := s.cleared) 0
    (entries_nodup s files nfds.toNat) (fdFresh_cleared hreach (.inl rfl))
    (fdFresh_cleared hreach (.inr (.inl rfl))) (fdFresh_cleared hreach (.inr (.inr rfl)))
  have hr := replies_iff (fun fd h => .inl h) hread
  have hw := replies_iff (fun fd h => .inr (.inl h)) hwrite
  have he := replies_iff (fun fd h => .inr (.inr h)) hexcept
  have hempty : ∀ p : Option (BitVec w), fdCount (p.map fun _ => (0 : BitVec w)) = 0 := by
    intro p
    cases p with
    | none => rfl
    | some q => exact Finset.card_eq_zero.mpr fdMembers_zero
  unfold SelectSets.cleared at hcount
  simp only [hempty] at hcount
  constructor
  · intro h fd hlt hasked
    exact ⟨fun hhup => hr.mp h.read fd hlt hasked ((reported_or _ _).mpr (.inr hhup)),
      he.mp h.except fd hlt hasked⟩
  · intro hclean
    refine ⟨hr.mpr fun fd hlt hasked hrep => ?_, hw.mpr fun fd _ _ hrep => .inr (reported_out hrep),
      he.mpr fun fd hlt hasked hrep => (hclean fd hlt hasked).2 hrep, fun _ => ?_⟩
    · rcases (reported_or _ _).mp hrep with hin | hhup
      · exact .inr (reported_in hin)
      · exact (hclean fd hlt hasked).1 hhup
    · unfold SelectSets.cleared
      omega

theorem select_outside (hreach : ¬ s.Reach nfds) (poll : List PollFd → Int → Int × List PollFd) (mem : Bool)
    (timeout : Option (Int × Int)) : s.select poll mem nfds timeout = none := by
  obtain ⟨hlt, hsets⟩ := not_or.mp hreach
  unfold SelectSets.select
  rw [npfds_outside (by omega) hsets]
  rfl

end

section
variable {c : PollCall} {s s' : PollState} {fds0 done rest : List PollFd} {f : PollFd} {file : PollAnswer}

/-- The descriptors behind and in front of the pass. -/
def PollPhase.parts : PollPhase → List PollFd × List PollFd
  | .pass done rest => (done, rest)
  | .adding done f rest _ _ => (done, f :: rest)
  | .passed fds => (fds, [])
  | .waiting fds => (fds, [])
  | .returned fds => (fds, [])

def PollFd.asked (f : PollFd) : Int × BitVec 16 := (f.fd, f.events)

/-- The descriptors behind the pass have their reports, and those with a condition are counted. -/
def PollLooked (fds0 : List PollFd) (s : PollState) : Prop :=
  ∃ files done0 rest0, fds0 = done0 ++ rest0 ∧ s.phase.parts.1 = done0.map (pollReport files) ∧
    s.phase.parts.2.map PollFd.asked = rest0.map PollFd.asked ∧
    s.num = done0.countP fun f => doPollfdMask (files f.fd) f ≠ 0

theorem PollLooked.looked (file : PollAnswer) (h : PollLooked fds0 s) (hnodup : (fds0.map PollFd.fd).Nodup)
    (hparts : s.phase.parts = (done, f :: rest)) :
    PollLooked fds0 (s.looked done f rest (doPollfdMask file f)) := by
  obtain ⟨files, done0, rest0, rfl, hdone, hrest, hnum⟩ := h
  rw [hparts] at hdone hrest
  cases rest0 with
  | nil => cases hrest
  | cons f0 rest0 =>
    obtain ⟨hsame, hrest⟩ := List.cons.inj hrest
    obtain ⟨hfd, hevents⟩ := Prod.mk.inj hsame
    have hother : ∀ g ∈ done0, g.fd ≠ f0.fd := by
      intro g hg heq
      rw [List.map_append, List.nodup_append'] at hnodup
      exact hnodup.2.2 (List.mem_map.mpr ⟨g, hg, rfl⟩) (heq ▸ List.mem_cons_self)
    have hold : ∀ g ∈ done0, Function.update files f0.fd file g.fd = files g.fd :=
      fun g hg => Function.update_of_ne (hother g hg) file files
    have hmask : doPollfdMask file f = doPollfdMask (Function.update files f0.fd file f0.fd) f0 := by
      rw [Function.update_self]
      unfold doPollfdMask pollKey
      rw [hfd, hevents]
    refine ⟨Function.update files f0.fd file, done0 ++ [f0], rest0, by simp, ?_, hrest, ?_⟩
    · show done ++ [{ f with revents := (doPollfdMask file f).setWidth 16 }] = _
      rw [List.map_append, show done = _ from hdone]
      refine congr (congrArg _ (List.map_congr_left fun g hg => ?_)) ?_
      · unfold pollReport
        rw [hold g hg]
      · unfold pollReport
        rw [List.map_singleton, ← hmask, ← hfd, ← hevents]
    · show (if doPollfdMask file f ≠ 0 then s.num + 1 else s.num) = _
      have hcount : (done0.countP fun g => doPollfdMask (Function.update files f0.fd file g.fd) g ≠ 0) =
          done0.countP fun g => doPollfdMask (files g.fd) g ≠ 0 :=
        List.countP_congr fun g hg => by rw [hold g hg]
      rw [List.countP_append, List.countP_singleton, hcount, hnum, hmask]
      by_cases hzero : doPollfdMask (Function.update files f0.fd file f0.fd) f0 = 0
      · rw [if_neg (not_not.mpr hzero), if_neg (by simpa using hzero)]
        rfl
      · rw [if_pos hzero, if_pos (decide_eq_true hzero)]

theorem PollLooked.next {mem : Bool} (h : PollLooked fds0 s) (hinv : PollInv c s)
    (hnodup : (fds0.map PollFd.fd).Nodup) (hs : s.next c mem = some s') : PollLooked fds0 s' := by
  have hagain : ∀ fds, s.phase.parts = (fds, []) → PollLooked fds0 (s.readLatch fds) := by
    intro fds hparts
    obtain ⟨files, done0, rest0, rfl, hdone, hrest, -⟩ := h
    rw [hparts] at hdone hrest
    obtain rfl := List.map_eq_nil_iff.mp hrest.symm
    refine ⟨fun _ => none, [], done0, (List.append_nil done0), rfl, ?_, rfl⟩
    show fds.map PollFd.asked = _
    rw [show fds = _ from hdone, List.map_map]
    rfl
  unfold PollState.next at hs
  split at hs
  next done f rest hp =>
    have hparts : s.phase.parts = (done, f :: rest) := by rw [hp]; rfl
    split at hs
    next hneg =>
      obtain rfl := Option.some.inj hs
      have hlooked := h.looked none hnodup hparts
      rwa [doPollfdMask, if_pos hneg] at hlooked
    next hneg =>
      split at hs
      next =>
        obtain rfl := Option.some.inj hs
        have hlooked := h.looked none hnodup hparts
        rwa [doPollfdMask, if_neg hneg] at hlooked
      next =>
        obtain rfl := Option.some.inj hs
        have hlooked := h.looked (some pollMaskDefault) hnodup hparts
        rwa [doPollfdMask, if_neg hneg] at hlooked
      next =>
        obtain rfl := Option.some.inj hs
        rwa [PollLooked, hparts] at h
  next done f rest d q qs hp =>
    obtain rfl := Option.some.inj hs
    rw [PollLooked, hp] at h
    rw [PollLooked, (rtPollAdd_same s q (pollKey f) mem).2.2.2.2.1]
    exact h
  next done f rest d hp =>
    obtain rfl := Option.some.inj hs
    have hlooked := h.looked (some (s.conds d)) hnodup (by rw [hp]; rfl)
    have hfd := (hinv.adding _ _ _ _ _ hp).1
    rwa [doPollfdMask, if_neg (Int.not_lt.mpr hfd)] at hlooked
  next fds hp =>
    rw [PollLooked, hp] at h
    split at hs
    next =>
      obtain rfl := Option.some.inj hs
      exact h
    next =>
      obtain rfl := Option.some.inj hs
      exact h
  next fds hp =>
    obtain rfl := Option.some.inj hs
    by_cases ht : pollTimeout c ≠ 0 ∧ s.triggered = false
    · rw [pollWaitTimeout_suspends ht]
      rwa [PollLooked, hp] at h
    · rw [pollWaitTimeout_reads ht]
      exact hagain fds (by rw [hp]; rfl)
  next fds hp =>
    obtain ⟨-, hs⟩ := Option.ite_none_right_eq_some.mp hs
    obtain rfl := Option.some.inj hs
    exact hagain fds (by rw [hp]; rfl)
  next => exact absurd hs (by simp)

theorem rtWqueueWakeup_phase (s : PollState) (q : ObjectId) (key : PollMask) :
    (s.rtWqueueWakeup q key).phase = s.phase ∧ (s.rtWqueueWakeup q key).num = s.num := by
  unfold PollState.rtWqueueWakeup
  split
  next => exact ⟨rfl, rfl⟩
  next e hfind =>
    split
    next =>
      obtain ⟨hphase, hnum, -⟩ := resume_same { s with
        queue := Function.update s.queue q ((s.queue q).eraseP (PollEntry.accepts key)) }
      exact ⟨hphase, hnum⟩
    next => exact ⟨rfl, rfl⟩

theorem PollLooked.step {a : PollAction} (h : PollLooked fds0 s) (hinv : PollInv c s)
    (hnodup : (fds0.map PollFd.fd).Nodup) (hs : pollStep c s a = some s') : PollLooked fds0 s' := by
  cases a with
  | next mem => exact h.next hinv hnodup hs
  | wakeup q key d gained =>
    obtain rfl := Option.some.inj hs
    obtain ⟨hphase, hnum⟩ := rtWqueueWakeup_phase
      { s with conds := Function.update s.conds d (s.conds d ||| gained) } q key
    rwa [PollLooked, hphase, hnum]
  | clear d lost => exact Option.some.inj hs ▸ h
  | join q key => exact Option.some.inj hs ▸ h
  | leave q i => exact Option.some.inj (Option.ite_none_right_eq_some.mp hs).2 ▸ h
  | tick => exact Option.some.inj hs ▸ h
  | expire => exact Option.some.inj (Option.ite_none_right_eq_some.mp hs).2 ▸ h

/-- What a call of `poll` on distinct descriptors leaves when it returns, whatever happens meanwhile. -/
theorem poll_returns_reports {as : List PollAction} {fds : List PollFd} (hstart : PollStart c s)
    (hphase : s.phase = .pass [] fds0) (hnodup : (fds0.map PollFd.fd).Nodup)
    (hrun : runFrom (pollStep c) as s = some s') (hreturned : s'.phase = .returned fds) :
    ∃ files, ((s'.num : Int), fds) = pollFds files fds0 := by
  have hreach : Reach (pollStep c) (fun _ _ => True) (· = s) s' :=
    Reach.runFrom (runMeets_of_forall fun _ _ _ => trivial) (Reach.start rfl) hrun
  have hinv : PollInv c s' ∧ PollLooked fds0 s' := by
    refine hreach.invariant (I := fun s => PollInv c s ∧ PollLooked fds0 s) ?_ ?_
    · rintro t rfl
      refine ⟨hstart.inv, fun _ => none, [], fds0, rfl, ?_, ?_, hstart.num⟩
      · rw [hphase]
        rfl
      · rw [hphase]
        rfl
    · exact fun t a t' h _ hs => ⟨pollStep_inv h.1 hs, h.2.step h.1 hnodup hs⟩
  obtain ⟨files, done0, rest0, rfl, hdone, hrest, hnum⟩ := hinv.2
  rw [hreturned] at hdone hrest
  obtain rfl := List.map_eq_nil_iff.mp hrest.symm
  refine ⟨files, ?_⟩
  rw [List.append_nil]
  exact Prod.ext (congrArg Nat.cast hnum) hdone

end

/-- The one descriptor when the timer expires. -/
theorem poll_returns_reports_expired : ∃ s' fds files,
    runFrom (pollStep onePoll) expiredRun onePollStart = some s' ∧ s'.phase = .returned fds ∧
      ((s'.num : Int), fds) = pollFds files [⟨3, 1, 0⟩] := by
  have hphase : ((runFrom (pollStep onePoll) expiredRun onePollStart).get expired_some).phase =
      .returned [⟨3, 1, 0⟩] := by
    decide +kernel
  have hrun := (Option.some_get expired_some).symm
  obtain ⟨files, h⟩ := poll_returns_reports onePollStart_start rfl (by decide) hrun hphase
  exact ⟨_, _, files, hrun, hphase, h⟩

/-- The sets that `select` gives back are right when `poll` adds no hang-up and no error of its own to a
descriptor that is not asked for in the set of that condition. -/
theorem select_right_iff (files : Int → PollAnswer) (s : SelectSets w) (nfds : Int)
    (timeout : Option (Int × Int)) :
    (∃ ret out, s.select (fun fds _ => pollFds files fds) true nfds timeout = some (ret, out) ∧
      SelectRight files s nfds ret out) ↔ s.Reach nfds ∧ s.Clean files nfds := by
  by_cases hreach : s.Reach nfds
  · rw [select_reply hreach]
    constructor
    · rintro ⟨ret, out, heq, hright⟩
      obtain ⟨rfl, rfl⟩ := Prod.mk.inj (Option.some.inj heq)
      exact ⟨hreach, (select_right hreach).mp hright⟩
    · rintro ⟨-, hclean⟩
      exact ⟨_, _, rfl, (select_right hreach).mpr hclean⟩
  · rw [select_outside hreach]
    constructor
    · rintro ⟨ret, out, heq, -⟩
      cases heq
    · exact fun h => absurd h.1 hreach

/-- Descriptor 1 is written to, and hangs up; descriptor 0 is read. -/
theorem hangup_not_asked : ¬ ∀ (files : Int → PollAnswer) (s : SelectSets 32) (nfds : Int)
    (timeout : Option (Int × Int)), ∃ ret out,
      s.select (fun fds _ => pollFds files fds) true nfds timeout = some (ret, out) ∧
        SelectRight files s nfds ret out := by
  intro h
  obtain ⟨ret, out, hselect, hright⟩ := h (fun fd => if fd = 1 then some 8 else some 0)
    ⟨some 1, some 2, none⟩ 2 none
  have hrun : SelectSets.select (fun fds _ => pollFds (fun fd => if fd = 1 then some 8 else some 0) fds) true 2
      ⟨some 1, some 2, none⟩ none = some (1, (⟨some 2, some 0, none⟩ : SelectSets 32)) := by
    decide +kernel
  obtain ⟨rfl, rfl⟩ := Prod.mk.inj (Option.some.inj (hselect.symm.trans hrun))
  have hread := hright.read
  have hone : 1 ∈ fdMembers (2 : BitVec 32) := by decide +kernel
  unfold SelectSets.Replies at hread
  rw [Option.map_some, Option.map_some, Option.some.injEq] at hread
  rw [hread] at hone
  exact absurd (Finset.mem_filter.mp hone).1 (by decide +kernel)

end RTThread
