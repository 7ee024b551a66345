import RTThread.AtSocketReads
import RTThread.Runs

namespace RTThread

/-- The callback has put its packet and has not counted it yet. -/
def CountPending (s : AtSocketRun) : Prop := s.notice = .release ∨ s.notice = .count

/-- A call that still has to look at the list, or found it non-empty. -/
def Raises (c : RecvCall) : Prop := c.pc = .decrease ∨ c.pc = .look ∨ c.pc = .increase

/-- A call that still has to look at the list, or found it empty. -/
def Clears (c : RecvCall) : Prop := c.pc = .decrease ∨ c.pc = .look ∨ c.pc = .clean

/-- The counter after one more event. -/
def countedOnce (s : AtSocketRun) : Nat := (s.sock.rcvevent + 1) % 65536

/-- Where a step sets the counter, its value fits the list, or someone who corrects it is still
under way. -/
def CountsRight (s : AtSocketRun) : AtSocketAction → Prop
  | .callback => s.notice = .count →
    (s.sock.recvpktList = [] → countedOnce s = 0 ∨ ∃ t, Clears (s.calls t)) ∧
    (s.sock.recvpktList ≠ [] → 0 < countedOnce s ∨ ∃ t, Raises (s.calls t))
  | .update t =>
    ((s.calls t).pc = .increase →
      (s.sock.recvpktList = [] → countedOnce s = 0 ∨ ∃ t' ≠ t, Clears (s.calls t')) ∧
      (s.sock.recvpktList ≠ [] →
        0 < countedOnce s ∨ CountPending s ∨ ∃ t' ≠ t, Raises (s.calls t'))) ∧
    ((s.calls t).pc = .clean → s.sock.recvpktList ≠ [] →
      CountPending s ∨ ∃ t' ≠ t, Raises (s.calls t'))
  | _ => True

/-- No remote close is reported, and the counter is set right. -/
def ReadsAndDeliveries (s : AtSocketRun) (a : AtSocketAction) : Prop :=
  a ≠ .remoteClose ∧ CountsRight s a

structure ReadableOk (s : AtSocketRun) : Prop where
  unread : PktsUnread s.sock.recvpktList
  notice : s.notice = .idle ∨ CountPending s
  shown : s.sock.recvpktList ≠ [] →
    0 < s.sock.rcvevent ∨ CountPending s ∨ ∃ t, Raises (s.calls t)
  hidden : s.sock.recvpktList = [] → s.sock.rcvevent = 0 ∨ ∃ t, Clears (s.calls t)

section
variable {s s' : AtSocketRun} {a : AtSocketAction} {t : Nat} {c : RecvCall} {sock : AtSocket}

theorem exists_setCall {P : RecvCall → Prop} (h : ∃ t', P (s.calls t')) (hc : P (s.calls t) → P c) :
    ∃ t', P ((s.setCall t c).calls t') := by
  obtain ⟨t', h⟩ := h
  refine ⟨t', ?_⟩
  simp only [AtSocketRun.setCall, Function.update_apply]
  split
  · next heq => exact hc (heq ▸ h)
  · exact h

theorem exists_setCall_of_ne {P : RecvCall → Prop} (h : ∃ t' ≠ t, P (s.calls t')) :
    ∃ t', P ((s.setCall t c).calls t') := by
  obtain ⟨t', hne, h⟩ := h
  exact ⟨t', by simpa [AtSocketRun.setCall, hne] using h⟩

theorem exists_setCall_self {P : RecvCall → Prop} (hc : P c) :
    ∃ t', P ((s.setCall t c).calls t') :=
  ⟨t, by simpa [AtSocketRun.setCall] using hc⟩

/-- The socket may change in everything but its packets and their counter. -/
theorem ReadableOk.withSock (hs : ReadableOk s) (hl : sock.recvpktList = s.sock.recvpktList)
    (hr : sock.rcvevent = s.sock.rcvevent) : ReadableOk { s with sock := sock } :=
  ⟨by rw [hl]; exact hs.unread, hs.notice, by rw [hl, hr]; exact hs.shown,
    by rw [hl, hr]; exact hs.hidden⟩

theorem ReadableOk.setCall (hs : ReadableOk s)
    (hraise : s.sock.recvpktList ≠ [] → Raises (s.calls t) → Raises c)
    (hclear : s.sock.recvpktList = [] → Clears (s.calls t) → Clears c) :
    ReadableOk (s.setCall t c) := by
  refine ⟨hs.unread, hs.notice, fun hne => ?_, fun hnil => ?_⟩
  · rcases hs.shown hne with h | h | h
    · exact .inl h
    · exact .inr (.inl h)
    · exact .inr (.inr (exists_setCall h (hraise hne)))
  · exact (hs.hidden hnil).imp_right fun h => exists_setCall h (hclear hnil)

/-- A call that is not in its epilogue goes on. -/
theorem ReadableOk.setPc (hs : ReadableOk s) {pc : RecvPc} (hraise : ¬Raises (s.calls t))
    (hclear : ¬Clears (s.calls t)) : ReadableOk (s.setPc t pc) :=
  hs.setCall (fun _ h => absurd h hraise) fun _ h => absurd h hclear

theorem ReadableOk.returnNone (hs : ReadableOk s) (hraise : ¬Raises (s.calls t))
    (hclear : ¬Clears (s.calls t)) : ReadableOk (s.returnNone t) :=
  have hidle : ReadableOk (s.setPc t .idle) := hs.setPc hraise hclear
  hidle.withSock rfl rfl

theorem ReadableOk.returnZero (hs : ReadableOk s) (hraise : ¬Raises (s.calls t))
    (hclear : ¬Clears (s.calls t)) : ReadableOk (s.returnZero t) :=
  have hnone := hs.returnNone hraise hclear
  ⟨hnone.unread, hnone.notice, hnone.shown, hnone.hidden⟩

theorem ReadableOk.deliver (hs : ReadableOk s) {bytes : List UInt8} {memory : Bool}
    (h : deliver s bytes memory = some s') : ReadableOk s' := by
  unfold RTThread.deliver at h
  split at h
  · next hopen =>
    cases Option.some.inj h
    refine ⟨fun pkt hpkt => ?_, .inr (.inl rfl), fun _ => .inr (.inl (.inl rfl)), fun hnil => ?_⟩
    · cases memory with
      | false => exact hs.unread pkt hpkt
      | true =>
        rcases List.mem_append.mp hpkt with hpkt | hpkt
        · exact hs.unread pkt hpkt
        · obtain rfl := List.mem_singleton.mp hpkt
          exact List.length_pos_of_ne_nil hopen.2.1
    · cases memory with
      | false => exact hs.hidden hnil
      | true => exact absurd hnil (by simp [atRecvpktPut])
  · cases h

theorem ReadableOk.callback (hs : ReadableOk s) (hright : CountsRight s .callback)
    (h : noticeStep s = some s') : ReadableOk s' := by
  unfold noticeStep at h
  rcases hs.notice with hn | hn | hn
  · simp [hn] at h
  · simp only [hn] at h
    cases Option.some.inj h
    refine ⟨hs.unread, .inr (.inr rfl), fun _ => .inr (.inl (.inr rfl)), hs.hidden⟩
  · simp only [hn] at h
    cases Option.some.inj h
    obtain ⟨hnil, hne⟩ := hright hn
    exact ⟨hs.unread, .inl rfl, fun h => (hne h).imp_right .inr, hnil⟩

theorem ReadableOk.recv (hs : ReadableOk s) {len : Nat} {dontWait : Bool}
    (h : recvStart s t len dontWait = some s') : ReadableOk s' := by
  unfold recvStart at h
  split at h
  · next hidle =>
    have hraise : ¬Raises (s.calls t) := by simp [Raises, hidle]
    have hclear : ¬Clears (s.calls t) := by simp [Clears, hidle]
    have hset : ReadableOk (s.setCall t ⟨.idle, len, dontWait, []⟩) :=
      hs.setCall (fun _ h => absurd h hraise) fun _ h => absurd h hclear
    have hraise' : ¬Raises ((s.setCall t ⟨.idle, len, dontWait, []⟩).calls t) := by
      simp [Raises, AtSocketRun.setCall]
    have hclear' : ¬Clears ((s.setCall t ⟨.idle, len, dontWait, []⟩).calls t) := by
      simp [Clears, AtSocketRun.setCall]
    simp only at h
    split at h
    · cases Option.some.inj h
      exact hset
    · split at h
      · cases Option.some.inj h
        exact hset.returnZero hraise' hclear'
      · cases Option.some.inj h
        exact hset.setPc hraise' hclear'
      · cases Option.some.inj h
        exact hset.returnNone hraise' hclear'
  · cases h

theorem ReadableOk.get (hs : ReadableOk s) {linkKept : Bool} (h : recvGet s t linkKept = some s') :
    ReadableOk s' := by
  unfold recvGet at h
  split at h
  · next hpc =>
    obtain ⟨⟨bytes, left⟩, hget, rfl⟩ := Option.map_eq_some_iff.mp h
    obtain ⟨hbytes, hleft, hunread⟩ := atRecvpktGet_spec hs.unread hget
    simp only
    split
    · exact ⟨hunread, hs.notice, fun _ => .inr (.inr (exists_setCall_self (by simp [Raises]))),
        fun _ => .inr (exists_setCall_self (by simp [Clears]))⟩
    · next hnone =>
      -- no byte is copied: the list is empty before and after, or `len` is 0
      have hsame : left = [] ↔ s.sock.recvpktList = [] := by
        rw [← unreadBytes_eq_nil hunread, ← unreadBytes_eq_nil hs.unread, hleft]
        have hnil : (unreadBytes s.sock.recvpktList).take (s.calls t).len = [] :=
          hbytes.symm.trans (not_not.mp hnone)
        have hall := List.take_append_drop (s.calls t).len (unreadBytes s.sock.recvpktList)
        rw [hnil, List.nil_append] at hall
        rw [hall]
      have hraise : ¬Raises (s.calls t) := by rcases hpc with hpc | hpc <;> simp [Raises, hpc]
      have hclear : ¬Clears (s.calls t) := by rcases hpc with hpc | hpc <;> simp [Clears, hpc]
      have htaken : ReadableOk { s with
          sock := { s.sock with recvpktList := left }
          taken := s.taken ++ bytes } :=
        ⟨hunread, hs.notice, fun h => hs.shown fun hnil => h (hsame.mpr hnil),
          fun h => hs.hidden (hsame.mp h)⟩
      split
      · exact htaken.returnZero hraise hclear
      · exact htaken.setPc hraise hclear
  · cases h

theorem ReadableOk.update (hs : ReadableOk s) (hright : CountsRight s (.update t))
    (h : recvUpdate s t = some s') : ReadableOk s' := by
  unfold recvUpdate at h
  cases hpc : (s.calls t).pc with
  | decrease =>
    simp only [hpc] at h
    cases Option.some.inj h
    exact ⟨hs.unread, hs.notice, fun _ => .inr (.inr (exists_setCall_self (by simp [Raises]))),
      fun _ => .inr (exists_setCall_self (by simp [Clears]))⟩
  | look =>
    simp only [hpc] at h
    cases Option.some.inj h
    exact hs.setCall (fun hne _ => by simp [Raises, hne]) (fun hnil _ => by simp [Clears, hnil])
  | increase =>
    simp only [hpc] at h
    cases Option.some.inj h
    obtain ⟨hnil, hne⟩ := hright.1 hpc
    exact ⟨hs.unread, hs.notice, fun h => (hne h).imp_right (·.imp_right exists_setCall_of_ne),
      fun h => (hnil h).imp_right exists_setCall_of_ne⟩
  | clean =>
    simp only [hpc] at h
    cases Option.some.inj h
    exact ⟨hs.unread, hs.notice, fun h => .inr ((hright.2 hpc h).imp_right exists_setCall_of_ne),
      fun _ => .inl rfl⟩
  | idle | firstGet | wait | test | nextGet =>
    simp only [hpc] at h
    cases h

theorem ReadableOk.step (hs : ReadableOk s) (ha : ReadsAndDeliveries s a)
    (h : atSocketRunStep s a = some s') : ReadableOk s' := by
  cases a with
  | deliver bytes memory => exact hs.deliver h
  | callback => exact hs.callback ha.2 h
  | remoteClose => exact absurd rfl ha.1
  | recv t len dontWait => exact hs.recv h
  | get t linkKept => exact hs.get h
  | notified t =>
    simp only [atSocketRunStep, recvNotified] at h
    split at h
    · split at h
      · next hpc =>
        cases Option.some.inj h
        exact (hs.setPc (by simp [Raises, hpc]) (by simp [Clears, hpc])).withSock rfl rfl
      · cases h
    · cases h
  | timeout t =>
    simp only [atSocketRunStep, recvTimeout] at h
    split at h
    · next hwait =>
      cases Option.some.inj h
      exact hs.returnNone (by simp [Raises, hwait.1]) (by simp [Clears, hwait.1])
    · cases h
  | test t =>
    simp only [atSocketRunStep, recvTest] at h
    split at h
    · next hpc =>
      have hraise : ¬Raises (s.calls t) := by simp [Raises, hpc]
      have hclear : ¬Clears (s.calls t) := by simp [Clears, hpc]
      split at h
      · cases Option.some.inj h
        exact hs.setPc hraise hclear
      · cases Option.some.inj h
        exact hs.returnZero hraise hclear
    · cases h
  | update t => exact hs.update ha.2 h

end

def oneDelivery : List AtSocketAction := [.deliver [65] true, .callback, .callback]

end RTThread
