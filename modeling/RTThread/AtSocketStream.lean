import RTThread.AtSocketReads
import RTThread.Runs

namespace RTThread

/-- A get that runs on a socket without packets, within the first one, or along links that freed
nodes keep. -/
def GetKept (s : AtSocketRun) (t : Nat) (linkKept : Bool) : Prop :=
  linkKept = true ∨ (s.calls t).len ≤ (unreadBytes (s.sock.recvpktList.take 1)).length ∨
    s.sock.recvpktList = []

def InGet (s : AtSocketRun) (t : Nat) : Prop :=
  (s.calls t).pc = .firstGet ∨ (s.calls t).pc = .nextGet

/-- No get loses its way, and everything delivered has been handed out when a call first returns 0
without `MSG_DONTWAIT`. -/
def KeepsStream (s : AtSocketRun) (a : AtSocketAction) : Prop :=
  (∀ t linkKept, a = .get t linkKept → InGet s t → atSocketRunStep s a ≠ none) ∧
  ∀ s' ∈ atSocketRunStep s a, ∀ bytes, s'.ended = some bytes → bytes = s'.delivered

/-- The first call that finds the socket closed and does not come with `MSG_DONTWAIT` finds no
packet unread. -/
def ReadsInTime (s : AtSocketRun) : AtSocketAction → Prop
  | .recv t len dontWait =>
    (s.calls t).pc = .idle → len ≠ 0 → dontWait = false → s.sock.state = .closed → s.ended = none →
      s.sock.recvpktList = []
  | .test t =>
    (s.calls t).pc = .test → s.sock.state = .closed → s.ended = none → s.sock.recvpktList = []
  | .get t linkKept => InGet s t → GetKept s t linkKept
  | _ => True

structure StreamOk (s : AtSocketRun) : Prop where
  conserve : s.taken ++ unreadBytes s.sock.recvpktList = s.delivered
  unread : PktsUnread s.sock.recvpktList
  state : s.sock.state = .connect ∨ s.sock.state = .closed
  waits : ∀ t, (s.calls t).pc = .wait ∨ (s.calls t).pc = .test ∨ (s.calls t).pc = .nextGet →
    (s.calls t).dontWait = false
  atEnd : ∀ bytes, s.ended = some bytes → bytes = s.delivered ∧ s.sock.state = .closed

section
variable {s s' : AtSocketRun} {a : AtSocketAction} {t : Nat} {c : RecvCall} {sock : AtSocket}

theorem StreamOk.drained_iff (hs : StreamOk s) : s.taken = s.delivered ↔ s.sock.recvpktList = [] := by
  rw [← unreadBytes_eq_nil hs.unread]
  have hconserve := hs.conserve
  constructor
  · intro h
    rw [← h] at hconserve
    exact List.append_right_eq_self.mp hconserve
  · intro h
    rwa [h, List.append_nil] at hconserve

/-- The socket may change in everything but its packets and its state. -/
theorem StreamOk.withSock (hs : StreamOk s) {notice : NoticePc}
    (hl : sock.recvpktList = s.sock.recvpktList) (hst : sock.state = s.sock.state) :
    StreamOk { s with sock := sock, notice := notice } :=
  ⟨by rw [hl]; exact hs.conserve, by rw [hl]; exact hs.unread, by rw [hst]; exact hs.state, hs.waits,
    fun bytes h => by rw [hst]; exact hs.atEnd bytes h⟩

theorem StreamOk.setCall (hs : StreamOk s)
    (hc : c.pc = .wait ∨ c.pc = .test ∨ c.pc = .nextGet → c.dontWait = false) :
    StreamOk (s.setCall t c) := by
  refine ⟨hs.conserve, hs.unread, hs.state, fun t' h => ?_, hs.atEnd⟩
  simp only [AtSocketRun.setCall, Function.update_apply] at h ⊢
  split at h
  · next heq =>
    rw [if_pos heq]
    exact hc h
  · next hne =>
    rw [if_neg hne]
    exact hs.waits t' h

theorem StreamOk.returnNone (hs : StreamOk s) : StreamOk (s.returnNone t) := by
  have hcall : StreamOk (s.setPc t .idle) := hs.setCall (by simp)
  exact hcall.withSock rfl rfl

/-- A call that returns 0 ends the stream where the packets are used up. -/
theorem StreamOk.returnZero (hs : StreamOk s)
    (hend : (s.calls t).dontWait = false → s.ended = none →
      s.sock.state = .closed ∧ s.sock.recvpktList = []) :
    StreamOk (s.returnZero t) := by
  have hnone := hs.returnNone (t := t)
  refine ⟨hnone.conserve, hnone.unread, hnone.state, hnone.waits, fun bytes h => ?_⟩
  simp only [AtSocketRun.returnZero] at h
  split at h
  · exact hnone.atEnd bytes h
  · next hwait =>
    cases hended : s.ended with
    | some bytes' =>
      rw [hended] at h
      exact hnone.atEnd bytes (hended.trans h)
    | none =>
      rw [hended] at h
      obtain ⟨hclosed, hempty⟩ := hend (by simpa using hwait) hended
      obtain rfl := Option.some.inj h
      exact ⟨hs.drained_iff.mpr hempty, hclosed⟩

theorem StreamOk.setPc (hs : StreamOk s) {pc : RecvPc}
    (hpc : pc = .wait ∨ pc = .test ∨ pc = .nextGet → (s.calls t).dontWait = false) :
    StreamOk (s.setPc t pc) :=
  hs.setCall hpc

theorem StreamOk.recv (hs : StreamOk s) {len : Nat} {dontWait : Bool}
    (hin : ReadsInTime s (.recv t len dontWait)) (h : recvStart s t len dontWait = some s') :
    StreamOk s' := by
  unfold recvStart at h
  split at h
  · next hidle =>
    have hset : StreamOk (s.setCall t ⟨.idle, len, dontWait, []⟩) := hs.setCall (by simp)
    simp only at h
    split at h
    · cases Option.some.inj h
      exact hset
    · next hlen =>
      split at h
      · next hclosed =>
        cases Option.some.inj h
        refine hset.returnZero fun hwait hended => ⟨hclosed, ?_⟩
        have hwait' : dontWait = false := by
          simpa [AtSocketRun.setCall] using hwait
        exact hin hidle hlen hwait' hclosed hended
      · cases Option.some.inj h
        exact hset.setPc (by simp)
      · cases Option.some.inj h
        exact hset.returnNone
  · cases h

theorem StreamOk.get (hs : StreamOk s) {linkKept : Bool} (h : recvGet s t linkKept = some s') :
    StreamOk s' := by
  unfold recvGet at h
  split at h
  · next hpc =>
    obtain ⟨⟨bytes, left⟩, hget, rfl⟩ := Option.map_eq_some_iff.mp h
    obtain ⟨hbytes, hleft, hunread⟩ := atRecvpktGet_spec hs.unread hget
    have htaken : StreamOk { s with
        sock := { s.sock with recvpktList := left }
        taken := s.taken ++ bytes } := by
      refine ⟨?_, hunread, hs.state, hs.waits, hs.atEnd⟩
      simp only
      rw [hleft, hbytes, List.append_assoc, List.take_append_drop]
      exact hs.conserve
    simp only
    split
    · exact htaken.setCall (by simp)
    · split
      · next hfirst => exact htaken.returnZero fun hwait => absurd (hfirst.2.symm.trans hwait) nofun
      · next hnot =>
        refine htaken.setPc fun _ => ?_
        rcases hpc with hpc | hpc
        · simpa [hpc] using hnot
        · exact hs.waits t (.inr (.inr hpc))
  · cases h

theorem StreamOk.step (hs : StreamOk s) (hmem : ∀ bytes memory, a = .deliver bytes memory → memory = true)
    (hin : ReadsInTime s a) (h : atSocketRunStep s a = some s') : StreamOk s' := by
  cases a with
  | deliver bytes memory =>
    obtain rfl := hmem bytes memory rfl
    simp only [atSocketRunStep, deliver] at h
    split at h
    · next hopen =>
      obtain ⟨-, hne, hconnect⟩ := hopen
      cases Option.some.inj h
      refine ⟨?_, ?_, hs.state, hs.waits, fun bytes' h' => ?_⟩
      · simp [atRecvpktPut, unreadBytes, ← hs.conserve]
      · intro pkt hpkt
        rcases List.mem_append.mp hpkt with hpkt | hpkt
        · exact hs.unread pkt hpkt
        · obtain rfl := List.mem_singleton.mp hpkt
          exact List.length_pos_of_ne_nil hne
      · exact absurd (hconnect.symm.trans (hs.atEnd bytes' h').2) (by simp)
    · cases h
  | callback =>
    simp only [atSocketRunStep, noticeStep] at h
    split at h
    · cases h
    · cases Option.some.inj h
      exact hs.withSock rfl rfl
    · cases Option.some.inj h
      exact hs.withSock rfl rfl
    · cases Option.some.inj h
      exact hs.withSock rfl rfl
    · cases Option.some.inj h
      exact hs.withSock rfl rfl
    · cases Option.some.inj h
      exact ⟨hs.conserve, hs.unread, .inr rfl, hs.waits,
        fun bytes h' => ⟨(hs.atEnd bytes h').1, rfl⟩⟩
    · cases Option.some.inj h
      exact hs.withSock rfl rfl
  | remoteClose =>
    simp only [atSocketRunStep] at h
    split at h
    · cases Option.some.inj h
      exact ⟨hs.conserve, hs.unread, hs.state, hs.waits, hs.atEnd⟩
    · cases h
  | recv t len dontWait => exact hs.recv hin h
  | get t linkKept => exact hs.get h
  | notified t =>
    simp only [atSocketRunStep, recvNotified] at h
    split at h
    · split at h
      · next hpc =>
        cases Option.some.inj h
        exact (hs.setPc fun _ => hs.waits t (.inl hpc)).withSock rfl rfl
      · cases h
    · cases h
  | timeout t =>
    simp only [atSocketRunStep, recvTimeout] at h
    split at h
    · cases Option.some.inj h
      exact hs.returnNone
    · cases h
  | test t =>
    simp only [atSocketRunStep, recvTest] at h
    split at h
    · next hpc =>
      split at h
      · cases Option.some.inj h
        exact hs.setPc fun _ => hs.waits t (.inr (.inl hpc))
      · next hstate =>
        cases Option.some.inj h
        have hclosed := hs.state.resolve_left hstate
        exact hs.returnZero fun _ hended => ⟨hclosed, hin hpc hclosed hended⟩
    · cases h
  | update t =>
    simp only [atSocketRunStep, recvUpdate] at h
    split at h
    · cases Option.some.inj h
      exact (hs.setPc (by simp)).withSock rfl rfl
    · cases Option.some.inj h
      refine hs.setPc ?_
      split <;> simp
    · cases Option.some.inj h
      exact (hs.setPc (by simp)).withSock rfl rfl
    · cases Option.some.inj h
      exact (hs.setPc (by simp)).withSock rfl rfl
    · cases h

/-- Each step keeps the stream exactly where it reads in time. -/
theorem StreamOk.keepsStream_iff (hs : StreamOk s)
    (hmem : ∀ bytes memory, a = .deliver bytes memory → memory = true) :
    KeepsStream s a ↔ ReadsInTime s a := by
  constructor
  · intro hk
    cases a with
    | recv t len dontWait =>
      intro hidle hlen hwait hclosed hended
      have hstep : atSocketRunStep s (.recv t len dontWait) =
          some ((s.setCall t ⟨.idle, len, dontWait, []⟩).returnZero t) := by
        simp [atSocketRunStep, recvStart, hidle, hlen, AtSocketRun.setCall, hclosed]
      refine hs.drained_iff.mp (hk.2 _ hstep s.taken ?_)
      simp [AtSocketRun.returnZero, AtSocketRun.setCall, hwait, hended]
    | test t =>
      intro hpc hclosed hended
      have hstep : atSocketRunStep s (.test t) = some (s.returnZero t) := by
        simp [atSocketRunStep, recvTest, hpc, hclosed]
      refine hs.drained_iff.mp (hk.2 _ hstep s.taken ?_)
      simp [AtSocketRun.returnZero, hs.waits t (.inr (.inl hpc)), hended]
    | get t linkKept =>
      intro hin
      by_contra hlost
      simp only [GetKept, not_or, not_le] at hlost
      obtain ⟨hkept, hmore, hne⟩ := hlost
      have hnone := atRecvpktGet_none hmore hne
      obtain rfl := Bool.eq_false_iff.mpr hkept
      have hstuck : recvGet s t false = none := by
        refine (if_pos hin).trans ?_
        rw [hnone]
        rfl
      exact hk.1 t false rfl hin hstuck
    | deliver | callback | remoteClose | notified | timeout | update => exact trivial
  · intro hin
    refine ⟨fun t linkKept ha hpc => ?_, fun s' h bytes hended =>
      ((hs.step hmem hin h).atEnd bytes hended).1⟩
    subst ha
    obtain ⟨r, hr⟩ := atRecvpktGet_exists (hin hpc)
    have hget : recvGet s t linkKept ≠ none := by
      refine ne_of_eq_of_ne (if_pos hpc) ?_
      rw [hr]
      exact nofun
    exact hget

end

theorem connectedRun_streamOk (timeout : Int) : StreamOk (connectedRun timeout) where
  conserve := rfl
  unread := nofun
  state := .inl rfl
  waits := by simp [connectedRun]
  atEnd := nofun

/-- The bytes handed out before the first return of 0 without `MSG_DONTWAIT` are those delivered,
and no get loses its way, exactly in the runs that read in time. -/
theorem atSocket_streams_iff (timeout : Int) (as : List AtSocketAction)
    (hmem : ∀ bytes memory, .deliver bytes memory ∈ as → memory = true) :
    RunMeets atSocketRunStep KeepsStream as (connectedRun timeout) ↔
      RunMeets atSocketRunStep ReadsInTime as (connectedRun timeout) :=
  have hmem' : ∀ a ∈ as, ∀ bytes memory, a = .deliver bytes memory → memory = true :=
    fun _ ha bytes memory h => hmem bytes memory (h ▸ ha)
  runMeets_congr (fun _ a ha hs => hs.keepsStream_iff (hmem' a ha))
    (fun _ a ha _ hs hok h =>
      hs.step (hmem' a ha) ((hs.keepsStream_iff (hmem' a ha)).mp hok) h)
    (connectedRun_streamOk timeout)

/-- One packet comes, the remote side closes, and the packet is read after that. -/
def lateRead : List AtSocketAction :=
  [.deliver [65] true, .callback, .callback, .remoteClose, .callback, .callback, .callback,
    .callback, .recv 0 4 false]

/-- A run that reads the packet before the close, and the end after it. -/
def promptRead : List AtSocketAction :=
  [.deliver [65] true, .callback, .callback, .recv 0 4 false, .get 0 true, .update 0, .update 0,
    .update 0, .remoteClose, .callback, .callback, .callback, .callback, .recv 0 4 false]

theorem atSocket_streams_promptRead :
    (∀ bytes memory, .deliver bytes memory ∈ promptRead → memory = true) ∧
      (RunMeets atSocketRunStep KeepsStream promptRead (connectedRun 0) ↔
        RunMeets atSocketRunStep ReadsInTime promptRead (connectedRun 0)) := by
  have hmem : ∀ bytes memory, .deliver bytes memory ∈ promptRead → memory = true := by
    intro bytes memory h
    simp [promptRead] at h
    exact h.2
  exact ⟨hmem, atSocket_streams_iff 0 promptRead hmem⟩

/-- The socket is closed before its packet is read: 0 is returned and the packet stays. -/
theorem atSocket_loses_packet : ¬RunMeets atSocketRunStep KeepsStream lateRead (connectedRun 0) := by
  intro h
  have hrun : RunMeets atSocketRunStep KeepsStream (lateRead.dropLast ++ [.recv 0 4 false])
      (connectedRun 0) := h
  have hended := (hrun.last rfl).2 _ rfl [] rfl
  cases hended

end RTThread
