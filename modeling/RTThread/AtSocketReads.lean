import RTThread.AtSocketModel

namespace RTThread

/-- Where a call of `at_recvfrom` is: before one of its two gets, waiting for the notice, before the
second test of the state, or before one of the three updates of the counter. -/
inductive RecvPc where
  | idle
  | firstGet
  | wait
  | test
  | nextGet
  | decrease
  | look
  | increase
  | clean
  deriving DecidableEq

/-- A call of `at_recvfrom` under way: `len`, `MSG_DONTWAIT`, and the bytes it has got. -/
structure RecvCall where
  pc : RecvPc
  len : Nat
  dontWait : Bool
  got : List UInt8
  deriving DecidableEq

/-- Where the callback that runs is. -/
inductive NoticePc where
  | idle
  | release
  | count
  | closedCount
  | closedError
  | closedState
  | closedRelease
  deriving DecidableEq

/-- One open socket, the calls of its readers, and the callbacks, which run one after the other.
The bytes delivered and those handed to readers are kept beside it, and what had been handed out
when a call first returned 0 without `MSG_DONTWAIT`. -/
structure AtSocketRun where
  sock : AtSocket
  calls : Nat → RecvCall
  notice : NoticePc
  delivered : List UInt8
  taken : List UInt8
  ended : Option (List UInt8)

inductive AtSocketAction where
  /-- `at_recv_notice_cb` up to the release of the lock -/
  | deliver (bytes : List UInt8) (memory : Bool)
  /-- the next step of the callback -/
  | callback
  /-- the entry of `at_closed_notice_cb` -/
  | remoteClose
  /-- `at_recvfrom` up to the lock -/
  | recv (t len : Nat) (dontWait : Bool)
  /-- one of the two locked gets -/
  | get (t : Nat) (linkKept : Bool)
  /-- `rt_sem_take` returns -/
  | notified (t : Nat)
  | timeout (t : Nat)
  /-- the test of the state after it -/
  | test (t : Nat)
  /-- the next update of the counter, or the test between them -/
  | update (t : Nat)

def AtSocketRun.setCall (s : AtSocketRun) (t : Nat) (c : RecvCall) : AtSocketRun :=
  { s with calls := Function.update s.calls t c }

def AtSocketRun.setPc (s : AtSocketRun) (t : Nat) (pc : RecvPc) : AtSocketRun :=
  s.setCall t { s.calls t with pc := pc }

/-- The call returns without bytes, and its epilogue counts an error. -/
def AtSocketRun.returnNone (s : AtSocketRun) (t : Nat) : AtSocketRun :=
  { s.setPc t .idle with sock := atDoEventChanges s.sock .error true }

/-- The call returns 0. -/
def AtSocketRun.returnZero (s : AtSocketRun) (t : Nat) : AtSocketRun :=
  { s.returnNone t with
    ended := if (s.calls t).dontWait then s.ended else s.ended.or (some s.taken) }

def recvStart (s : AtSocketRun) (t len : Nat) (dontWait : Bool) : Option AtSocketRun :=
  if (s.calls t).pc = .idle then
    let s := s.setCall t ⟨.idle, len, dontWait, []⟩
    if len = 0 then some s
    else
      match s.sock.state with
      | .closed => some (s.returnZero t)
      | .connect => some (s.setPc t .firstGet)
      | _ => some (s.returnNone t)
  else none

/-- A locked get and what follows from the number of bytes. -/
def recvGet (s : AtSocketRun) (t : Nat) (linkKept : Bool) : Option AtSocketRun :=
  if (s.calls t).pc = .firstGet ∨ (s.calls t).pc = .nextGet then
    (atRecvpktGet linkKept s.sock.recvpktList (s.calls t).len).map fun (bytes, left) =>
      let first : Bool := (s.calls t).pc = .firstGet
      let s := { s with
        sock := { s.sock with recvpktList := left }
        taken := s.taken ++ bytes }
      if bytes ≠ [] then s.setCall t { s.calls t with pc := .decrease, got := bytes }
      else if first ∧ (s.calls t).dontWait then s.returnZero t
      else s.setPc t .wait
  else none

/-- `rt_sem_take` for a notice that is there or comes. -/
def recvNotified (s : AtSocketRun) (t : Nat) : Option AtSocketRun :=
  match s.sock.recvNotice with
  | some (value + 1) =>
    if (s.calls t).pc = .wait then
      some { s.setPc t .test with sock := { s.sock with recvNotice := some value } }
    else none
  | _ => none

def recvTimeout (s : AtSocketRun) (t : Nat) : Option AtSocketRun :=
  if (s.calls t).pc = .wait ∧ s.sock.recvTimeout ≠ 0 then some (s.returnNone t) else none

def recvTest (s : AtSocketRun) (t : Nat) : Option AtSocketRun :=
  if (s.calls t).pc = .test then
    if s.sock.state = .connect then some (s.setPc t .nextGet) else some (s.returnZero t)
  else none

/-- The epilogue of a call that got bytes. -/
def recvUpdate (s : AtSocketRun) (t : Nat) : Option AtSocketRun :=
  match (s.calls t).pc with
  | .decrease => some { s.setPc t .look with sock := atDoEventChanges s.sock .recv false }
  | .look => some (s.setPc t (if s.sock.recvpktList ≠ [] then .increase else .clean))
  | .increase => some { s.setPc t .idle with sock := atDoEventChanges s.sock .recv true }
  | .clean => some { s.setPc t .idle with sock := atDoEventClean s.sock .recv }
  | _ => none

def releaseNotice (sock : AtSocket) : AtSocket :=
  { sock with recvNotice := sock.recvNotice.map fun value => (value + 1) % 65536 }

def noticeStep (s : AtSocketRun) : Option AtSocketRun :=
  match s.notice with
  | .idle => none
  | .release => some { s with sock := releaseNotice s.sock, notice := .count }
  | .count => some { s with sock := atDoEventChanges s.sock .recv true, notice := .idle }
  | .closedCount =>
    some { s with sock := atDoEventChanges s.sock .recv true, notice := .closedError }
  | .closedError =>
    some { s with sock := atDoEventChanges s.sock .error true, notice := .closedState }
  | .closedState =>
    some { s with sock := { s.sock with state := .closed }, notice := .closedRelease }
  | .closedRelease => some { s with sock := releaseNotice s.sock, notice := .idle }

/-- A packet is not empty, and the remote side closes after it has sent. -/
def deliver (s : AtSocketRun) (bytes : List UInt8) (memory : Bool) : Option AtSocketRun :=
  if s.notice = .idle ∧ bytes ≠ [] ∧ s.sock.state = .connect then
    some { s with
      sock := { s.sock with recvpktList := atRecvpktPut s.sock.recvpktList bytes memory }
      notice := .release
      delivered := s.delivered ++ bytes }
  else none

def atSocketRunStep (s : AtSocketRun) : AtSocketAction → Option AtSocketRun
  | .deliver bytes memory => deliver s bytes memory
  | .callback => noticeStep s
  | .remoteClose =>
    if s.notice = .idle ∧ s.sock.state = .connect then some { s with notice := .closedCount }
    else none
  | .recv t len dontWait => recvStart s t len dontWait
  | .get t linkKept => recvGet s t linkKept
  | .notified t => recvNotified s t
  | .timeout t => recvTimeout s t
  | .test t => recvTest s t
  | .update t => recvUpdate s t

/-- A connected socket without data, and no call under way. -/
def connectedRun (recvTimeout : Int) : AtSocketRun where
  sock := { clearedSocket with
    magic := true
    type := .tcp
    state := .connect
    recvNotice := some 0
    recvLock := true
    recvTimeout := recvTimeout }
  calls := fun _ => ⟨.idle, 0, false, []⟩
  notice := .idle
  delivered := []
  taken := []
  ended := none

/-- The bytes a list of packets still holds. -/
def unreadBytes (l : List AtRecvPkt) : List UInt8 := l.flatMap fun pkt => pkt.buff.drop pkt.bfszIndex

/-- Each packet has bytes left. -/
def PktsUnread (l : List AtRecvPkt) : Prop := ∀ pkt ∈ l, pkt.bfszIndex < pkt.buff.length

section
variable {l left : List AtRecvPkt} {len : Nat} {linkKept : Bool} {bytes : List UInt8}

theorem atRecvpktGet_spec (hl : PktsUnread l) (h : atRecvpktGet linkKept l len = some (bytes, left)) :
    bytes = (unreadBytes l).take len ∧ unreadBytes left = (unreadBytes l).drop len ∧
      PktsUnread left := by
  induction l generalizing len bytes with
  | nil =>
    cases h
    simp [unreadBytes, PktsUnread]
  | cons pkt rest ih =>
    have hpkt := hl pkt List.mem_cons_self
    have hrest : PktsUnread rest := fun p hp => hl p (List.mem_cons_of_mem pkt hp)
    have hbytes : unreadBytes (pkt :: rest) = pkt.buff.drop pkt.bfszIndex ++ unreadBytes rest := rfl
    unfold atRecvpktGet at h
    simp only at h
    split at h
    · next hle =>
      obtain ⟨rfl, rfl⟩ := Prod.mk.inj (Option.some.inj h)
      rw [hbytes, List.take_append_of_le_length hle, List.drop_append_of_le_length hle,
        List.drop_drop]
      refine ⟨rfl, ?_⟩
      split
      · next hall =>
        rw [hall, List.drop_length]
        exact ⟨rfl, hrest⟩
      · next hpart =>
        refine ⟨rfl, fun p hp => ?_⟩
        rcases List.mem_cons.mp hp with rfl | hp
        · simp only [List.length_drop] at hle ⊢
          omega
        · exact hrest p hp
    · next hmore =>
      split at h
      · obtain ⟨⟨more, left'⟩, hget, heq⟩ := Option.map_eq_some_iff.mp h
        obtain ⟨rfl, rfl⟩ := Prod.mk.inj heq
        obtain ⟨rfl, hleft, hunread⟩ := ih hrest hget
        have hge : (pkt.buff.drop pkt.bfszIndex).length ≤ len := by omega
        rw [hbytes, List.take_append, List.take_of_length_le hge, hleft, List.drop_append,
          List.drop_eq_nil_of_le hge, List.nil_append]
        exact ⟨rfl, rfl, hunread⟩
      · cases h

theorem unreadBytes_eq_nil (hl : PktsUnread l) : unreadBytes l = [] ↔ l = [] := by
  constructor
  · intro hnil
    cases l with
    | nil => rfl
    | cons pkt rest =>
      have hpkt := hl pkt List.mem_cons_self
      have hlen := congrArg List.length hnil
      simp only [unreadBytes, List.flatMap_cons, List.length_append, List.length_drop,
        List.length_nil] at hlen
      omega
  · rintro rfl
    rfl

/-- The get follows only links that are kept, or ends within the first packet. -/
theorem atRecvpktGet_exists (h : linkKept = true ∨ len ≤ (unreadBytes (l.take 1)).length ∨ l = []) :
    ∃ r, atRecvpktGet linkKept l len = some r := by
  induction l generalizing len with
  | nil => exact ⟨_, rfl⟩
  | cons pkt rest ih =>
    unfold atRecvpktGet
    simp only
    split
    · exact ⟨_, rfl⟩
    · next hmore =>
      have hkept : linkKept = true := by
        rcases h with h | h | h
        · exact h
        · simp [unreadBytes] at h hmore
          omega
        · cases h
      obtain ⟨r, hr⟩ := @ih (len - (pkt.buff.drop pkt.bfszIndex).length) (.inl hkept)
      rw [if_pos hkept, hr]
      exact ⟨_, rfl⟩

theorem atRecvpktGet_none (hmore : (unreadBytes (l.take 1)).length < len) (hne : l ≠ []) :
    atRecvpktGet false l len = none := by
  cases l with
  | nil => exact absurd rfl hne
  | cons pkt rest =>
    have hlen : ¬len ≤ (pkt.buff.drop pkt.bfszIndex).length := by
      simp only [List.take_succ_cons, List.take_zero, unreadBytes, List.flatMap_cons,
        List.flatMap_nil, List.append_nil] at hmore
      omega
    unfold atRecvpktGet
    exact (if_neg hlen).trans (if_neg nofun)

end

end RTThread
