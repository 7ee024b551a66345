import RTThread.AtSocketModel
import RTThread.Runs

namespace RTThread

inductive AtSocketCall where
  | socket (type : SockType) (m : AtSocketMemory)
  | connect (connected fd : Int)
  | sendto (hasData toGiven : Bool) (connected sent fd : Int)
  | recvfrom (hasMem linkKept dontWait fromGiven : Bool) (connected : Int) (len : Nat)
      (wait : RecvWait) (fd : Int)
  | shutdown (closed fd : Int)
  | closesocket (closed fd : Int)

def AtSocketCall.run (s : AtSockets) : AtSocketCall → Option (Int × AtSockets)
  | .socket type m => some (atSocket type m s)
  | .connect connected fd => atConnect connected s fd
  | .sendto hasData toGiven connected sent fd => atSendto hasData toGiven connected sent s fd
  | .recvfrom hasMem linkKept dontWait fromGiven connected len wait fd =>
    atRecvfrom hasMem linkKept dontWait fromGiven connected len wait s fd
  | .shutdown closed fd => some (atShutdown closed s fd)
  | .closesocket closed fd => some (atClosesocket closed s fd)

def atSocketStep (s : AtSockets) (c : AtSocketCall) : Option AtSockets := (c.run s).map (·.2)

/-- The descriptor an operation is given. -/
def AtSocketCall.descriptor : AtSocketCall → Option Int
  | .socket .. => none
  | .connect _ fd | .sendto _ _ _ _ fd | .recvfrom _ _ _ _ _ _ _ fd | .shutdown _ fd
  | .closesocket _ fd => some fd

def IsOpen (s : AtSockets) (fd : Int) : Prop := atGetSocket s fd ≠ none

instance (s : AtSockets) (fd : Int) : Decidable (IsOpen s fd) := inferInstanceAs (Decidable (_ ≠ _))

/-- `at_socket` returned a new descriptor, and all of its socket exists. -/
def Opened (s s' : AtSockets) (answer : Int) : Prop :=
  ¬IsOpen s answer ∧ (∀ fd, IsOpen s' fd ↔ fd = answer ∨ IsOpen s fd) ∧
  ∃ sock, s'.sockets[answer.toNat]? = some sock ∧ sock.recvNotice ≠ none ∧ sock.recvLock = true

/-- `at_socket` opens a new descriptor or fails and leaves the table; an operation on a descriptor
that is not open fails and leaves it. -/
def AtSocketPromise (s : AtSockets) (c : AtSocketCall) : Prop :=
  match c with
  | .socket type m =>
    0 ≤ (atSocket type m s).1 ∧ Opened s (atSocket type m s).2 (atSocket type m s).1 ∨
      (atSocket type m s).1 < 0 ∧ (atSocket type m s).2 = s
  | c => ∀ fd, c.descriptor = some fd → ¬IsOpen s fd → ∃ answer, c.run s = some (answer, s) ∧ answer < 0

/-- The type is not supported, or a slot is free and every kernel object can be created. -/
def CanOpen (s : AtSockets) (type : SockType) (m : AtSocketMemory) : Prop :=
  type = .other ∨ (s.slock = true ∨ m.slock = true) ∧ (∃ sock ∈ s.sockets, sock.magic = false) ∧
    m.sem = true ∧ m.mutex = true

/-- An operation gets an open descriptor, or is refused before it looks the descriptor up. -/
def SafeSocketCall (s : AtSockets) : AtSocketCall → Prop
  | .socket type m => CanOpen s type m
  | .connect _ fd => s.devOps = false ∨ IsOpen s fd
  | .sendto _ _ _ _ fd => IsOpen s fd
  | .recvfrom hasMem _ _ _ _ len _ fd =>
    hasMem = false ∨ len = 0 ∨ s.devOps = false ∨ IsOpen s fd
  | .shutdown .. => True
  | .closesocket .. => True

section
variable {s : AtSockets} {fd : Int} {idx : Nat} {m : AtSocketMemory} {type : SockType}
  {f : AtSocket → AtSocket}

theorem isOpen_iff : IsOpen s fd ↔
    ∃ (i : Nat) (sock : AtSocket), fd = i ∧ s.sockets[i]? = some sock ∧ sock.magic = true := by
  unfold IsOpen atGetSocket
  constructor
  · intro h
    split at h
    · exact absurd rfl h
    · next hin =>
      split at h
      · next sock hsock =>
        split at h
        · next hmagic => exact ⟨fd.toNat, sock, by omega, hsock, hmagic⟩
        · exact absurd rfl h
      · exact absurd rfl h
  · rintro ⟨i, sock, rfl, hsock, hmagic⟩
    have hlt := (List.getElem?_eq_some_iff.mp hsock).1
    rw [if_neg (by omega), Int.toNat_natCast]
    simp [hsock, hmagic]

theorem isOpen_modify (hmagic : ∀ sock, s.sockets[idx]? = some sock → (f sock).magic = true)
    (hlt : idx < s.sockets.length) :
    IsOpen (s.modify idx f) fd ↔ fd = idx ∨ IsOpen s fd := by
  simp only [isOpen_iff, AtSockets.modify, List.getElem?_modify]
  constructor
  · rintro ⟨i, sock, rfl, hsock, hsockMagic⟩
    by_cases hi : idx = i
    · exact .inl (by rw [hi])
    · simp only [hi, if_false, id_map'] at hsock
      exact .inr ⟨i, sock, rfl, hsock, hsockMagic⟩
  · rintro (rfl | ⟨i, sock, rfl, hsock, hsockMagic⟩)
    · exact ⟨idx, f s.sockets[idx], rfl, by simp [hlt], hmagic _ (by simp [hlt])⟩
    · by_cases hi : idx = i
      · subst hi
        exact ⟨idx, f sock, rfl, by simp [hsock], hmagic sock hsock⟩
      · exact ⟨i, sock, rfl, by simp [hi, hsock], hsockMagic⟩

theorem isOpen_zero_of_findIdx (h : s.sockets.findIdx (!·.magic) ≠ 0)
    (hlt : 0 < s.sockets.length) : IsOpen s 0 := by
  refine isOpen_iff.mpr ⟨0, s.sockets[0], rfl, by simp [hlt], ?_⟩
  by_contra hmagic
  have hnot := List.not_of_lt_findIdx (Nat.pos_of_ne_zero h)
  simp [hmagic] at hnot

/-- The slot `alloc_socket` claims, and what it holds in the end. -/
theorem claimSocket_cases (m : AtSocketMemory) (s : AtSockets) :
    (s.sockets.findIdx (!·.magic) = s.sockets.length ∧ claimSocket m s = (none, s)) ∨
    ∃ idx f, idx = s.sockets.findIdx (!·.magic) ∧ idx < s.sockets.length ∧
      (claimSocket m s).2.sockets = s.sockets.modify idx f ∧ (∀ sock, (f sock).magic = true) ∧
      (m.sem = true ∧ m.mutex = true ∧ (claimSocket m s).1 = some idx ∧
          (∀ sock, (f sock).recvNotice ≠ none ∧ (f sock).recvLock = true) ∨
        ¬(m.sem = true ∧ m.mutex = true) ∧ (claimSocket m s).1 = none ∧
          ∀ sock, ¬((f sock).recvNotice ≠ none ∧ (f sock).recvLock = true)) := by
  unfold claimSocket
  simp only
  split
  · next hfull => exact .inl ⟨hfull, rfl⟩
  · next hfree =>
    have hlt : s.sockets.findIdx (!·.magic) < s.sockets.length :=
      lt_of_le_of_ne List.findIdx_le_length hfree
    refine .inr ⟨s.sockets.findIdx (!·.magic), ?_⟩
    cases hsem : m.sem with
    | false =>
      refine ⟨fun sock => { claimedSocket (s.sockets.findIdx (!·.magic)) sock with
        recvNotice := none }, rfl, hlt, ?_, fun _ => rfl, .inr ⟨by simp, rfl, by simp⟩⟩
      simp [AtSockets.modify, List.modify_modify_eq, Function.comp_def]
    | true =>
      cases hmutex : m.mutex with
      | false =>
        refine ⟨fun sock => { claimedSocket (s.sockets.findIdx (!·.magic)) sock with
          recvNotice := some 0, recvLock := false }, rfl, hlt, ?_, fun _ => rfl,
          .inr ⟨by simp, rfl, by simp⟩⟩
        simp [AtSockets.modify, List.modify_modify_eq, Function.comp_def]
      | true =>
        refine ⟨fun sock => { claimedSocket (s.sockets.findIdx (!·.magic)) sock with
          recvNotice := some 0, recvLock := true }, rfl, hlt, ?_, fun _ => rfl,
          .inl ⟨rfl, rfl, rfl, by simp⟩⟩
        simp [AtSockets.modify, List.modify_modify_eq, Function.comp_def]

theorem isOpen_congr {s' : AtSockets} (h : s'.sockets = s.sockets) : IsOpen s' fd ↔ IsOpen s fd := by
  rw [isOpen_iff, isOpen_iff, h]

theorem not_opened_same {s' : AtSockets} (h : s'.sockets = s.sockets) (answer : Int) :
    ¬Opened s s' answer := fun ⟨hnot, hiff, _⟩ =>
  hnot ((isOpen_congr h).mp ((hiff answer).mpr (.inl rfl)))

theorem allocSocket_eq (m : AtSocketMemory) (s : AtSockets) : allocSocket m s =
    if s.slock = true ∨ m.slock = true then claimSocket m { s with slock := true } else (none, s) := by
  unfold allocSocket
  by_cases hs : s.slock = true
  · have hsame : { s with slock := true } = s := by rw [← hs]
    rw [hsame]
    simp [hs]
  · simp [hs]

theorem socketPromise_iff (s : AtSockets) (type : SockType) (m : AtSocketMemory) :
    AtSocketPromise s (.socket type m) ↔ CanOpen s type m := by
  by_cases htype : type = .other
  · exact iff_of_true (.inr (by simp [atSocket, htype])) (.inl htype)
  simp only [AtSocketPromise, CanOpen, htype, false_or]
  by_cases hlock : s.slock = true ∨ m.slock = true
  swap
  · have hrun : atSocket type m s = (0, s) := by
      simp only [atSocket, htype, if_false, allocSocket_eq, if_neg hlock]
    rw [hrun]
    exact iff_of_false (by simp [not_opened_same]) (by simp [hlock])
  have halloc : allocSocket m s = claimSocket m { s with slock := true } := by
    rw [allocSocket_eq, if_pos hlock]
  rcases claimSocket_cases m { s with slock := true } with
    ⟨hfull, hclaim⟩ | ⟨idx, f, hidx, hlt, hsockets, hmagic, hcases⟩
  · have hrun : atSocket type m s = (0, { s with slock := true }) := by
      simp only [atSocket, htype, if_false, halloc, hclaim]
    have hnone : ¬∃ sock ∈ s.sockets, sock.magic = false := by
      rintro ⟨sock, hmem, hfree⟩
      have hlt := List.findIdx_lt_length_of_exists (p := fun sock : AtSocket => !sock.magic) ⟨sock, hmem, by simp [hfree]⟩
      simp only at hfull
      omega
    rw [hrun]
    exact iff_of_false (by simp [not_opened_same]) (by simp [hnone])
  have hlt : idx < s.sockets.length := hlt
  have hclosed : s.sockets[idx].magic = false := by
    have hfound : (!(s.sockets[idx]).magic) = true := by
      subst hidx
      exact List.findIdx_getElem (p := fun sock : AtSocket => !sock.magic)
    simpa using hfound
  have hfree : ∃ sock ∈ s.sockets, sock.magic = false :=
    ⟨s.sockets[idx], List.getElem_mem hlt, hclosed⟩
  rcases hcases with ⟨hsem, hmutex, hsome, hmade⟩ | ⟨hnot, hnone, hlost⟩
  · refine iff_of_true (.inl ?_) ⟨hlock, hfree, hsem, hmutex⟩
    let setType : AtSocket → AtSocket := fun sock =>
      { sock with type := if type = .stream then .tcp else .udp }
    have hrun : atSocket type m s =
        ((idx : Int), (claimSocket m { s with slock := true }).2.modify idx setType) := by
      simp only [atSocket, htype, if_false, halloc]
      rw [← Prod.mk.eta (p := claimSocket m _), hsome]
    have hmodified : ((claimSocket m { s with slock := true }).2.modify idx setType).sockets =
        (s.modify idx (setType ∘ f)).sockets := by
      simp only [AtSockets.modify, hsockets, List.modify_modify_eq]
    rw [hrun]
    refine ⟨Int.natCast_nonneg idx, fun hopen => ?_, fun fd => ?_, ?_⟩
    · obtain ⟨i, sock, hi, hsock, hopenMagic⟩ := isOpen_iff.mp hopen
      obtain rfl : idx = i := by omega
      rw [List.getElem?_eq_getElem hlt] at hsock
      obtain rfl := Option.some.inj hsock
      exact absurd (hclosed.symm.trans hopenMagic) nofun
    · rw [isOpen_congr hmodified]
      exact isOpen_modify (fun sock _ => hmagic sock) hlt
    · refine ⟨setType (f s.sockets[idx]), ?_, hmade s.sockets[idx]⟩
      rw [hmodified, Int.toNat_natCast]
      simp [AtSockets.modify, hlt]
  · refine iff_of_false ?_ fun hcan => hnot hcan.2.2
    have hrun : atSocket type m s = (0, (claimSocket m { s with slock := true }).2) := by
      simp only [atSocket, htype, if_false, halloc]
      rw [← Prod.mk.eta (p := claimSocket m _), hnone]
    rw [hrun]
    simp only [lt_self_iff_false, false_and, or_false, le_refl, true_and]
    rintro ⟨hclosed, -, sock, hsock, hexists⟩
    have hzero : idx = 0 := by
      by_contra hne
      exact hclosed (isOpen_zero_of_findIdx (hidx ▸ hne) (by omega))
    subst hzero
    rw [hsockets] at hsock
    simp only [Int.toNat_zero, List.getElem?_modify, if_true] at hsock
    obtain ⟨old, -, rfl⟩ := Option.map_eq_some_iff.mp hsock
    exact hlost old hexists

theorem atSocketPromise_iff (s : AtSockets) (c : AtSocketCall) :
    AtSocketPromise s c ↔ SafeSocketCall s c := by
  cases c with
  | socket type m => exact socketPromise_iff s type m
  | connect connected fd =>
    simp only [AtSocketPromise, AtSocketCall.descriptor, Option.some.injEq, forall_eq',
      AtSocketCall.run, SafeSocketCall, IsOpen, not_not]
    by_cases hdev : s.devOps = false
    · simp [atConnect, hdev]
    · cases hget : atGetSocket s fd <;> simp [atConnect, hdev, hget, failWith]
  | sendto hasData toGiven connected sent fd =>
    simp only [AtSocketPromise, AtSocketCall.descriptor, Option.some.injEq, forall_eq',
      AtSocketCall.run, SafeSocketCall, IsOpen, not_not]
    cases hget : atGetSocket s fd <;> simp [atSendto, hget, failWith]
  | recvfrom hasMem linkKept dontWait fromGiven connected len wait fd =>
    simp only [AtSocketPromise, AtSocketCall.descriptor, Option.some.injEq, forall_eq',
      AtSocketCall.run, SafeSocketCall, IsOpen, not_not]
    by_cases hmem : hasMem = false ∨ len = 0
    · simp [atRecvfrom, hmem, ← or_assoc]
    · by_cases hdev : s.devOps = false
      · simp [atRecvfrom, hmem, hdev]
      · cases hget : atGetSocket s fd <;>
          simp [atRecvfrom, hmem, hdev, hget, failWith]
  | shutdown closed fd =>
    refine iff_of_true (fun fd' hfd hnot => ?_) trivial
    obtain rfl := Option.some.inj hfd
    have hget : atGetSocket s fd = none := not_not.mp hnot
    exact ⟨-1, by simp [AtSocketCall.run, atShutdown, closeWith, hget], by decide⟩
  | closesocket closed fd =>
    refine iff_of_true (fun fd' hfd hnot => ?_) trivial
    obtain rfl := Option.some.inj hfd
    have hget : atGetSocket s fd = none := not_not.mp hnot
    exact ⟨-1, by simp [AtSocketCall.run, atClosesocket, closeWith, hget], by decide⟩

end

/-- In a run from the cleared table each call keeps the table as promised exactly when each is
safe where it is made. -/
theorem atSockets_keep_iff (n : Nat) (devOps : Bool) (calls : List AtSocketCall) :
    RunMeets atSocketStep AtSocketPromise calls
        ⟨List.replicate n clearedSocket, false, 0, 0, devOps⟩ ↔
      RunMeets atSocketStep SafeSocketCall calls
        ⟨List.replicate n clearedSocket, false, 0, 0, devOps⟩ :=
  runMeets_congr (I := fun _ => True) (fun s c _ _ => atSocketPromise_iff s c)
    (fun _ _ _ _ _ _ _ => trivial) trivial

/-- The semaphore of the first socket cannot be created: 0 is returned and the slot stays claimed. -/
theorem atSocket_claims_slot :
    ¬RunMeets atSocketStep AtSocketPromise [.socket .stream ⟨true, false, true⟩]
      ⟨List.replicate 5 clearedSocket, false, 0, 0, true⟩ := by
  rintro ⟨⟨-, -, -, sock, hsock, hsem, -⟩ | ⟨hneg, -⟩, -⟩
  · cases hsock
    exact hsem rfl
  · exact absurd hneg (by decide)

end RTThread
