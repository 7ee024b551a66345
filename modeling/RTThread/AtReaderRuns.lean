import RTThread.AtReaderModel
import RTThread.Runs

namespace RTThread

/-- A blocked reader has nothing to read; what arrives later resumes it at once. -/
def AtReader.NoSleep (s : AtReader) : Prop := s.pc = .blocked → s.device = []

def KeepsAwake (tickPerSecond : Nat) (s : TimedReader) (a : AtReaderAction) : Prop :=
  ∀ s' ∈ timedReaderStep tickPerSecond s a, s'.reader.NoSleep

/-- A waiting take finds no indication since the empty read, or a value that counts some since
the reset. -/
def TakesInTime (s : TimedReader) : AtReaderAction → Prop
  | .take => s.reader.pc = .take → s.reader.time = 0 ∨ s.sinceRead = 0 ∨ s.sinceReset % 65536 ≠ 0
  | _ => True

structure ReaderOk (s : TimedReader) : Prop where
  unread : s.reader.pc = .reset ∨ s.reader.pc = .take → (s.reader.device = [] ↔ s.sinceRead = 0)
  notice : s.reader.pc = .take → s.reader.notice = s.sinceReset % 65536
  noSleep : s.reader.NoSleep

section
variable {tickPerSecond : Nat} {s s' : TimedReader} {a : AtReaderAction} {time : Int}
  {r : AtReader} {bytes : List UInt8}

theorem enterGetchar_ok (h : enterGetchar s.reader time = some r) : ReaderOk { s with reader := r } := by
  unfold enterGetchar at h
  split at h
  · cases Option.some.inj h
    exact ⟨by simp, by simp, by simp [AtReader.NoSleep]⟩
  · cases h

theorem atRxInd_ok (hs : ReaderOk s) :
    ReaderOk (s.count (atRxInd { s.reader with device := s.reader.device ++ bytes } bytes.length)
      (.indicate bytes)) := by
  cases bytes with
  | nil => simpa [atRxInd, TimedReader.count] using hs
  | cons b bytes =>
    simp only [atRxInd, TimedReader.count, List.length_cons, Nat.add_eq_zero_iff, one_ne_zero,
      and_false, if_false]
    split
    · exact ⟨by simp, by simp, by simp [AtReader.NoSleep]⟩
    · next hpc =>
      refine ⟨fun _ => by simp, fun htake => ?_, fun hblocked => absurd hblocked hpc⟩
      have hnotice := hs.notice htake
      simp only [hnotice]
      omega

/-- A blocked take is the only step that can leave the reader asleep on bytes. -/
theorem take_keepsAwake_iff (hs : ReaderOk s) :
    KeepsAwake tickPerSecond s .take ↔ TakesInTime s .take := by
  simp only [KeepsAwake, TakesInTime, timedReaderStep, atReaderStep]
  by_cases hpc : s.reader.pc = .take
  · have hunread := hs.unread (.inr hpc)
    have hnotice := hs.notice hpc
    simp only [hpc, if_true, true_imp_iff]
    split
    · next hpos => exact iff_of_true (by simp [AtReader.NoSleep, TimedReader.count]) (by omega)
    · next hzero =>
      split
      · next htime =>
        exact iff_of_true (by simp [AtReader.NoSleep, TimedReader.count]) (.inl htime)
      · next htime =>
        simp only [Option.map_some, Option.mem_some_iff, forall_eq', TimedReader.count,
          AtReader.NoSleep, true_imp_iff, hunread]
        omega
  · simp [hpc]

theorem ReaderOk.step (hs : ReaderOk s) (hkeeps : KeepsAwake tickPerSecond s a)
    (h : timedReaderStep tickPerSecond s a = some s') : ReaderOk s' := by
  have hawake := hkeeps s' h
  obtain ⟨⟨r, answer⟩, hr, rfl⟩ := Option.map_eq_some_iff.mp h
  cases a with
  | clientGetchar timeout =>
    obtain ⟨r', hr', heq⟩ := Option.map_eq_some_iff.mp hr
    cases heq
    exact enterGetchar_ok hr'
  | serverGerchar =>
    obtain ⟨r', hr', heq⟩ := Option.map_eq_some_iff.mp hr
    cases heq
    exact enterGetchar_ok hr'
  | read =>
    simp only [atReaderStep] at hr
    split at hr
    · split at hr
      · next hempty =>
        cases Option.some.inj hr
        exact ⟨fun _ => by simp [TimedReader.count, hempty], by simp [TimedReader.count], hawake⟩
      · cases Option.some.inj hr
        exact ⟨by simp [TimedReader.count], by simp [TimedReader.count], hawake⟩
    · cases hr
  | reset =>
    simp only [atReaderStep] at hr
    split at hr
    · next hpc =>
      cases Option.some.inj hr
      exact ⟨fun _ => hs.unread (.inl hpc), fun _ => rfl, hawake⟩
    · cases hr
  | take =>
    simp only [atReaderStep] at hr
    split at hr
    · split at hr
      · cases Option.some.inj hr
        exact ⟨by simp [TimedReader.count], by simp [TimedReader.count], hawake⟩
      · split at hr
        all_goals
          cases Option.some.inj hr
          exact ⟨by simp [TimedReader.count], by simp [TimedReader.count], hawake⟩
    · cases hr
  | timeout =>
    simp only [atReaderStep] at hr
    split at hr
    · cases Option.some.inj hr
      exact ⟨by simp [TimedReader.count], by simp [TimedReader.count], hawake⟩
    · cases hr
  | indicate bytes =>
    obtain ⟨rfl, -⟩ := Prod.mk.inj (Option.some.inj hr)
    exact atRxInd_ok hs

theorem keepsAwake_iff (hs : ReaderOk s) (a : AtReaderAction) :
    KeepsAwake tickPerSecond s a ↔ TakesInTime s a := by
  cases a with
  | take => exact take_keepsAwake_iff hs
  | indicate bytes =>
    refine iff_of_true (fun s' h => ?_) trivial
    cases Option.some.inj h
    exact (atRxInd_ok hs).noSleep
  | clientGetchar timeout =>
    refine iff_of_true (fun s' h => ?_) trivial
    obtain ⟨⟨r, answer⟩, hr, rfl⟩ := Option.map_eq_some_iff.mp h
    obtain ⟨r', hr', heq⟩ := Option.map_eq_some_iff.mp hr
    cases heq
    exact (enterGetchar_ok hr').noSleep
  | serverGerchar =>
    refine iff_of_true (fun s' h => ?_) trivial
    obtain ⟨⟨r, answer⟩, hr, rfl⟩ := Option.map_eq_some_iff.mp h
    obtain ⟨r', hr', heq⟩ := Option.map_eq_some_iff.mp hr
    cases heq
    exact (enterGetchar_ok hr').noSleep
  | read =>
    refine iff_of_true (fun s' h => ?_) trivial
    simp only [timedReaderStep, atReaderStep] at h
    grind [AtReader.NoSleep, TimedReader.count]
  | reset =>
    refine iff_of_true (fun s' h => ?_) trivial
    simp only [timedReaderStep, atReaderStep] at h
    grind [AtReader.NoSleep, TimedReader.count]
  | timeout =>
    refine iff_of_true (fun s' h => ?_) trivial
    simp only [timedReaderStep, atReaderStep] at h
    grind [AtReader.NoSleep, TimedReader.count]

/-- From any unread bytes and any value of `rx_notice`, a run never leaves the reader asleep on
unread bytes exactly when its waiting takes come in time. -/
theorem atReader_awake_iff (tickPerSecond : Nat) (device : List UInt8) (notice : Nat) (time : Int)
    (as : List AtReaderAction) :
    RunMeets (timedReaderStep tickPerSecond) (KeepsAwake tickPerSecond) as
        ⟨⟨device, notice, .outside, time⟩, 0, 0⟩ ↔
      RunMeets (timedReaderStep tickPerSecond) TakesInTime as
        ⟨⟨device, notice, .outside, time⟩, 0, 0⟩ :=
  runMeets_congr (fun _ a _ hs => keepsAwake_iff hs a)
    (fun _ _ _ _ hs hkeeps h => hs.step hkeeps h)
    ⟨by simp, by simp, by simp [AtReader.NoSleep]⟩

/-- A byte arrives between the empty read and the reset. -/
theorem atReader_sleeps_on_byte :
    ¬RunMeets (timedReaderStep 1000) (KeepsAwake 1000)
      [.serverGerchar, .read, .indicate [65], .reset, .take] ⟨⟨[], 0, .outside, 0⟩, 0, 0⟩ := by
  rintro ⟨-, h⟩
  obtain ⟨-, h⟩ := h _ rfl
  obtain ⟨-, h⟩ := h _ rfl
  obtain ⟨-, h⟩ := h _ rfl
  obtain ⟨h, -⟩ := h _ rfl
  exact absurd (h _ rfl rfl) nofun

end

end RTThread
