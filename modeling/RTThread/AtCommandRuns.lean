import RTThread.AtCommandModel
import RTThread.Runs

namespace RTThread

def storedLines (lines : List (List UInt8)) : List UInt8 := lines.flatMap respLine

/-- No line ends a response of `lineNum` lines whose lines are all stored. -/
def NoEnd (lineNum : Nat) (lines : List (List UInt8)) : Prop :=
  ∀ before line after, lines = before ++ line :: after →
    endStatus (respLine line) lineNum (before.length + 1) = none

/-- The lines handled since the command was sent end with the first one that ends the response, and
they are what the response holds. -/
def OwnResponse (s : AtClient) : Prop :=
  (∃ lines last, s.handled = lines ++ [last] ∧ NoEnd s.response.lineNum lines ∧
    endStatus (respLine last) s.response.lineNum s.handled.length = some .ok) ∧
  storedLines s.handled <+: s.response.buf ∧ s.response.lineCounts = s.handled.length

/-- A command with a response is sent to a parser that stands at offset 0 with no line counted, and
no notice is left. The response is not ended before `line_counts` is reset. The line that ends it
with `OK` fits, and none before it was dropped. -/
def ParserReady (urcTable : List AtUrc) (s : AtClient) : AtClientAction → Prop
  | .send (some _) => s.respBufLen = 0 ∧ s.lineCounts = 0 ∧ s.respNotice = 0
  | .await => s.resp = true
  | .line bytes => s.resp = true → getUrcObj urcTable bytes = none →
    endStatus (respLine bytes) s.response.lineNum
      (s.lineCounts + if Fits s bytes then 1 else 0) = some .ok →
    Fits s bytes ∧ s.respStatus ≠ .buffFull
  | _ => True

structure ClientOk (s : AtClient) : Prop where
  idle : s.pc = .idle → s.resp = false
  notice : s.resp = true → s.respNotice = 0
  pending : s.resp = true → s.respStatus = .buffFull ∨ s.respStatus = .ok ∧
    s.respBufLen = (storedLines s.handled).length ∧ s.lineCounts = s.handled.length ∧
    storedLines s.handled <+: s.response.buf ∧ NoEnd s.response.lineNum s.handled
  ended : s.pc ≠ .idle → s.resp = false → s.respStatus = .ok → OwnResponse s

section
variable {urcTable : List AtUrc} {s s' : AtClient} {a : AtClientAction} {line : List UInt8}
  {lines : List (List UInt8)} {lineNum : Nat} {resp : Option AtResponse}

theorem respLine_length (h : line ≠ []) : (respLine line).length = line.length := by
  have hpos := List.length_pos_of_ne_nil h
  simp only [respLine, List.length_append, List.length_dropLast, List.length_singleton]
  omega

theorem storedLines_snoc : storedLines (lines ++ [line]) = storedLines lines ++ respLine line := by
  simp [storedLines]

theorem NoEnd.snoc (h : NoEnd lineNum lines)
    (hline : endStatus (respLine line) lineNum (lines.length + 1) = none) :
    NoEnd lineNum (lines ++ [line]) := by
  intro before l after heq
  rcases List.eq_nil_or_concat after with rfl | ⟨after', x, rfl⟩
  · obtain ⟨rfl, hl⟩ := List.append_inj' heq rfl
    obtain rfl := List.singleton_inj.mp hl
    exact hline
  · have hsplit : lines ++ [line] = before ++ l :: after' ++ [x] := by
      rw [heq]
      simp
    exact h before l after' (List.append_inj' hsplit rfl).1

theorem ClientOk.send (hready : ParserReady urcTable s (.send resp))
    (h : execSend s resp = some s') : ClientOk s' := by
  unfold execSend at h
  split at h
  · next hidle =>
    cases resp with
    | none =>
      cases Option.some.inj h
      exact ⟨fun _ => rfl, nofun, nofun, fun hpc => absurd hidle hpc⟩
    | some response =>
      cases Option.some.inj h
      obtain ⟨hlen, hcounts, hnotice⟩ := hready
      refine ⟨nofun, fun _ => hnotice, fun _ => .inr ⟨rfl, hlen, hcounts, List.nil_prefix, ?_⟩,
        nofun⟩
      intro before line after heq
      simp at heq
  · cases h

theorem ClientOk.await (hs : ClientOk s) (hready : ParserReady urcTable s .await)
    (h : execAwait s = some s') : ClientOk s' := by
  unfold execAwait at h
  split at h
  · cases Option.some.inj h
    exact ⟨nofun, hs.notice, hs.pending, fun _ hresp => absurd (hready.symm.trans hresp) nofun⟩
  · cases h

/-- Where a notice is there, the parser has ended the response of this command. -/
theorem ClientOk.own (hs : ClientOk s) (h : execNotified s = some (.eok, s')) : OwnResponse s' := by
  unfold execNotified at h
  split at h
  · next hwait =>
    obtain ⟨hpc, hpos⟩ := hwait
    have hresp : s.resp = false := by
      by_contra htrue
      have hzero := hs.notice (by simpa using htrue)
      omega
    obtain ⟨hstatus, rfl⟩ := Prod.mk.inj (Option.some.inj h)
    split at hstatus
    · next hok => exact hs.ended (by simp [hpc]) hresp hok
    · cases hstatus
  · cases h

theorem storeLine_fits (hne : line ≠ []) (hfit : Fits s line)
    (hlen : s.respBufLen = (storedLines s.handled).length)
    (hstored : storedLines s.handled <+: s.response.buf) :
    (storeLine s line).respBufLen = (storedLines (s.handled ++ [line])).length ∧
      storedLines (s.handled ++ [line]) <+: (storeLine s line).response.buf := by
  rw [storedLines_snoc]
  simp only [storeLine, if_pos hfit]
  constructor
  · rw [List.length_append, respLine_length hne, hlen]
  · obtain ⟨rest, hrest⟩ := hstored
    have htake : s.response.buf.take s.respBufLen = storedLines s.handled := by
      rw [hlen, ← hrest, List.take_left]
    rw [htake]
    exact List.prefix_append _ _

/-- A line of the response either ends it or is one more that does not. -/
theorem ClientOk.parse (hs : ClientOk s) (hne : line ≠ [])
    (hready : ParserReady urcTable s (.line line)) : ClientOk (clientParser urcTable s line) := by
  unfold clientParser
  split
  · exact hs
  · next hurc =>
    split
    · next hresp =>
      have hpc : s.pc ≠ .idle := fun hidle => absurd (hresp.symm.trans (hs.idle hidle)) nofun
      have hcounts : (storeLine s line).lineCounts = s.lineCounts + if Fits s line then 1 else 0 := by
        unfold storeLine
        split <;> rfl
      have hnum : (storeLine s line).response.lineNum = s.response.lineNum := by
        unfold storeLine
        split <;> rfl
      have hready := hready hresp (not_not.mp hurc)
      simp only [hcounts, hnum]
      split
      · next status hend =>
        refine ⟨fun _ => rfl, nofun, nofun, fun _ _ hok => ?_⟩
        obtain rfl : status = .ok := hok
        obtain ⟨hfit, hfull⟩ := hready hend
        obtain ⟨-, hlen, hlines, hstored, hno⟩ := (hs.pending hresp).resolve_left hfull
        obtain ⟨-, hbuf⟩ := storeLine_fits hne hfit hlen hstored
        rw [if_pos hfit, hlines] at hend
        refine ⟨⟨s.handled, line, rfl, ?_, ?_⟩, hbuf, ?_⟩
        · exact hnum ▸ hno
        · simpa [endResponse, hnum] using hend
        · simp [endResponse, if_pos hfit, hlines]
      · next hend =>
        have hsame : (storeLine s line).pc = s.pc ∧ (storeLine s line).resp = s.resp ∧
            (storeLine s line).respNotice = s.respNotice := by
          unfold storeLine
          split <;> exact ⟨rfl, rfl, rfl⟩
        refine ⟨fun hidle => absurd (hsame.1.symm.trans hidle) hpc,
          fun _ => hsame.2.2.trans (hs.notice hresp), fun _ => ?_,
          fun _ hfalse => absurd (hresp.symm.trans (hsame.2.1.symm.trans hfalse)) nofun⟩
        by_cases hfit : Fits s line
        · have hstatus : (storeLine s line).respStatus = s.respStatus := by
            simp [storeLine, if_pos hfit]
          rcases hs.pending hresp with hfull | ⟨hok, hlen, hlines, hstored, hno⟩
          · exact .inl (hstatus.trans hfull)
          · obtain ⟨hlen', hbuf⟩ := storeLine_fits hne hfit hlen hstored
            rw [if_pos hfit, hlines] at hend
            refine .inr ⟨hstatus.trans hok, hlen', ?_, hbuf, hnum ▸ hno.snoc hend⟩
            simp [if_pos hfit, hlines]
        · exact .inl (by simp [storeLine, if_neg hfit])
    · exact hs

theorem ClientOk.step (hs : ClientOk s) (hready : ParserReady urcTable s a)
    (h : atClientStep urcTable s a = some s') : ClientOk s' := by
  cases a with
  | send resp => exact ClientOk.send hready h
  | await => exact hs.await hready h
  | notified =>
    obtain ⟨⟨result, s'⟩, hret, rfl⟩ := Option.map_eq_some_iff.mp h
    unfold execNotified at hret
    split at hret
    · cases Option.some.inj hret
      exact ⟨fun _ => rfl, nofun, nofun, fun hpc => absurd rfl hpc⟩
    · cases hret
  | expire =>
    simp only [atClientStep, execExpire] at h
    split at h
    · next hwait =>
      cases Option.some.inj h
      refine ⟨nofun, hs.notice, hs.pending, fun _ => hs.ended ?_⟩
      simp [hwait.1]
    · cases h
  | giveUp =>
    obtain ⟨⟨result, s'⟩, hret, rfl⟩ := Option.map_eq_some_iff.mp h
    unfold execGiveUp at hret
    split at hret
    · cases Option.some.inj hret
      exact ⟨fun _ => rfl, nofun, nofun, fun hpc => absurd rfl hpc⟩
    · cases hret
  | line bytes =>
    simp only [atClientStep] at h
    split at h
    · cases h
    · next hne =>
      cases Option.some.inj h
      exact hs.parse hne hready

end

/-- The client as it is initialised; no command is under way. -/
def idleClient (response : AtResponse) : AtClient := ⟨false, .ok, 0, 0, 0, .idle, response, []⟩

/-- Whenever a command returns `RT_EOK`, its response holds the lines handled since it was sent, up
to the one that ends it. -/
theorem execCmd_returns_own {urcTable : List AtUrc} {response : AtResponse} {s s' : AtClient}
    (hr : Reach (atClientStep urcTable) (ParserReady urcTable) (· = idleClient response) s)
    (h : execNotified s = some (.eok, s')) : OwnResponse s' := by
  have hs : ClientOk s := by
    refine hr.invariant ?_ fun s a s' hs hready h => hs.step hready h
    rintro s rfl
    exact ⟨fun _ => rfl, nofun, nofun, fun hpc => absurd rfl hpc⟩
  exact hs.own h

/-- `OK` -/
def okLine : List UInt8 := [79, 75, 13, 10]

def emptyResponse : AtResponse := ⟨[0, 0, 0, 0, 0, 0, 0, 0], 0, 0, 300⟩

theorem execCmd_returns_own_ok : ∃ s s',
    runFrom (atClientStep []) [.send (some emptyResponse), .await, .line okLine]
        (idleClient emptyResponse) = some s ∧
      execNotified s = some (.eok, s') ∧ OwnResponse s' := by
  have hmeets : RunMeets (atClientStep []) (ParserReady [])
      [.send (some emptyResponse), .await, .line okLine] (idleClient emptyResponse) := by
    refine ⟨⟨rfl, rfl, rfl⟩, ?_⟩
    rintro _ ⟨⟩
    refine ⟨rfl, ?_⟩
    rintro _ ⟨⟩
    exact ⟨fun _ _ _ => ⟨by decide, nofun⟩, fun _ _ => trivial⟩
  exact ⟨_, _, rfl, rfl, execCmd_returns_own (Reach.runFrom hmeets (.start rfl) rfl) rfl⟩

/-- A line that does not fit is dropped, and `OK` after it makes the command return `RT_EOK`. -/
theorem execCmd_drops_line : ∃ s s',
    runFrom (atClientStep []) [.send (some emptyResponse), .await,
        .line [65, 66, 67, 68, 69, 70, 71, 13, 10], .line okLine]
        (idleClient emptyResponse) = some s ∧
      execNotified s = some (.eok, s') ∧ ¬OwnResponse s' :=
  ⟨_, _, rfl, rfl, fun h => absurd h.2.2 (by decide)⟩

end RTThread
