import RTThread.Runs

namespace RTThread

/-- `struct timespec`. -/
structure Timespec where
  sec : Int
  nsec : Int
deriving DecidableEq

/-- `RT_TICK_PER_SECOND`. -/
structure ClockConfig where
  tickPerSecond : Nat
  divides : tickPerSecond ∣ 1000000

/-- `MICROSECOND_PER_TICK`. -/
def ClockConfig.microsecondPerTick (c : ClockConfig) : Nat := 1000000 / c.tickPerSecond

/-- What set `_timevalue`, at which tick: `clock_time_system_init` or `clock_settime`. -/
inductive ClockOrigin where
  | init (tick : Nat)
  | set (tick : Nat)
deriving DecidableEq

/-- `_timevalue` and the tick; `origin` and `last`, the reading taken last on it, are not stored. -/
structure Clock where
  sec : Int
  usec : Int
  tick : Nat
  origin : ClockOrigin
  last : Option Timespec
deriving DecidableEq

/-- The value of signed arithmetic in 32 bits; `none` is an overflow. -/
def int32 (x : Int) : Option Int := if -2147483648 ≤ x ∧ x < 2147483648 then some x else none

/-- A value of unsigned arithmetic kept in a signed variable. -/
def toInt32 (x : Int) : Int := x.bmod 4294967296

namespace Clock

variable (c : ClockConfig)

/-- `time` is that of the device `rtc`, or 0. -/
def clockTimeSystemInit (time : Int) (tick : Nat) : Clock where
  sec := toInt32 (time - (tick / c.tickPerSecond : Nat) - 1)
  usec := (tick % c.tickPerSecond * c.microsecondPerTick : Nat)
  tick := tick
  origin := .init tick
  last := none

def clockGettime (s : Clock) : Option Timespec := do
  let sec ← int32 (s.sec + (s.tick / c.tickPerSecond : Nat))
  some ⟨sec, toInt32 ((s.usec + (s.tick % c.tickPerSecond * c.microsecondPerTick : Nat)) * 1000)⟩

/-- The clock is set, whether or not there is a device `rtc` to be told. -/
def clockSettime (s : Clock) (tp : Timespec) : Clock where
  sec := toInt32 (tp.sec - (s.tick / c.tickPerSecond : Nat) - 1)
  usec := toInt32 (1000000 - (s.tick % c.tickPerSecond * c.microsecondPerTick : Nat))
  tick := s.tick
  origin := .set s.tick
  last := none

/-- `second` and `nsecond` of `clock_time_to_tick`. -/
def difference (time tp : Timespec) : Option (Int × Int) :=
  if time.nsec - tp.nsec < 0 then do
    let second ← int32 (time.sec - tp.sec)
    let second ← int32 (second - 1)
    some (second, toInt32 (1000000000 - (tp.nsec - time.nsec)))
  else do
    let second ← int32 (time.sec - tp.sec)
    some (second, time.nsec - tp.nsec)

/-- The quotient is one of unsigned numbers, as is the sum. -/
def clockTimeToTick (s : Clock) (time : Timespec) : Option Int := do
  let tp ← s.clockGettime c
  let (second, nsecond) ← difference time tp
  let whole ← int32 (second * c.tickPerSecond)
  let part ← int32 (nsecond * c.tickPerSecond)
  let tick := toInt32 (whole + part % 4294967296 / 1000000000)
  some (if tick < 0 then 0 else tick)

end Clock

inductive ClockAction where
  | tick
  | settime (tp : Timespec)
  | gettime
  | toTick (time : Timespec)
deriving DecidableEq

def clockStep (c : ClockConfig) (s : Clock) : ClockAction → Option Clock
  | .tick => if s.tick + 1 < 2147483648 then some { s with tick := s.tick + 1 } else none
  | .settime tp => some (s.clockSettime c tp)
  | .gettime => (s.clockGettime c).map fun r => { s with last := some r }
  | .toTick time => (s.clockTimeToTick c time).map fun _ => s

def ClockStart (c : ClockConfig) (s : Clock) : Prop :=
  ∃ time tick, tick < 2147483648 ∧ s = Clock.clockTimeSystemInit c time tick

def Timespec.Normal (r : Timespec) : Prop := 0 ≤ r.nsec ∧ r.nsec < 1000000000

/-- In the order of time, of readings that need not be normalised. -/
def Timespec.NotAfter (l r : Timespec) : Prop := l.sec < r.sec ∨ l.sec = r.sec ∧ l.nsec ≤ r.nsec

def Timespec.nanoseconds (r : Timespec) : Int := r.sec * 1000000000 + r.nsec

/-- A reading is normalised and not before the last one. -/
def Clock.ReadsRight (c : ClockConfig) (s : Clock) (r : Timespec) : Prop :=
  s.clockGettime c = some r ∧ r.Normal ∧ ∀ l ∈ s.last, l.NotAfter r

/-- What is claimed of a call in a state. -/
def ClockRight (c : ClockConfig) (s : Clock) : ClockAction → Prop
  | .tick => True
  | .settime tp => ∃ r, (s.clockSettime c tp).clockGettime c = some r ∧ r.sec = tp.sec
  | .gettime => ∃ r, s.ReadsRight c r
  | .toTick time => ∃ r, s.ReadsRight c r ∧ s.clockTimeToTick c time =
      some (max 0 ((time.nanoseconds - r.nanoseconds) * c.tickPerSecond / 1000000000))

/-- The fraction of a second in ticks, added to that which the clock was set at, is less than a
second. -/
def ClockOrigin.InPhase (c : ClockConfig) (tick : Nat) : ClockOrigin → Prop
  | .init t => t % c.tickPerSecond + tick % c.tickPerSecond < c.tickPerSecond
  | .set t => tick % c.tickPerSecond < t % c.tickPerSecond

/-- The time on the clock in nanoseconds. -/
def Clock.now (c : ClockConfig) (s : Clock) : Int :=
  s.sec * 1000000000 + s.usec * 1000 + s.tick * (c.microsecondPerTick * 1000)

def Clock.ReadsOk (c : ClockConfig) (s : Clock) : Prop :=
  s.sec + (s.tick / c.tickPerSecond : Nat) < 2147483648 ∧ s.origin.InPhase c s.tick

/-- Of the distance to `time`, the ticks of its seconds, those of its nanoseconds times 10^9, and all
its ticks fit an `int`. -/
def ClockOk (c : ClockConfig) (s : Clock) : ClockAction → Prop
  | .tick => True
  | .settime _ => False
  | .gettime => s.ReadsOk c
  | .toTick time => s.ReadsOk c ∧
      time.sec - (s.sec + (s.tick / c.tickPerSecond : Nat)) < 2147483648 ∧
      -2147483648 ≤ (time.nanoseconds - s.now c) / 1000000000 * c.tickPerSecond ∧
      (time.nanoseconds - s.now c) % 1000000000 * c.tickPerSecond < 2147483648 ∧
      (time.nanoseconds - s.now c) * c.tickPerSecond / 1000000000 < 2147483648

section
variable {c : ClockConfig} {s s' : Clock} {x y : Int}

theorem ClockConfig.pos (c : ClockConfig) : 0 < c.tickPerSecond :=
  Nat.pos_of_dvd_of_pos c.divides (by decide)

theorem ClockConfig.second (c : ClockConfig) : c.tickPerSecond * c.microsecondPerTick = 1000000 :=
  Nat.mul_div_cancel' c.divides

theorem ClockConfig.microsecond_pos (c : ClockConfig) : 0 < c.microsecondPerTick := by
  have hsecond := c.second
  exact Nat.pos_of_ne_zero fun h => by simp [h] at hsecond

/-- The ticks of a fraction of a second are shorter than a second. -/
theorem ClockConfig.phase_lt (c : ClockConfig) (tick : Nat) :
    tick % c.tickPerSecond * c.microsecondPerTick < 1000000 := by
  rw [← c.second]
  exact Nat.mul_lt_mul_of_pos_right (Nat.mod_lt _ c.pos) c.microsecond_pos

theorem int32_eq_some : int32 x = some y ↔ x = y ∧ -2147483648 ≤ x ∧ x < 2147483648 := by
  unfold int32
  rw [Option.ite_none_right_eq_some, Option.some.injEq]
  exact and_comm

theorem toInt32_of_range (h : -2147483648 ≤ x) (hx : x < 2147483648) : toInt32 x = x := by
  unfold toInt32
  rw [Int.bmod_def]
  split <;> omega

theorem toInt32_range (x : Int) : -2147483648 ≤ toInt32 x ∧ toInt32 x < 2147483648 := by
  unfold toInt32
  rw [Int.bmod_def]
  split <;> omega

/-- The microseconds that the clock begins with. -/
def ClockOrigin.microseconds (c : ClockConfig) : ClockOrigin → Nat
  | .init t => t % c.tickPerSecond * c.microsecondPerTick
  | .set t => 1000000 - t % c.tickPerSecond * c.microsecondPerTick

theorem ClockOrigin.microseconds_le (o : ClockOrigin) : o.microseconds c ≤ 1000000 := by
  cases o with
  | init t => exact (c.phase_lt t).le
  | set t => exact Nat.sub_le _ _

/-- The reading of the clock at a tick. -/
def Clock.readingAt (c : ClockConfig) (s : Clock) (tick : Nat) : Timespec :=
  ⟨s.sec + (tick / c.tickPerSecond : Nat),
    ((s.origin.microseconds c + tick % c.tickPerSecond * c.microsecondPerTick : Nat) : Int) * 1000⟩

structure ClockInv (c : ClockConfig) (s : Clock) : Prop where
  sec : -2147483648 ≤ s.sec
  usec : s.usec = s.origin.microseconds c
  tick : s.tick < 2147483648
  last : ∀ l ∈ s.last, ∃ tick ≤ s.tick, l = s.readingAt c tick

theorem ClockStart.inv (h : ClockStart c s) : ClockInv c s := by
  obtain ⟨time, tick, htick, rfl⟩ := h
  exact ⟨(toInt32_range _).1, rfl, htick, fun l hl => by cases hl⟩

theorem ClockInv.clockGettime (h : ClockInv c s) {r : Timespec} : s.clockGettime c = some r ↔
    r = s.readingAt c s.tick ∧ s.sec + (s.tick / c.tickPerSecond : Nat) < 2147483648 := by
  have hsec := h.sec
  have hphase := c.phase_lt s.tick
  have hbegin := s.origin.microseconds_le (c := c)
  have hnsec : toInt32 ((s.usec + (s.tick % c.tickPerSecond * c.microsecondPerTick : Nat)) * 1000) =
      ((s.origin.microseconds c + s.tick % c.tickPerSecond * c.microsecondPerTick : Nat) : Int) * 1000 := by
    rw [h.usec, Nat.cast_add]
    exact toInt32_of_range (by omega) (by omega)
  unfold Clock.clockGettime
  rw [hnsec]
  constructor
  · intro hread
    obtain ⟨sec, hint, hread⟩ := Option.bind_eq_some_iff.mp hread
    obtain ⟨rfl, -, hlt⟩ := int32_eq_some.mp hint
    exact ⟨(Option.some.inj hread).symm, hlt⟩
  · rintro ⟨rfl, hlt⟩
    have hquot := Int.natCast_nonneg (s.tick / c.tickPerSecond)
    exact Option.bind_eq_some_iff.mpr ⟨_, int32_eq_some.mpr ⟨rfl, by omega, hlt⟩, rfl⟩

theorem ClockInv.step {a : ClockAction} (h : ClockInv c s) (hs : clockStep c s a = some s') :
    ClockInv c s' := by
  cases a with
  | tick =>
    obtain ⟨hlt, hs⟩ := Option.ite_none_right_eq_some.mp hs
    obtain rfl := Option.some.inj hs
    refine ⟨h.sec, h.usec, hlt, fun l hl => ?_⟩
    obtain ⟨tick, hle, rfl⟩ := h.last l hl
    exact ⟨tick, Nat.le_succ_of_le hle, rfl⟩
  | settime tp =>
    obtain rfl := Option.some.inj hs
    have hphase := c.phase_lt s.tick
    refine ⟨(toInt32_range _).1, ?_, h.tick, fun l hl => by cases hl⟩
    show toInt32 _ = ((1000000 - s.tick % c.tickPerSecond * c.microsecondPerTick : Nat) : Int)
    rw [toInt32_of_range (by omega) (by omega)]
    omega
  | gettime =>
    obtain ⟨r, hread, rfl⟩ := Option.map_eq_some_iff.mp hs
    refine ⟨h.sec, h.usec, h.tick, fun l hl => ⟨s.tick, Nat.le_refl _, ?_⟩⟩
    obtain rfl := Option.some.inj hl
    exact (h.clockGettime.mp hread).1
  | toTick time =>
    obtain ⟨_, -, rfl⟩ := Option.map_eq_some_iff.mp hs
    exact h

/-- Later readings are not before earlier ones. -/
theorem readingAt_mono {i j : Nat} (hle : i ≤ j) : (s.readingAt c i).NotAfter (s.readingAt c j) := by
  have hquot := Nat.div_le_div_right (c := c.tickPerSecond) hle
  unfold Timespec.NotAfter Clock.readingAt
  rcases Nat.lt_or_eq_of_le hquot with hlt | heq
  · exact .inl (by simp only; omega)
  · have hi := Nat.div_add_mod i c.tickPerSecond
    have hj := Nat.div_add_mod j c.tickPerSecond
    rw [heq] at hi
    have hmod := Nat.mul_le_mul_right c.microsecondPerTick
      (show i % c.tickPerSecond ≤ j % c.tickPerSecond by omega)
    exact .inr ⟨by rw [heq], by simp only; omega⟩

theorem readingAt_normal (o : ClockOrigin) (tick : Nat) :
    o.microseconds c + tick % c.tickPerSecond * c.microsecondPerTick < 1000000 ↔ o.InPhase c tick := by
  have hpos := c.microsecond_pos
  cases o with
  | init t =>
    unfold ClockOrigin.microseconds ClockOrigin.InPhase
    simp only
    rw [← Nat.add_mul, ← c.second]
    exact Nat.mul_lt_mul_right hpos
  | set t =>
    have hphase := c.phase_lt t
    unfold ClockOrigin.microseconds ClockOrigin.InPhase
    simp only
    have hiff : tick % c.tickPerSecond * c.microsecondPerTick < t % c.tickPerSecond * c.microsecondPerTick ↔
        tick % c.tickPerSecond < t % c.tickPerSecond := Nat.mul_lt_mul_right hpos
    rw [← hiff]
    omega

theorem ClockInv.readsRight (h : ClockInv c s) {r : Timespec} :
    s.ReadsRight c r ↔ r = s.readingAt c s.tick ∧ s.ReadsOk c := by
  unfold Clock.ReadsRight Clock.ReadsOk
  rw [h.clockGettime, ← readingAt_normal]
  constructor
  · rintro ⟨⟨rfl, hsec⟩, ⟨-, hlt⟩, -⟩
    refine ⟨rfl, hsec, ?_⟩
    unfold Clock.readingAt at hlt
    simp only at hlt
    omega
  · rintro ⟨rfl, hsec, hlt⟩
    refine ⟨⟨rfl, hsec⟩, ⟨?_, ?_⟩, fun l hl => ?_⟩
    · unfold Clock.readingAt
      simp only
      omega
    · unfold Clock.readingAt
      simp only
      omega
    · obtain ⟨tick, hle, rfl⟩ := h.last l hl
      exact readingAt_mono hle

theorem ClockInv.readingAt_now (h : ClockInv c s) : (s.readingAt c s.tick).nanoseconds = s.now c := by
  have hdiv := Nat.div_add_mod s.tick c.tickPerSecond
  have hticks : (s.tick : Int) * (c.microsecondPerTick * 1000) =
      (s.tick / c.tickPerSecond : Nat) * 1000000000 +
        (s.tick % c.tickPerSecond * c.microsecondPerTick : Nat) * 1000 := by
    have hsecond : (c.tickPerSecond : Int) * c.microsecondPerTick = 1000000 := by
      exact_mod_cast c.second
    have hcast : (s.tick : Int) = c.tickPerSecond * (s.tick / c.tickPerSecond : Nat) +
        (s.tick % c.tickPerSecond : Nat) := by
      exact_mod_cast hdiv.symm
    rw [Nat.cast_mul]
    linear_combination (c.microsecondPerTick : Int) * 1000 * hcast +
      ((s.tick / c.tickPerSecond : Nat) : Int) * 1000 * hsecond
  unfold Timespec.nanoseconds Clock.readingAt Clock.now
  rw [hticks, h.usec]
  push_cast
  ring

/-- The clock reads a second less than it was set to. -/
theorem clockSettime_wrong (s : Clock) (tp : Timespec) {r : Timespec}
    (hread : (s.clockSettime c tp).clockGettime c = some r) : r.sec ≠ tp.sec := by
  obtain ⟨sec, hint, hread⟩ := Option.bind_eq_some_iff.mp hread
  obtain ⟨rfl, hlow, hhigh⟩ := int32_eq_some.mp hint
  obtain rfl := Option.some.inj hread
  unfold Clock.clockSettime toInt32 at hlow hhigh ⊢
  simp only [Int.bmod_def] at hlow hhigh ⊢
  omega

/-- The ticks of a distance are those of its seconds and those of its nanoseconds. -/
theorem ticks_of_distance (d : Int) (t : Nat) :
    d * t / 1000000000 = d / 1000000000 * t + d % 1000000000 * t / 1000000000 := by
  have hsplit : d * t = d % 1000000000 * t + 1000000000 * (d / 1000000000 * t) := by
    have hd := Int.mul_ediv_add_emod d 1000000000
    linear_combination -(t : Int) * hd
  rw [hsplit, Int.add_mul_ediv_left _ _ (by decide), Int.add_comm]

/-- Seconds and nanoseconds of the distance between normalised times. -/
theorem difference_eq_some {time tp : Timespec} (htime : time.Normal) (htp : tp.Normal) {d : Int × Int} :
    Clock.difference time tp = some d ↔ d = ((time.nanoseconds - tp.nanoseconds) / 1000000000,
      (time.nanoseconds - tp.nanoseconds) % 1000000000) ∧
      -2147483648 ≤ (time.nanoseconds - tp.nanoseconds) / 1000000000 ∧
      time.sec - tp.sec < 2147483648 := by
  obtain ⟨h0, h1⟩ := htime
  obtain ⟨h2, h3⟩ := htp
  unfold Clock.difference Timespec.nanoseconds
  split
  next hborrow =>
    have hnsec : toInt32 (1000000000 - (tp.nsec - time.nsec)) = 1000000000 - (tp.nsec - time.nsec) :=
      toInt32_of_range (by omega) (by omega)
    constructor
    · intro h
      obtain ⟨a, ha, h⟩ := Option.bind_eq_some_iff.mp h
      obtain ⟨b, hb, h⟩ := Option.bind_eq_some_iff.mp h
      obtain ⟨rfl, -, hhigh⟩ := int32_eq_some.mp ha
      obtain ⟨rfl, hlow, -⟩ := int32_eq_some.mp hb
      obtain rfl := Option.some.inj h
      rw [hnsec]
      exact ⟨Prod.ext (by simp only; omega) (by simp only; omega), by omega, hhigh⟩
    · rintro ⟨rfl, hlow, hhigh⟩
      refine Option.bind_eq_some_iff.mpr ⟨_, int32_eq_some.mpr ⟨rfl, by omega, hhigh⟩, ?_⟩
      refine Option.bind_eq_some_iff.mpr ⟨_, int32_eq_some.mpr ⟨rfl, by omega, by omega⟩, ?_⟩
      rw [hnsec]
      exact congrArg some (Prod.ext (by simp only; omega) (by simp only; omega))
  next hborrow =>
    constructor
    · intro h
      obtain ⟨a, ha, h⟩ := Option.bind_eq_some_iff.mp h
      obtain ⟨rfl, hlow, hhigh⟩ := int32_eq_some.mp ha
      obtain rfl := Option.some.inj h
      exact ⟨Prod.ext (by simp only; omega) (by simp only; omega), by omega, hhigh⟩
    · rintro ⟨rfl, hlow, hhigh⟩
      refine Option.bind_eq_some_iff.mpr ⟨_, int32_eq_some.mpr ⟨rfl, by omega, hhigh⟩, ?_⟩
      exact congrArg some (Prod.ext (by simp only; omega) (by simp only; omega))

theorem toTick_right_iff {time r : Timespec} (hread : s.clockGettime c = some r) (htime : time.Normal)
    (hr : r.Normal) : s.clockTimeToTick c time =
        some (max 0 ((time.nanoseconds - r.nanoseconds) * c.tickPerSecond / 1000000000)) ↔
      time.sec - r.sec < 2147483648 ∧
      -2147483648 ≤ (time.nanoseconds - r.nanoseconds) / 1000000000 * c.tickPerSecond ∧
      (time.nanoseconds - r.nanoseconds) % 1000000000 * c.tickPerSecond < 2147483648 ∧
      (time.nanoseconds - r.nanoseconds) * c.tickPerSecond / 1000000000 < 2147483648 := by
  have hpart : 0 ≤ (time.nanoseconds - r.nanoseconds) % 1000000000 * c.tickPerSecond :=
    Int.mul_nonneg (Int.emod_nonneg _ (by decide)) (Int.natCast_nonneg _)
  have hpos : (1 : Int) ≤ c.tickPerSecond := by exact_mod_cast c.pos
  unfold Clock.clockTimeToTick
  rw [hread, Option.bind_eq_bind, Option.bind_some, ticks_of_distance]
  constructor
  · intro h
    obtain ⟨d, hd, h⟩ := Option.bind_eq_some_iff.mp h
    obtain ⟨rfl, -, hhigh⟩ := (difference_eq_some htime hr).mp hd
    obtain ⟨whole, hwhole, h⟩ := Option.bind_eq_some_iff.mp h
    obtain ⟨part, hint, h⟩ := Option.bind_eq_some_iff.mp h
    obtain ⟨rfl, hlow, -⟩ := int32_eq_some.mp hwhole
    obtain ⟨rfl, -, hfits⟩ := int32_eq_some.mp hint
    refine ⟨hhigh, hlow, hfits, ?_⟩
    simp only at hpart hlow hfits h
    by_contra hover
    -- A number of ticks behind the largest int comes out negative and is taken for 0.
    have htick := Option.some.inj h
    unfold toInt32 at htick
    rw [Int.bmod_def] at htick
    omega
  · rintro ⟨hhigh, hlow, hfits, hlt⟩
    have hsecond : -2147483648 ≤ (time.nanoseconds - r.nanoseconds) / 1000000000 := by
      by_contra hfar
      nlinarith
    refine Option.bind_eq_some_iff.mpr ⟨_, (difference_eq_some htime hr).mpr ⟨rfl, hsecond, hhigh⟩, ?_⟩
    refine Option.bind_eq_some_iff.mpr ⟨_, int32_eq_some.mpr ⟨rfl, hlow, by omega⟩, ?_⟩
    refine Option.bind_eq_some_iff.mpr ⟨_, int32_eq_some.mpr ⟨rfl, by omega, hfits⟩, ?_⟩
    have htick : toInt32 ((time.nanoseconds - r.nanoseconds) / 1000000000 * c.tickPerSecond +
        (time.nanoseconds - r.nanoseconds) % 1000000000 * c.tickPerSecond % 4294967296 / 1000000000) =
        (time.nanoseconds - r.nanoseconds) / 1000000000 * c.tickPerSecond +
          (time.nanoseconds - r.nanoseconds) % 1000000000 * c.tickPerSecond / 1000000000 := by
      rw [Int.emod_eq_of_lt hpart (by omega)]
      exact toInt32_of_range (by omega) hlt
    simp only [htick]
    refine congrArg some ?_
    split <;> omega

/-- In every state a call does what is claimed of it exactly under the condition. -/
theorem ClockInv.right_iff (h : ClockInv c s) (a : ClockAction)
    (hvalid : ∀ time, a = .toTick time → time.Normal) : ClockRight c s a ↔ ClockOk c s a := by
  cases a with
  | tick => exact Iff.rfl
  | settime tp =>
    constructor
    · rintro ⟨r, hread, hsec⟩
      exact clockSettime_wrong s tp hread hsec
    · exact False.elim
  | gettime =>
    constructor
    · rintro ⟨r, hr⟩
      exact (h.readsRight.mp hr).2
    · exact fun hok => ⟨_, h.readsRight.mpr ⟨rfl, hok⟩⟩
  | toTick time =>
    have htime := hvalid time rfl
    have hright : ∀ r, s.ReadsRight c r →
        (s.clockTimeToTick c time =
          some (max 0 ((time.nanoseconds - r.nanoseconds) * c.tickPerSecond / 1000000000)) ↔
        time.sec - (s.sec + (s.tick / c.tickPerSecond : Nat)) < 2147483648 ∧
        -2147483648 ≤ (time.nanoseconds - s.now c) / 1000000000 * c.tickPerSecond ∧
        (time.nanoseconds - s.now c) % 1000000000 * c.tickPerSecond < 2147483648 ∧
        (time.nanoseconds - s.now c) * c.tickPerSecond / 1000000000 < 2147483648) := by
      intro r hr
      obtain ⟨rfl, -⟩ := h.readsRight.mp hr
      rw [toTick_right_iff hr.1 htime hr.2.1, h.readingAt_now]
      rfl
    constructor
    · rintro ⟨r, hr, htick⟩
      exact ⟨(h.readsRight.mp hr).2, (hright r hr).mp htick⟩
    · rintro ⟨hok, hfits⟩
      have hr := h.readsRight.mpr ⟨rfl, hok⟩
      exact ⟨_, hr, (hright _ hr).mpr hfits⟩

end

/-- After any ticks and calls, what a call does is right exactly under the condition on the clock and
its argument. -/
theorem clock_right_iff {c : ClockConfig} {s s' : Clock} (hstart : ClockStart c s) (as : List ClockAction)
    (hrun : runFrom (clockStep c) as s = some s') (a : ClockAction)
    (hvalid : ∀ time, a = .toTick time → time.Normal) : ClockRight c s' a ↔ ClockOk c s' a := by
  have hreach : Reach (clockStep c) (fun _ _ => True) (· = s) s' :=
    Reach.runFrom (runMeets_of_forall fun _ _ _ => trivial) (Reach.start rfl) hrun
  have hinv : ClockInv c s' := by
    refine hreach.invariant (I := ClockInv c) ?_ fun s a s' h _ hs => h.step hs
    rintro t rfl
    exact hstart.inv
  exact hinv.right_iff a hvalid

/-- 100 ticks a second. -/
def hundredTicks : ClockConfig := ⟨100, by decide⟩

/-- Started at tick 0 of the second 1000, and a tick later. -/
def startedClock : Clock := Clock.clockTimeSystemInit hundredTicks 1000 0

/-- The time 20 milliseconds ahead is two ticks ahead. -/
theorem startedClock_right : ∃ s, runFrom (clockStep hundredTicks) [.gettime, .tick, .tick, .gettime]
    startedClock = some s ∧ ClockRight hundredTicks s (.toTick ⟨999, 40000000⟩) := by
  have hrun : runFrom (clockStep hundredTicks) [.gettime, .tick, .tick, .gettime] startedClock =
      some ⟨999, 0, 2, .init 0, some ⟨999, 20000000⟩⟩ := by decide +kernel
  refine ⟨_, hrun, (clock_right_iff ⟨1000, 0, by decide, rfl⟩ _ hrun _ ?_).mpr ?_⟩
  · rintro time htime
    obtain rfl := ClockAction.toTick.inj htime
    exact ⟨by decide, by decide⟩
  · exact ⟨⟨by decide +kernel, (by decide : 0 % 100 + 2 % 100 < 100)⟩, by decide +kernel, by decide +kernel, by decide +kernel,
      by decide +kernel⟩

/-- Set to the second 5, the clock reads the second 4 with 10^9 nanoseconds. -/
theorem setClock_wrong : ∃ s, runFrom (clockStep hundredTicks) [.settime ⟨5, 0⟩] startedClock = some s ∧
    s.clockGettime hundredTicks = some ⟨4, 1000000000⟩ ∧ ¬ ClockRight hundredTicks startedClock (.settime ⟨5, 0⟩) ∧
    ¬ ClockRight hundredTicks s .gettime := by
  have hread : (startedClock.clockSettime hundredTicks ⟨5, 0⟩).clockGettime hundredTicks =
      some ⟨4, 1000000000⟩ := by decide +kernel
  refine ⟨_, rfl, hread, ?_, ?_⟩
  · rintro ⟨r, hr, hsec⟩
    obtain rfl := Option.some.inj (hread.symm.trans hr)
    exact absurd hsec (by decide)
  · rintro ⟨r, hr, ⟨-, hlt⟩, -⟩
    obtain rfl := Option.some.inj (hread.symm.trans hr)
    exact absurd hlt (by decide)

end RTThread
