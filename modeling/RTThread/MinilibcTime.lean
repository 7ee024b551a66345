import RTThread.Calendar

namespace RTThread

/-- `struct tm` without what neither function touches. -/
structure Tm where
  sec : Nat
  min : Nat
  hour : Nat
  mday : Nat
  mon : Nat
  year : Nat
  wday : Nat
  yday : Nat
deriving DecidableEq

def spmTable : List Nat := [0, 31, 59, 90, 120, 151, 181, 212, 243, 273, 304, 334, 365]

/-- `__spm[i]`; `none` is an access behind the table. -/
def spm (i : Nat) : Option Nat := spmTable[i]?

/-- `__isleap`. -/
def isleap (year : Nat) : Bool := year % 4 = 0 ∧ (year % 100 ≠ 0 ∨ ¬ year % 400 ≠ 0)

/-- The loop over the years of `gmtime_r`, with at most `fuel` turns. -/
def yearTurns : Nat → Nat → Nat → Option (Nat × Nat)
  | 0, _, _ => none
  | fuel + 1, i, work =>
    let k := if isleap i then 366 else 365
    if k ≤ work then yearTurns fuel (i + 1) (work - k) else some (i, work)

/-- The loop `for (i = 11; i && (__spm[i] > work); --i)`. -/
def monthTurns (work : Nat) : Nat → Option Nat
  | 0 => some 0
  | i + 1 => do
    let before ← spm (i + 1)
    if work < before then monthTurns work i else some (i + 1)

/-- For `timep` not before 1970. -/
def gmtimeR (timep : Nat) : Option Tm := do
  let work := timep % (24 * 60 * 60)
  let sec := work % 60
  let work := work / 60
  let min := work % 60
  let hour := work / 60
  let work := timep / (24 * 60 * 60)
  let wday := (4 + work) % 7
  let (i, work) ← yearTurns (work + 1) 1970 work
  let year := i - 1900
  let yday := work
  let february := isleap i && 58 < work
  let mday := if february && work == 59 then 2 else 1
  let work := if february then work - 1 else work
  let mon ← monthTurns work 11
  let before ← spm mon
  some ⟨sec, min, hour, mday + (work - before), mon, year, wday, yday⟩

namespace Tm

/-- The first three carries of `mktime`. -/
def carrySec (t : Tm) : Tm :=
  if 60 < t.sec then { t with min := t.min + t.sec / 60, sec := t.sec % 60 } else t

def carryMin (t : Tm) : Tm :=
  if 60 < t.min then { t with hour := t.hour + t.min / 60, min := t.min % 60 } else t

def carryHour (t : Tm) : Tm :=
  if 24 < t.hour then { t with mday := t.mday + t.hour / 24, hour := t.hour % 24 } else t

def carryMon (t : Tm) : Tm :=
  if 12 < t.mon then { t with year := t.year + t.mon / 12, mon := t.mon % 12 } else t

/-- A turn of the loop over the days. -/
def dayTurn (t : Tm) (before : Nat) : Tm :=
  let mday := if t.mon = 1 ∧ isleap (t.year + 1900) then t.mday - 1 else t.mday
  let t := { t with mday := mday - before, mon := t.mon + 1 }
  if 11 < t.mon then { t with mon := 0, year := t.year + 1 } else t

/-- The loop over the days, with at most `fuel` turns. -/
def dayTurns : Nat → Tm → Option Tm
  | 0, _ => none
  | fuel + 1, t => do
    let limit ← spm (1 + t.mon)
    if limit < t.mday then
      let before ← spm t.mon
      dayTurns fuel (t.dayTurn before)
    else some t

/-- The days of whole years since 1970, as `mktime` counts them. -/
def yearsDay (years : Int) : Int :=
  let day := years * 365 + (years + 1).tdiv 4
  if 131 ≤ years then
    let years := (years - 131) / 100
    let day := day - (years / 4 * 3 + 1)
    let years := years % 4
    day - (if years = 3 then years - 1 else years)
  else day

/-- The rest of `mktime`, with the years counted before the carries. -/
def finish (years : Int) (t : Tm) : Option (Int × Tm) := do
  if t.year < 70 then some (-1, t)
  else do
    let before ← spm t.mon
    let yday := before + t.mday - 1 + if isleap (t.year + 1900) ∧ 1 < t.mon then 1 else 0
    let day := yearsDay years + yday
    let wday := ((day + 4).tmod 7).toNat
    some (((day * 24 + t.hour) * 60 + t.min) * 60 + t.sec, { t with yday := yday, wday := wday })

/-- For fields that are not negative; the result is not cut to 32 bits. -/
def mktime (t : Tm) : Option (Int × Tm) := do
  let years := (t.year : Int) - 70
  let t := t.carrySec.carryMin.carryHour.carryMon
  let t ← dayTurns (2 * t.mday + 2) t
  finish years t

/-- The day of the fields, whose day of the month need not be one. -/
def day (t : Tm) : CivilDay := ⟨t.year - 70, t.mon, t.mday⟩

/-- The calendar instant of the fields, with the months carried into the years; what other fields
exceed counts in their own units. -/
def instant (t : Tm) : Nat :=
  (CivilDay.number 1970 ⟨t.year - 70 + t.mon / 12, t.mon % 12, t.mday⟩ * 24 + t.hour) * 3600 + t.min * 60 +
    t.sec

/-- The fields of the instant `time`, in normal form. -/
structure IsTime (t : Tm) (time : Nat) : Prop where
  sec : t.sec < 60
  min : t.min < 60
  hour : t.hour < 24
  year : 70 ≤ t.year
  day : t.day.Valid 1970
  time : (t.day.number 1970 * 24 + t.hour) * 3600 + t.min * 60 + t.sec = time
  yday : t.yday = daysBeforeMonth (leapYear (1970 + t.day.n)) t.mon + t.mday - 1
  wday : t.wday = (4 + t.day.number 1970) % 7

end Tm

section
variable {t r : Tm} {time work fuel i m n : Nat}

theorem isleap_eq (y : Nat) : isleap y = leapYear y := by
  unfold isleap leapYear
  simp only [ne_eq, not_not]

/-- `__spm` counts the days before the months of a year that is not a leap year. -/
theorem spm_eq (h : m < 13) : spm m = some (daysBeforeMonth false m) := by
  interval_cases m <;> rfl

theorem daysBeforeMonth_leap : ∀ m < 13,
    daysBeforeMonth true m = daysBeforeMonth false m + if 1 < m then 1 else 0 := by
  decide

theorem monthDays_le : ∀ leap, ∀ m < 12, monthDays leap m ≤ daysBeforeMonth false (m + 1) := by
  decide

theorem yearTurns_spec (h : work < fuel) : ∃ n rest, yearTurns fuel i work = some (i + n, rest) ∧
    work = daysBeforeYear i n + rest ∧ rest < yearDays (i + n) := by
  induction fuel generalizing i work with
  | zero => exact absurd h (Nat.not_lt_zero work)
  | succ fuel ih =>
    have hyear : (if isleap i then 366 else 365) = yearDays i := by
      rw [isleap_eq]
      rfl
    have hbounds := yearDays_bounds i
    unfold yearTurns
    simp only [hyear]
    split
    next hle =>
      obtain ⟨n, rest, hrun, hsum, hlt⟩ := @ih (work - yearDays i) (i + 1) (by omega)
      rw [show i + 1 + n = i + (n + 1) by omega] at hrun hlt
      refine ⟨n + 1, rest, hrun, ?_, hlt⟩
      rw [daysBeforeYear_succ_front]
      omega
    next hgt => exact ⟨0, work, rfl, (Nat.zero_add work).symm, by simpa using hgt⟩

theorem monthTurns_spec (hi : i < 12) (h : work < daysBeforeMonth false (i + 1)) :
    ∃ m ≤ i, monthTurns work i = some m ∧ daysBeforeMonth false m ≤ work ∧
      work < daysBeforeMonth false (m + 1) := by
  induction i with
  | zero => exact ⟨0, Nat.le_refl 0, rfl, Nat.zero_le work, h⟩
  | succ i ih =>
    unfold monthTurns
    rw [spm_eq (by omega), Option.bind_eq_bind, Option.bind_some]
    split
    next hlt =>
      obtain ⟨m, hm, hrun, hmonth⟩ := ih (by omega) hlt
      exact ⟨m, by omega, hrun, hmonth⟩
    next hge => exact ⟨i + 1, Nat.le_refl _, rfl, by omega, h⟩

/-- The month of a day of the year, with the patch for 29 February. -/
theorem month_of_day (leap : Bool) (h : work < if leap then 366 else 365) :
    ∃ m < 12, monthTurns (if leap && 58 < work then work - 1 else work) 11 = some m ∧
      1 ≤ (if (leap && 58 < work) && work == 59 then 2 else 1) +
        ((if leap && 58 < work then work - 1 else work) - daysBeforeMonth false m) ∧
      (if (leap && 58 < work) && work == 59 then 2 else 1) +
        ((if leap && 58 < work then work - 1 else work) - daysBeforeMonth false m) ≤ monthDays leap m ∧
      daysBeforeMonth leap m + ((if (leap && 58 < work) && work == 59 then 2 else 1) +
        ((if leap && 58 < work then work - 1 else work) - daysBeforeMonth false m)) - 1 = work := by
  have hyear : (if leap && 58 < work then work - 1 else work) < daysBeforeMonth false (11 + 1) := by
    show _ < 365
    cases leap
    · simpa using h
    · simp only [Bool.true_and, decide_eq_true_eq, if_true] at h ⊢
      split <;> omega
  obtain ⟨m, hm, hrun, hlow, hhigh⟩ := monthTurns_spec (by decide) hyear
  refine ⟨m, by omega, hrun, ?_⟩
  have hdays : daysBeforeMonth false (m + 1) = daysBeforeMonth false m + monthDays false m := rfl
  cases leap with
  | false =>
    simp only [Bool.false_and, if_neg Bool.false_ne_true] at hlow hhigh ⊢
    omega
  | true =>
    have hbefore := daysBeforeMonth_leap m (by omega)
    simp only [Bool.true_and, decide_eq_true_eq, Bool.and_eq_true, beq_iff_eq] at hlow hhigh ⊢
    -- Only February has a day more, and it is reached from the days up to the 59th.
    have hmonth : monthDays true m = monthDays false m + if m = 1 then 1 else 0 := by
      interval_cases m <;> rfl
    have hearly : (58 < work → 59 ≤ work) ∧ daysBeforeMonth false 1 = 31 ∧ daysBeforeMonth false 2 = 59 :=
      ⟨id, rfl, rfl⟩
    by_cases hfeb : 58 < work
    · rw [if_pos hfeb] at hlow hhigh ⊢
      by_cases hday : work = 59
      · rw [if_pos ⟨hfeb, hday⟩]
        obtain rfl : m = 1 := by
          by_contra hne
          rcases Nat.lt_or_ge m 1 with h0 | h2
          · have := daysBeforeMonth_mono false (show m + 1 ≤ 1 by omega)
            omega
          · have := daysBeforeMonth_mono false (show 2 ≤ m by omega)
            omega
        simp only [if_true] at hmonth
        simp only [show ¬ 1 < 1 by decide, if_false] at hbefore
        omega
      · rw [if_neg fun h => hday h.2]
        have h2 : 2 ≤ m := by
          by_contra hlt
          have := daysBeforeMonth_mono false (show m + 1 ≤ 2 by omega)
          omega
        rw [if_pos (by omega)] at hbefore
        rw [if_neg (by omega)] at hmonth
        omega
    · rw [if_neg hfeb] at hlow hhigh ⊢
      rw [if_neg fun h => hfeb h.1]
      have h1 : m ≤ 1 := by
        by_contra hlt
        have := daysBeforeMonth_mono false (show 2 ≤ m by omega)
        omega
      rw [if_neg (by omega)] at hbefore
      split at hmonth <;> omega

/-- `gmtime_r` ends with the date and the time of its argument. -/
theorem gmtimeR_isTime (time : Nat) : ∃ r, gmtimeR time = some r ∧ r.IsTime time := by
  obtain ⟨n, rest, hyears, hsum, hrest⟩ := yearTurns_spec (i := 1970)
    (show time / (24 * 60 * 60) < time / (24 * 60 * 60) + 1 from Nat.lt_succ_self _)
  have hleap : isleap (1970 + n) = leapYear (1970 + n) := isleap_eq _
  obtain ⟨m, hm, hmonth, hfirst, hlast, hday⟩ := month_of_day (leapYear (1970 + n)) hrest
  unfold gmtimeR
  simp only [hyears, Option.bind_eq_bind, Option.bind_some, hleap, hmonth, spm_eq (show m < 13 by omega)]
  have hnumber : CivilDay.number 1970 ⟨n, m, (if (leapYear (1970 + n) && decide (58 < rest)) && rest == 59 then 2 else 1) +
      ((if leapYear (1970 + n) && decide (58 < rest) then rest - 1 else rest) - daysBeforeMonth false m)⟩ =
      time / (24 * 60 * 60) := by
    unfold CivilDay.number
    simp only
    omega
  refine ⟨_, rfl, ?_⟩
  have hyear : 1970 + n - 1900 - 70 = n := by omega
  refine ⟨Nat.mod_lt _ (by decide), Nat.mod_lt _ (by decide), ?_, by simp only; omega, ?_, ?_, ?_, ?_⟩
  · simp only
    omega
  · unfold Tm.day
    rw [hyear]
    exact ⟨hm, hfirst, hlast⟩
  · unfold Tm.day
    rw [hyear, hnumber]
    simp only
    omega
  · unfold Tm.day
    simp only [hyear]
    exact hday.symm
  · unfold Tm.day
    rw [hyear, hnumber]

/-- Every fourth of these years is a leap year: 2000 is one, and 2100 lies behind them. -/
theorem leapYear_fourth (h : n < 130) : leapYear (1970 + n) = decide (n % 4 = 2) := by
  unfold leapYear
  rw [decide_eq_decide]
  omega

/-- The closed formula of `mktime` up to the year 2100. -/
theorem daysBeforeYear_closed (h : n ≤ 130) : daysBeforeYear 1970 n = n * 365 + (n + 1) / 4 := by
  induction n with
  | zero => rfl
  | succ n ih =>
    rw [daysBeforeYear, ih (by omega), yearDays, leapYear_fourth (by omega)]
    simp only [decide_eq_true_eq]
    split <;> omega

theorem yearsDay_eq (h : n ≤ 130) : Tm.yearsDay n = daysBeforeYear 1970 n := by
  have hquot : ((n : Int) + 1).tdiv 4 = ((n + 1) / 4 : Nat) := Int.tdiv_eq_ediv_of_nonneg (by omega)
  unfold Tm.yearsDay
  rw [if_neg (by omega), hquot, daysBeforeYear_closed h]
  push_cast
  ring

theorem Tm.dayTurns_stop (fuel : Nat) (hmon : t.mon < 12)
    (hday : t.mday ≤ daysBeforeMonth false (t.mon + 1)) :
    Tm.dayTurns (fuel + 1) t = some t := by
  unfold dayTurns
  rw [Nat.add_comm 1, spm_eq (by omega), Option.bind_eq_bind, Option.bind_some, if_neg (Nat.not_lt.mpr hday)]

/-- The rest of `mktime` once the fields are settled. -/
theorem Tm.finish_spec (years : Int) (hyear : 70 ≤ t.year) (hmon : t.mon < 12) (hmday : 1 ≤ t.mday) :
    Tm.finish years t = some
      ((((Tm.yearsDay years + (daysBeforeMonth (leapYear (1970 + t.day.n)) t.mon + t.mday - 1 : Nat)) * 24 +
          t.hour) * 60 + t.min) * 60 + t.sec,
        { t with
          yday := daysBeforeMonth (leapYear (1970 + t.day.n)) t.mon + t.mday - 1
          wday := ((Tm.yearsDay years +
            (daysBeforeMonth (leapYear (1970 + t.day.n)) t.mon + t.mday - 1 : Nat) + 4).tmod 7).toNat }) := by
  have hsame : 1970 + t.day.n = t.year + 1900 := by
    unfold day
    simp only
    omega
  have hyday : daysBeforeMonth false t.mon + t.mday - 1 +
      (if isleap (t.year + 1900) ∧ 1 < t.mon then 1 else 0) =
      daysBeforeMonth (leapYear (1970 + t.day.n)) t.mon + t.mday - 1 := by
    rw [hsame, isleap_eq]
    cases leapYear (t.year + 1900) with
    | false => simp
    | true =>
      rw [daysBeforeMonth_leap t.mon (by omega)]
      simp only [true_and]
      omega
  unfold finish
  rw [if_neg (by omega), spm_eq (by omega)]
  simp only [Option.bind_eq_bind, Option.bind_some, hyday]

/-- Settled fields with their own year. -/
theorem Tm.finish_isTime (hsec : t.sec < 60) (hmin : t.min < 60) (hhour : t.hour < 24) (hyear : 70 ≤ t.year)
    (hday : t.day.Valid 1970) (hn : t.year - 70 ≤ 130) :
    ∃ r, Tm.finish ((t.year : Int) - 70) t =
        some ((((t.day.number 1970 * 24 + t.hour) * 3600 + t.min * 60 + t.sec : Nat) : Int), r) ∧
      r.IsTime ((t.day.number 1970 * 24 + t.hour) * 3600 + t.min * 60 + t.sec) ∧
      r = { t with yday := r.yday, wday := r.wday } := by
  have hfirst : 1 ≤ t.mday := hday.first
  have hyears : Tm.yearsDay ((t.year : Int) - 70) = daysBeforeYear 1970 (t.year - 70) := by
    rw [← yearsDay_eq hn, Nat.cast_sub hyear]
    rfl
  have hnumber : Tm.yearsDay ((t.year : Int) - 70) +
      (daysBeforeMonth (leapYear (1970 + t.day.n)) t.mon + t.mday - 1 : Nat) = t.day.number 1970 := by
    rw [hyears]
    unfold CivilDay.number day
    simp only
    omega
  rw [Tm.finish_spec _ hyear hday.month hfirst, hnumber]
  have hwday : (((t.day.number 1970 : Int) + 4).tmod 7).toNat = (4 + t.day.number 1970) % 7 := by
    rw [Int.tmod_eq_emod_of_nonneg (by omega)]
    omega
  refine ⟨_, congrArg some (Prod.ext ?_ rfl), ⟨hsec, hmin, hhour, hyear, hday, rfl, rfl, hwday⟩, rfl⟩
  simp only
  push_cast
  ring

theorem Tm.carry_settled (hsec : t.sec < 60) (hmin : t.min < 60) (hhour : t.hour < 24) (hmon : t.mon < 12) :
    t.carrySec.carryMin.carryHour.carryMon = t := by
  have h1 : t.carrySec = t := if_neg (by omega)
  have h2 : t.carryMin = t := if_neg (by omega)
  have h3 : t.carryHour = t := if_neg (by omega)
  have h4 : t.carryMon = t := if_neg (by omega)
  rw [h1, h2, h3, h4]

/-- The instant of fields with a month of a year. -/
theorem Tm.instant_eq (hmon : t.mon < 12) :
    t.instant = (t.day.number 1970 * 24 + t.hour) * 3600 + t.min * 60 + t.sec := by
  unfold instant day
  rw [Nat.mod_eq_of_lt hmon, Nat.div_eq_of_lt hmon, Nat.add_zero]

/-- The years of an instant in the range of `time_t`. -/
theorem Tm.years_le (hmon : t.mon < 12) (hmday : 1 ≤ t.mday) (h : t.instant < 2147483648) :
    t.year - 70 ≤ 68 := by
  have hdays := le_daysBeforeYear 1970 t.day.n
  rw [t.instant_eq hmon] at h
  unfold CivilDay.number at h
  change 365 * (t.year - 70) ≤ _ at hdays
  have hday : 1 ≤ t.day.day := hmday
  omega

/-- `mktime` undoes what is in normal form. -/
theorem Tm.IsTime.mktime (h : r.IsTime time) (htime : time < 2147483648) : r.mktime = some ((time : Int), r) := by
  have hfirst : 1 ≤ r.mday := h.day.first
  have hmon : r.mon < 12 := h.day.month
  have hmday : r.mday ≤ monthDays (leapYear (1970 + r.day.n)) r.mon := h.day.last
  have hstop := monthDays_le (leapYear (1970 + r.day.n)) r.mon hmon
  have hyears : r.year - 70 ≤ 68 := Tm.years_le hmon hfirst (by rw [r.instant_eq hmon, h.time]; exact htime)
  obtain ⟨r', hrun, hr', hsame⟩ := Tm.finish_isTime h.sec h.min h.hour h.year h.day (by omega)
  unfold Tm.mktime
  simp only [Tm.carry_settled h.sec h.min h.hour hmon]
  rw [show 2 * r.mday + 2 = 2 * r.mday + 1 + 1 from rfl, Tm.dayTurns_stop _ hmon (hmday.trans hstop)]
  simp only [Option.bind_eq_bind, Option.bind_some, hrun, h.time]
  have hyday : r'.yday = r.yday := by
    rw [hr'.yday, h.yday, hsame]
    rfl
  have hwday : r'.wday = r.wday := by
    rw [hr'.wday, h.wday, hsame]
    rfl
  rw [hsame, hyday, hwday]

end

/-- `gmtime_r` gives the date and the time, and `mktime` leads back and leaves them as they are. -/
theorem mktime_gmtimeR (time : Nat) (htime : time < 2147483648) : ∃ r, gmtimeR time = some r ∧ r.IsTime time ∧
    r.mktime = some ((time : Int), r) := by
  obtain ⟨r, hrun, hr⟩ := gmtimeR_isTime time
  exact ⟨r, hrun, hr, hr.mktime htime⟩

/-- 29 February 2000, 12:00:01. -/
theorem mktime_gmtimeR_leapDay : ∃ r, gmtimeR 951825601 = some r ∧ r.mktime = some (951825601, r) ∧
    r = ⟨1, 0, 12, 29, 1, 100, 2, 59⟩ := by
  obtain ⟨r, hrun, -, hback⟩ := mktime_gmtimeR 951825601 (by decide)
  have hleap : gmtimeR 951825601 = some ⟨1, 0, 12, 29, 1, 100, 2, 59⟩ := by decide +kernel
  exact ⟨r, hrun, hback, Option.some.inj (hrun.symm.trans hleap)⟩

end RTThread
