import RTThread.MinilibcTime

namespace RTThread

section
variable {t r : Tm} {time fuel : Nat}

/-- The fields that `mktime` is given: not before 1970, and in the range of `time_t`. -/
structure Tm.Given (t : Tm) : Prop where
  year : 70 ≤ t.year
  mday : 1 ≤ t.mday
  fits : t.instant < 2147483648

/-- `mktime` returns the instant of the fields and leaves them in its normal form. -/
def Tm.MktimeRight (t : Tm) : Prop := ∃ r, t.mktime = some ((t.instant : Int), r) ∧ r.IsTime t.instant

/-- With what is carried into it no field is exactly its limit, the month is one, and the day is one of
the month. -/
structure Tm.Settles (t : Tm) : Prop where
  sec : t.sec ≠ 60
  min : t.min + t.sec / 60 ≠ 60
  hour : t.hour + (t.min + t.sec / 60) / 60 ≠ 24
  mon : t.mon < 12
  mday : t.mday + (t.hour + (t.min + t.sec / 60) / 60) / 24 ≤ monthDays (leapYear (1900 + t.year)) t.mon

/-- The number of the day, where the day of the month need not be one. -/
def Tm.ordinal (t : Tm) : Int :=
  daysBeforeYear 1970 (t.year - 70) + daysBeforeMonth (leapYear (t.year + 1900)) t.mon + t.mday

/-- How far a turn of the loop over the days leads away: it takes off the days before the month instead
of those of the month. -/
def turnError (m : Nat) : Int := daysBeforeMonth false (m + 1) - 2 * daysBeforeMonth false m

theorem Tm.dayTurn_spec (hyear : 70 ≤ t.year) (hmon : t.mon < 12)
    (hlate : daysBeforeMonth false (t.mon + 1) < t.mday) :
    (t.dayTurn (daysBeforeMonth false t.mon)).ordinal = t.ordinal + turnError t.mon ∧
      70 ≤ (t.dayTurn (daysBeforeMonth false t.mon)).year ∧
      (t.dayTurn (daysBeforeMonth false t.mon)).mon = (if t.mon = 11 then 0 else t.mon + 1) ∧
      (t.mon ≠ 1 → (t.dayTurn (daysBeforeMonth false t.mon)).mday = t.mday - daysBeforeMonth false t.mon) := by
  have hmonth : daysBeforeMonth false (t.mon + 1) = daysBeforeMonth false t.mon + monthDays false t.mon := rfl
  have hpos := monthDays_pos false t.mon
  -- The day that February has in a leap year is taken off separately.
  have hmday : (if t.mon = 1 ∧ isleap (t.year + 1900) then t.mday - 1 else t.mday) - daysBeforeMonth false t.mon +
      daysBeforeMonth (leapYear (t.year + 1900)) (t.mon + 1) + daysBeforeMonth false t.mon =
      t.mday + daysBeforeMonth (leapYear (t.year + 1900)) t.mon + monthDays false t.mon := by
    have hnext : daysBeforeMonth (leapYear (t.year + 1900)) (t.mon + 1) =
        daysBeforeMonth (leapYear (t.year + 1900)) t.mon + monthDays (leapYear (t.year + 1900)) t.mon := rfl
    rw [hnext, isleap_eq]
    by_cases hfeb : t.mon = 1 ∧ leapYear (t.year + 1900) = true
    · rw [if_pos hfeb, hfeb.1, hfeb.2]
      have hdays : monthDays true 1 = 29 ∧ monthDays false 1 = 28 ∧ daysBeforeMonth false 1 = 31 := ⟨rfl, rfl, rfl⟩
      rw [hfeb.1] at hmonth hlate
      omega
    · rw [if_neg hfeb]
      have hdays : monthDays (leapYear (t.year + 1900)) t.mon = monthDays false t.mon := by
        cases hleap : leapYear (t.year + 1900) with
        | false => rfl
        | true =>
          have hne : t.mon ≠ 1 := fun h => hfeb ⟨h, hleap⟩
          unfold monthDays
          split <;> simp_all
      omega
  unfold dayTurn
  by_cases hlast : 11 < t.mon + 1
  · have h11 : t.mon = 11 := by omega
    simp only [if_pos hlast, if_pos h11]
    refine ⟨?_, by omega, trivial, fun hne => by rw [if_neg fun h => hne h.1]⟩
    unfold ordinal turnError
    simp only
    rw [show t.year + 1 - 70 = t.year - 70 + 1 by omega, daysBeforeYear,
      show 1970 + (t.year - 70) = t.year + 1900 by omega]
    have hyearDays : daysBeforeMonth (leapYear (t.year + 1900)) (t.mon + 1) = yearDays (t.year + 1900) := by
      rw [h11]
      exact daysBeforeMonth_year _
    have hzero : daysBeforeMonth (leapYear (t.year + 1 + 1900)) 0 = 0 := rfl
    rw [hyearDays] at hmday
    rw [hzero]
    omega
  · have h11 : t.mon ≠ 11 := by omega
    simp only [if_neg hlast, if_neg h11]
    refine ⟨?_, hyear, trivial, fun hne => by rw [if_neg fun h => hne h.1]⟩
    unfold ordinal turnError
    simp only
    omega

/-- Where a run of the loop can be: `error` days from the day it began with, in the month `m`. -/
def Astray (error : Int) (m mday : Nat) : Prop :=
  m = 1 ∧ error = 31 ∨ m = 2 ∧ error = 28 ∨ m = 3 ∧ error = 0 ∧ 30 < mday ∨ error < 0 ∧ (m = 0 → error < -31)

theorem Astray.not_settled {error : Int} {m mday : Nat} {leap : Bool} (h : Astray error m mday)
    (hzero : error = 0) : ¬ mday ≤ monthDays leap m := by
  rcases h with h | h | ⟨rfl, -, hmday⟩ | h
  · omega
  · omega
  · exact Nat.not_le.mpr hmday
  · omega

theorem turnError_values : turnError 0 = 31 ∧ turnError 1 = -3 ∧ turnError 2 = -28 ∧
    (∀ m < 12, 3 ≤ m → turnError m ≤ -60) ∧ turnError 11 = -303 := by
  decide

/-- The first turn leads astray. -/
theorem Astray.first {m : Nat} (mday : Nat) (hm : m < 12) :
    Astray (turnError m) (if m = 11 then 0 else m + 1) mday := by
  obtain ⟨h0, h1, h2, h3, h11⟩ := turnError_values
  have hfar := h3 m hm
  unfold Astray
  rcases Nat.lt_or_ge m 3 with hlt | hge
  · interval_cases m
    · exact .inl ⟨rfl, h0⟩
    · exact .inr (.inr (.inr ⟨by rw [h1]; decide, by simp⟩))
    · exact .inr (.inr (.inr ⟨by rw [h2]; decide, by simp⟩))
  · refine .inr (.inr (.inr ⟨by have := hfar hge; omega, ?_⟩))
    split
    next h => rw [h, h11]; exact fun _ => by decide
    next => exact fun h => absurd h (Nat.succ_ne_zero m)

/-- Further turns stay astray. -/
theorem Astray.turn {error : Int} {m mday mday' : Nat} (h : Astray error m mday) (hm : m < 12)
    (hlate : daysBeforeMonth false (m + 1) < mday)
    (hmday : m ≠ 1 → mday' = mday - daysBeforeMonth false m) :
    Astray (error + turnError m) (if m = 11 then 0 else m + 1) mday' := by
  obtain ⟨h0, h1, h2, h3, h11⟩ := turnError_values
  have hfar := h3 m hm
  unfold Astray
  rcases h with ⟨rfl, rfl⟩ | ⟨rfl, rfl⟩ | ⟨rfl, rfl, -⟩ | ⟨herror, hjan⟩
  · exact .inr (.inl ⟨rfl, by rw [h1]; decide⟩)
  · refine .inr (.inr (.inl ⟨rfl, by rw [h2]; decide, ?_⟩))
    have hbefore : daysBeforeMonth false 2 = 59 ∧ daysBeforeMonth false (2 + 1) = 90 := ⟨rfl, rfl⟩
    rw [hmday (by decide)]
    omega
  · have := hfar (Nat.le_refl 3)
    exact .inr (.inr (.inr ⟨by omega, by simp⟩))
  · refine .inr (.inr (.inr ?_))
    rcases Nat.lt_or_ge m 3 with hlt | hge
    · interval_cases m
      · have := hjan rfl
        exact ⟨by omega, by simp⟩
      · exact ⟨by omega, by simp⟩
      · exact ⟨by omega, by simp⟩
    · have := hfar hge
      refine ⟨by omega, ?_⟩
      split
      next h => rw [h, h11]; exact fun _ => by omega
      next => exact fun h => absurd h (Nat.succ_ne_zero m)

theorem Tm.dayTurns_astray {error : Int} (hyear : 70 ≤ t.year) (hmon : t.mon < 12)
    (h : Astray error t.mon t.mday) (hrun : Tm.dayTurns fuel t = some r) :
    ∃ error', r.ordinal = t.ordinal - error + error' ∧ Astray error' r.mon r.mday ∧ 70 ≤ r.year := by
  induction fuel generalizing t error with
  | zero => cases hrun
  | succ fuel ih =>
    unfold dayTurns at hrun
    rw [Nat.add_comm 1, spm_eq (by omega), spm_eq (by omega), Option.bind_eq_bind, Option.bind_some] at hrun
    split at hrun
    next hlate =>
      obtain ⟨hord, hyear', hmon', hmday'⟩ := Tm.dayTurn_spec hyear hmon hlate
      have hturn := h.turn hmon hlate hmday'
      rw [← hmon'] at hturn
      obtain ⟨error', hend, hastray, hle⟩ := ih hyear' (by rw [hmon']; split <;> omega) hturn hrun
      exact ⟨error', by rw [hend, hord]; omega, hastray, hle⟩
    next =>
      obtain rfl := Option.some.inj hrun
      exact ⟨error, by omega, h, hyear⟩

/-- Once the loop has turned it does not come back to the day it began with. -/
theorem Tm.dayTurns_lost (hyear : 70 ≤ t.year) (hmon : t.mon < 12)
    (hlate : daysBeforeMonth false (t.mon + 1) < t.mday) (hrun : Tm.dayTurns fuel t = some r)
    (hsame : r.ordinal = t.ordinal) : ¬ r.mday ≤ monthDays (leapYear (1970 + r.day.n)) r.mon := by
  cases fuel with
  | zero => cases hrun
  | succ fuel =>
    unfold dayTurns at hrun
    rw [Nat.add_comm 1, spm_eq (by omega), spm_eq (by omega), Option.bind_eq_bind, Option.bind_some,
      if_pos hlate] at hrun
    obtain ⟨hord, hyear', hmon', -⟩ := Tm.dayTurn_spec hyear hmon hlate
    have hfirst := Astray.first (t.dayTurn (daysBeforeMonth false t.mon)).mday hmon
    rw [← hmon'] at hfirst
    obtain ⟨error', hend, hastray, -⟩ := Tm.dayTurns_astray hyear' (by rw [hmon']; split <;> omega) hfirst hrun
    exact hastray.not_settled (by omega)

/-- The fields after the carries of `mktime`. -/
def Tm.carried (t : Tm) : Tm := t.carrySec.carryMin.carryHour.carryMon

theorem Tm.carried_instant (hyear : 70 ≤ t.year) (hmday : 1 ≤ t.mday) : t.carried.instant = t.instant ∧
    70 ≤ t.carried.year ∧ 1 ≤ t.carried.mday := by
  have hsec : t.carrySec.instant = t.instant ∧ t.carrySec.year = t.year ∧ t.carrySec.mday = t.mday := by
    unfold carrySec
    split
    · refine ⟨?_, rfl, rfl⟩
      unfold instant
      simp only
      omega
    · exact ⟨rfl, rfl, rfl⟩
  have hmin : ∀ t : Tm, t.carryMin.instant = t.instant ∧ t.carryMin.year = t.year ∧ t.carryMin.mday = t.mday := by
    intro t
    unfold carryMin
    split
    · refine ⟨?_, rfl, rfl⟩
      unfold instant
      simp only
      omega
    · exact ⟨rfl, rfl, rfl⟩
  have hhour : ∀ t : Tm, 1 ≤ t.mday →
      t.carryHour.instant = t.instant ∧ t.carryHour.year = t.year ∧ 1 ≤ t.carryHour.mday := by
    intro t hmday
    unfold carryHour
    split
    · refine ⟨?_, rfl, by simp only; omega⟩
      unfold instant CivilDay.number
      simp only
      omega
    · exact ⟨rfl, rfl, hmday⟩
  have hmon : ∀ t : Tm, 70 ≤ t.year →
      t.carryMon.instant = t.instant ∧ 70 ≤ t.carryMon.year ∧ t.carryMon.mday = t.mday := by
    intro t hyear
    unfold carryMon
    split
    · refine ⟨?_, by simp only; omega, rfl⟩
      unfold instant
      simp only
      rw [Nat.mod_mod, Nat.div_eq_of_lt (Nat.mod_lt t.mon (by decide)), Nat.add_zero,
        show t.year + t.mon / 12 - 70 = t.year - 70 + t.mon / 12 by omega]
    · exact ⟨rfl, hyear, rfl⟩
  obtain ⟨h1, y1, d1⟩ := hsec
  obtain ⟨h2, y2, d2⟩ := hmin t.carrySec
  obtain ⟨h3, y3, d3⟩ := hhour t.carrySec.carryMin (by omega)
  obtain ⟨h4, y4, d4⟩ := hmon t.carrySec.carryMin.carryHour (by omega)
  unfold carried
  exact ⟨by omega, y4, by omega⟩

/-- What the carries give where no field is exactly its limit. -/
theorem Tm.carried_fields : t.carried.sec = (if t.sec = 60 then 60 else t.sec % 60) ∧
    (t.sec ≠ 60 → t.carried.min = if t.min + t.sec / 60 = 60 then 60 else (t.min + t.sec / 60) % 60) ∧
    (t.sec ≠ 60 → t.min + t.sec / 60 ≠ 60 → t.carried.hour =
      (if t.hour + (t.min + t.sec / 60) / 60 = 24 then 24 else (t.hour + (t.min + t.sec / 60) / 60) % 24) ∧
      (t.hour + (t.min + t.sec / 60) / 60 ≠ 24 →
        t.carried.mday = t.mday + (t.hour + (t.min + t.sec / 60) / 60) / 24)) ∧
    t.carried.mon = (if t.mon = 12 then 12 else t.mon % 12) ∧
    t.carried.year = t.year + if t.mon = 12 then 0 else t.mon / 12 := by
  have hmon : ∀ t : Tm, t.carryMon.sec = t.sec ∧ t.carryMon.min = t.min ∧ t.carryMon.hour = t.hour ∧
      t.carryMon.mday = t.mday ∧ t.carryMon.mon = (if t.mon = 12 then 12 else t.mon % 12) ∧
      t.carryMon.year = t.year + if t.mon = 12 then 0 else t.mon / 12 := by
    intro t
    unfold carryMon
    split
    · refine ⟨rfl, rfl, rfl, rfl, ?_, ?_⟩
      · rw [if_neg (by omega)]
      · rw [if_neg (by omega)]
    · refine ⟨rfl, rfl, rfl, rfl, ?_, ?_⟩ <;> split <;> omega
  have hhour : ∀ t : Tm, t.carryHour.sec = t.sec ∧ t.carryHour.min = t.min ∧
      t.carryHour.hour = (if t.hour = 24 then 24 else t.hour % 24) ∧
      (t.hour ≠ 24 → t.carryHour.mday = t.mday + t.hour / 24) ∧ t.carryHour.mon = t.mon ∧
      t.carryHour.year = t.year := by
    intro t
    unfold carryHour
    split
    · refine ⟨rfl, rfl, ?_, fun _ => rfl, rfl, rfl⟩
      rw [if_neg (by omega)]
    · refine ⟨rfl, rfl, ?_, fun h => ?_, rfl, rfl⟩
      · split <;> omega
      · omega
  have hmin : ∀ t : Tm, t.carryMin.sec = t.sec ∧ t.carryMin.min = (if t.min = 60 then 60 else t.min % 60) ∧
      (t.min ≠ 60 → t.carryMin.hour = t.hour + t.min / 60) ∧ t.carryMin.mday = t.mday ∧
      t.carryMin.mon = t.mon ∧ t.carryMin.year = t.year := by
    intro t
    unfold carryMin
    split
    · refine ⟨rfl, ?_, fun _ => rfl, rfl, rfl, rfl⟩
      rw [if_neg (by omega)]
    · refine ⟨rfl, ?_, fun h => ?_, rfl, rfl, rfl⟩
      · split <;> omega
      · omega
  have hsec : t.carrySec.sec = (if t.sec = 60 then 60 else t.sec % 60) ∧
      (t.sec ≠ 60 → t.carrySec.min = t.min + t.sec / 60) ∧ t.carrySec.hour = t.hour ∧
      t.carrySec.mday = t.mday ∧ t.carrySec.mon = t.mon ∧ t.carrySec.year = t.year := by
    unfold carrySec
    split
    · refine ⟨?_, fun _ => rfl, rfl, rfl, rfl, rfl⟩
      rw [if_neg (by omega)]
    · refine ⟨?_, fun h => ?_, rfl, rfl, rfl, rfl⟩
      · split <;> omega
      · omega
  obtain ⟨s1, m1, h1, d1, o1, y1⟩ := hsec
  obtain ⟨s2, m2, h2, d2, o2, y2⟩ := hmin t.carrySec
  obtain ⟨s3, m3, h3, d3, o3, y3⟩ := hhour t.carrySec.carryMin
  obtain ⟨s4, m4, h4, d4, o4, y4⟩ := hmon t.carrySec.carryMin.carryHour
  unfold carried
  refine ⟨by rw [s4, s3, s2, s1], fun hs => by rw [m4, m3, m2, m1 hs], fun hs hm => ?_, by rw [o4, o3, o2, o1],
    by rw [y4, y3, y2, y1, o3, o2, o1]⟩
  have hmin1 := m1 hs
  have hhour2 : t.carrySec.carryMin.hour = t.hour + (t.min + t.sec / 60) / 60 := by
    rw [h2 (by rw [hmin1]; exact hm), hmin1, h1]
  rw [h4, h3, hhour2, d4]
  exact ⟨rfl, fun hh => by rw [d3 (by rw [hhour2]; exact hh), hhour2, d2, d1]⟩

/-- The loop and the rest of `mktime` leave the time of day alone, and the rest the day too. -/
theorem Tm.dayTurns_time (hrun : Tm.dayTurns fuel t = some r) :
    r.sec = t.sec ∧ r.min = t.min ∧ r.hour = t.hour := by
  induction fuel generalizing t with
  | zero => cases hrun
  | succ fuel ih =>
    unfold dayTurns at hrun
    obtain ⟨limit, -, hrun⟩ := Option.bind_eq_some_iff.mp hrun
    split at hrun
    next =>
      obtain ⟨before, -, hrun⟩ := Option.bind_eq_some_iff.mp hrun
      have hsame : (t.dayTurn before).sec = t.sec ∧ (t.dayTurn before).min = t.min ∧
          (t.dayTurn before).hour = t.hour := by
        unfold dayTurn
        simp only
        split <;> exact ⟨rfl, rfl, rfl⟩
      obtain ⟨h1, h2, h3⟩ := ih hrun
      exact ⟨h1.trans hsame.1, h2.trans hsame.2.1, h3.trans hsame.2.2⟩
    next =>
      obtain rfl := Option.some.inj hrun
      exact ⟨rfl, rfl, rfl⟩

theorem Tm.finish_same {years v : Int} (hrun : Tm.finish years t = some (v, r)) :
    r = { t with yday := r.yday, wday := r.wday } := by
  unfold finish at hrun
  split at hrun
  next =>
    obtain ⟨-, rfl⟩ := Prod.mk.inj (Option.some.inj hrun)
    rfl
  next =>
    obtain ⟨before, -, hrun⟩ := Option.bind_eq_some_iff.mp hrun
    obtain ⟨-, rfl⟩ := Prod.mk.inj (Option.some.inj hrun)
    rfl

theorem Tm.ordinal_number (hyear : 70 ≤ t.year) (hmday : 1 ≤ t.mday) :
    t.ordinal = (t.day.number 1970 : Int) + 1 := by
  unfold ordinal CivilDay.number day
  simp only
  rw [show 1970 + (t.year - 70) = t.year + 1900 by omega]
  omega

/-- The year that the days are counted to is the one before the carries. -/
theorem yearsDay_injective {a b : Nat} (ha : a ≤ 130) (hb : b ≤ 130)
    (h : Tm.yearsDay a = Tm.yearsDay b) : a = b := by
  rw [yearsDay_eq ha, yearsDay_eq hb, daysBeforeYear_closed ha, daysBeforeYear_closed hb] at h
  omega

theorem Tm.MktimeRight.settles (h : t.MktimeRight) (hgiven : t.Given) : t.Settles := by
  obtain ⟨r, hrun, hr⟩ := h
  obtain ⟨hinstant, hyear, hmday⟩ := t.carried_instant hgiven.year hgiven.mday
  obtain ⟨hsec, hmin, hhour, hmon, hcyear⟩ := t.carried_fields
  obtain ⟨t', hturns, hfinish⟩ := Option.bind_eq_some_iff.mp hrun
  obtain ⟨hsec', hmin', hhour'⟩ := Tm.dayTurns_time hturns
  have hsame := Tm.finish_same hfinish
  have hlast : r.day.Valid 1970 := hr.day
  -- Of the fields returned, those of the time of day show what the carries left.
  have h60 : t.sec ≠ 60 := by
    intro heq
    have hlt := hr.sec
    rw [hsame] at hlt
    change t'.sec < 60 at hlt
    rw [hsec', show t.carrySec.carryMin.carryHour.carryMon.sec = _ from hsec, if_pos heq] at hlt
    omega
  have hmin60 : t.min + t.sec / 60 ≠ 60 := by
    intro heq
    have hlt := hr.min
    rw [hsame] at hlt
    change t'.min < 60 at hlt
    rw [hmin', show t.carrySec.carryMin.carryHour.carryMon.min = _ from hmin h60, if_pos heq] at hlt
    omega
  obtain ⟨hhour, hcmday⟩ := hhour h60 hmin60
  have hhour24 : t.hour + (t.min + t.sec / 60) / 60 ≠ 24 := by
    intro heq
    have hlt := hr.hour
    rw [hsame] at hlt
    change t'.hour < 24 at hlt
    rw [hhour', show t.carrySec.carryMin.carryHour.carryMon.hour = _ from hhour, if_pos heq] at hlt
    omega
  have hcmday := hcmday hhour24
  -- At the month 12 the table ends.
  have hmon12 : t.mon ≠ 12 := by
    intro heq
    rw [if_pos heq] at hmon
    change Tm.dayTurns (2 * t.carried.mday + 1 + 1) t.carried = some t' at hturns
    unfold dayTurns at hturns
    rw [hmon] at hturns
    cases hturns
  rw [if_neg hmon12] at hmon hcyear
  have hcmon : t.carried.mon < 12 := by omega
  have hnumber : t'.day.number 1970 = t.carried.day.number 1970 := by
    have htime := hr.time
    rw [hsame, ← hinstant, t.carried.instant_eq hcmon] at htime
    change (t'.day.number 1970 * 24 + t'.hour) * 3600 + t'.min * 60 + t'.sec = _ at htime
    rw [hsec', hmin', hhour'] at htime
    change (_ + t.carried.hour) * 3600 + t.carried.min * 60 + t.carried.sec = _ at htime
    omega
  rw [hsame] at hlast
  change t'.day.Valid 1970 at hlast
  have hyear' : 70 ≤ t'.year := by
    have hle := hr.year
    rwa [hsame] at hle
  have hstays : ¬ daysBeforeMonth false (t.carried.mon + 1) < t.carried.mday := by
    intro hlate
    refine Tm.dayTurns_lost hyear hcmon hlate hturns ?_ hlast.last
    rw [Tm.ordinal_number hyear' hlast.first, Tm.ordinal_number hyear hmday, hnumber]
  change Tm.dayTurns (2 * t.carried.mday + 1 + 1) t.carried = some t' at hturns
  rw [Tm.dayTurns_stop _ hcmon (Nat.not_lt.mp hstays)] at hturns
  obtain rfl := Option.some.inj hturns
  -- The value counts the years up to the one before the carry of the months.
  have hyears : t.carried.year = t.year := by
    have hn : t.carried.year - 70 ≤ 68 := Tm.years_le hcmon hmday (hinstant.trans_lt hgiven.fits)
    have hvalue := hfinish
    rw [Tm.finish_spec _ hyear hcmon hmday] at hvalue
    have hday := (Prod.mk.inj (Option.some.inj hvalue)).1
    rw [← hinstant, t.carried.instant_eq hcmon] at hday
    have hcount : t.carried.day.number 1970 = daysBeforeYear 1970 (t.carried.year - 70) +
        (daysBeforeMonth (leapYear (1970 + t.carried.day.n)) t.carried.mon + t.carried.mday - 1) := by
      unfold CivilDay.number day
      simp only
      omega
    have hclosed := yearsDay_eq (n := t.carried.year - 70) (by omega)
    rw [hcount] at hday
    push_cast at hday
    have heq : Tm.yearsDay ((t.year - 70 : Nat) : Int) = Tm.yearsDay ((t.carried.year - 70 : Nat) : Int) := by
      rw [hclosed, Nat.cast_sub hgiven.year]
      push_cast
      omega
    have hinj := yearsDay_injective (by omega) (by omega) heq
    have := hgiven.year
    omega
  have hmon0 : t.mon < 12 := by omega
  refine ⟨h60, hmin60, hhour24, hmon0, ?_⟩
  have hmonth := hlast.last
  unfold day at hmonth
  simp only at hmonth
  rw [show 1970 + (t.carried.year - 70) = 1900 + t.year by omega, hmon, Nat.mod_eq_of_lt hmon0, hcmday] at hmonth
  exact hmonth

theorem Tm.Settles.mktimeRight (h : t.Settles) (hgiven : t.Given) : t.MktimeRight := by
  obtain ⟨hinstant, hyear, hmday⟩ := t.carried_instant hgiven.year hgiven.mday
  obtain ⟨hsec, hmin, hhour, hmon, hcyear⟩ := t.carried_fields
  obtain ⟨hhour, hcmday⟩ := hhour h.sec h.min
  have hmin := hmin h.sec
  have hcmday := hcmday h.hour
  have hmon12 : t.mon ≠ 12 := by have := h.mon; omega
  rw [if_neg h.sec] at hsec
  rw [if_neg h.min] at hmin
  rw [if_neg h.hour] at hhour
  rw [if_neg hmon12, Nat.mod_eq_of_lt h.mon] at hmon
  rw [if_neg hmon12, Nat.div_eq_of_lt h.mon, Nat.add_zero] at hcyear
  have hcmon : t.carried.mon < 12 := by have := h.mon; omega
  have hday : t.carried.day.Valid 1970 := by
    refine ⟨hcmon, hmday, ?_⟩
    unfold day
    simp only
    rw [show 1970 + (t.carried.year - 70) = 1900 + t.year by omega, hmon, hcmday]
    exact h.mday
  have hstop : t.carried.mday ≤ daysBeforeMonth false (t.carried.mon + 1) :=
    hday.last.trans (monthDays_le _ _ hcmon)
  have hn : t.carried.year - 70 ≤ 68 := Tm.years_le hcmon hmday (hinstant.trans_lt hgiven.fits)
  obtain ⟨r, hrun, hr, -⟩ := Tm.finish_isTime (t := t.carried) (by omega) (by omega) (by omega) hyear hday (by omega)
  rw [← t.carried.instant_eq hcmon, hinstant] at hrun hr
  refine ⟨r, ?_, hr⟩
  refine Option.bind_eq_some_iff.mpr ⟨t.carried, Tm.dayTurns_stop (2 * t.carried.mday + 1) hcmon hstop, ?_⟩
  rw [← hcyear]
  exact hrun

end

/-- `mktime` carries rightly what needs no carry of days or months and meets no limit exactly. -/
theorem mktime_right_iff {t : Tm} (hgiven : t.Given) : t.MktimeRight ↔ t.Settles :=
  ⟨fun h => h.settles hgiven, fun h => h.mktimeRight hgiven⟩

/-- 30 minutes and 5000 seconds past 22:00 on 31 December 1999. -/
def overfullTm : Tm := ⟨5000, 30, 22, 31, 11, 99, 0, 0⟩

theorem overfullTm_right : overfullTm.MktimeRight :=
  (mktime_right_iff ⟨by decide, by decide, by decide +kernel⟩).mpr
    ⟨by decide, by decide, by decide, by decide, by decide⟩

/-- 40 January 1970 is left as 40 February, and 1 January of the month 12 is looked up behind the table. -/
theorem fortiethJanuary_wrong : ¬ (∀ t : Tm, t.Given → t.MktimeRight) ∧
    (∃ v r, Tm.mktime ⟨0, 0, 0, 40, 0, 70, 0, 0⟩ = some (v, r) ∧ r.mday = 40 ∧ r.mon = 1) ∧
    Tm.mktime ⟨0, 0, 0, 1, 12, 70, 0, 0⟩ = none := by
  have hrun : Tm.mktime ⟨0, 0, 0, 40, 0, 70, 0, 0⟩ = some (6048000, ⟨0, 0, 0, 40, 1, 70, 4, 70⟩) := by
    decide +kernel
  refine ⟨fun h => ?_, ⟨_, _, hrun, rfl, rfl⟩, by decide +kernel⟩
  obtain ⟨r, hr, hright⟩ := h ⟨0, 0, 0, 40, 0, 70, 0, 0⟩ ⟨by decide, by decide, by decide +kernel⟩
  obtain ⟨-, rfl⟩ := Prod.mk.inj (Option.some.inj (hrun.symm.trans hr))
  exact absurd hright.day.last (by decide)

end RTThread
