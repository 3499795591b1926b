import XTOS.Lib.Periods
import XTOS.Result

/-!
# Calendar time

The two conversions of `xtkernel/time.c` between Unix time and calendar fields.

## Main definitions

- `XTTime` — the calendar fields
- `xtMakeTime`, `xtGetTimeFromUnix` — the conversions
- `XTTime.Valid`, `XTTime.unixtime` — what `xtMakeTime` accepts and the second it stands for

## Design notes

Days are points on the line of years, and days of a year points on the line of its months:
both conversions go between such a point and its period. The year loop has as many passes of
fuel as there are days, and the month loop the twelve that its bound allows.
-/

namespace XTOS

open SysLib

/-- `XTTime`. -/
structure XTTime where
  seconds : ℕ
  minutes : ℕ
  hour : ℕ
  mday : ℕ
  wday : ℕ
  month : ℕ
  yday : ℕ
  year : ℕ
  deriving DecidableEq, Repr

/-- `is_leap_year`. -/
def isLeapYear (year : ℕ) : Bool :=
  (year % 4 == 0 && year % 100 != 0) || year % 400 == 0

/-- The days of a year, as the loops over years compute them. -/
def yearDays (year : ℕ) : ℕ := if isLeapYear year then 366 else 365

/-- `days_in_month`. -/
def daysInMonth (year month : ℕ) : ℕ :=
  if month = 2 ∧ isLeapYear year then 29
  else [31, 28, 31, 30, 31, 30, 31, 31, 30, 31, 30, 31].getD (month - 1) 0

/-- `days_before_month`. -/
def daysBeforeMonth (year month : ℕ) : ℕ :=
  (List.range' 1 (month - 1)).foldl (fun total m => (total + daysInMonth year m) % 2 ^ 16) 0

/-- `xtMakeTime`. -/
def xtMakeTime (time : XTTime) : Except XTResult ℕ :=
  if time.seconds > 59 ∨ time.minutes > 59 ∨ time.hour > 23 ∨
      time.mday < 1 ∨ time.mday > 31 ∨ time.month < 1 ∨ time.month > 12 ∨ time.year < 1970 then
    .error .invalidParameter
  else if time.mday > daysInMonth time.year time.month then
    .error .invalidParameter
  else
    let days := (List.range' 1970 (time.year - 1970)).foldl
      (fun days y => (days + yearDays y) % 2 ^ 64) 0
    let days := (days + daysBeforeMonth time.year time.month) % 2 ^ 64
    let days := (days + (time.mday - 1)) % 2 ^ 64
    .ok ((days * 86400 + time.hour * 3600 + time.minutes * 60 + time.seconds) % 2 ^ 64)

/-- The loop over the years of `xtGetTimeFromUnix`. -/
def yearLoop : ℕ → ℕ → ℕ → ℕ × ℕ
  | 0, year, days => (year, days)
  | fuel + 1, year, days =>
    if yearDays year ≤ days then yearLoop fuel ((year + 1) % 2 ^ 32) (days - yearDays year)
    else (year, days)

/-- The loop over the months of `xtGetTimeFromUnix`. -/
def monthLoop (year : ℕ) : ℕ → ℕ → ℕ → ℕ × ℕ
  | 0, month, days => (month, days)
  | fuel + 1, month, days =>
    if month ≤ 12 then
      if days < daysInMonth year month then (month, days)
      else monthLoop year fuel ((month + 1) % 2 ^ 8) (days - daysInMonth year month)
    else (month, days)

/-- `xtGetTimeFromUnix`. -/
def xtGetTimeFromUnix (unixtime : ℕ) : XTTime :=
  let days := unixtime / 86400
  let secsOfDay := unixtime % 86400
  let (year, days) := yearLoop days 1970 days
  let (month, days) := monthLoop year 12 1 days
  let mday := (days + 1) % 2 ^ 8
  { seconds := secsOfDay % 60
    minutes := secsOfDay % 3600 / 60
    hour := secsOfDay / 3600
    mday := mday
    wday := (unixtime / 86400 + 4) % 7
    month := month
    yday := (daysBeforeMonth year month + (mday - 1)) % 2 ^ 16
    year := year }

/-! ### Lengths of years and months -/

theorem yearDays_bounds (year : ℕ) : 365 ≤ yearDays year ∧ yearDays year ≤ 366 := by
  rw [yearDays]
  split_ifs <;> decide

theorem daysInMonth_le (year month : ℕ) : daysInMonth year month ≤ 31 := by
  rw [daysInMonth]
  split_ifs
  · decide
  · by_cases hm : month - 1 < 12
    · generalize month - 1 = m at hm ⊢
      interval_cases m <;> decide
    · rw [List.getD_eq_getElem?_getD, List.getElem?_eq_none (by simpa using hm)]
      decide

theorem daysInMonth_pos {year month : ℕ} (h : 1 ≤ month) (h' : month ≤ 12) :
    1 ≤ daysInMonth year month := by
  rw [daysInMonth]
  split_ifs
  · decide
  · interval_cases month <;> decide

/-- The months of a year make up the year. -/
theorem elapsed_months (year : ℕ) : elapsed (daysInMonth year) 1 12 = yearDays year := by
  rw [elapsed, yearDays]
  cases hleap : isLeapYear year <;> simp [Finset.sum_range_succ, daysInMonth, hleap]

theorem daysBeforeMonth_eq {year month : ℕ} (h : month ≤ 12) :
    daysBeforeMonth year month = elapsed (daysInMonth year) 1 (month - 1) := by
  rw [daysBeforeMonth, foldl_elapsed]
  have hle := elapsed_le_mul (daysInMonth_le year) 1 (month - 1)
  exact Nat.mod_eq_of_lt (by omega)

theorem yearLoop_eq {fuel year days : ℕ} (h : year + days / 365 < 2 ^ 32) :
    yearLoop fuel year days = locate yearDays fuel year days := by
  induction fuel generalizing year days with
  | zero => rfl
  | succ fuel ih =>
    have hpos := (yearDays_bounds year).1
    rw [yearLoop, locate]
    split_ifs with hd
    · rw [Nat.mod_eq_of_lt (by omega), ih (by omega)]
    · rfl

theorem monthLoop_eq {year fuel month days : ℕ} (h : month + fuel ≤ 13) :
    monthLoop year fuel month days = locate (daysInMonth year) fuel month days := by
  induction fuel generalizing month days with
  | zero => rfl
  | succ fuel ih =>
    rw [monthLoop, locate, if_pos (by omega)]
    by_cases hd : days < daysInMonth year month
    · rw [if_pos hd, if_neg (Nat.not_le.mpr hd)]
    · rw [if_neg hd, if_pos (Nat.not_lt.mp hd), Nat.mod_eq_of_lt (by omega), ih (by omega)]

/-! ### The second a calendar time stands for -/

/-- What `xtMakeTime` checks. -/
structure XTTime.Valid (time : XTTime) : Prop where
  seconds : time.seconds ≤ 59
  minutes : time.minutes ≤ 59
  hour : time.hour ≤ 23
  mday_pos : 1 ≤ time.mday
  mday : time.mday ≤ daysInMonth time.year time.month
  month_pos : 1 ≤ time.month
  month : time.month ≤ 12
  year : 1970 ≤ time.year

variable {time : XTTime}

/-- The days of its year before the day of `time`. -/
def XTTime.dayOfYear (time : XTTime) : ℕ :=
  elapsed (daysInMonth time.year) 1 (time.month - 1) + (time.mday - 1)

/-- The days from 1 January 1970 to the day of `time`. -/
def XTTime.dayNumber (time : XTTime) : ℕ :=
  elapsed yearDays 1970 (time.year - 1970) + time.dayOfYear

/-- The seconds of its day before `time`. -/
def XTTime.secondOfDay (time : XTTime) : ℕ :=
  time.hour * 3600 + time.minutes * 60 + time.seconds

/-- The second of `time`. -/
def XTTime.unixtime (time : XTTime) : ℕ := time.dayNumber * 86400 + time.secondOfDay

theorem XTTime.Valid.secondOfDay_lt (h : time.Valid) : time.secondOfDay < 86400 := by
  have hs := h.seconds
  have hm := h.minutes
  have hh := h.hour
  rw [XTTime.secondOfDay]
  omega

theorem XTTime.Valid.month_add (h : time.Valid) : 1 + (time.month - 1) = time.month :=
  Nat.add_sub_cancel' h.month_pos

theorem XTTime.Valid.year_add (h : time.Valid) : 1970 + (time.year - 1970) = time.year :=
  Nat.add_sub_cancel' h.year

/-- The day lies in its month. -/
theorem XTTime.Valid.mday_lt (h : time.Valid) :
    time.mday - 1 < daysInMonth time.year (1 + (time.month - 1)) := by
  rw [h.month_add]
  exact Nat.sub_one_lt_of_le h.mday_pos h.mday

/-- The day lies in its year. -/
theorem XTTime.Valid.dayOfYear_lt (h : time.Valid) : time.dayOfYear < yearDays time.year := by
  have hm := h.month
  have hm' := h.month_pos
  have hlt := elapsed_add_lt h.mday_lt (show time.month - 1 < 12 by omega) 0
  rwa [elapsed_months] at hlt

theorem XTTime.Valid.dayOfYear_lt' (h : time.Valid) :
    time.dayOfYear < yearDays (1970 + (time.year - 1970)) := by
  rw [h.year_add]
  exact h.dayOfYear_lt

theorem XTTime.Valid.dayNumber_lt (h : time.Valid) : time.dayNumber < 366 * time.year := by
  have hle := elapsed_le_mul (fun y => (yearDays_bounds y).2) 1970 (time.year - 1970)
  have hlt := h.dayOfYear_lt
  have hb := (yearDays_bounds time.year).2
  have hy := h.year
  rw [XTTime.dayNumber]
  omega

/-- `xtMakeTime` accepts the valid times and returns their second. -/
theorem xtMakeTime_ok_iff (hyear : time.year < 2 ^ 32) {t : ℕ} :
    xtMakeTime time = .ok t ↔ time.Valid ∧ t = time.unixtime := by
  rw [xtMakeTime]
  split_ifs with hfields hmday
  · simp only [false_iff, not_and]
    intro h
    have hle := h.mday.trans (daysInMonth_le _ _)
    obtain ⟨h1, h2, h3, h4, -, h6, h7, h8⟩ := h
    omega
  · simp only [false_iff, not_and]
    intro h
    exact absurd h.mday (Nat.not_le.mpr hmday)
  · have hvalid : time.Valid := by
      constructor <;> omega
    have hday := hvalid.dayNumber_lt
    have hsec := hvalid.secondOfDay_lt
    simp only [Except.ok.injEq, hvalid, true_and]
    rw [foldl_elapsed, daysBeforeMonth_eq hvalid.month]
    rw [XTTime.unixtime]
    rw [XTTime.dayNumber, XTTime.dayOfYear] at hday ⊢
    rw [XTTime.secondOfDay] at hsec ⊢
    omega

/-- The loops take the second of a valid time apart. -/
theorem xtGetTimeFromUnix_unixtime (h : time.Valid)
    (hdays : 1970 + time.dayNumber / 365 < 2 ^ 32) :
    xtGetTimeFromUnix time.unixtime =
      { time with wday := (time.dayNumber + 4) % 7, yday := time.dayOfYear } := by
  have hday : time.unixtime / 86400 = time.dayNumber := by
    have hsec := h.secondOfDay_lt
    rw [XTTime.unixtime]
    omega
  have hrest : time.unixtime % 86400 = time.secondOfDay := by
    have hsec := h.secondOfDay_lt
    rw [XTTime.unixtime]
    omega
  have hyear : yearLoop time.dayNumber 1970 time.dayNumber = (time.year, time.dayOfYear) := by
    rw [yearLoop_eq hdays]
    conv_rhs => rw [← h.year_add]
    -- there are no more years than days
    have hlong := mul_le_elapsed (fun y => (yearDays_bounds y).1) 1970 (time.year - 1970)
    refine locate_elapsed_add h.dayOfYear_lt' ?_
    rw [XTTime.dayNumber]
    omega
  have hm := h.month
  have hmonth : monthLoop time.year 12 1 time.dayOfYear = (time.month, time.mday - 1) := by
    rw [monthLoop_eq (by omega)]
    conv_rhs => rw [← h.month_add]
    exact locate_elapsed_add h.mday_lt (by omega)
  have hmday : (time.mday - 1 + 1) % 2 ^ 8 = time.mday := by
    have hle := h.mday.trans (daysInMonth_le _ _)
    have hpos := h.mday_pos
    omega
  have hyday : (daysBeforeMonth time.year time.month + (time.mday - 1)) % 2 ^ 16 =
      time.dayOfYear := by
    have hlt := h.dayOfYear_lt
    have hle := (yearDays_bounds time.year).2
    rw [daysBeforeMonth_eq hm]
    exact Nat.mod_eq_of_lt (by rw [XTTime.dayOfYear] at hlt; omega)
  have hs := h.seconds
  have hmin := h.minutes
  rw [xtGetTimeFromUnix]
  simp only [hday, hrest, hyear, hmonth, hmday, hyday]
  rw [XTTime.secondOfDay, XTTime.mk.injEq]
  exact ⟨by omega, by omega, by omega, rfl, rfl, rfl, rfl, rfl⟩

/-- Every second belongs to a valid time. -/
theorem exists_unixtime (t : ℕ) : ∃ time : XTTime, time.Valid ∧ time.unixtime = t := by
  have hlong := mul_le_elapsed (fun y => (yearDays_bounds y).1) 1970 (t / 86400 + 1)
  obtain ⟨y, d, -, hd, hday⟩ := exists_elapsed_add
    (show t / 86400 < elapsed yearDays 1970 (t / 86400 + 1) by omega)
  rw [← elapsed_months] at hd
  obtain ⟨m, r, hm, hr, rfl⟩ := exists_elapsed_add hd
  refine ⟨⟨t % 60, t % 3600 / 60, t % 86400 / 3600, r + 1, 0, 1 + m, 0, 1970 + y⟩, ?_, ?_⟩
  · constructor <;> dsimp only <;> omega
  · rw [XTTime.unixtime, XTTime.dayNumber, XTTime.dayOfYear, XTTime.secondOfDay]
    simp only [Nat.add_sub_cancel_left, Nat.add_sub_cancel]
    omega

/-! ### The order of calendar times -/

/-- The fields of a calendar time, the most significant first. -/
def XTTime.fields (time : XTTime) : List ℕ :=
  [time.year, time.month, time.mday, time.hour, time.minutes, time.seconds]

theorem XTTime.Valid.dayNumber_lt_of_year {a b : XTTime} (ha : a.Valid)
    (h : a.year < b.year) : a.dayNumber < b.dayNumber := by
  have hyear := ha.year
  exact elapsed_add_lt ha.dayOfYear_lt' (by omega) _

theorem XTTime.Valid.dayOfYear_lt_of_month {a b : XTTime} (ha : a.Valid)
    (hyear : a.year = b.year) (h : a.month < b.month) : a.dayOfYear < b.dayOfYear := by
  have hpos := ha.month_pos
  rw [XTTime.dayOfYear, XTTime.dayOfYear, ← hyear]
  exact elapsed_add_lt ha.mday_lt (by omega) _

/-- A time that is earlier in the order of the fields has a smaller second. -/
theorem unixtime_lt {a b : XTTime} (ha : a.Valid) (hlt : a.fields < b.fields) :
    a.unixtime < b.unixtime := by
  have hlast := ha.secondOfDay_lt
  have hday : a.dayNumber < b.dayNumber → a.unixtime < b.unixtime := fun h => by
    rw [XTTime.unixtime, XTTime.unixtime]
    omega
  simp only [XTTime.fields, List.cons_lt_cons_iff, List.not_lt_nil, and_false, or_false] at hlt
  obtain hyear | ⟨hyear, hlt⟩ := hlt
  · exact hday (ha.dayNumber_lt_of_year hyear)
  have hsame : b.dayNumber = elapsed yearDays 1970 (a.year - 1970) + b.dayOfYear := by
    rw [XTTime.dayNumber, hyear]
  obtain hmonth | ⟨hmonth, hlt⟩ := hlt
  · refine hday ?_
    rw [hsame]
    exact Nat.add_lt_add_left (ha.dayOfYear_lt_of_month hyear hmonth) _
  have hmonths : b.dayOfYear =
      elapsed (daysInMonth a.year) 1 (a.month - 1) + (b.mday - 1) := by
    rw [XTTime.dayOfYear, hyear, hmonth]
  have hpos := ha.mday_pos
  obtain hmday | ⟨hmday, hlt⟩ := hlt
  · refine hday ?_
    rw [hsame, hmonths, XTTime.dayNumber, XTTime.dayOfYear]
    omega
  have hdays : a.dayNumber = b.dayNumber := by
    rw [hsame, hmonths, XTTime.dayNumber, XTTime.dayOfYear, hmday]
  -- within a day, hours, minutes and seconds are the digits of one number
  have hmin := ha.minutes
  have hsec := ha.seconds
  rw [XTTime.unixtime, XTTime.unixtime, hdays, XTTime.secondOfDay, XTTime.secondOfDay]
  refine Nat.add_lt_add_left ?_ _
  omega

/-! ### The conversions are inverse -/

/-- The second of 1 January of a year. -/
def yearStart (year : ℕ) : XTTime := ⟨0, 0, 0, 1, 0, 1, 0, year⟩

theorem yearStart_valid {year : ℕ} (h : 1970 ≤ year) : (yearStart year).Valid where
  seconds := Nat.zero_le _
  minutes := Nat.zero_le _
  hour := Nat.zero_le _
  mday_pos := le_rfl
  mday := daysInMonth_pos le_rfl (Nat.le_of_ble_eq_true rfl)
  month_pos := le_rfl
  month := Nat.le_of_ble_eq_true rfl
  year := h

theorem yearStart_unixtime (year : ℕ) :
    (yearStart year).unixtime = elapsed yearDays 1970 (year - 1970) * 86400 := by
  rw [XTTime.unixtime, XTTime.dayNumber, XTTime.dayOfYear, XTTime.secondOfDay]
  simp only [yearStart, Nat.sub_self, elapsed_zero, Nat.add_zero, Nat.zero_mul]

/-- The two conversions are inverse, the computed weekday and day of the year are the right
    ones, and `xtMakeTime` respects the order of the fields. -/
theorem time_conversions_inverse :
    (∀ t < 2 ^ 56,
      xtMakeTime (xtGetTimeFromUnix t) = .ok t ∧
      (xtGetTimeFromUnix t).wday = (t / 86400 + 4) % 7 ∧
      ∃ t₀, xtMakeTime (yearStart (xtGetTimeFromUnix t).year) = .ok t₀ ∧ t₀ ≤ t ∧
        (xtGetTimeFromUnix t).yday = t / 86400 - t₀ / 86400) ∧
    (∀ (time : XTTime) (t : ℕ), time.year < 2 ^ 31 → xtMakeTime time = .ok t →
      (xtGetTimeFromUnix t).fields = time.fields) ∧
    ∀ (a b : XTTime) (t u : ℕ), a.year < 2 ^ 32 → b.year < 2 ^ 32 →
      xtMakeTime a = .ok t → xtMakeTime b = .ok u → a.fields < b.fields → t < u := by
  refine ⟨?_, ?_, ?_⟩
  · intro t ht
    obtain ⟨time, h, rfl⟩ := exists_unixtime t
    have hday : time.unixtime / 86400 = time.dayNumber := by
      have hsec := h.secondOfDay_lt
      rw [XTTime.unixtime]
      omega
    have hlong := mul_le_elapsed (fun y => (yearDays_bounds y).1) 1970 (time.year - 1970)
    have hsplit : time.dayNumber =
      elapsed yearDays 1970 (time.year - 1970) + time.dayOfYear := rfl
    have hyear : time.year < 2 ^ 32 := by omega
    rw [xtGetTimeFromUnix_unixtime h (by omega), hday]
    refine ⟨?_, rfl, (yearStart time.year).unixtime, ?_, ?_, ?_⟩
    · -- the two computed fields are not read
      exact (xtMakeTime_ok_iff hyear).mpr ⟨h, rfl⟩
    · have hyear' : (yearStart time.year).year < 2 ^ 32 := hyear
      exact (xtMakeTime_ok_iff hyear').mpr ⟨yearStart_valid h.year, rfl⟩
    · rw [yearStart_unixtime]
      omega
    · dsimp only
      rw [yearStart_unixtime]
      omega
  · intro time t hyear hok
    obtain ⟨h, rfl⟩ := (xtMakeTime_ok_iff (by omega)).mp hok
    have hlt := h.dayNumber_lt
    rw [xtGetTimeFromUnix_unixtime h (by omega)]
    rfl
  · intro a b t u ha hb hat hbu hlt
    obtain ⟨hva, rfl⟩ := (xtMakeTime_ok_iff ha).mp hat
    obtain ⟨-, rfl⟩ := (xtMakeTime_ok_iff hb).mp hbu
    exact unixtime_lt hva hlt

/-- Noon of 29 February 2000, there and back. -/
theorem time_conversions_inverse_leap_day :
    xtMakeTime ⟨0, 0, 12, 29, 0, 2, 0, 2000⟩ = .ok 951825600 ∧
      xtMakeTime (xtGetTimeFromUnix 951825600) = .ok 951825600 ∧
      (xtGetTimeFromUnix 951825600).fields = [2000, 2, 29, 12, 0, 0] :=
  ⟨by decide, (time_conversions_inverse.1 951825600 (by decide)).1,
    time_conversions_inverse.2.1 ⟨0, 0, 12, 29, 0, 2, 0, 2000⟩ 951825600 (by decide) (by decide)⟩

end XTOS
