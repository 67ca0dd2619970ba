import Mathlib.Tactic.IntervalCases
import Tsgit.Tar

/-!
# Dates

`src/domain/pretty/date.ts`: how a moment is printed in a zone, in the modes that do not ask what
time it is. Every integer of the calendar is below `2 ^ 53`, where a number is exact.
-/

namespace Tsgit.Pretty

open Archive (padStart)

/-! ### The calendar -/

def IsLeapYear (year : ℕ) : Prop := year % 4 = 0 ∧ year % 100 ≠ 0 ∨ year % 400 = 0

instance (year : ℕ) : Decidable (IsLeapYear year) :=
  inferInstanceAs (Decidable (year % 4 = 0 ∧ year % 100 ≠ 0 ∨ year % 400 = 0))

def yearLength (year : ℕ) : ℕ := if IsLeapYear year then 366 else 365

/-- How many days a month has, from 1 on. -/
def monthLength (year : ℕ) : ℕ → ℕ
  | 2 => if IsLeapYear year then 29 else 28
  | 4 | 6 | 9 | 11 => 30
  | 1 | 3 | 5 | 7 | 8 | 10 | 12 => 31
  | _ => 0

def daysBeforeYear : ℕ → ℕ
  | 0 => 0
  | year + 1 => daysBeforeYear year + yearLength year

def daysBeforeMonth (year : ℕ) : ℕ → ℕ
  | 0 => 0
  | month + 1 => daysBeforeMonth year month + monthLength year month

structure CalendarDate where
  year : ℕ
  month : ℕ
  day : ℕ
  month_pos : 1 ≤ month
  month_le : month ≤ 12
  day_pos : 1 ≤ day
  day_le : day ≤ monthLength year month

def CalendarDate.dayNumber (date : CalendarDate) : ℕ :=
  daysBeforeYear date.year + daysBeforeMonth date.year date.month + (date.day - 1)

structure Moment where
  date : CalendarDate
  hour : ℕ
  minute : ℕ
  second : ℕ
  hour_lt : hour < 24
  minute_lt : minute < 60
  second_lt : second < 60

/-- The seconds before a moment, from the start of year 0. -/
def Moment.seconds (moment : Moment) : ℕ :=
  ((moment.date.dayNumber * 24 + moment.hour) * 60 + moment.minute) * 60 + moment.second

/-- The start of a year. -/
def newYear (year : ℕ) : Moment :=
  ⟨⟨year, 1, 1, le_rfl, Nat.le_of_ble_eq_true rfl, le_rfl, Nat.le_of_ble_eq_true rfl⟩, 0, 0, 0,
    Nat.le_of_ble_eq_true rfl, Nat.le_of_ble_eq_true rfl, Nat.le_of_ble_eq_true rfl⟩

theorem seconds_newYear (year : ℕ) : (newYear year).seconds = daysBeforeYear year * 86400 := by
  change ((daysBeforeYear year * 24 + 0) * 60 + 0) * 60 + 0 = _
  omega

theorem daysBeforeYear_succ (year : ℕ) :
    daysBeforeYear (year + 1) + year / 100 = 365 * (year + 1) + year / 4 + year / 400 + 1 := by
  induction year with
  | zero => decide
  | succ year ih =>
    rw [daysBeforeYear, yearLength]
    by_cases h : IsLeapYear (year + 1)
    · rw [if_pos h]
      rcases h with h | h
      · omega
      · omega
    · rw [if_neg h]
      rw [IsLeapYear] at h
      omega

/-! ### The date of a day -/

structure CivilDate where
  year : ℤ
  month : ℕ
  day : ℕ

def yearOfEra (dayOfEra : ℕ) : ℕ :=
  (dayOfEra - dayOfEra / 1460 + dayOfEra / 36524 - dayOfEra / 146096) / 365

def dayOfYear (dayOfEra : ℕ) : ℕ :=
  dayOfEra - (365 * yearOfEra dayOfEra + yearOfEra dayOfEra / 4 - yearOfEra dayOfEra / 100)

def dateInEra (era dayOfEra : ℕ) : CivilDate :=
  let shiftedMonth := (5 * dayOfYear dayOfEra + 2) / 153
  let calendarMonth := if shiftedMonth < 10 then shiftedMonth + 3 else shiftedMonth - 9
  { year := (yearOfEra dayOfEra + era * 400 + if calendarMonth ≤ 2 then 1 else 0 : ℕ)
    month := calendarMonth - 1
    day := dayOfYear dayOfEra - (153 * shiftedMonth + 2) / 5 + 1 }

def civilDate (days : ℕ) : CivilDate :=
  dateInEra ((days + 719468) / 146097) ((days + 719468) % 146097)

/-- A day of an era, by centuries, by four years, by years and by days. -/
structure DayParts (dayOfEra century quad year day : ℕ) : Prop where
  sum_eq : dayOfEra = 36524 * century + 1461 * quad + 365 * year + day
  century_le : century ≤ 3
  quad_le : quad ≤ 24
  year_le : year ≤ 3
  day_lt : day < 365 ∨ day = 365 ∧ year = 3 ∧ (quad < 24 ∨ century = 3)

theorem exists_dayParts {dayOfEra : ℕ} (h : dayOfEra < 146097) :
    ∃ century quad year day, DayParts dayOfEra century quad year day := by
  obtain ⟨century, hcentury⟩ : ∃ century, century = min (dayOfEra / 36524) 3 := ⟨_, rfl⟩
  obtain ⟨inCentury, hinCentury⟩ : ∃ inCentury, dayOfEra = 36524 * century + inCentury ∧
      (inCentury < 36524 ∨ inCentury = 36524 ∧ century = 3) :=
    ⟨dayOfEra - 36524 * century, by omega, by omega⟩
  obtain ⟨year, hyear⟩ : ∃ year, year = min (inCentury % 1461 / 365) 3 := ⟨_, rfl⟩
  refine ⟨century, inCentury / 1461, year, inCentury % 1461 - 365 * year, ?_, ?_, ?_, ?_, ?_⟩
  · omega
  · omega
  · omega
  · omega
  · omega

theorem DayParts.yearOfEra_eq {dayOfEra century quad year day : ℕ}
    (h : DayParts dayOfEra century quad year day) :
    yearOfEra dayOfEra = 100 * century + 4 * quad + year := by
  obtain ⟨hsum, hcentury, hquad, hyear, hday⟩ := h
  have hcenturies : dayOfEra / 36524 = century + dayOfEra / 146096 := by
    by_cases hin : 1461 * quad + 365 * year + day < 36524
    · have hdiv : dayOfEra / 36524 = century := by omega
      have hlast : dayOfEra / 146096 = 0 := by omega
      rw [hdiv, hlast, add_zero]
    · have hlast : dayOfEra = 146096 ∧ century = 3 := by omega
      rw [hlast.1, hlast.2]
  have hquads : dayOfEra / 1460 = 25 * century + quad +
      (24 * century + quad + 365 * year + day) / 1460 := by omega
  rw [yearOfEra]
  omega

theorem dayOfYear_spec {dayOfEra : ℕ} (h : dayOfEra < 146097) :
    yearOfEra dayOfEra < 400 ∧
      dayOfEra + yearOfEra dayOfEra / 100 =
        365 * yearOfEra dayOfEra + yearOfEra dayOfEra / 4 + dayOfYear dayOfEra ∧
      (dayOfYear dayOfEra < 365 ∨
        dayOfYear dayOfEra = 365 ∧ IsLeapYear (yearOfEra dayOfEra + 1)) := by
  obtain ⟨century, quad, year, day, hparts⟩ := exists_dayParts h
  have hyear := hparts.yearOfEra_eq
  obtain ⟨hsum, hcentury, hquad, hle, hday⟩ := hparts
  have hdayOfYear : dayOfYear dayOfEra = day := by
    have hquads : (100 * century + 4 * quad + year) / 4 = 25 * century + quad := by omega
    have hcenturies : (100 * century + 4 * quad + year) / 100 = century := by omega
    rw [dayOfYear, hyear, hquads, hcenturies]
    omega
  rw [hdayOfYear, hyear]
  refine ⟨by omega, by omega, hday.imp id fun hlast => ⟨hlast.1, ?_⟩⟩
  rw [IsLeapYear]
  omega

theorem month_of_dayOfYear {day : ℕ} (year : ℕ) (h : day < 306) :
    (5 * day + 2) / 153 < 10 ∧ (153 * ((5 * day + 2) / 153) + 2) / 5 ≤ day ∧
      daysBeforeMonth year ((5 * day + 2) / 153 + 3) + 365 =
        (153 * ((5 * day + 2) / 153) + 2) / 5 + 59 + yearLength year ∧
      day - (153 * ((5 * day + 2) / 153) + 2) / 5 + 1 ≤
        monthLength year ((5 * day + 2) / 153 + 3) := by
  have hmonth : (5 * day + 2) / 153 < 10 := by omega
  have hlow : 153 * ((5 * day + 2) / 153) ≤ 5 * day + 2 := Nat.mul_div_le _ _
  have hhigh : 5 * day + 2 < 153 * ((5 * day + 2) / 153 + 1) := Nat.lt_mul_div_succ _ (by decide)
  generalize (5 * day + 2) / 153 = month at hmonth hlow hhigh ⊢
  refine ⟨hmonth, by omega, ?_, ?_⟩
  · by_cases hleap : IsLeapYear year
    · interval_cases month <;> simp [daysBeforeMonth, monthLength, yearLength, hleap]
    · interval_cases month <;> simp [daysBeforeMonth, monthLength, yearLength, hleap]
  · interval_cases month <;> simp only [monthLength] <;> omega

theorem daysBeforeYear_1970 : daysBeforeYear 1970 = 719528 := by
  obtain ⟨year, hyear⟩ : ∃ year, year = 1969 := ⟨_, rfl⟩
  have hclosed := daysBeforeYear_succ year
  have hnext : year + 1 = 1970 := by rw [hyear]
  rw [hnext] at hclosed
  omega

theorem dateInEra_spec (era : ℕ) {dayOfEra : ℕ} (h : dayOfEra < 146097) :
    ∃ date : CalendarDate, date.dayNumber = 146097 * era + dayOfEra + 60 ∧
      dateInEra era dayOfEra = ⟨date.year, date.month - 1, date.day⟩ := by
  obtain ⟨hyear, hdays, hlast⟩ := dayOfYear_spec h
  unfold dateInEra
  dsimp only
  generalize dayOfYear dayOfEra = day at hdays hlast ⊢
  generalize yearOfEra dayOfEra = year at hyear hdays hlast ⊢
  have hclosed := daysBeforeYear_succ (year + era * 400)
  have hquads : (year + era * 400) / 4 = year / 4 + 100 * era := by omega
  have hcenturies : (year + era * 400) / 100 = year / 100 + 4 * era := by omega
  have heras : (year + era * 400) / 400 = era := by omega
  rw [hquads, hcenturies, heras] at hclosed
  by_cases hmarch : day < 306
  · obtain ⟨hmonth, hle, hbefore, hlength⟩ := month_of_dayOfYear (year + era * 400) hmarch
    rw [if_pos hmonth, if_neg (by omega), add_zero]
    refine ⟨⟨year + era * 400, _, _, by omega, by omega, by omega, hlength⟩, ?_, rfl⟩
    have hnext : daysBeforeYear (year + era * 400 + 1) =
        daysBeforeYear (year + era * 400) + yearLength (year + era * 400) := rfl
    rw [CalendarDate.dayNumber]
    dsimp only
    omega
  · have hleap : day = 365 → monthLength (year + era * 400 + 1) 2 = 29 := by
      rintro rfl
      refine if_pos ?_
      have hyear' := (hlast.resolve_left (lt_irrefl 365)).2
      rw [IsLeapYear] at hyear' ⊢
      omega
    have hfebruary : 28 ≤ monthLength (year + era * 400 + 1) 2 := by
      rw [monthLength]
      split_ifs <;> omega
    by_cases hjanuary : day < 337
    · have hmonth : (5 * day + 2) / 153 = 10 := by omega
      rw [hmonth]
      refine ⟨⟨year + era * 400 + 1, 1, day - 306 + 1, by omega, by omega, by omega, ?_⟩, ?_, rfl⟩
      · change _ ≤ 31
        omega
      · rw [CalendarDate.dayNumber]
        change _ + 0 + _ = _
        dsimp only
        omega
    · have hmonth : (5 * day + 2) / 153 = 11 := by omega
      rw [hmonth]
      refine ⟨⟨year + era * 400 + 1, 2, day - 337 + 1, by omega, by omega, by omega, ?_⟩, ?_, rfl⟩
      · omega
      · rw [CalendarDate.dayNumber]
        change _ + 31 + _ = _
        dsimp only
        omega

/-- **The date of a day** is as far from the epoch as the day. -/
theorem civilDate_spec (days : ℕ) : ∃ date : CalendarDate,
    date.dayNumber = days + daysBeforeYear 1970 ∧
      civilDate days = ⟨date.year, date.month - 1, date.day⟩ := by
  obtain ⟨date, hnumber, hdate⟩ := dateInEra_spec ((days + 719468) / 146097)
    (Nat.mod_lt (days + 719468) (by decide))
  refine ⟨date, ?_, hdate⟩
  rw [hnumber, Nat.div_add_mod, daysBeforeYear_1970]

/-! ### The moment of a timestamp -/

structure Civil extends CivilDate where
  weekday : ℕ
  hour : ℕ
  minute : ℕ
  second : ℕ

structure Rendered where
  civil : Civil
  zone : ℤ

inductive TimestampRangeReason
  | beforeEpoch | tooLarge

structure TimestampOutOfRange where
  reason : TimestampRangeReason
  timestamp : Text
  zone : ℤ

def int32 (value : ℤ) : ℤ := value.bmod (2 ^ 32)

def zoneMinutes (zone : ℤ) : ℤ :=
  let magnitude := zone.natAbs
  let minutes := magnitude / 100 * 60 + magnitude % 100
  if zone < 0 then -minutes else minutes

def shiftedSeconds (timestamp zone : ℤ) : Except TimestampOutOfRange ℕ :=
  let minutes := zoneMinutes zone
  let shift := int32 (minutes * 60)
  let reach := int32 (-minutes * 60) % 2 ^ 32
  if minutes ≤ 0 ∧ timestamp < reach then .error ⟨.beforeEpoch, decimalText timestamp, zone⟩
  else
    let shifted : ℕ := ((timestamp + shift) % 2 ^ 64).toNat
    if 2 ^ 63 ≤ shifted then .error ⟨.tooLarge, decimalText shifted, zone⟩ else .ok shifted

def civilOfSeconds (seconds : ℕ) : Civil :=
  let days := seconds / 86400
  let secondOfDay := seconds % 86400
  { civilDate days with
    weekday := (days + 4) % 7
    hour := secondOfDay / (60 * 60)
    minute := secondOfDay / 60 % 60
    second := secondOfDay % 60 }

def epoch : Rendered := ⟨civilOfSeconds 0, 0⟩

def renderedAt (timestamp zone : ℤ) : Except TimestampOutOfRange Rendered := do
  let civil := civilOfSeconds (← shiftedSeconds timestamp zone)
  return if civil.year - 1900 > 2 ^ 31 - 1 then epoch
    else ⟨{ civil with year := int32 civil.year }, zone⟩

/-! ### The text of a moment -/

inductive DateMode
  | normal | rfc2822 | iso8601 | iso8601Strict | short

def weekdays : List Text := ["Sun", "Mon", "Tue", "Wed", "Thu", "Fri", "Sat"].map String.toList

def months : List Text :=
  ["Jan", "Feb", "Mar", "Apr", "May", "Jun", "Jul", "Aug", "Sep", "Oct", "Nov", "Dec"].map
    String.toList

def pad2 (value : ℕ) : Text := padStart (Nat.toDigits 10 value) 2

def signOf (zone : ℤ) : Char := if zone < 0 then '-' else '+'

def zoneCompact (zone : ℤ) : Text :=
  signOf zone :: padStart (Nat.toDigits 10 zone.natAbs) 4

def zoneStrict (zone : ℤ) : Text :=
  if zone = 0 then ['Z']
  else signOf zone :: (pad2 (zone.natAbs / 100) ++ ':' :: pad2 (zone.natAbs % 100))

def dayOf (civil : Civil) : Text :=
  decimalText civil.year ++ '-' :: (pad2 (civil.month + 1) ++ '-' :: pad2 civil.day)

def clockOf (civil : Civil) : Text :=
  pad2 civil.hour ++ ':' :: (pad2 civil.minute ++ ':' :: pad2 civil.second)

def showNormal (rendered : Rendered) : Text :=
  let civil := rendered.civil
  let head := weekdays.getD civil.weekday [] ++ ' ' :: (months.getD civil.month [] ++
    ' ' :: (decimalText civil.day ++ ' ' :: (clockOf civil ++ ' ' :: decimalText civil.year)))
  if rendered.zone = -1 then head else head ++ ' ' :: zoneCompact rendered.zone

def showRfc2822 (rendered : Rendered) : Text :=
  let civil := rendered.civil
  weekdays.getD civil.weekday [] ++ ',' :: ' ' :: (decimalText civil.day ++
    ' ' :: (months.getD civil.month [] ++ ' ' :: (decimalText civil.year ++
      ' ' :: (clockOf civil ++ ' ' :: zoneCompact rendered.zone))))

def showCivil (mode : DateMode) (rendered : Rendered) : Text :=
  let civil := rendered.civil
  match mode with
  | .rfc2822 => showRfc2822 rendered
  | .iso8601 => dayOf civil ++ ' ' :: (clockOf civil ++ ' ' :: zoneCompact rendered.zone)
  | .iso8601Strict => dayOf civil ++ 'T' :: (clockOf civil ++ zoneStrict rendered.zone)
  | .short => dayOf civil
  | .normal => showNormal rendered

def showDate (timestamp zone : ℤ) (mode : DateMode) : Except TimestampOutOfRange Text :=
  (renderedAt timestamp zone).map (showCivil mode)

/-! ### What is printed -/

/-- What a zone adds: its hundreds are hours, and the rest minutes. -/
def zoneShift (zone : ℤ) : ℤ := zone.sign * (|zone| / 100 * 60 + |zone| % 100) * 60

/-- The first of year 0 is a Saturday. -/
def CalendarDate.weekday (date : CalendarDate) : ℕ := (date.dayNumber + 6) % 7

/-- The last digits of a number, as many as are asked for. -/
def lastDigits : ℕ → ℕ → Text
  | 0, _ => []
  | count + 1, n => lastDigits count (n / 10) ++ [(n % 10).digitChar]

/-- The fields of a moment, digit by digit. -/
def isoText (moment : Moment) (zone : ℤ) : Text :=
  Nat.toDigits 10 moment.date.year ++ '-' :: (lastDigits 2 moment.date.month ++
    '-' :: (lastDigits 2 moment.date.day ++ ' ' :: (lastDigits 2 moment.hour ++
      ':' :: (lastDigits 2 moment.minute ++ ':' :: (lastDigits 2 moment.second ++
        ' ' :: (if zone < 0 then '-' else '+') :: lastDigits 4 zone.natAbs)))))

def weekdayNames : List Text :=
  [['S', 'u', 'n'], ['M', 'o', 'n'], ['T', 'u', 'e'], ['W', 'e', 'd'], ['T', 'h', 'u'],
    ['F', 'r', 'i'], ['S', 'a', 't']]

theorem padStart_toDigits {count n : ℕ} (hcount : 0 < count) (h : n < 10 ^ count) :
    padStart (Nat.toDigits 10 n) count = lastDigits count n := by
  induction count generalizing n with
  | zero => cases hcount
  | succ count ih =>
    rcases Nat.eq_zero_or_pos count with rfl | hpos
    · have hsmall : n < 10 := h
      rw [Nat.toDigits_of_lt_base hsmall, lastDigits, lastDigits, Nat.mod_eq_of_lt hsmall]
      rfl
    have hrest := @ih (n / 10) hpos (Nat.div_lt_of_lt_mul (by rwa [← Nat.pow_succ']))
    rw [lastDigits, ← hrest, Nat.toDigits_eq_if (by decide)]
    split
    · next hsmall =>
      -- in front of the one digit there are zeros
      rw [Nat.div_eq_of_lt hsmall, Nat.toDigits_zero, Nat.mod_eq_of_lt hsmall, padStart, padStart]
      obtain ⟨zeros, rfl⟩ : ∃ zeros, count = zeros + 1 := ⟨count - 1, by omega⟩
      simp [List.replicate_succ']
    · rw [padStart, padStart, List.length_append, List.length_singleton, Nat.add_sub_add_right,
        List.append_assoc]

theorem monthLength_le (year month : ℕ) : monthLength year month ≤ 31 := by
  unfold monthLength
  split
  · split <;> decide
  all_goals decide

theorem pad2_eq {n : ℕ} (h : n < 100) : pad2 n = lastDigits 2 n :=
  padStart_toDigits Nat.two_pos h

theorem zoneMinutes_eq (zone : ℤ) : zoneMinutes zone * 60 = zoneShift zone := by
  rw [zoneMinutes, zoneShift, Int.abs_eq_natAbs]
  rcases lt_trichotomy zone 0 with h | rfl | h
  · rw [if_pos h, Int.sign_eq_neg_one_of_neg h]
    omega
  · rfl
  · rw [if_neg h.not_gt, Int.sign_eq_one_of_pos h]
    omega

theorem abs_zoneShift_le {zone : ℤ} (h : |zone| ≤ 9999) : |zoneShift zone| ≤ 362340 := by
  rw [← zoneMinutes_eq, zoneMinutes, abs_le]
  rw [Int.abs_eq_natAbs] at h
  split_ifs <;> omega

theorem int32_eq {value : ℤ} (hlow : -2 ^ 31 ≤ value) (hhigh : value < 2 ^ 31) :
    int32 value = value := by
  rw [int32, Int.bmod_def]
  split_ifs <;> omega

section

variable {timestamp zone : ℤ}

theorem shiftedSeconds_eq (hpos : 0 ≤ timestamp) (hlt : timestamp < 2 ^ 63)
    (hzone : |zone| ≤ 9999) {shifted : ℕ} : shiftedSeconds timestamp zone = .ok shifted ↔
      timestamp + zoneShift zone = shifted ∧ shifted < 2 ^ 63 := by
  have hbound := abs_le.mp (abs_zoneShift_le hzone)
  have hminutes := zoneMinutes_eq zone
  have hshift : int32 (zoneMinutes zone * 60) = zoneShift zone := by
    rw [hminutes]
    exact int32_eq (by omega) (by omega)
  have hreach : int32 (-zoneMinutes zone * 60) = -zoneShift zone := by
    rw [neg_mul, hminutes]
    exact int32_eq (by omega) (by omega)
  rw [shiftedSeconds]
  dsimp only
  rw [hshift, hreach]
  split_ifs with hbefore hlate
  · refine iff_of_false (by rintro ⟨⟩) fun h => ?_
    omega
  · refine iff_of_false (by rintro ⟨⟩) fun h => ?_
    omega
  · rw [Except.ok.injEq]
    omega

/-- **A moment is refused** before the epoch and from `2 ^ 63` on. -/
theorem shiftedSeconds_refuses (hpos : 0 ≤ timestamp) (hlt : timestamp < 2 ^ 63)
    (hzone : |zone| ≤ 9999) : (∃ refusal, shiftedSeconds timestamp zone = .error refusal) ↔
      timestamp + zoneShift zone < 0 ∨ 2 ^ 63 ≤ timestamp + zoneShift zone := by
  have hok (shifted : ℕ) := @shiftedSeconds_eq _ _ hpos hlt hzone shifted
  constructor
  · rintro ⟨refusal, hrefusal⟩
    by_contra hin
    have hshifted := (hok (timestamp + zoneShift zone).toNat).mpr ⟨by omega, by omega⟩
    rw [hrefusal] at hshifted
    cases hshifted
  · intro hout
    cases hrun : shiftedSeconds timestamp zone with
    | error refusal => exact ⟨refusal, rfl⟩
    | ok shifted =>
      have hin := (hok shifted).mp hrun
      omega

end

theorem civilOfSeconds_spec (seconds : ℕ) : ∃ moment : Moment,
    moment.seconds = seconds + (newYear 1970).seconds ∧
      civilOfSeconds seconds = ⟨⟨moment.date.year, moment.date.month - 1, moment.date.day⟩,
        moment.date.weekday, moment.hour, moment.minute, moment.second⟩ := by
  obtain ⟨date, hnumber, hdate⟩ := civilDate_spec (seconds / 86400)
  refine ⟨⟨date, seconds % 86400 / (60 * 60), seconds % 86400 / 60 % 60, seconds % 86400 % 60,
    by omega, by omega, by omega⟩, ?_, ?_⟩
  · rw [seconds_newYear, Moment.seconds, hnumber]
    dsimp only
    omega
  have hweekday : (seconds / 86400 + 4) % 7 = date.weekday := by
    rw [CalendarDate.weekday, hnumber, daysBeforeYear_1970]
    omega
  rw [civilOfSeconds, hdate]
  dsimp only
  rw [hweekday]

theorem renderedAt_eq {timestamp zone : ℤ} {shifted : ℕ}
    (h : shiftedSeconds timestamp zone = .ok shifted) {year : ℕ}
    (hyear : (civilOfSeconds shifted).year = year) (hlt : year < 2 ^ 31) :
    renderedAt timestamp zone = .ok ⟨civilOfSeconds shifted, zone⟩ := by
  have hsmall : ¬ (civilOfSeconds shifted).year - 1900 > 2 ^ 31 - 1 := by
    rw [hyear]
    omega
  have hint : int32 (civilOfSeconds shifted).year = (civilOfSeconds shifted).year := by
    rw [hyear]
    exact int32_eq (by omega) (by omega)
  rw [renderedAt, h]
  refine congrArg Except.ok ((if_neg hsmall).trans ?_)
  rw [hint]

theorem showNormal_weekday (rendered : Rendered) : ∃ rest,
    showNormal rendered = weekdays.getD rendered.civil.weekday [] ++ ' ' :: rest := by
  rw [showNormal]
  split_ifs
  · exact ⟨_, rfl⟩
  · exact ⟨_, by rw [List.append_assoc, List.cons_append]⟩

/-- **A date is printed exactly**, and refused just when its moment is out of range. -/
theorem showDate_exact {timestamp zone : ℤ} (hpos : 0 ≤ timestamp) (hlt : timestamp < 2 ^ 63)
    (hzone : |zone| ≤ 9999) :
    (∀ mode, (∃ refusal, showDate timestamp zone mode = .error refusal) ↔
      timestamp + zoneShift zone < 0 ∨ 2 ^ 63 ≤ timestamp + zoneShift zone) ∧
    (0 ≤ timestamp + zoneShift zone → timestamp + zoneShift zone < 2 ^ 63 →
      ∃ moment : Moment,
        (moment.seconds : ℤ) - (newYear 1970).seconds = timestamp + zoneShift zone ∧
        (moment.date.year < 2 ^ 31 →
          showDate timestamp zone .iso8601 = .ok (isoText moment zone) ∧
          ∃ rest, showDate timestamp zone .normal =
            .ok (weekdayNames.getD moment.date.weekday [] ++ ' ' :: rest))) := by
  refine ⟨fun mode => ?_, fun hlow hhigh => ?_⟩
  · rw [← shiftedSeconds_refuses hpos hlt hzone, showDate, renderedAt]
    cases shiftedSeconds timestamp zone with
    | error refusal => exact ⟨fun _ => ⟨refusal, rfl⟩, fun _ => ⟨refusal, rfl⟩⟩
    | ok shifted => exact iff_of_false (by rintro ⟨_, ⟨⟩⟩) (by rintro ⟨_, ⟨⟩⟩)
  have hshifted := (@shiftedSeconds_eq _ _ hpos hlt hzone
    (timestamp + zoneShift zone).toNat).mpr ⟨by omega, by omega⟩
  obtain ⟨moment, hseconds, hcivil⟩ := civilOfSeconds_spec (timestamp + zoneShift zone).toNat
  refine ⟨moment, by omega, fun hyear => ?_⟩
  have hrendered := renderedAt_eq hshifted (congrArg (·.year) hcivil) hyear
  have hmonth : moment.date.month - 1 + 1 = moment.date.month :=
    Nat.sub_add_cancel moment.date.month_pos
  rw [hcivil] at hrendered
  rw [showDate, showDate, hrendered]
  refine ⟨congrArg Except.ok ?_, ?_⟩
  · rw [showCivil]
    dsimp only
    have hday : moment.date.day < 100 :=
      (moment.date.day_le.trans (monthLength_le _ _)).trans_lt (by decide)
    have hyears : decimalText moment.date.year = Nat.toDigits 10 moment.date.year :=
      if_neg (Int.not_lt.mpr (Int.natCast_nonneg _))
    have hzones : padStart (Nat.toDigits 10 zone.natAbs) 4 = lastDigits 4 zone.natAbs := by
      rw [Int.abs_eq_natAbs] at hzone
      exact padStart_toDigits (by decide) (by omega)
    rw [dayOf, clockOf, isoText, zoneCompact, signOf]
    simp only [hmonth, List.append_assoc, List.cons_append, hyears, hzones,
      pad2_eq (moment.date.month_le.trans_lt (show 12 < 100 by decide)), pad2_eq hday,
      pad2_eq (moment.hour_lt.trans (show 24 < 100 by decide)),
      pad2_eq (moment.minute_lt.trans (show 60 < 100 by decide)),
      pad2_eq (moment.second_lt.trans (show 60 < 100 by decide))]
  · obtain ⟨rest, hrest⟩ := showNormal_weekday ⟨⟨⟨moment.date.year, moment.date.month - 1,
      moment.date.day⟩, moment.date.weekday, moment.hour, moment.minute, moment.second⟩, zone⟩
    exact ⟨rest, congrArg Except.ok hrest⟩

/-- A leap day that ends a century, in a zone of half an hour. -/
theorem showDate_exact_leapDay :
    (¬ ∃ refusal, showDate 951782400 530 .iso8601 = .error refusal) ∧
      ∃ moment : Moment, (moment.seconds : ℤ) - (newYear 1970).seconds = 951802200 ∧
        (moment.date.year < 2 ^ 31 →
          showDate 951782400 530 .iso8601 = .ok (isoText moment 530)) := by
  have hexact := showDate_exact (show (0 : ℤ) ≤ 951782400 by decide)
    (show (951782400 : ℤ) < 2 ^ 63 by norm_num) (show |(530 : ℤ)| ≤ 9999 by decide)
  have hshift : (951782400 : ℤ) + zoneShift 530 = 951802200 := by decide
  rw [hshift] at hexact
  obtain ⟨moment, hseconds, hprinted⟩ := hexact.2 (by norm_num) (by norm_num)
  exact ⟨fun h => absurd ((hexact.1 _).mp h) (by norm_num), moment, hseconds,
    fun hyear => (hprinted hyear).1⟩

end Tsgit.Pretty
