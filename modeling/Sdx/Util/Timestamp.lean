import Mathlib.Tactic.IntervalCases
import Sdx.Base
import Sdx.Lib.Calendar

/-! # UNIX timestamps (`util/timestamp.c`) -/

namespace Sdx.Util

open Sdx.Lib.Calendar

/-- `IS_LEAP`. -/
def isLeap (year : Nat) : Bool := year % 4 == 0 && year % 100 != 0 || year % 400 == 0

/-- `__days_in_month`. -/
def daysInMonth (month year : Nat) : Nat :=
  match month with
  | 1 | 3 | 5 | 7 | 8 | 10 | 12 => 31
  | 4 | 6 | 9 | 11 => 30
  | 2 => if isLeap year then 29 else 28
  | _ => 0

def secsPerMinute : Nat := 60
def secsPerHour : Nat := 60 * secsPerMinute
def secsPerDay : Nat := 24 * secsPerHour

/-- `SECS_PER_LEAP` or `SECS_PER_YEAR`. -/
def secsPerYear (year : Nat) : Nat := (if isLeap year then 366 else 365) * secsPerDay

/-- `SECS_PER_MONTH`. -/
def secsPerMonth (month year : Nat) : Nat := daysInMonth month year * secsPerDay

/-- The loop of `timestamp_calc` over the years, with this many passes. -/
def secsOfYears : Nat → Nat
  | 0 => 0
  | passes + 1 => secsOfYears passes + secsPerYear (1970 + passes)

/-- The loop of `timestamp_calc` over the months. -/
def secsOfMonths (year : Nat) : Nat → Nat
  | 0 => 0
  | passes + 1 => secsOfMonths year passes + secsPerMonth (1 + passes) year

/-- `timestamp_calc`. -/
def timestampCalc (year month day hour minute second : Nat) : Nat :=
  let res := secsOfYears (year - 1970)
  let res := res + secsOfMonths year (month - 1)
  -- a day of zero takes a day off
  let res := wrap64 (res + sub64 day 1 * secsPerDay)
  let res := wrap64 (res + hour * secsPerHour)
  let res := wrap64 (res + minute * secsPerMinute)
  wrap64 (res + second)

/-! ## The calendar -/

theorem isLeap_iff (year : Nat) : isLeap year = true ↔ LeapYear year := by
  simp only [isLeap, LeapYear, Bool.or_eq_true, Bool.and_eq_true, beq_iff_eq, bne_iff_ne]
  omega

theorem secsPerYear_eq (year : Nat) : secsPerYear year = 86400 * yearLength year := by
  unfold secsPerYear yearLength
  by_cases leap : LeapYear year
  · rw [if_pos ((isLeap_iff year).mpr leap), if_pos leap]
    rfl
  · rw [if_neg fun is => leap ((isLeap_iff year).mp is), if_neg leap]
    rfl

theorem daysInMonth_eq (year : Nat) {month : Nat} (pos : 1 ≤ month) (le : month ≤ 12) :
    daysInMonth month year = monthLength year month := by
  have february : (if isLeap year then 29 else 28) = if LeapYear year then 29 else 28 := by
    simp only [isLeap_iff]
  interval_cases month <;> first | exact february | rfl

theorem secsOfYears_eq (passes : Nat) :
    secsOfYears passes = 86400 * ∑ i ∈ Finset.range passes, yearLength (1970 + i) := by
  induction passes with
  | zero => rfl
  | succ passes ih =>
      rw [secsOfYears, ih, secsPerYear_eq, Finset.sum_range_succ, Nat.mul_add]

theorem secsOfMonths_eq (year : Nat) {passes : Nat} (le : passes ≤ 12) :
    secsOfMonths year passes = 86400 * ∑ i ∈ Finset.range passes, monthLength year (1 + i) := by
  induction passes with
  | zero => rfl
  | succ passes ih =>
      rw [secsOfMonths, ih (by omega), secsPerMonth, daysInMonth_eq year (by omega) (by omega),
        Finset.sum_range_succ, Nat.mul_add, Nat.mul_comm (monthLength year _)]
      rfl

theorem secsOfYears_le (passes : Nat) : secsOfYears passes ≤ passes * 31622400 := by
  induction passes with
  | zero => exact Nat.le_refl _
  | succ passes ih =>
      have one : secsPerYear (1970 + passes) ≤ 31622400 := by
        rw [secsPerYear_eq, yearLength]
        split_ifs <;> omega
      rw [secsOfYears, Nat.succ_mul]
      exact Nat.add_le_add ih one

/-- `timestamp_calc` of a time the calendar has. -/
def timestampOf (time : DateTime) : Nat :=
  timestampCalc time.date.year time.date.month time.date.day time.hour time.minute time.second

/-- None of the sums leaves the `uint64_t`. -/
theorem timestampOf_eq_seconds {time : DateTime} (since : 1970 ≤ time.date.year)
    (upto : time.date.year ≤ 65535) : timestampOf time = time.seconds 1970 := by
  have years := secsOfYears_le (time.date.year - 1970)
  have months : secsOfMonths time.date.year (time.date.month - 1) + (time.date.day - 1) * 86400
      = 86400 * time.date.dayOfYear := by
    rw [secsOfMonths_eq _ (by have := time.date.month_le; omega), Date.dayOfYear]
    omega
  have inYear : time.date.dayOfYear < 366 := by
    refine Nat.lt_of_lt_of_le time.date.dayOfYear_lt ?_
    unfold yearLength
    split_ifs <;> omega
  have inDay := time.secondOfDay_lt
  have day_lt : time.date.day < 2 ^ 64 := by
    have le := time.date.day_le
    unfold monthLength at le
    split_ifs at le <;> omega
  have day_pos := time.date.day_pos
  have total : time.seconds 1970 = secsOfYears (time.date.year - 1970)
      + (secsOfMonths time.date.year (time.date.month - 1) + (time.date.day - 1) * 86400)
      + time.secondOfDay := by
    rw [months, secsOfYears_eq, DateTime.seconds, Date.days, Nat.mul_add]
  simp only [timestampOf, timestampCalc, secsPerDay, secsPerHour, secsPerMinute,
    sub64_of_le day_pos day_lt, wrap64, Nat.mod_add_mod, total]
  unfold DateTime.secondOfDay at inDay ⊢
  rw [Nat.mod_eq_of_lt (by omega)]
  omega

/-- Timestamps count the seconds of the Gregorian calendar from 1970 on: a time lies
    as many days after the first as there are steps to its date, the next second is one
    more, and later times have larger timestamps. -/
theorem timestampOf_gregorian (time : DateTime) (since : 1970 ≤ time.date.year)
    (upto : time.date.year ≤ 65535) :
    (∃ days, Date.next^[days] (Date.newYear 1970) = time.date ∧
      timestampOf time
        = 86400 * days + 3600 * time.hour + 60 * time.minute + time.second) ∧
    (time.next.date.year ≤ 65535 → timestampOf time.next = timestampOf time + 1) ∧
    ∀ later : DateTime, later.date.year ≤ 65535 → time.key < later.key →
      timestampOf time < timestampOf later := by
  have here := timestampOf_eq_seconds since upto
  refine ⟨⟨time.date.days 1970, (Date.iterate_next_eq_iff since).mpr rfl, ?_⟩,
    fun next_upto => ?_, fun later later_upto before => ?_⟩
  · rw [here, DateTime.seconds, DateTime.secondOfDay]
    omega
  · rw [timestampOf_eq_seconds (time.first_le_next since) next_upto, here,
      DateTime.seconds_next since]
  · have later_since := since.trans (DateTime.year_le_of_lt before)
    rw [here, timestampOf_eq_seconds later_since later_upto]
    exact DateTime.seconds_lt_seconds since before

/-- The last second of a leap day. -/
def leapDayEnd : DateTime where
  date := ⟨2000, 2, 29, by decide, by decide, by decide, by decide⟩
  hour := 23
  minute := 59
  second := 59
  hour_lt := by decide
  minute_lt := by decide
  second_lt := by decide

theorem timestampOf_gregorian_leapDayEnd :
    timestampOf leapDayEnd.next = timestampOf leapDayEnd + 1 :=
  (timestampOf_gregorian leapDayEnd (by decide) (by decide)).2.1 (by decide)

end Sdx.Util
