import Mathlib.Algebra.BigOperators.Intervals
import Mathlib.Algebra.Order.BigOperators.Group.Finset
import Mathlib.Data.Prod.Lex

/-! # The Gregorian calendar

Dates and times of the day that carry the proof that they exist, the step to the
next one, and how many steps lie behind one. The order of dates and times is the
lexicographic one of their parts.
-/

namespace Sdx.Lib.Calendar

open Finset

def LeapYear (year : ℕ) : Prop := 4 ∣ year ∧ (100 ∣ year → 400 ∣ year)

instance : DecidablePred LeapYear := fun year =>
  inferInstanceAs (Decidable (4 ∣ year ∧ (100 ∣ year → 400 ∣ year)))

def monthLength (year month : ℕ) : ℕ :=
  if month = 2 then if LeapYear year then 29 else 28
  else if month = 4 ∨ month = 6 ∨ month = 9 ∨ month = 11 then 30 else 31

def yearLength (year : ℕ) : ℕ := if LeapYear year then 366 else 365

theorem monthLength_pos (year month : ℕ) : 0 < monthLength year month := by
  unfold monthLength
  split_ifs <;> omega

/-- A year is its twelve months. -/
theorem sum_monthLength (year : ℕ) :
    ∑ i ∈ range 12, monthLength year (1 + i) = yearLength year := by
  by_cases leap : LeapYear year <;>
    simp [sum_range_succ, monthLength, yearLength, leap]

/-! ## Dates -/

structure Date where
  year : ℕ
  month : ℕ
  day : ℕ
  month_pos : 1 ≤ month
  month_le : month ≤ 12
  day_pos : 1 ≤ day
  day_le : day ≤ monthLength year month

namespace Date

/-- The first day of a year. -/
def newYear (year : ℕ) : Date :=
  ⟨year, 1, 1, le_refl 1, by omega, le_refl 1, monthLength_pos year 1⟩

def next (date : Date) : Date :=
  if inMonth : date.day < monthLength date.year date.month then
    ⟨date.year, date.month, date.day + 1, date.month_pos, date.month_le, by omega, inMonth⟩
  else if inYear : date.month < 12 then
    ⟨date.year, date.month + 1, 1, by omega, inYear, le_refl 1, monthLength_pos _ _⟩
  else newYear (date.year + 1)

/-- The days of the year in front of a date. -/
def dayOfYear (date : Date) : ℕ :=
  ∑ i ∈ range (date.month - 1), monthLength date.year (1 + i) + (date.day - 1)

/-- The days in front of a date, counted from the first day of the year `first`. -/
def days (first : ℕ) (date : Date) : ℕ :=
  ∑ i ∈ range (date.year - first), yearLength (first + i) + date.dayOfYear

def key (date : Date) : ℕ ×ₗ ℕ ×ₗ ℕ := toLex (date.year, toLex (date.month, date.day))

theorem ext_key {a b : Date} (same : a.key = b.key) : a = b := by
  obtain ⟨year, month, day⟩ := a
  obtain ⟨year', month', day'⟩ := b
  simp only [key, toLex_inj, Prod.mk.injEq] at same
  obtain ⟨rfl, rfl, rfl⟩ := same
  rfl

theorem key_lt_iff {a b : Date} : a.key < b.key ↔ a.year < b.year ∨
    a.year = b.year ∧ (a.month < b.month ∨ a.month = b.month ∧ a.day < b.day) := by
  simp only [key, Prod.Lex.toLex_lt_toLex]

variable {first : ℕ} {date a b : Date}

theorem dayOfYear_newYear (year : ℕ) : (newYear year).dayOfYear = 0 := by
  simp [newYear, dayOfYear]

theorem days_newYear (first : ℕ) : (newYear first).days first = 0 := by
  rw [days, dayOfYear_newYear]
  simp [newYear]

/-- The months in front of a later one make room for any day. -/
theorem dayOfYear_lt_sum (date : Date) {months : ℕ} (after : date.month ≤ months) :
    date.dayOfYear < ∑ i ∈ range months, monthLength date.year (1 + i) := by
  have pos := date.month_pos
  have day_pos := date.day_pos
  have day_le := date.day_le
  have this : ∑ i ∈ range date.month, monthLength date.year (1 + i)
      = ∑ i ∈ range (date.month - 1), monthLength date.year (1 + i)
        + monthLength date.year date.month := by
    obtain ⟨m, is_month⟩ : ∃ m, date.month = m + 1 := ⟨date.month - 1, by omega⟩
    rw [is_month, sum_range_succ, Nat.add_sub_cancel, Nat.add_comm 1 m]
  have more : ∑ i ∈ range date.month, monthLength date.year (1 + i)
      ≤ ∑ i ∈ range months, monthLength date.year (1 + i) :=
    sum_le_sum_of_subset (range_subset_range.mpr after)
  unfold dayOfYear
  omega

theorem dayOfYear_lt (date : Date) : date.dayOfYear < yearLength date.year :=
  sum_monthLength date.year ▸ date.dayOfYear_lt_sum date.month_le

/-- The next day is in the same year, one day later, or the year is over. -/
theorem next_cases (date : Date) :
    (date.next.year = date.year ∧ date.next.dayOfYear = date.dayOfYear + 1) ∨
    (date.next = newYear (date.year + 1) ∧ date.dayOfYear + 1 = yearLength date.year) := by
  have month_pos := date.month_pos
  have day_pos := date.day_pos
  have day_le := date.day_le
  by_cases inMonth : date.day < monthLength date.year date.month
  · refine Or.inl ?_
    simp only [next, inMonth, dif_pos, dayOfYear, true_and]
    omega
  have is_last : date.day = monthLength date.year date.month := by omega
  obtain ⟨m, is_month⟩ : ∃ m, date.month = m + 1 := ⟨date.month - 1, by omega⟩
  by_cases inYear : date.month < 12
  · refine Or.inl ?_
    simp only [next, inMonth, inYear, dif_neg, dif_pos, not_false_eq_true, dayOfYear, true_and]
    rw [is_last, is_month, Nat.add_sub_cancel, Nat.add_sub_cancel, sum_range_succ,
      Nat.add_comm 1 m]
    have := monthLength_pos date.year (m + 1)
    omega
  · refine Or.inr ⟨by simp only [next, inMonth, inYear, dif_neg, not_false_eq_true], ?_⟩
    have is_december : m = 11 := by have := date.month_le; omega
    have := monthLength_pos date.year 12
    rw [← sum_monthLength, sum_range_succ _ 11, dayOfYear, is_last, is_month,
      Nat.add_sub_cancel, is_december]
    simp only [Nat.reduceAdd]
    omega

theorem first_le_next (since : first ≤ date.year) : first ≤ date.next.year := by
  obtain ⟨same, -⟩ | ⟨ended, -⟩ := date.next_cases
  · rwa [same]
  · rw [ended]
    exact Nat.le_succ_of_le since

/-- The next day has one day more in front of it. -/
theorem days_next (since : first ≤ date.year) : date.next.days first = date.days first + 1 := by
  obtain ⟨same, later⟩ | ⟨ended, full⟩ := date.next_cases
  · simp only [days, same, later]
    omega
  · rw [ended, days, dayOfYear_newYear, days, Nat.add_assoc, full]
    have passes : (newYear (date.year + 1)).year - first = date.year - first + 1 := by
      simp only [newYear]
      omega
    rw [passes, sum_range_succ, show first + (date.year - first) = date.year by omega, Nat.add_zero]

/-- Later dates have more days in front of them. -/
theorem days_lt_days (since : first ≤ a.year) (before : a.key < b.key) :
    a.days first < b.days first := by
  obtain earlier | ⟨same, inYear⟩ := key_lt_iff.mp before
  · have inside := a.dayOfYear_lt
    have years : ∑ i ∈ range (a.year - first + 1), yearLength (first + i)
        ≤ ∑ i ∈ range (b.year - first), yearLength (first + i) :=
      sum_le_sum_of_subset (range_subset_range.mpr (by omega))
    rw [sum_range_succ, show first + (a.year - first) = a.year by omega] at years
    unfold days
    omega
  unfold days
  rw [same]
  refine Nat.add_lt_add_left ?_ _
  obtain earlier | ⟨month_eq, earlier⟩ := inYear
  · have inside : a.dayOfYear < ∑ i ∈ range (b.month - 1), monthLength a.year (1 + i) :=
      a.dayOfYear_lt_sum (by omega)
    rw [same] at inside
    exact Nat.lt_of_lt_of_le inside (Nat.le_add_right _ _)
  · unfold dayOfYear
    rw [same, month_eq]
    have := a.day_pos
    omega

theorem days_injective (since : first ≤ a.year) (since' : first ≤ b.year)
    (same : a.days first = b.days first) : a = b := by
  obtain before | eq | after := lt_trichotomy a.key b.key
  · exact absurd same (days_lt_days since before).ne
  · exact ext_key eq
  · exact absurd same (days_lt_days since' after).ne'

theorem first_le_iterate_next (first count : ℕ) :
    first ≤ (next^[count] (newYear first)).year := by
  induction count with
  | zero => exact le_refl first
  | succ count ih =>
      rw [Function.iterate_succ_apply']
      exact first_le_next ih

theorem days_iterate_next (first count : ℕ) :
    (next^[count] (newYear first)).days first = count := by
  induction count with
  | zero => exact days_newYear first
  | succ count ih =>
      rw [Function.iterate_succ_apply', days_next (first_le_iterate_next first count), ih]

/-- A date is as many steps from the first day as it has days in front of it. -/
theorem iterate_next_eq_iff {count : ℕ} (since : first ≤ date.year) :
    next^[count] (newYear first) = date ↔ count = date.days first := by
  refine ⟨fun reached => ?_, fun counted => ?_⟩
  · rw [← reached, days_iterate_next]
  · refine days_injective (first_le_iterate_next first count) since ?_
    rw [days_iterate_next, counted]

end Date

/-! ## Times -/

structure DateTime where
  date : Date
  hour : ℕ
  minute : ℕ
  second : ℕ
  hour_lt : hour < 24
  minute_lt : minute < 60
  second_lt : second < 60

namespace DateTime

def next (time : DateTime) : DateTime :=
  if inMinute : time.second + 1 < 60 then
    ⟨time.date, time.hour, time.minute, time.second + 1, time.hour_lt, time.minute_lt, inMinute⟩
  else if inHour : time.minute + 1 < 60 then
    ⟨time.date, time.hour, time.minute + 1, 0, time.hour_lt, inHour, by omega⟩
  else if inDay : time.hour + 1 < 24 then
    ⟨time.date, time.hour + 1, 0, 0, inDay, by omega, by omega⟩
  else ⟨time.date.next, 0, 0, 0, by omega, by omega, by omega⟩

/-- The lexicographic order of the parts of a time. -/
def key (time : DateTime) : ℕ ×ₗ ℕ ×ₗ ℕ ×ₗ ℕ ×ₗ ℕ ×ₗ ℕ :=
  toLex (time.date.year, toLex (time.date.month, toLex (time.date.day,
    toLex (time.hour, toLex (time.minute, time.second)))))

/-- The seconds of the day in front of a time. -/
def secondOfDay (time : DateTime) : ℕ := 3600 * time.hour + 60 * time.minute + time.second

/-- The seconds in front of a time, counted from the start of the year `first`. -/
def seconds (first : ℕ) (time : DateTime) : ℕ :=
  86400 * time.date.days first + time.secondOfDay

variable {first : ℕ} {time a b : DateTime}

theorem secondOfDay_lt (time : DateTime) : time.secondOfDay < 86400 := by
  have := time.hour_lt
  have := time.minute_lt
  have := time.second_lt
  unfold secondOfDay
  omega

/-- Times are in order if their dates are, or on one date their seconds. -/
theorem key_lt_cases (before : a.key < b.key) : a.date.key < b.date.key ∨
    a.date = b.date ∧ a.secondOfDay < b.secondOfDay := by
  simp only [key, Prod.Lex.toLex_lt_toLex] at before
  have := a.second_lt
  have := a.minute_lt
  rw [Date.key_lt_iff]
  obtain earlier | ⟨year_eq, earlier | ⟨month_eq, earlier | ⟨day_eq, inDay⟩⟩⟩ := before
  · exact Or.inl (Or.inl earlier)
  · exact Or.inl (Or.inr ⟨year_eq, Or.inl earlier⟩)
  · exact Or.inl (Or.inr ⟨year_eq, Or.inr ⟨month_eq, earlier⟩⟩)
  · refine Or.inr ⟨Date.ext_key (by simp only [Date.key, year_eq, month_eq, day_eq]), ?_⟩
    unfold secondOfDay
    omega

theorem year_le_of_lt (before : a.key < b.key) : a.date.year ≤ b.date.year := by
  obtain earlier | ⟨same, -⟩ := key_lt_cases before
  · obtain year | ⟨same, -⟩ := Date.key_lt_iff.mp earlier
    · exact year.le
    · exact same.le
  · rw [same]

theorem first_le_next (time : DateTime) (since : first ≤ time.date.year) :
    first ≤ time.next.date.year := by
  unfold next
  split_ifs
  exacts [since, since, since, Date.first_le_next since]

/-- The next second has one second more in front of it. -/
theorem seconds_next (since : first ≤ time.date.year) :
    time.next.seconds first = time.seconds first + 1 := by
  have := time.hour_lt
  have := time.minute_lt
  have := time.second_lt
  unfold next
  split_ifs <;> simp only [seconds, secondOfDay, Date.days_next since] <;> omega

theorem seconds_lt_seconds (since : first ≤ a.date.year) (before : a.key < b.key) :
    a.seconds first < b.seconds first := by
  have inside := a.secondOfDay_lt
  unfold seconds
  obtain earlier | ⟨same, later⟩ := key_lt_cases before
  · have := Date.days_lt_days since earlier
    omega
  · rw [same]
    omega

end DateTime

end Sdx.Lib.Calendar
