import Mathlib.Tactic

/-!
# Library/Calendar — the Gregorian calendar by counting days

Days are counted year by year and month by month; the closed form of the count of years comes from
the number of leap years.
-/

namespace Calendar

/-- A leap year. -/
def isLeap (y : ℕ) : Bool := y % 4 = 0 ∧ (y % 100 ≠ 0 ∨ y % 400 = 0)

/-- The days of a year. -/
def daysInYear (leap : Bool) : ℕ := if leap then 366 else 365

/-- The days of a month of a year, leap or not; January is 1. -/
def daysInMonth (leap : Bool) (m : ℕ) : ℕ :=
  if m = 2 then if leap then 29 else 28
  else if m = 4 ∨ m = 6 ∨ m = 9 ∨ m = 11 then 30
  else 31

/-- The days of a year before a month. -/
def daysBeforeMonth (leap : Bool) (m : ℕ) : ℕ := ((List.range' 1 (m - 1)).map (daysInMonth leap)).sum

/-- The days of the `n` years from year `a` on. -/
def daysOfYears (a n : ℕ) : ℕ := ((List.range' a n).map fun y => daysInYear (isLeap y)).sum

/-- The leap years from year 1 on and before year `y`. -/
def leapsBefore (y : ℕ) : ℕ := (y - 1) / 4 - (y - 1) / 100 + (y - 1) / 400

/-- The divisions by which the leap years are counted step at the multiples. -/
theorem leapsBefore_succ {y : ℕ} (hy : 0 < y) :
    leapsBefore (y + 1) = leapsBefore y + if isLeap y then 1 else 0 := by
  obtain ⟨k, rfl⟩ := Nat.exists_eq_add_one_of_ne_zero hy.ne'
  have hle : k / 100 ≤ k / 4 := Nat.div_le_div_left (by norm_num) (by norm_num)
  simp only [leapsBefore, isLeap, Nat.add_sub_cancel, Nat.succ_div, ← Nat.dvd_iff_mod_eq_zero,
    ne_eq, decide_eq_true_eq]
  generalize k / 4 = a at *
  generalize k / 100 = b at *
  by_cases h : 4 ∣ k + 1 <;> by_cases h' : 100 ∣ k + 1 <;> by_cases h'' : 400 ∣ k + 1 <;>
    simp only [h, h', h'', if_true, if_false, not_true_eq_false, not_false_eq_true, and_true,
      or_true, or_false, and_false] <;>
    omega

theorem daysOfYears_succ (a n : ℕ) :
    daysOfYears a (n + 1) = daysOfYears a n + daysInYear (isLeap (a + n)) := by
  rw [daysOfYears, List.range'_1_concat, List.map_append, List.sum_append, daysOfYears]
  rfl

/-- **The years in days**: 365 each, and one for each leap year. -/
theorem daysOfYears_eq {a : ℕ} (ha : 0 < a) (n : ℕ) :
    daysOfYears a n + leapsBefore a = 365 * n + leapsBefore (a + n) := by
  induction n with
  | zero => simp [daysOfYears]
  | succ n ih =>
    have hleap := leapsBefore_succ (y := a + n) (Nat.add_pos_left ha n)
    rw [daysOfYears_succ, ← Nat.add_assoc a n 1, hleap, daysInYear]
    split <;> omega

theorem daysOfYears_mono (a : ℕ) : Monotone (daysOfYears a) :=
  monotone_nat_of_le_succ fun n => by
    rw [daysOfYears_succ]
    exact Nat.le_add_right ..

/-- The days of a year before a month and in it are days of the year. -/
theorem daysBeforeMonth_add_le (leap : Bool) {m : ℕ} (hm : m ∈ Finset.Icc 1 12) :
    daysBeforeMonth leap m + daysInMonth leap m ≤ daysInYear leap := by
  have hall : ∀ leap, ∀ m ∈ Finset.Icc 1 12,
      daysBeforeMonth leap m + daysInMonth leap m ≤ daysInYear leap := by decide +kernel
  exact hall leap m hm

/-- A leap year's months come a day later from March on. -/
theorem daysBeforeMonth_leap (leap : Bool) {m : ℕ} (hm : m ∈ Finset.Icc 1 12) :
    daysBeforeMonth leap m = daysBeforeMonth false m + if leap ∧ 2 < m then 1 else 0 := by
  have hall : ∀ leap, ∀ m ∈ Finset.Icc 1 12,
      daysBeforeMonth leap m = daysBeforeMonth false m + if leap ∧ 2 < m then 1 else 0 := by decide +kernel
  exact hall leap m hm

theorem twentyEight_le_daysInMonth (leap : Bool) (m : ℕ) : 28 ≤ daysInMonth leap m := by
  rw [daysInMonth]
  split_ifs <;> norm_num

/-- A date and a time of day. -/
structure CivilTime where
  year : ℕ
  month : ℕ
  day : ℕ
  hour : ℕ
  minute : ℕ
  second : ℕ
  month_mem : month ∈ Finset.Icc 1 12
  one_le_day : 1 ≤ day
  day_le : day ≤ daysInMonth (isLeap year) month
  hour_lt : hour < 24
  minute_lt : minute < 60
  second_lt : second < 60

namespace CivilTime

/-- The days from the start of year `a` to a date. -/
def daysSince (a : ℕ) (t : CivilTime) : ℕ :=
  daysOfYears a (t.year - a) + daysBeforeMonth (isLeap t.year) t.month + (t.day - 1)

/-- **The seconds since the start of year `a`.** -/
def secondsSince (a : ℕ) (t : CivilTime) : ℕ :=
  ((t.daysSince a * 24 + t.hour) * 60 + t.minute) * 60 + t.second

/-- A date is in its year. -/
theorem daysSince_mem (a : ℕ) (t : CivilTime) (h : a ≤ t.year) :
    t.daysSince a ∈ Set.Ico (daysOfYears a (t.year - a)) (daysOfYears a (t.year + 1 - a)) := by
  have hsum := daysBeforeMonth_add_le (isLeap t.year) t.month_mem
  have hday := t.day_le
  have hone := t.one_le_day
  have hnext : daysOfYears a (t.year + 1 - a)
      = daysOfYears a (t.year - a) + daysInYear (isLeap t.year) := by
    rw [Nat.succ_sub h, daysOfYears_succ, Nat.add_sub_cancel' h]
  rw [hnext, daysSince]
  exact ⟨by omega, by omega⟩

end CivilTime

end Calendar
