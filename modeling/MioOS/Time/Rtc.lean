import MioOS.Library.Calendar
import MioOS.Memory.Defs

/-!
# Time/Rtc — `rtc.cpp`: the Unix time in the CMOS registers

`read_reg` decodes a register and `get_unix_timestamp` decodes what it gets once more, so a value
keeps its meaning only below 16.  The calendar arithmetic in between is right.
-/

namespace MioOS

namespace Rtc

open Calendar

/-! ## The clock's registers -/

/-- The bytes of the CMOS, by register. -/
abbrev Cmos := UInt8 → UInt8

/-- **`bcd_to_bin`**. -/
def bcdToBin (val : UInt8) : UInt8 := (val >>> 4) * 10 + (val &&& 0x0F)

/-- **`read_reg`**. -/
def readReg (c : Cmos) (reg : UInt8) : UInt8 := bcdToBin (c reg)

/-- `days_before_month`. -/
def daysBeforeMonthTable : List ℕ := [0, 31, 59, 90, 120, 151, 181, 212, 243, 273, 304, 334]

/-- **`get_unix_timestamp`**; `none` is a month outside the table. -/
def getUnixTimestamp (c : Cmos) : Option ℕ :=
  let sec := (bcdToBin (readReg c 0x0)).toNat
  let min := (bcdToBin (readReg c 0x2)).toNat
  let hour := (bcdToBin (readReg c 0x4)).toNat
  let day := (bcdToBin (readReg c 0x7)).toNat
  let month := (bcdToBin (readReg c 0x8)).toNat
  let year := (bcdToBin (readReg c 0x9)).toNat
  let year := if year < 70 then year + 2000 else year + 1900
  let leap : Bool := year % 4 = 0 && (year % 100 ≠ 0 || year % 400 = 0)
  let days := u32 ((year - 1970) * 365 + (year - 1969) / 4 - (year - 1901) / 100 +
    (year - 1601) / 400)
  if month = 0 then none
  else
    daysBeforeMonthTable[month - 1]?.map fun before =>
      let days := u32 (days + before)
      let days := if leap && 2 < month then u32 (days + 1) else days
      let days := u32 (days + 2 ^ 32 + day - 1)
      u32 (((days * 24 + hour) * 60 + min) * 60 + sec)

/-- Two digits in BCD. -/
def bcd (n : ℕ) : UInt8 := UInt8.ofNat (n / 10 * 16 + n % 10)

/-- **The registers hold a time.** -/
structure Holds (c : Cmos) (t : CivilTime) : Prop where
  second : c 0x0 = bcd t.second
  minute : c 0x2 = bcd t.minute
  hour : c 0x4 = bcd t.hour
  day : c 0x7 = bcd t.day
  month : c 0x8 = bcd t.month
  year : c 0x9 = bcd (t.year % 100)

/-! ## Decoding twice -/

theorem bcdToBin_toNat (v : UInt8) : (bcdToBin v).toNat = v.toNat / 16 * 10 + v.toNat % 16 := by
  have hlt := v.toNat_lt
  have h4 : (4 : UInt8).toNat = 4 := rfl
  have h10 : (10 : UInt8).toNat = 10 := rfl
  have h15 : (0x0F : UInt8).toNat = 2 ^ 4 - 1 := rfl
  have h16 : 2 ^ (4 % 8) = 16 := rfl
  rw [bcdToBin, UInt8.toNat_add, UInt8.toNat_mul, UInt8.toNat_shiftRight, UInt8.toNat_and, h4, h10,
    h15, Nat.and_two_pow_sub_one_eq_mod, Nat.shiftRight_eq_div_pow, h16]
  omega

/-- What a number below 100 is taken for when its binary form is decoded once more. -/
def redecode (n : ℕ) : ℕ := n / 16 * 10 + n % 16

theorem redecode_le (n : ℕ) : redecode n ≤ n := by
  rw [redecode]
  omega

theorem redecode_eq_iff (n : ℕ) : redecode n = n ↔ n < 16 := by
  rw [redecode]
  omega

/-- **A register read and decoded again.** -/
theorem bcdToBin_readReg {c : Cmos} {reg : UInt8} {n : ℕ} (h : c reg = bcd n) (hn : n < 100) :
    (bcdToBin (readReg c reg)).toNat = redecode n := by
  have hbcd : (bcd n).toNat = n / 10 * 16 + n % 10 := UInt8.toNat_ofNat_of_lt' (show _ < 256 by omega)
  have honce : (readReg c reg).toNat = n := by
    rw [readReg, h, bcdToBin_toNat, hbcd]
    omega
  rw [bcdToBin_toNat, honce, redecode]

/-! ## The calendar arithmetic -/

/-- The source's count of the days of the years since 1970. -/
theorem days_eq {y : ℕ} (hy : 1970 ≤ y) :
    (y - 1970) * 365 + (y - 1969) / 4 - (y - 1901) / 100 + (y - 1601) / 400
      = daysOfYears 1970 (y - 1970) := by
  have hsum := daysOfYears_eq (show 0 < 1970 by norm_num) (y - 1970)
  have h1970 : leapsBefore 1970 = 477 := by decide
  have h4 : (y - 1969) / 4 = (y - 1) / 4 - 492 :=
    (congrArg (· / 4) (show y - 1969 = y - 1 - 4 * 492 by omega)).trans (Nat.sub_mul_div ..)
  have h100 : (y - 1901) / 100 = (y - 1) / 100 - 19 :=
    (congrArg (· / 100) (show y - 1901 = y - 1 - 100 * 19 by omega)).trans (Nat.sub_mul_div ..)
  have h400 : (y - 1601) / 400 = (y - 1) / 400 - 4 :=
    (congrArg (· / 400) (show y - 1601 = y - 1 - 400 * 4 by omega)).trans (Nat.sub_mul_div ..)
  have hle : (y - 1) / 100 ≤ (y - 1) / 4 := Nat.div_le_div_left (by norm_num) (by norm_num)
  rw [Nat.add_sub_cancel' hy, h1970, leapsBefore] at hsum
  rw [h4, h100, h400]
  omega

theorem leap_eq (y : ℕ) :
    (y % 4 = 0 && (y % 100 ≠ 0 || y % 400 = 0) : Bool) = isLeap y := by
  rw [isLeap, Bool.decide_and, Bool.decide_or]

theorem daysBeforeMonthTable_eq {m : ℕ} (hm : m ∈ Finset.Icc 1 12) :
    daysBeforeMonthTable[m - 1]? = some (daysBeforeMonth false m) := by
  have hall : ∀ m ∈ Finset.Icc 1 12,
      daysBeforeMonthTable[m - 1]? = some (daysBeforeMonth false m) := by decide +kernel
  exact hall m hm

/-- The year the code takes a year for. -/
def codeYear (y : ℕ) : ℕ := 2000 + redecode (y % 100)

theorem redecode_lt {n : ℕ} (hn : n < 100) : redecode n < 66 := by
  rw [redecode]
  omega

/-- The days the code counts up to a date. -/
def codeDays (t : CivilTime) : ℕ :=
  daysOfYears 1970 (codeYear t.year - 1970) + daysBeforeMonth (isLeap (codeYear t.year)) t.month +
    (redecode t.day - 1)

theorem one_le_redecode_day (t : CivilTime) : 1 ≤ redecode t.day := by
  have hone := t.one_le_day
  rw [redecode]
  omega

/-- A decoded day is a day of any month. -/
theorem redecode_day_le (t : CivilTime) (leap : Bool) (m : ℕ) :
    redecode t.day ≤ daysInMonth leap m := by
  have h31 : t.day ≤ 31 := by
    have hmonth : daysInMonth (isLeap t.year) t.month ≤ 31 := by
      rw [daysInMonth]
      split_ifs <;> norm_num
    exact t.day_le.trans hmonth
  have h28 := twentyEight_le_daysInMonth leap m
  rw [redecode]
  omega

/-- What the code counts is a date of the year it takes the year for. -/
theorem codeDays_mem (t : CivilTime) :
    codeDays t ∈ Set.Ico (daysOfYears 1970 (codeYear t.year - 1970))
      (daysOfYears 1970 (codeYear t.year + 1 - 1970)) := by
  have hle : 1970 ≤ codeYear t.year := (show 1970 ≤ 2000 by norm_num).trans (Nat.le_add_right ..)
  have hday := redecode_day_le t (isLeap (codeYear t.year)) t.month
  have hsum := daysBeforeMonth_add_le (isLeap (codeYear t.year)) t.month_mem
  have hone := one_le_redecode_day t
  rw [Nat.succ_sub hle, daysOfYears_succ, Nat.add_sub_cancel' hle, codeDays]
  exact ⟨by omega, by omega⟩

theorem codeDays_lt (t : CivilTime) : codeDays t < 36525 := by
  have hyear := redecode_lt (Nat.mod_lt t.year (show 0 < 100 by norm_num))
  have hle : codeYear t.year + 1 - 1970 ≤ 100 := by
    rw [codeYear]
    omega
  calc codeDays t < daysOfYears 1970 (codeYear t.year + 1 - 1970) := (codeDays_mem t).2
    _ ≤ daysOfYears 1970 100 := daysOfYears_mono 1970 hle
    _ = 36525 := by decide +kernel

/-- **What `get_unix_timestamp` returns.** -/
theorem getUnixTimestamp_eq {c : Cmos} {t : CivilTime} (h : Holds c t) :
    getUnixTimestamp c = some
      (((codeDays t * 24 + redecode t.hour) * 60 + redecode t.minute) * 60 + redecode t.second) := by
  have hmonth : redecode t.month = t.month := by
    have := (Finset.mem_Icc.mp t.month_mem).2
    exact (redecode_eq_iff _).mpr (by omega)
  have hmonth0 : t.month ≠ 0 := Nat.one_le_iff_ne_zero.mp (Finset.mem_Icc.mp t.month_mem).1
  have hday : t.day < 100 := by
    have hle := t.day_le
    have hmonth : daysInMonth (isLeap t.year) t.month ≤ 31 := by
      rw [daysInMonth]
      split_ifs <;> norm_num
    omega
  have hyear := redecode_lt (Nat.mod_lt t.year (show 0 < 100 by norm_num))
  rw [getUnixTimestamp]
  rw [bcdToBin_readReg h.second (t.second_lt.trans (by norm_num)),
    bcdToBin_readReg h.minute (t.minute_lt.trans (by norm_num)),
    bcdToBin_readReg h.hour (t.hour_lt.trans (by norm_num)), bcdToBin_readReg h.day hday,
    bcdToBin_readReg h.month ((Finset.mem_Icc.mp t.month_mem).2.trans_lt (by norm_num)),
    bcdToBin_readReg h.year (Nat.mod_lt _ (by norm_num)), hmonth]
  dsimp only
  rw [if_neg hmonth0, if_pos (hyear.trans (by norm_num)), daysBeforeMonthTable_eq t.month_mem,
    Option.map_some, leap_eq, Nat.add_comm (redecode _) 2000, ← codeYear, days_eq (by
      rw [codeYear]
      omega)]
  refine congrArg some ?_
  have hlt := codeDays_lt t
  have hone := one_le_redecode_day t
  have hhour := (redecode_le t.hour).trans_lt t.hour_lt
  have hminute := (redecode_le t.minute).trans_lt t.minute_lt
  have hsecond := (redecode_le t.second).trans_lt t.second_lt
  have hleap := daysBeforeMonth_leap (isLeap (codeYear t.year)) t.month_mem
  have hdays : u32 ((if (isLeap (codeYear t.year) && decide (2 < t.month)) = true then
      u32 (u32 (u32 (daysOfYears 1970 (codeYear t.year - 1970)) + daysBeforeMonth false t.month) + 1)
      else u32 (u32 (daysOfYears 1970 (codeYear t.year - 1970)) + daysBeforeMonth false t.month)) +
        2 ^ 32 + redecode t.day - 1) = codeDays t := by
    rw [codeDays] at hlt ⊢
    rw [hleap] at hlt ⊢
    generalize daysOfYears 1970 (codeYear t.year - 1970) = a at *
    generalize daysBeforeMonth false t.month = b at *
    have hif : (if (isLeap (codeYear t.year) && decide (2 < t.month)) = true then
        u32 (u32 (u32 a + b) + 1) else u32 (u32 a + b)) =
        a + (b + if isLeap (codeYear t.year) = true ∧ 2 < t.month then 1 else 0) := by
      by_cases hadj : isLeap (codeYear t.year) = true ∧ 2 < t.month
      · rw [if_pos hadj] at hlt ⊢
        rw [if_pos (by rw [hadj.1, decide_eq_true hadj.2]; rfl), u32_of_lt (n := a) (by omega),
          u32_of_lt (n := a + b) (by omega), u32_of_lt (by omega)]
        omega
      · rw [if_neg hadj] at hlt ⊢
        rw [if_neg (by rwa [Bool.and_eq_true, decide_eq_true_iff]), u32_of_lt (n := a) (by omega),
          u32_of_lt (by omega)]
        omega
    rw [hif, u32_eq]
    omega
  rw [hdays, u32_of_lt]
  omega

/-- A date in an earlier year is an earlier day. -/
theorem daysOfYears_le {y y' : ℕ} (h : y < y') :
    daysOfYears 1970 (y + 1 - 1970) ≤ daysOfYears 1970 (y' - 1970) :=
  daysOfYears_mono 1970 (Nat.sub_le_sub_right h 1970)

/-- **The RTC reading is the Unix time** exactly when the second, the minute, the hour, the day and
the two digits of the year are all below 16. -/
theorem getUnixTimestamp_iff {c : Cmos} {t : CivilTime} (h : Holds c t) (hy : 1970 ≤ t.year)
    (hy' : t.year ≤ 2069) :
    getUnixTimestamp c = some (t.secondsSince 1970) ↔
      t.second < 16 ∧ t.minute < 16 ∧ t.hour < 16 ∧ t.day < 16 ∧ t.year % 100 < 16 := by
  rw [getUnixTimestamp_eq h, Option.some_inj, CivilTime.secondsSince]
  have hhour := redecode_le t.hour
  have hminute := redecode_le t.minute
  have hsecond := redecode_le t.second
  have hhour' := t.hour_lt
  have hminute' := t.minute_lt
  have hsecond' := t.second_lt
  by_cases hdigits : t.year % 100 < 16
  · have hyear : codeYear t.year = t.year := by
      rw [codeYear, (redecode_eq_iff _).mpr hdigits]
      omega
    have hone := t.one_le_day
    have hone' := one_le_redecode_day t
    have hday := redecode_le t.day
    rw [codeDays, hyear, CivilTime.daysSince, ← redecode_eq_iff t.second,
      ← redecode_eq_iff t.minute, ← redecode_eq_iff t.hour, ← redecode_eq_iff t.day,
      and_iff_left hdigits]
    omega
  · refine iff_of_false (fun heq => ?_) fun hall => hdigits hall.2.2.2.2
    have hcode := codeDays_mem t
    have htrue := t.daysSince_mem 1970 hy
    rcases lt_or_ge t.year 2000 with hearly | hlate
    · -- the code takes the year for a later one
      have hle := daysOfYears_le (hearly.trans_le (Nat.le_add_right 2000 (redecode (t.year % 100))))
      have hlt : t.daysSince 1970 < codeDays t := htrue.2.trans_le (hle.trans hcode.1)
      omega
    · have hne : redecode (t.year % 100) < t.year % 100 :=
        lt_of_le_of_ne (redecode_le _) fun heq => hdigits ((redecode_eq_iff _).mp heq)
      have hyear : codeYear t.year < t.year := by
        rw [codeYear]
        omega
      have hlt : codeDays t < t.daysSince 1970 :=
        hcode.2.trans_le ((daysOfYears_le hyear).trans htrue.1)
      omega

/-! ## Two moments -/

/-- The registers at a time. -/
def cmosAt (t : CivilTime) : Cmos := fun reg =>
  if reg = 0x0 then bcd t.second
  else if reg = 0x2 then bcd t.minute
  else if reg = 0x4 then bcd t.hour
  else if reg = 0x7 then bcd t.day
  else if reg = 0x8 then bcd t.month
  else bcd (t.year % 100)

theorem holds_cmosAt (t : CivilTime) : Holds (cmosAt t) t := ⟨rfl, rfl, rfl, rfl, rfl, rfl⟩

/-- 9 December 2013, 15:07:12. -/
def december2013 : CivilTime :=
  ⟨2013, 12, 9, 15, 7, 12, by decide, by decide, by decide, by decide, by decide, by decide⟩

theorem getUnixTimestamp_december2013 :
    getUnixTimestamp (cmosAt december2013) = some (december2013.secondsSince 1970) :=
  (getUnixTimestamp_iff (holds_cmosAt december2013) (by decide) (by decide)).mpr (by decide)

/-- 1 January 2026, midnight. -/
def january2026 : CivilTime :=
  ⟨2026, 1, 1, 0, 0, 0, by decide, by decide, by decide, by decide, by decide, by decide⟩

/-- **New year 2026 is read as new year 2020.** -/
theorem not_getUnixTimestamp_january2026 :
    ¬ ∀ (c : Cmos) (t : CivilTime), Holds c t → 1970 ≤ t.year → t.year ≤ 2069 →
      getUnixTimestamp c = some (t.secondsSince 1970) := by
  intro h
  have heq := h (cmosAt january2026) january2026 (holds_cmosAt _) (by decide) (by decide)
  have hcode : getUnixTimestamp (cmosAt january2026) = some 1577836800 := by decide +kernel
  have htrue : january2026.secondsSince 1970 = 1767225600 := by decide +kernel
  rw [hcode, htrue] at heq
  exact absurd (Option.some.inj heq) (by decide)

end Rtc

end MioOS
