import JJS.Lib.Gregorian
import Mathlib.Data.Rat.Floor

/-!
# JJS.Builtin.Date

Time values and their fields (`ecma-builtin-helpers-date.c`). A number is a rational, without rounding; where NaN or
an infinity may come in, `none` stands for them. `int32_t` arithmetic is modulo `2 ^ 32`, and so is the conversion of
a number to it.
-/

namespace JJS
namespace Date

def int32 (n : ℤ) : ℤ := Int.bmod n (2 ^ 32)

/-- `ecma_number_trunc`. -/
def trunc (x : ℚ) : ℤ := if x < 0 then ⌈x⌉ else ⌊x⌋

def toInt32 (x : ℚ) : ℤ := int32 (trunc x)

def fmod (x y : ℚ) : ℚ := x - y * trunc (x / y)

def msPerSecond : ℤ := 1000
def msPerMinute : ℤ := 60000
def msPerHour : ℤ := 3600000
def msPerDay : ℤ := 86400000

/-- `ECMA_DATE_MAX_VALUE`. -/
def maxValue : ℤ := 8640000000000000

/-! ## Days and years -/

/-- `ecma_date_day_from_time`. -/
def dayFromTime (time : ℚ) : ℤ :=
  let time := if time < 0 then time - (msPerDay - 1 : ℤ) else time
  toInt32 (time / msPerDay)

/-- `ecma_date_day_from_year`. From 1970 on every operation is one of integers; before, the product is, and the
quotients are numbers. -/
def dayFromYear (year : ℤ) : ℤ :=
  if 1970 ≤ year then
    int32 (365 * (year - 1970) + (int32 (year - 1969)).tdiv 4 - (int32 (year - 1901)).tdiv 100
      + (int32 (year - 1601)).tdiv 400)
  else
    toInt32 (int32 (365 * int32 (year - 1970)) + ⌊(int32 (year - 1969) : ℚ) / 4⌋ - ⌊(int32 (year - 1901) : ℚ) / 100⌋
      + ⌊(int32 (year - 1601) : ℚ) / 400⌋)

/-- `ecma_date_days_in_year`. -/
def daysInYear (year : ℤ) : ℤ :=
  if year.tmod 4 ≠ 0 ∨ (year.tmod 100 = 0 ∧ year.tmod 400 ≠ 0) then 365 else 366

/-- `ecma_date_in_leap_year`. -/
def inLeapYear (year : ℤ) : ℤ := daysInYear year - 365

/-- `first_day_in_month`. -/
def firstDayInMonth : List (List ℤ) :=
  [[0, 31, 59, 90, 120, 151, 181, 212, 243, 273, 304, 334], [0, 31, 60, 91, 121, 152, 182, 213, 244, 274, 305, 335]]

def firstDay (inLeapYear : ℤ) (month : ℕ) : ℤ := (firstDayInMonth.getD inLeapYear.toNat []).getD month 0

/-- `ecma_date_year_from_time`. The milliseconds of a year are `int64_t`, which holds them. -/
def yearFromTime (time : ℚ) : ℤ :=
  let approx := toInt32 (⌊time / msPerDay / 365.2425⌋ + 1970)
  let yearMs := dayFromYear approx * msPerDay
  let approx := if time < yearMs then int32 (approx - 1) else approx
  if (yearMs + daysInYear approx * msPerDay : ℤ) ≤ time then int32 (approx + 1) else approx

/-! ## Fields -/

/-- The loop that `ecma_date_month_from_time` and `ecma_date_date_from_time` share. -/
def monthLoop (inLeapYear dayWithinYear : ℤ) : ℕ → ℕ → ℕ
  | 0, _ => 11
  | rounds + 1, i =>
    if dayWithinYear < firstDay inLeapYear i then i - 1 else monthLoop inLeapYear dayWithinYear rounds (i + 1)

/-- `ecma_date_month_from_time`. -/
def monthFromTime (time : ℚ) : ℕ :=
  let year := yearFromTime time
  let dayWithinYear := int32 (dayFromTime time - dayFromYear year)
  monthLoop (inLeapYear year) dayWithinYear 11 1

/-- `ecma_date_date_from_time`. -/
def dateFromTime (time : ℚ) : ℤ :=
  let year := yearFromTime time
  let dayWithinYear := int32 (dayFromTime time - dayFromYear year)
  let month := monthLoop (inLeapYear year) dayWithinYear 11 1
  int32 (dayWithinYear + 1 - firstDay (inLeapYear year) month)

/-- `ecma_date_week_day`. -/
def weekDay (time : ℚ) : ℤ :=
  let weekDay := (int32 (dayFromTime time + 4)).tmod 7
  if 0 ≤ weekDay then weekDay else weekDay + 7

/-- `ecma_date_time_in_day_from_time`. -/
def timeInDayFromTime (time : ℚ) : ℤ := toInt32 (time - dayFromTime time * msPerDay)

/-- `ecma_date_hour_from_time`. -/
def hourFromTime (time : ℚ) : ℤ := (timeInDayFromTime time).tdiv msPerHour

/-- `ecma_date_min_from_time`. -/
def minFromTime (time : ℚ) : ℤ := ((timeInDayFromTime time).tdiv msPerMinute).tmod 60

/-- `ecma_date_sec_from_time`. -/
def secFromTime (time : ℚ) : ℤ := ((timeInDayFromTime time).tdiv msPerSecond).tmod 60

/-- `ecma_date_ms_from_time`. -/
def msFromTime (time : ℚ) : ℤ := (timeInDayFromTime time).tmod msPerSecond

/-! ## Construction -/

/-- `ecma_date_make_time`. -/
def makeTime (hour min sec ms : Option ℚ) : Option ℚ :=
  match hour, min, sec, ms with
  | some hour, some min, some sec, some ms =>
    some (trunc hour * msPerHour + trunc min * msPerMinute + trunc sec * msPerSecond + trunc ms)
  | _, _, _, _ => none

/-- `ecma_date_make_day`. -/
def makeDay (year month date : Option ℚ) : Option ℚ :=
  match year, month, date with
  | some year, some month, some date =>
    if 2147483647 < |year| then none
    else
      let y := toInt32 year
      let m := trunc month
      let dt := trunc date
      let ym := int32 (y + toInt32 ⌊(m : ℚ) / 12⌋)
      let mn := toInt32 (fmod m 12)
      let mn := if mn < 0 then mn + 12 else mn
      let days : ℚ := int32 (dayFromYear ym + firstDay (inLeapYear ym) mn.toNat) + (dt - 1)
      some (days * msPerDay)
  | _, _, _ => none

/-- `ecma_date_make_date`. -/
def makeDate (day time : Option ℚ) : Option ℚ :=
  match day, time with
  | some day, some time => some (day + time)
  | _, _ => none

/-- `ecma_date_time_clip`. -/
def timeClip (time : Option ℚ) : Option ℚ :=
  match time with
  | some time => if maxValue < |time| then none else some (trunc time)
  | none => none

/-! ## Integers -/

theorem int32_of_fits {n : ℤ} (h : -2147483648 ≤ n) (h' : n ≤ 2147483647) : int32 n = n := by
  apply Int.bmod_eq_of_le
  · omega
  · omega

theorem le_int32 (n : ℤ) : -2147483648 ≤ int32 n := by
  have h := @Int.le_bmod n (2 ^ 32) (by decide)
  rw [int32]
  omega

theorem int32_le (n : ℤ) : int32 n ≤ 2147483647 := by
  have h := @Int.bmod_lt n (2 ^ 32) (by decide)
  rw [int32]
  omega

theorem int32_add_int32 (m n : ℤ) : int32 (int32 m + n) = int32 (m + n) := Int.bmod_add_bmod

theorem int32_mul_int32 (m n : ℤ) : int32 (m * int32 n) = int32 (m * n) := Int.mul_bmod_bmod

theorem trunc_intCast (n : ℤ) : trunc n = n := by
  rw [trunc, Int.ceil_intCast, Int.floor_intCast, ite_self]

theorem trunc_div {n d : ℤ} (hd : 0 < d) : trunc ((n : ℚ) / d) = n.tdiv d := by
  lift d to ℕ using hd.le
  have hd' : (0 : ℚ) < (d : ℕ) := by exact_mod_cast hd
  rw [trunc, Int.cast_natCast, Rat.floor_intCast_div_natCast, Rat.ceil_intCast_div_natCast]
  split
  · rename_i hneg
    have hn : n < 0 := by
      have h := (div_neg_iff.mp hneg).resolve_left (fun h => lt_asymm hd' h.2)
      exact_mod_cast h.1
    rw [← Int.tdiv_eq_ediv_of_nonneg (by omega), Int.neg_tdiv, Int.neg_neg]
  · rename_i hneg
    have hn : 0 ≤ n := by
      have h := (div_nonneg_iff.mp (not_lt.mp hneg)).resolve_right (fun h => not_le.mpr hd' h.2)
      exact_mod_cast h.1
    rw [Int.tdiv_eq_ediv_of_nonneg hn]

end Date
end JJS
