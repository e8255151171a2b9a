import JJS.Builtin.Date
import Mathlib.Tactic.IntervalCases
import Mathlib.Tactic.NormNum

/-!
# JJS.Builtin.DateFields

The fields of a time value are those of its day in the calendar and of the time in that day, and `makeDate` puts them
together again. The year is found in one step from the approximation, which is at most two days away
(`yearStart_near`).
-/

namespace JJS
namespace Date

open Gregorian

/-! ## The calendar -/

theorem daysInYear_eq (y : ℤ) : daysInYear y = Gregorian.daysInYear y := by
  have hleap : IsLeap y ↔ y.tmod 4 = 0 ∧ (y.tmod 100 = 0 → y.tmod 400 = 0) := by
    rw [IsLeap, Int.dvd_iff_tmod_eq_zero, Int.dvd_iff_tmod_eq_zero, Int.dvd_iff_tmod_eq_zero]
  rw [daysInYear, Gregorian.daysInYear, if_congr hleap rfl rfl]
  by_cases h4 : y.tmod 4 = 0
  · by_cases h100 : y.tmod 100 = 0
    · by_cases h400 : y.tmod 400 = 0
      · simp [h4, h400]
      · simp [h100, h400]
    · simp [h4, h100]
  · simp [h4]

/-- The year start that `ecma_date_day_from_year` computes, before the sum is reduced. -/
def wrappedYearStart (y : ℤ) : ℤ :=
  365 * (y - 1970) + int32 (y - 1969) / 4 - int32 (y - 1901) / 100 + int32 (y - 1601) / 400

theorem dayFromYear_eq {y : ℤ} (hy : y ≤ 2147483647) : dayFromYear y = int32 (wrappedYearStart y) := by
  rw [dayFromYear, wrappedYearStart]
  split
  · rename_i h
    rw [@int32_of_fits (y - 1969) (by omega) (by omega), @int32_of_fits (y - 1901) (by omega) (by omega),
      @int32_of_fits (y - 1601) (by omega) (by omega), Int.tdiv_eq_ediv_of_nonneg (by omega),
      Int.tdiv_eq_ediv_of_nonneg (by omega), Int.tdiv_eq_ediv_of_nonneg (by omega)]
  · have h4 := Rat.floor_intCast_div_natCast (int32 (y - 1969)) 4
    have h100 := Rat.floor_intCast_div_natCast (int32 (y - 1901)) 100
    have h400 := Rat.floor_intCast_div_natCast (int32 (y - 1601)) 400
    norm_cast at h4 h100 h400 ⊢
    rw [h4, h100, h400, toInt32, trunc_intCast, int32_mul_int32, Int.add_sub_assoc, Int.add_assoc, int32_add_int32,
      ← Int.add_assoc, ← Int.add_sub_assoc]

/-- No operation wraps around. -/
theorem dayFromYear_exact {y : ℤ} (h : -1000000 ≤ y) (h' : y ≤ 1000000) : dayFromYear y = yearStart y := by
  rw [dayFromYear_eq (by omega), wrappedYearStart, @int32_of_fits (y - 1969) (by omega) (by omega),
    @int32_of_fits (y - 1901) (by omega) (by omega), @int32_of_fits (y - 1601) (by omega) (by omega), yearStart_eq,
    closedYearStart]
  apply int32_of_fits
  · omega
  · omega

theorem inLeapYear_eq (y : ℤ) : inLeapYear y = if IsLeap y then 1 else 0 := by
  rw [inLeapYear, daysInYear_eq, Gregorian.daysInYear]
  split
  · rfl
  · rfl

theorem firstDay_eq (y : ℤ) {m : ℕ} (hm : m ≤ 11) : firstDay (inLeapYear y) m = monthStart y m := by
  rw [inLeapYear_eq, monthStart, monthLengths]
  split
  · interval_cases m <;> rfl
  · interval_cases m <;> rfl

/-- The bound of local times, which are less than a day away from a time value. -/
def maxLocal : ℤ := maxValue + msPerDay

/-! ## The day and the year of a time value -/

section

variable {t : ℤ}

theorem dayFromTime_eq (h : -maxLocal ≤ t) (h' : t ≤ maxLocal) : dayFromTime t = t / msPerDay := by
  rw [maxLocal, maxValue, msPerDay] at h h'
  rw [dayFromTime, toInt32, msPerDay]
  by_cases hneg : t < 0
  · have hnegQ : (t : ℚ) < 0 := by exact_mod_cast hneg
    have hshift : (86400000 - 1 - t).tdiv 86400000 = (86400000 - 1 - t) / 86400000 :=
      Int.tdiv_eq_ediv_of_nonneg (by omega)
    rw [if_pos hnegQ, ← Int.cast_sub, trunc_div (by decide), ← Int.neg_sub, Int.neg_tdiv, hshift, int32_of_fits]
    · omega
    · omega
    · omega
  · have hnegQ : ¬(t : ℚ) < 0 := by exact_mod_cast hneg
    rw [if_neg hnegQ, trunc_div (by decide), Int.tdiv_eq_ediv_of_nonneg (by omega), int32_of_fits]
    · omega
    · omega

/-- 365.2425 days are a whole number of milliseconds. -/
theorem approx_eq (t : ℤ) : ⌊(t : ℚ) / msPerDay / 365.2425⌋ = t / 31556952000 := by
  have h := Rat.floor_intCast_div_natCast t 31556952000
  have hyear : (t : ℚ) / msPerDay / 365.2425 = t / (31556952000 : ℕ) := by
    rw [div_div, msPerDay]
    norm_num
  rw [hyear, h]
  rfl

/-- The year of a time value is the year it lies in. -/
theorem yearFromTime_spec (h : -maxLocal ≤ t) (h' : t ≤ maxLocal) :
    yearStart (yearFromTime t) * msPerDay ≤ t ∧ t < yearStart (yearFromTime t + 1) * msPerDay ∧
      -500000 ≤ yearFromTime t ∧ yearFromTime t ≤ 500000 := by
  rw [maxLocal, maxValue, msPerDay] at h h'
  have happrox : toInt32 (⌊(t : ℚ) / msPerDay / 365.2425⌋ + 1970) = t / 31556952000 + 1970 := by
    rw [approx_eq, toInt32]
    norm_cast
    rw [trunc_intCast, int32_of_fits]
    · omega
    · omega
  obtain ⟨y, hy⟩ : ∃ y, y = t / 31556952000 + 1970 := ⟨_, rfl⟩
  have hfit : int32 (y - 1) = y - 1 := int32_of_fits (by omega) (by omega)
  have hfit' : int32 (y + 1) = y + 1 := int32_of_fits (by omega) (by omega)
  have hstart := dayFromYear_exact (y := y) (by omega) (by omega)
  have hnear := yearStart_near y
  have hnear' := yearStart_near (y + 1)
  have hnext := yearStart_succ y
  have hnext' := yearStart_succ (y + 1)
  have hprev := yearStart_succ (y - 1)
  have hlow := daysInYear_ge (y + 1)
  have hlow' := daysInYear_ge (y - 1)
  rw [Int.sub_add_cancel] at hprev
  rw [yearFromTime, happrox, ← hy, hstart, msPerDay]
  norm_cast
  by_cases hbefore : t < yearStart y * 86400000
  · -- the start of the next year is after the time, and stays there
    have hstay : ¬yearStart y * 86400000 + daysInYear (y - 1) * 86400000 ≤ t := by
      rw [daysInYear_eq]
      omega
    rw [if_pos hbefore, hfit, if_neg hstay, Int.sub_add_cancel]
    omega
  · rw [if_neg hbefore, daysInYear_eq]
    by_cases hafter : yearStart y * 86400000 + Gregorian.daysInYear y * 86400000 ≤ t
    · rw [if_pos hafter, hfit']
      omega
    · rw [if_neg hafter]
      omega

/-- The number of days from the start of its year to a time value. -/
theorem dayWithinYear_spec (h : -maxLocal ≤ t) (h' : t ≤ maxLocal) :
    int32 (dayFromTime t - dayFromYear (yearFromTime t)) = t / msPerDay - yearStart (yearFromTime t) ∧
      0 ≤ t / msPerDay - yearStart (yearFromTime t) ∧
      t / msPerDay - yearStart (yearFromTime t) < Gregorian.daysInYear (yearFromTime t) := by
  obtain ⟨hle, hlt, hlow, hhigh⟩ := yearFromTime_spec h h'
  have hdays := daysInYear_le (yearFromTime t)
  rw [yearStart_succ] at hlt
  rw [dayFromTime_eq h h', dayFromYear_exact (by omega) (by omega)]
  rw [msPerDay] at *
  refine ⟨int32_of_fits ?_ ?_, ?_, ?_⟩
  · omega
  · omega
  · omega
  · omega

theorem timeInDayFromTime_eq (h : -maxLocal ≤ t) (h' : t ≤ maxLocal) : timeInDayFromTime t = t % msPerDay := by
  rw [timeInDayFromTime, dayFromTime_eq h h', toInt32]
  norm_cast
  rw [trunc_intCast, msPerDay, int32_of_fits]
  · omega
  · omega
  · omega

theorem hourFromTime_eq (h : -maxLocal ≤ t) (h' : t ≤ maxLocal) : hourFromTime t = t % msPerDay / msPerHour := by
  rw [hourFromTime, timeInDayFromTime_eq h h', msPerDay]
  exact Int.tdiv_eq_ediv_of_nonneg (by omega)

theorem minFromTime_eq (h : -maxLocal ≤ t) (h' : t ≤ maxLocal) :
    minFromTime t = t % msPerDay / msPerMinute % 60 := by
  rw [minFromTime, timeInDayFromTime_eq h h', msPerDay, msPerMinute, Int.tdiv_eq_ediv_of_nonneg (by omega)]
  exact Int.tmod_eq_emod_of_nonneg (by omega)

theorem secFromTime_eq (h : -maxLocal ≤ t) (h' : t ≤ maxLocal) :
    secFromTime t = t % msPerDay / msPerSecond % 60 := by
  rw [secFromTime, timeInDayFromTime_eq h h', msPerDay, msPerSecond, Int.tdiv_eq_ediv_of_nonneg (by omega)]
  exact Int.tmod_eq_emod_of_nonneg (by omega)

theorem msFromTime_eq (h : -maxLocal ≤ t) (h' : t ≤ maxLocal) : msFromTime t = t % msPerDay % msPerSecond := by
  rw [msFromTime, timeInDayFromTime_eq h h', msPerDay]
  exact Int.tmod_eq_emod_of_nonneg (by omega)

theorem weekDay_eq (h : -maxLocal ≤ t) (h' : t ≤ maxLocal) : weekDay t = (t / msPerDay + 4) % 7 := by
  rw [weekDay, dayFromTime_eq h h']
  rw [maxLocal, maxValue, msPerDay] at h h'
  have hfit : int32 (t / msPerDay + 4) = t / msPerDay + 4 := by
    rw [msPerDay]
    apply int32_of_fits
    · omega
    · omega
  rw [hfit, Int.tmod_eq_emod]
  split
  · split
    · omega
    · omega
  · split
    · omega
    · omega

end

/-! ## Months -/

/-- The loop finds the last month that starts at the day or before it. -/
theorem monthLoop_spec {leap d : ℤ} (rounds i : ℕ) (hi : 1 ≤ i) (hsum : rounds + i = 12)
    (hstart : firstDay leap (i - 1) ≤ d) :
    monthLoop leap d rounds i ≤ 11 ∧ firstDay leap (monthLoop leap d rounds i) ≤ d ∧
      (monthLoop leap d rounds i < 11 → d < firstDay leap (monthLoop leap d rounds i + 1)) := by
  induction rounds generalizing i with
  | zero =>
    have hlast : i - 1 = 11 := by omega
    rw [hlast] at hstart
    rw [monthLoop]
    refine ⟨le_refl 11, hstart, ?_⟩
    intro h
    omega
  | succ rounds ih =>
    rw [monthLoop]
    split
    · rename_i hbefore
      rw [Nat.sub_add_cancel hi]
      refine ⟨?_, hstart, ?_⟩
      · omega
      · intro _
        exact hbefore
    · rename_i hbefore
      apply ih
      · omega
      · omega
      · exact not_lt.mp hbefore

/-- Month and date of a day of a year. -/
theorem month_date_spec {y d : ℤ} (hd : 0 ≤ d) (hd' : d < Gregorian.daysInYear y) :
    monthLoop (inLeapYear y) d 11 1 ≤ 11 ∧
      monthStart y (monthLoop (inLeapYear y) d 11 1) ≤ d ∧
      d < monthStart y (monthLoop (inLeapYear y) d 11 1) + daysInMonth y (monthLoop (inLeapYear y) d 11 1) := by
  have hfirst : firstDay (inLeapYear y) 0 ≤ d := by
    rw [firstDay_eq y (Nat.zero_le 11)]
    exact hd
  obtain ⟨hm, hle, hlt⟩ := monthLoop_spec 11 1 (le_refl 1) rfl hfirst
  rw [firstDay_eq y hm] at hle
  refine ⟨hm, hle, ?_⟩
  rw [← monthStart_succ y (by omega)]
  cases Nat.lt_or_ge (monthLoop (inLeapYear y) d 11 1) 11 with
  | inl hlt11 =>
    rw [← firstDay_eq y (by omega)]
    exact hlt hlt11
  | inr hge =>
    have heq : monthLoop (inLeapYear y) d 11 1 = 11 := by omega
    rw [heq, monthStart_twelve]
    exact hd'

section

variable {t : ℤ}

/-- The day of a time value has the number that the calendar gives its year, month and date. -/
theorem month_date_from_time (h : -maxLocal ≤ t) (h' : t ≤ maxLocal) :
    monthFromTime t ≤ 11 ∧ 1 ≤ dateFromTime t ∧
      dateFromTime t ≤ Gregorian.daysInMonth (yearFromTime t) (monthFromTime t) ∧
      dayNumber (yearFromTime t) (monthFromTime t) (dateFromTime t) = t / msPerDay := by
  obtain ⟨hday, hlow, hhigh⟩ := dayWithinYear_spec h h'
  obtain ⟨hm, hfirst, hlast⟩ := month_date_spec hlow hhigh
  have hmonth : monthFromTime t =
      monthLoop (inLeapYear (yearFromTime t)) (t / msPerDay - yearStart (yearFromTime t)) 11 1 := by
    rw [monthFromTime]
    simp only [hday]
  rw [← hmonth] at hm hfirst hlast
  have hlen := daysInMonth_le (yearFromTime t) (monthFromTime t)
  have hdate : dateFromTime t = t / msPerDay - yearStart (yearFromTime t) + 1 -
      monthStart (yearFromTime t) (monthFromTime t) := by
    rw [dateFromTime]
    simp only [hday]
    rw [← hmonth, firstDay_eq _ hm]
    apply int32_of_fits
    · omega
    · omega
  rw [dayNumber, hdate]
  refine ⟨hm, ?_, ?_, ?_⟩
  · omega
  · omega
  · omega

end

/-! ## Construction from integers -/

theorem fmod_eq (m : ℤ) : fmod m 12 = (m.tmod 12 : ℤ) := by
  have hdiv := @trunc_div m 12 (by decide)
  have hmod := Int.mul_tdiv_add_tmod m 12
  rw [Int.cast_ofNat] at hdiv
  rw [fmod, hdiv]
  norm_cast
  omega

/-- The month may be any number of years away. -/
theorem makeDay_eq {y m d : ℤ} (hy : -2147483647 ≤ y) (hy' : y ≤ 2147483647) (hm : -2147483648 ≤ m)
    (hm' : m ≤ 2147483647) :
    makeDay (some y) (some m) (some d) =
      some (((int32 (dayFromYear (int32 (y + m / 12)) + monthStart (int32 (y + m / 12)) (m % 12).toNat) + (d - 1)) *
        msPerDay : ℤ) : ℚ) := by
  have habs : ¬2147483647 < |(y : ℚ)| := by
    rw [not_lt, abs_le]
    constructor
    · exact_mod_cast hy
    · exact_mod_cast hy'
  have hcarry : toInt32 ⌊((trunc m : ℤ) : ℚ) / 12⌋ = m / 12 := by
    have hfloor := Rat.floor_intCast_div_natCast m 12
    rw [Nat.cast_ofNat, Nat.cast_ofNat] at hfloor
    rw [trunc_intCast, hfloor, toInt32, trunc_intCast, int32_of_fits]
    · omega
    · omega
  have hmn : toInt32 (fmod ((trunc m : ℤ) : ℚ) 12) = m.tmod 12 := by
    rw [trunc_intCast, fmod_eq, toInt32, trunc_intCast, Int.tmod_eq_emod]
    apply int32_of_fits
    · split
      · omega
      · omega
    · split
      · omega
      · omega
  have hindex : (if m.tmod 12 < 0 then m.tmod 12 + 12 else m.tmod 12) = m % 12 := by
    rw [Int.tmod_eq_emod]
    split
    · split
      · omega
      · omega
    · split
      · omega
      · omega
  have hyear : toInt32 y = y := by
    rw [toInt32, trunc_intCast]
    exact int32_of_fits (by omega) hy'
  rw [makeDay, if_neg habs]
  simp only [hyear, hcarry, hmn, hindex]
  rw [trunc_intCast, firstDay_eq _ (by omega)]
  norm_cast

/-! ## All fields -/

section

variable {t : ℤ}

theorem makeDay_fields (h : -maxLocal ≤ t) (h' : t ≤ maxLocal) :
    makeDay (some (yearFromTime t)) (some (monthFromTime t)) (some (dateFromTime t)) =
      some ((t / msPerDay * msPerDay : ℤ) : ℚ) := by
  obtain ⟨hm, hdate, hdate', hnumber⟩ := month_date_from_time h h'
  obtain ⟨_, _, hlow, hhigh⟩ := yearFromTime_spec h h'
  rw [dayNumber] at hnumber
  rw [maxLocal, maxValue, msPerDay] at h h'
  have hcarry : (monthFromTime t : ℤ) / 12 = 0 := by omega
  have hindex : ((monthFromTime t : ℤ) % 12).toNat = monthFromTime t := by omega
  have hmake := @makeDay_eq (yearFromTime t) (monthFromTime t) (dateFromTime t) (by omega) (by omega) (by omega)
    (by omega)
  have hlen := daysInMonth_le (yearFromTime t) (monthFromTime t)
  rw [hcarry, hindex, Int.add_zero, @int32_of_fits (yearFromTime t) (by omega) (by omega),
    dayFromYear_exact (by omega) (by omega)] at hmake
  rw [← hnumber, ← Int.cast_natCast, hmake, int32_of_fits]
  · rw [msPerDay] at *
    omega
  · rw [msPerDay] at *
    omega

theorem makeTime_fields (h : -maxLocal ≤ t) (h' : t ≤ maxLocal) :
    makeTime (some (hourFromTime t)) (some (minFromTime t)) (some (secFromTime t)) (some (msFromTime t)) =
      some ((t % msPerDay : ℤ) : ℚ) := by
  have hsum : hourFromTime t * msPerHour + minFromTime t * msPerMinute + secFromTime t * msPerSecond + msFromTime t =
      t % msPerDay := by
    rw [hourFromTime_eq h h', minFromTime_eq h h', secFromTime_eq h h', msFromTime_eq h h']
    rw [msPerDay, msPerHour, msPerMinute, msPerSecond]
    omega
  rw [makeTime, trunc_intCast, trunc_intCast, trunc_intCast, trunc_intCast, ← hsum]
  norm_cast

end

theorem local_of_time_value {t : ℤ} (h : |t| ≤ maxValue) : -maxLocal ≤ t ∧ t ≤ maxLocal := by
  obtain ⟨hlow, hhigh⟩ := abs_le.mp h
  rw [maxLocal, msPerDay]
  omega

/-- The fields of a time value are in their ranges, and put together they are the time value. -/
theorem time_value_fields (t : ℤ) (h : |t| ≤ maxValue) :
    (yearStart (yearFromTime t) * msPerDay ≤ t ∧ t < yearStart (yearFromTime t + 1) * msPerDay) ∧
      monthFromTime t ≤ 11 ∧
      (1 ≤ dateFromTime t ∧ dateFromTime t ≤ daysInMonth (yearFromTime t) (monthFromTime t)) ∧
      (0 ≤ hourFromTime t ∧ hourFromTime t < 24) ∧
      (0 ≤ minFromTime t ∧ minFromTime t < 60) ∧
      (0 ≤ secFromTime t ∧ secFromTime t < 60) ∧
      (0 ≤ msFromTime t ∧ msFromTime t < 1000) ∧
      weekDay t = (t / msPerDay + 4) % 7 ∧
      makeDate (makeDay (some (yearFromTime t)) (some (monthFromTime t)) (some (dateFromTime t)))
        (makeTime (some (hourFromTime t)) (some (minFromTime t)) (some (secFromTime t)) (some (msFromTime t))) =
        some (t : ℚ) := by
  obtain ⟨hlow, hhigh⟩ := local_of_time_value h
  obtain ⟨hyear, hyear', _, _⟩ := yearFromTime_spec hlow hhigh
  obtain ⟨hmonth, hdate, hdate', _⟩ := month_date_from_time hlow hhigh
  have hdiv : t / msPerDay * msPerDay + t % msPerDay = t := Int.ediv_mul_add_emod t msPerDay
  refine ⟨⟨hyear, hyear'⟩, hmonth, ⟨hdate, hdate'⟩, ?_, ?_, ?_, ?_, weekDay_eq hlow hhigh, ?_⟩
  · rw [hourFromTime_eq hlow hhigh, msPerDay, msPerHour]
    omega
  · rw [minFromTime_eq hlow hhigh]
    omega
  · rw [secFromTime_eq hlow hhigh]
    omega
  · rw [msFromTime_eq hlow hhigh, msPerSecond]
    omega
  · rw [makeDay_fields hlow hhigh, makeTime_fields hlow hhigh, makeDate, ← Int.cast_add, hdiv]

theorem last_time_value_fields :
    |(8640000000000000 : ℤ)| ≤ maxValue ∧ monthFromTime (8640000000000000 : ℤ) ≤ 11 := by
  have h : |(8640000000000000 : ℤ)| ≤ maxValue := by decide
  exact ⟨h, (time_value_fields 8640000000000000 h).2.1⟩

end Date
end JJS
