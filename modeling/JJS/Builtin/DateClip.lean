import JJS.Builtin.DateFields

/-!
# JJS.Builtin.DateClip

A day that is made from year, month and date is clipped to the range of time values. The start of the month is an
`int32_t`: where it does not fit, it is reduced modulo `2 ^ 32` before the range check, and the result can be a date.
-/

namespace JJS
namespace Date

open Gregorian

/-- The greatest number of days that a time value may be away from 1970. -/
def maxDays : ℤ := 100000000

/-- The day at which a month starts, which may be any number of years away. -/
def exactMonthStart (year month : ℤ) : ℤ :=
  yearStart (year + month / 12) + monthStart (year + month / 12) (month % 12).toNat

/-- The same with every `int32_t` reduced modulo `2 ^ 32`. -/
def reducedMonthStart (year month : ℤ) : ℤ :=
  int32 (wrappedYearStart (int32 (year + month / 12)) + monthStart (int32 (year + month / 12)) (month % 12).toNat)

/-- The clipped time is the number of milliseconds at which the day starts, if it is in the range. -/
def ClipsCorrectly (year month date : ℤ) : Prop :=
  let day := exactMonthStart year month + (date - 1)
  timeClip (makeDate (makeDay (some year) (some month) (some date)) (some 0)) =
    if |day * msPerDay| ≤ maxValue then some ((day * msPerDay : ℤ) : ℚ) else none

theorem abs_day_le_iff {d : ℤ} : |d * msPerDay| ≤ maxValue ↔ |d| ≤ maxDays := by
  rw [abs_le, abs_le, msPerDay, maxValue, maxDays]
  constructor
  · intro h
    omega
  · intro h
    omega

theorem timeClip_day (d : ℤ) :
    timeClip (makeDate (some ((d * msPerDay : ℤ) : ℚ)) (some 0)) =
      if |d * msPerDay| ≤ maxValue then some ((d * msPerDay : ℤ) : ℚ) else none := by
  have habs : ((maxValue : ℤ) : ℚ) < |((d * msPerDay : ℤ) : ℚ)| ↔ ¬|d * msPerDay| ≤ maxValue := by
    rw [not_le]
    exact_mod_cast Iff.rfl
  rw [makeDate, add_zero, timeClip, trunc_intCast, if_congr habs rfl rfl, ite_not]

section

variable {year month : ℤ}

theorem clip_eq {date : ℤ} (hy : -2147483647 ≤ year) (hy' : year ≤ 2147483647) (hm : -2147483648 ≤ month)
    (hm' : month ≤ 2147483647) :
    timeClip (makeDate (makeDay (some year) (some month) (some date)) (some 0)) =
      if |(reducedMonthStart year month + (date - 1)) * msPerDay| ≤ maxValue then
        some (((reducedMonthStart year month + (date - 1)) * msPerDay : ℤ) : ℚ)
      else none := by
  rw [makeDay_eq hy hy' hm hm', dayFromYear_eq (int32_le _), int32_add_int32, timeClip_day]
  rfl

/-- The days of a month start are fewer than those of the year. -/
theorem monthStart_bounds (y : ℤ) {m : ℕ} (hm : m ≤ 11) : 0 ≤ monthStart y m ∧ monthStart y m ≤ 366 := by
  rw [monthStart, monthLengths]
  split
  · interval_cases m <;> decide
  · interval_cases m <;> decide

/-- A month start that fits is far from the bounds on the year. -/
theorem reducedMonthStart_of_fits (h : -2147483648 ≤ exactMonthStart year month)
    (h' : exactMonthStart year month ≤ 2147483647) : reducedMonthStart year month = exactMonthStart year month := by
  obtain ⟨hlow, hhigh⟩ := monthStart_bounds (year + month / 12) (m := (month % 12).toNat) (by omega)
  obtain ⟨hnear, hnear'⟩ := yearStart_near (year + month / 12)
  rw [exactMonthStart] at *
  rw [reducedMonthStart, @int32_of_fits (year + month / 12) (by omega) (by omega), wrappedYearStart,
    @int32_of_fits (year + month / 12 - 1969) (by omega) (by omega),
    @int32_of_fits (year + month / 12 - 1901) (by omega) (by omega),
    @int32_of_fits (year + month / 12 - 1601) (by omega) (by omega)]
  rw [yearStart_eq, closedYearStart] at *
  exact int32_of_fits h h'

/-- A date is clipped correctly if and only if its month starts at a day that fits in an `int32_t`, or neither the
day nor the reduced day is in the range. -/
theorem clipsCorrectly_iff (year month date : ℤ) (hyear : |year| ≤ 2147483647) (hmonth : |month| < 2147483648)
    (_hdate : |date| < 2147483648) :
    ClipsCorrectly year month date ↔
      (-2147483648 ≤ exactMonthStart year month ∧ exactMonthStart year month ≤ 2147483647) ∨
        (maxDays < |exactMonthStart year month + (date - 1)| ∧
          maxDays < |reducedMonthStart year month + (date - 1)|) := by
  obtain ⟨hy, hy'⟩ := abs_le.mp hyear
  obtain ⟨hm, hm'⟩ := abs_lt.mp hmonth
  rw [ClipsCorrectly, clip_eq hy hy' (by omega) (by omega)]
  constructor
  · intro h
    by_cases hfits : -2147483648 ≤ exactMonthStart year month ∧ exactMonthStart year month ≤ 2147483647
    · exact Or.inl hfits
    · have hne : reducedMonthStart year month ≠ exactMonthStart year month := by
        intro heq
        rw [← heq] at hfits
        exact hfits ⟨le_int32 _, int32_le _⟩
      refine Or.inr ?_
      by_cases hexact : |exactMonthStart year month + (date - 1)| ≤ maxDays
      · rw [if_pos (abs_day_le_iff.mpr hexact)] at h
        split at h
        · have heq := Int.cast_injective (Option.some.inj h)
          rw [msPerDay] at heq
          omega
        · cases h
      · rw [if_neg (fun hle => hexact (abs_day_le_iff.mp hle))] at h
        split at h
        · cases h
        · rename_i hreduced
          exact ⟨not_le.mp hexact, not_le.mp (fun hle => hreduced (abs_day_le_iff.mpr hle))⟩
  · intro h
    cases h with
    | inl hfits => rw [reducedMonthStart_of_fits hfits.1 hfits.2]
    | inr hfar =>
      rw [if_neg (fun hle => absurd (abs_day_le_iff.mp hle) (not_le.mpr hfar.1)),
        if_neg (fun hle => absurd (abs_day_le_iff.mp hle) (not_le.mpr hfar.2))]

end

theorem clips_first_day : ClipsCorrectly 1970 0 1 :=
  (clipsCorrectly_iff 1970 0 1 (by decide) (by decide) (by decide)).mpr (Or.inl (by decide))

/-- The first of January 11769003 is clipped to a day of the year 9781. -/
theorem far_year_not_clipped : ¬ClipsCorrectly 11769003 0 1 := by
  have hexact : exactMonthStart 11769003 0 = 4297820550 := by
    rw [exactMonthStart, yearStart_eq]
    decide
  have hreduced : reducedMonthStart 11769003 0 = 2853254 := by decide
  rw [ClipsCorrectly, clip_eq (by decide) (by decide) (by decide) (by decide), hexact, hreduced, if_pos (by decide)]
  decide

end Date
end JJS
