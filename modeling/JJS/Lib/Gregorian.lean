import Mathlib.Algebra.BigOperators.Group.Finset.Basic
import Mathlib.Data.Int.Basic
import Mathlib.Data.List.GetD
import Mathlib.Algebra.Ring.Int.Defs

/-!
# JJS.Lib.Gregorian

The proleptic Gregorian calendar. Years are integers and months are counted from 0. Days are counted from the first
of January 1970, which is day 0: `yearStart` adds up the years before and after it, and `yearStart_eq` is its closed
form.
-/

namespace Gregorian

def IsLeap (y : ℤ) : Prop := 4 ∣ y ∧ (100 ∣ y → 400 ∣ y)

instance (y : ℤ) : Decidable (IsLeap y) := inferInstanceAs (Decidable (_ ∧ _))

def daysInYear (y : ℤ) : ℤ := if IsLeap y then 366 else 365

def monthLengths (y : ℤ) : List ℤ := [31, if IsLeap y then 29 else 28, 31, 30, 31, 30, 31, 31, 30, 31, 30, 31]

def daysInMonth (y : ℤ) (m : ℕ) : ℤ := (monthLengths y).getD m 0

/-- The days of a year before a month. -/
def monthStart (y : ℤ) (m : ℕ) : ℤ := ((monthLengths y).take m).sum

/-- The days before a year, from 1970; negative for an earlier year. -/
def yearStart (y : ℤ) : ℤ :=
  match y - 1970 with
  | Int.ofNat n => ∑ i ∈ Finset.range n, daysInYear (1970 + i)
  | Int.negSucc n => -∑ i ∈ Finset.range (n + 1), daysInYear (1969 - i)

/-- The number of a day; the day of the month, from 1, need not be in the month. -/
def dayNumber (y : ℤ) (m : ℕ) (d : ℤ) : ℤ := yearStart y + monthStart y m + (d - 1)

/-! ## Years -/

/-- One leap day for each leap year before the given one, counted from 1970. -/
def closedYearStart (y : ℤ) : ℤ := 365 * (y - 1970) + (y - 1969) / 4 - (y - 1901) / 100 + (y - 1601) / 400

theorem closedYearStart_succ (y : ℤ) : closedYearStart (y + 1) = closedYearStart y + daysInYear y := by
  rw [closedYearStart, closedYearStart, daysInYear]
  split
  · rename_i h
    obtain ⟨h4, h100⟩ := h
    by_cases hc : 100 ∣ y
    · have h400 := h100 hc
      omega
    · omega
  · rename_i h
    by_cases h4 : 4 ∣ y
    · have hc : 100 ∣ y := by
        by_contra hn
        exact h ⟨h4, fun hc => absurd hc hn⟩
      have h400 : ¬400 ∣ y := fun h400 => h ⟨h4, fun _ => h400⟩
      omega
    · omega

theorem sum_after (n : ℕ) : ∑ i ∈ Finset.range n, daysInYear (1970 + i) = closedYearStart (1970 + n) := by
  induction n with
  | zero => rfl
  | succ n ih =>
    rw [Finset.sum_range_succ, ih, Int.natCast_succ, ← Int.add_assoc, closedYearStart_succ]

theorem sum_before (n : ℕ) : -∑ i ∈ Finset.range n, daysInYear (1969 - i) = closedYearStart (1970 - n) := by
  induction n with
  | zero => rfl
  | succ n ih =>
    have hstep := closedYearStart_succ (1969 - n)
    have hnext : (1969 - n + 1 : ℤ) = 1970 - n := by omega
    have hprev : (1970 - (n + 1 : ℕ) : ℤ) = 1969 - n := by omega
    rw [hnext] at hstep
    rw [Finset.sum_range_succ, hprev]
    omega

theorem yearStart_eq (y : ℤ) : yearStart y = closedYearStart y := by
  rw [yearStart]
  cases h : y - 1970 with
  | ofNat n =>
    have hy : y = 1970 + n := by
      rw [Int.ofNat_eq_natCast] at h
      omega
    rw [hy]
    exact sum_after n
  | negSucc n =>
    have hy : y = 1970 - (n + 1 : ℕ) := by omega
    rw [hy]
    exact sum_before (n + 1)

theorem yearStart_succ (y : ℤ) : yearStart (y + 1) = yearStart y + daysInYear y := by
  rw [yearStart_eq, yearStart_eq, closedYearStart_succ]

theorem daysInYear_ge (y : ℤ) : 365 ≤ daysInYear y := by
  rw [daysInYear]
  split
  · omega
  · omega

theorem daysInYear_le (y : ℤ) : daysInYear y ≤ 366 := by
  rw [daysInYear]
  split
  · omega
  · omega

/-- Years of 365.2425 days are never further than two days from the calendar. -/
theorem yearStart_near (y : ℤ) :
    3652425 * (y - 1970) - 20000 ≤ 10000 * yearStart y ∧ 10000 * yearStart y ≤ 3652425 * (y - 1970) + 20000 := by
  rw [yearStart_eq, closedYearStart]
  constructor
  · omega
  · omega

/-! ## Months -/

theorem monthStart_succ (y : ℤ) {m : ℕ} (hm : m < 12) : monthStart y (m + 1) = monthStart y m + daysInMonth y m := by
  have hlen : m < (monthLengths y).length := hm
  rw [monthStart, monthStart, daysInMonth, List.sum_take_succ _ _ hlen, List.getD_eq_getElem _ _ hlen]

theorem daysInMonth_le (y : ℤ) (m : ℕ) : daysInMonth y m ≤ 31 := by
  have hall : ∀ d ∈ monthLengths y, d ≤ 31 := by
    rw [monthLengths]
    split
    · decide
    · decide
  rw [daysInMonth, List.getD_eq_getElem?_getD]
  cases h : (monthLengths y)[m]? with
  | none => decide
  | some d => exact hall d (List.mem_of_getElem? h)

theorem monthStart_twelve (y : ℤ) : monthStart y 12 = daysInYear y := by
  rw [monthStart, monthLengths, daysInYear]
  split
  · rfl
  · rfl

end Gregorian
