import JJS.Builtin.DateFields
import JJS.Lib.Decimal
import JJS.Strings.Special

/-!
# JJS.Builtin.DateFormat

Strings of time values (`ecma_date_to_string_format`). A format is a string of characters, and a `$` begins a field. The
adjustment of the local time zone is a function of the time, which the platform gives.
-/

namespace JJS
namespace Date

open Utf8 (Byte)
open Strings (digitByte)

/-- The byte of an ASCII character. -/
def byte (c : Char) : Byte := BitVec.ofNat 8 c.toNat

/-- The bytes of ASCII characters. -/
def bytes (chars : List Char) : List Byte := chars.map byte

/-- `day_names_p`. -/
def dayNames : List (List Byte) :=
  [bytes ['S', 'u', 'n'], bytes ['M', 'o', 'n'], bytes ['T', 'u', 'e'], bytes ['W', 'e', 'd'], bytes ['T', 'h', 'u'],
    bytes ['F', 'r', 'i'], bytes ['S', 'a', 't']]

/-- `month_names_p`. -/
def monthNames : List (List Byte) :=
  [bytes ['J', 'a', 'n'], bytes ['F', 'e', 'b'], bytes ['M', 'a', 'r'], bytes ['A', 'p', 'r'], bytes ['M', 'a', 'y'],
    bytes ['J', 'u', 'n'], bytes ['J', 'u', 'l'], bytes ['A', 'u', 'g'], bytes ['S', 'e', 'p'], bytes ['O', 'c', 't'],
    bytes ['N', 'o', 'v'], bytes ['D', 'e', 'c']]

/-- The digits that a number is printed with, right aligned. -/
def decimal (width n : ℕ) : List Byte := (Decimal.fixed width n).map digitByte

/-- A number with its sign. The positive sign is compulsory for extended years. -/
def printNumber (lowercaseY : Bool) (number : ℤ) (numberLength : ℕ) : List Byte :=
  (if number < 0 then [byte '-'] else if lowercaseY && numberLength == 6 then [byte '+'] else []) ++
    decimal numberLength number.natAbs

/-- The length of the year of `$Y`. -/
def yearLength (number : ℤ) : ℕ :=
  if 100000 ≤ number ∨ number ≤ -100000 then 6 else if 10000 ≤ number ∨ number ≤ -10000 then 5 else 4

/-- The length of the year of `$y`. -/
def isoYearLength (number : ℤ) : ℕ := if 0 ≤ number ∧ number ≤ 9999 then 4 else 6

/-- The field of a format that a character stands for, or a failed assertion. -/
def printField (localTza : ℚ → ℤ) (datetimeNumber : ℚ) : Char → Option (List Byte)
  | 'Y' =>
    let number := yearFromTime datetimeNumber
    some (printNumber false number (yearLength number))
  | 'y' =>
    let number := yearFromTime datetimeNumber
    some (printNumber true number (isoYearLength number))
  | 'M' => monthNames[monthFromTime datetimeNumber]?
  | 'O' => some (printNumber false (monthFromTime datetimeNumber + 1) 2)
  | 'D' => some (printNumber false (dateFromTime datetimeNumber) 2)
  | 'W' => if 0 ≤ weekDay datetimeNumber then dayNames[(weekDay datetimeNumber).toNat]? else none
  | 'h' => some (printNumber false (hourFromTime datetimeNumber) 2)
  | 'm' => some (printNumber false (minFromTime datetimeNumber) 2)
  | 's' => some (printNumber false (secFromTime datetimeNumber) 2)
  | 'i' => some (printNumber false (msFromTime datetimeNumber) 3)
  | 'z' =>
    let timeZone := localTza datetimeNumber
    some ((if 0 ≤ timeZone then byte '+' else byte '-') :: printNumber false (|timeZone|.tdiv msPerHour) 2)
  | 'Z' =>
    let timeZone := localTza datetimeNumber
    some (printNumber false ((|timeZone|.tmod msPerHour).tdiv msPerMinute) 2)
  | _ => none

/-- `ecma_date_to_string_format`. The buffer has `dateBufferLength` bytes; nothing stops the loop at its end. -/
def toStringFormat (localTza : ℚ → ℤ) (datetimeNumber : ℚ) : List Char → Option (List Byte)
  | [] => some []
  | '$' :: c :: format => do
    let field ← printField localTza datetimeNumber c
    let rest ← toStringFormat localTza datetimeNumber format
    some (field ++ rest)
  | c :: format => do
    let rest ← toStringFormat localTza datetimeNumber format
    some (byte c :: rest)

/-- The size of `date_buffer`. -/
def dateBufferLength : ℕ := 37

/-- The format of `ecma_date_value_to_string`. -/
def stringFormat : List Char :=
  ['$', 'W', ' ', '$', 'M', ' ', '$', 'D', ' ', '$', 'Y', ' ', '$', 'h', ':', '$', 'm', ':', '$', 's', ' ', 'G', 'M', 'T',
    '$', 'z', '$', 'Z']

/-- The format of `ecma_date_value_to_utc_string`. -/
def utcStringFormat : List Char :=
  ['$', 'W', ',', ' ', '$', 'D', ' ', '$', 'M', ' ', '$', 'Y', ' ', '$', 'h', ':', '$', 'm', ':', '$', 's', ' ',
    'G', 'M', 'T']

/-- The format of `ecma_date_value_to_iso_string`. -/
def isoStringFormat : List Char :=
  ['$', 'y', '-', '$', 'O', '-', '$', 'D', 'T', '$', 'h', ':', '$', 'm', ':', '$', 's', '.', '$', 'i', 'Z']

/-- The format of `ecma_date_value_to_date_string`. -/
def dateStringFormat : List Char := ['$', 'W', ' ', '$', 'M', ' ', '$', 'D', ' ', '$', 'Y']

/-- The format of `ecma_date_value_to_time_string`. -/
def timeStringFormat : List Char :=
  ['$', 'h', ':', '$', 'm', ':', '$', 's', ' ', 'G', 'M', 'T', '$', 'z', '$', 'Z']

/-- `ecma_date_value_to_string`. -/
def valueToString (localTza : ℚ → ℤ) (datetimeNumber : ℚ) : Option (List Byte) :=
  toStringFormat localTza (datetimeNumber + localTza datetimeNumber) stringFormat

/-- `ecma_date_value_to_utc_string`. -/
def valueToUtcString (localTza : ℚ → ℤ) (datetimeNumber : ℚ) : Option (List Byte) :=
  toStringFormat localTza datetimeNumber utcStringFormat

/-- `ecma_date_value_to_iso_string`. -/
def valueToIsoString (localTza : ℚ → ℤ) (datetimeNumber : ℚ) : Option (List Byte) :=
  toStringFormat localTza datetimeNumber isoStringFormat

/-- `ecma_date_value_to_date_string`. -/
def valueToDateString (localTza : ℚ → ℤ) (datetimeNumber : ℚ) : Option (List Byte) :=
  toStringFormat localTza datetimeNumber dateStringFormat

/-- `ecma_date_value_to_time_string`. -/
def valueToTimeString (localTza : ℚ → ℤ) (datetimeNumber : ℚ) : Option (List Byte) :=
  toStringFormat localTza datetimeNumber timeStringFormat

/-! ## The length of a string -/

theorem length_decimal (width n : ℕ) : (decimal width n).length = width := by
  rw [decimal, List.length_map, Decimal.length_fixed]

theorem length_printNumber (lowercaseY : Bool) (number : ℤ) (numberLength : ℕ) :
    (printNumber lowercaseY number numberLength).length ≤ 1 + numberLength := by
  rw [printNumber, List.length_append, length_decimal]
  apply Nat.add_le_add_right
  split
  · exact Nat.le_refl 1
  · split
    · exact Nat.le_refl 1
    · exact Nat.zero_le 1

/-- A number that is not negative is printed without a sign, but for the year of `$y`. -/
theorem printNumber_of_nonneg {number : ℤ} (h : 0 ≤ number) (numberLength : ℕ) :
    printNumber false number numberLength = decimal numberLength number.natAbs := by
  rw [printNumber, if_neg (not_lt.mpr h), Bool.false_and, if_neg Bool.false_ne_true, List.nil_append]

/-- The characters of the fields. -/
def fieldChars : List Char := ['Y', 'y', 'M', 'O', 'D', 'W', 'h', 'm', 's', 'i', 'z', 'Z']

/-- The number of bytes that a field takes at most. -/
def fieldLength : Char → ℕ
  | 'Y' | 'y' => 7
  | 'M' | 'W' | 'i' | 'z' => 3
  | _ => 2

/-- The number of bytes that a format takes at most, if it has no other fields. -/
def formatLength : List Char → Option ℕ
  | [] => some 0
  | '$' :: c :: format => if c ∈ fieldChars then (formatLength format).map (fieldLength c + ·) else none
  | _ :: format => (formatLength format).map (1 + ·)

section

variable {t : ℤ}

theorem yearLength_le (number : ℤ) : yearLength number ≤ 6 := by
  rw [yearLength]
  split
  · decide
  · split
    · decide
    · decide

theorem isoYearLength_le (number : ℤ) : isoYearLength number ≤ 6 := by
  rw [isoYearLength]
  split
  · decide
  · decide

theorem monthName_spec (h : -maxLocal ≤ t) (h' : t ≤ maxLocal) :
    ∃ name, monthNames[monthFromTime t]? = some name ∧ name.length = 3 := by
  obtain ⟨hmonth, -⟩ := month_date_from_time h h'
  have hall : ∀ m ≤ 11, ∃ name, monthNames[m]? = some name ∧ name.length = 3 := by
    intro m hm
    interval_cases m <;> exact ⟨_, rfl, rfl⟩
  exact hall _ hmonth

theorem weekDay_bounds (h : -maxLocal ≤ t) (h' : t ≤ maxLocal) : 0 ≤ weekDay t ∧ weekDay t < 7 := by
  rw [weekDay_eq h h']
  exact ⟨Int.emod_nonneg _ (by decide), Int.emod_lt_of_pos _ (by decide)⟩

theorem dayName_spec (h : -maxLocal ≤ t) (h' : t ≤ maxLocal) :
    ∃ name, dayNames[(weekDay t).toNat]? = some name ∧ name.length = 3 := by
  obtain ⟨hlow, hhigh⟩ := weekDay_bounds h h'
  have hall : ∀ d < 7, ∃ name, dayNames[d]? = some name ∧ name.length = 3 := by
    intro d hd
    interval_cases d <;> exact ⟨_, rfl, rfl⟩
  exact hall _ (by omega)

/-- The fields of the time in the day are those of a clock. -/
theorem clock_bounds (h : -maxLocal ≤ t) (h' : t ≤ maxLocal) :
    (0 ≤ hourFromTime t ∧ hourFromTime t < 24) ∧ (0 ≤ minFromTime t ∧ minFromTime t < 60) ∧
      (0 ≤ secFromTime t ∧ secFromTime t < 60) ∧ 0 ≤ msFromTime t ∧ msFromTime t < 1000 := by
  rw [hourFromTime_eq h h', minFromTime_eq h h', secFromTime_eq h h', msFromTime_eq h h', msPerDay, msPerHour, msPerMinute,
    msPerSecond]
  omega

/-- A field that is printed with two digits. -/
theorem length_field {number : ℤ} (h : 0 ≤ number) (numberLength : ℕ) :
    ∃ field, some (printNumber false number numberLength) = some field ∧ field.length ≤ numberLength :=
  ⟨_, rfl, by rw [printNumber_of_nonneg h, length_decimal]⟩

/-- Every field is printed, and takes as many bytes as it may. -/
theorem printField_length (localTza : ℚ → ℤ) (h : -maxLocal ≤ t) (h' : t ≤ maxLocal) {c : Char} (hc : c ∈ fieldChars) :
    ∃ field, printField localTza t c = some field ∧ field.length ≤ fieldLength c := by
  obtain ⟨⟨hhour, -⟩, ⟨hmin, -⟩, ⟨hsec, -⟩, hms, -⟩ := clock_bounds h h'
  obtain ⟨-, hdate, -⟩ := month_date_from_time h h'
  simp only [fieldChars, List.mem_cons, List.not_mem_nil, or_false] at hc
  obtain rfl | rfl | rfl | rfl | rfl | rfl | rfl | rfl | rfl | rfl | rfl | rfl := hc
  · have hlength := length_printNumber false (yearFromTime t) (yearLength (yearFromTime t))
    have hle := yearLength_le (yearFromTime t)
    exact ⟨_, rfl, by rw [fieldLength]; omega⟩
  · have hlength := length_printNumber true (yearFromTime t) (isoYearLength (yearFromTime t))
    have hle := isoYearLength_le (yearFromTime t)
    exact ⟨_, rfl, by rw [fieldLength]; omega⟩
  · obtain ⟨name, hname, hlength⟩ := monthName_spec h h'
    exact ⟨name, hname, Nat.le_of_eq hlength⟩
  · exact length_field (by omega) 2
  · exact length_field (by omega) 2
  · obtain ⟨name, hname, hlength⟩ := dayName_spec h h'
    exact ⟨name, (if_pos (weekDay_bounds h h').1).trans hname, Nat.le_of_eq hlength⟩
  · exact length_field hhour 2
  · exact length_field hmin 2
  · exact length_field hsec 2
  · exact length_field hms 3
  · have hzone : 0 ≤ |localTza t|.tdiv msPerHour := Int.tdiv_nonneg (abs_nonneg _) (by decide)
    obtain ⟨field, hfield, hlength⟩ := length_field hzone 2
    exact ⟨_, rfl, Nat.succ_le_succ (by rwa [Option.some.inj hfield])⟩
  · exact length_field (Int.tdiv_nonneg (Int.tmod_nonneg _ (abs_nonneg _)) (by decide)) 2

/-- A format with a length is printed, and takes as many bytes as it may. -/
theorem toStringFormat_length (localTza : ℚ → ℤ) (h : -maxLocal ≤ t) (h' : t ≤ maxLocal) {format : List Char} {n : ℕ}
    (hformat : formatLength format = some n) :
    ∃ string, toStringFormat localTza t format = some string ∧ string.length ≤ n := by
  induction format using formatLength.induct generalizing n with
  | case1 =>
    obtain rfl := Option.some.inj hformat
    exact ⟨[], rfl, Nat.le_refl 0⟩
  | case2 c format hc ih =>
    rw [formatLength, if_pos hc] at hformat
    obtain ⟨m, hm, rfl⟩ := Option.map_eq_some_iff.mp hformat
    obtain ⟨rest, hrest, hlength⟩ := ih hm
    obtain ⟨field, hfield, hlength'⟩ := printField_length localTza h h' hc
    refine ⟨field ++ rest, ?_, ?_⟩
    · rw [toStringFormat, hfield, hrest]
      rfl
    · rw [List.length_append]
      omega
  | case3 c format hc =>
    rw [formatLength, if_neg hc] at hformat
    cases hformat
  | case4 c format hnot ih =>
    rw [formatLength.eq_3 c format hnot] at hformat
    obtain ⟨m, hm, rfl⟩ := Option.map_eq_some_iff.mp hformat
    obtain ⟨rest, hrest, hlength⟩ := ih hm
    refine ⟨byte c :: rest, ?_, ?_⟩
    · rw [toStringFormat.eq_3 localTza t c format hnot, hrest]
      rfl
    · rw [List.length_cons]
      omega

end

end Date
end JJS
