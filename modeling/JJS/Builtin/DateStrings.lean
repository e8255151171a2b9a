import JJS.Builtin.DateBasic

/-!
# JJS.Builtin.DateStrings

The strings of a time value parse back. An ISO string is the text of a `DateTime` with the fields of the time value; the
other strings begin with a day name, which the basic parser rejects, and have no milliseconds.
-/

namespace JJS
namespace Date

open Utf8 (Byte)
open Strings (digitByte)

/-! ## ISO strings -/

/-- The year of an ISO string. -/
def isoYear (y : ℤ) : Year := if 0 ≤ y ∧ y ≤ 9999 then .basic y.natAbs else .extended (decide (y < 0)) y.natAbs

theorem isoYear_text (y : ℤ) : printNumber true y (isoYearLength y) = (isoYear y).text := by
  by_cases hbasic : 0 ≤ y ∧ y ≤ 9999
  · rw [isoYear, isoYearLength, if_pos hbasic, if_pos hbasic, printNumber, if_neg (not_lt.mpr hbasic.1), Bool.true_and,
      if_neg (by decide)]
    rfl
  · rw [isoYear, isoYearLength, if_neg hbasic, if_neg hbasic, printNumber]
    by_cases hneg : y < 0
    · rw [if_pos hneg, decide_eq_true hneg]
      rfl
    · rw [if_neg hneg, decide_eq_false hneg]
      rfl

theorem natAbs_cast {y : ℤ} (h : 0 ≤ y) : (y.natAbs : ℚ) = y := by
  rw [← Int.cast_natCast, Int.natAbs_of_nonneg h]

theorem neg_natAbs_cast {y : ℤ} (h : y < 0) : -(y.natAbs : ℚ) = y := by
  rw [← Int.cast_natCast, ← Int.cast_neg, Int.ofNat_natAbs_of_nonpos h.le, neg_neg]

theorem isoYear_value (y : ℤ) : (isoYear y).value = y := by
  rw [isoYear]
  split
  case isTrue h => exact natAbs_cast h.1
  case isFalse h =>
    by_cases hneg : y < 0
    · rw [decide_eq_true hneg]
      exact neg_natAbs_cast hneg
    · rw [decide_eq_false hneg]
      exact natAbs_cast (not_lt.mp hneg)

theorem isoYear_inRange {y : ℤ} (h : |y| ≤ 999999) : (isoYear y).InRange := by
  rw [isoYear]
  split
  case isTrue hbasic =>
    rw [Year.InRange]
    omega
  case isFalse =>
    rw [Int.abs_eq_natAbs] at h
    exact_mod_cast h

section

variable {t : ℤ}

/-- The fields of a time value, as an ISO string has them. -/
def isoDateTime (t : ℤ) : DateTime where
  year := isoYear (yearFromTime t)
  monthDay := .day false (monthFromTime t + 1) (dateFromTime t).natAbs
  time := .time false (hourFromTime t).natAbs (minFromTime t).natAbs
    (.milliseconds (secFromTime t).natAbs (msFromTime t).natAbs) .utc

/-- The string has the text of the fields. -/
theorem isoString_text (localTza : ℚ → ℤ) (h : -maxLocal ≤ t) (h' : t ≤ maxLocal) :
    valueToIsoString localTza t = some (isoDateTime t).text := by
  obtain ⟨⟨hhour, -⟩, ⟨hmin, -⟩, ⟨hsec, -⟩, hms, -⟩ := clock_bounds h h'
  obtain ⟨-, hdate, -⟩ := month_date_from_time h h'
  have hmonth : printNumber false (monthFromTime t + 1) 2 = decimal 2 (monthFromTime t + 1) := by
    rw [printNumber_of_nonneg (by omega)]
    rfl
  have hprint : valueToIsoString localTza t = some
      (printNumber true (yearFromTime t) (isoYearLength (yearFromTime t)) ++ byte '-' ::
        (printNumber false (monthFromTime t + 1) 2 ++ byte '-' :: (printNumber false (dateFromTime t) 2 ++ byte 'T' ::
          (printNumber false (hourFromTime t) 2 ++ byte ':' :: (printNumber false (minFromTime t) 2 ++ byte ':' ::
            (printNumber false (secFromTime t) 2 ++ byte '.' :: (printNumber false (msFromTime t) 3 ++
              [byte 'Z']))))))) := rfl
  rw [hprint, isoYear_text, hmonth, printNumber_of_nonneg (by omega), printNumber_of_nonneg hhour,
    printNumber_of_nonneg hmin, printNumber_of_nonneg hsec, printNumber_of_nonneg hms]
  simp only [isoDateTime, DateTime.text, MonthDay.text, Time.text, Seconds.text, Timezone.text, separatorByte,
    Bool.false_eq_true, if_false, List.append_assoc, List.cons_append]

theorem isoDateTime_inRange (h : -maxLocal ≤ t) (h' : t ≤ maxLocal) : (isoDateTime t).InRange := by
  obtain ⟨⟨hhour, hhour'⟩, ⟨hmin, hmin'⟩, ⟨hsec, hsec'⟩, hms, hms'⟩ := clock_bounds h h'
  obtain ⟨hmonth, hdate, hdate', -⟩ := month_date_from_time h h'
  obtain ⟨-, -, hlow, hhigh⟩ := yearFromTime_spec h h'
  have hlength := Gregorian.daysInMonth_le (yearFromTime t) (monthFromTime t)
  refine ⟨isoYear_inRange (abs_le.mpr ⟨by omega, by omega⟩), ⟨⟨by omega, by omega⟩, by omega, by omega⟩, by omega, by omega,
    ⟨by omega, by omega⟩, fun h24 => by omega, trivial⟩

/-- The value of the fields is the time value. -/
theorem isoDateTime_value (localTza : ℚ → ℤ) (h : -maxLocal ≤ t) (h' : t ≤ maxLocal) :
    (isoDateTime t).value localTza = some (t : ℚ) := by
  obtain ⟨⟨hhour, -⟩, ⟨hmin, -⟩, ⟨hsec, -⟩, hms, -⟩ := clock_bounds h h'
  obtain ⟨-, hdate, -⟩ := month_date_from_time h h'
  have hday := makeDay_fields h h'
  have htime := makeTime_fields h h'
  rw [← natAbs_cast hhour, ← natAbs_cast hmin, ← natAbs_cast hsec, ← natAbs_cast hms, makeTime_natCast] at htime
  have hmonth : ((monthFromTime t + 1 : ℕ) : ℚ) - 1 = (monthFromTime t : ℚ) := by
    rw [Nat.cast_add, Nat.cast_one, add_sub_cancel_right]
  have hdate' : ((dateFromTime t).natAbs : ℚ) = dateFromTime t := natAbs_cast (by omega)
  have hdiv : t / msPerDay * msPerDay + t % msPerDay = t := Int.ediv_mul_add_emod t msPerDay
  rw [DateTime.value]
  simp only [isoDateTime, isoYear_value, MonthDay.monthValue, MonthDay.dayValue, Time.value, Time.isUtc, Timezone.isUtc,
    Timezone.apply, Seconds.secondsValue, Seconds.millisecondsValue, hmonth, hdate', hday, if_true]
  rw [Option.some.inj htime, makeDate, ← Int.cast_add, hdiv]

/-- The ISO string of a time value parses to it. -/
theorem parse_isoString (localTza : ℚ → ℤ) (h : -maxLocal ≤ t) (h' : t ≤ maxLocal) :
    ∃ string, valueToIsoString localTza t = some string ∧ parse localTza string = some (t : ℚ) := by
  refine ⟨(isoDateTime t).text, isoString_text localTza h h', ?_⟩
  have hparse : parseBasic localTza (isoDateTime t).text = some (t : ℚ) :=
    parseBasic_iff.mpr ⟨isoDateTime t, isoDateTime_inRange h h', rfl, isoDateTime_value localTza h h'⟩
  rw [parse, hparse]

end

/-! ## Parts of the other strings -/

theorem toStringFormat_field {localTza : ℚ → ℤ} {x : ℚ} {c : Char} {format : List Char} {field rest : List Byte}
    (hfield : printField localTza x c = some field) (hrest : toStringFormat localTza x format = some rest) :
    toStringFormat localTza x ('$' :: c :: format) = some (field ++ rest) := by
  rw [toStringFormat, hfield, hrest]
  rfl

theorem toStringFormat_char {localTza : ℚ → ℤ} {x : ℚ} {c : Char} {format : List Char} {rest : List Byte} (hc : c ≠ '$')
    (hrest : toStringFormat localTza x format = some rest) :
    toStringFormat localTza x (c :: format) = some (byte c :: rest) := by
  rw [toStringFormat.eq_3 localTza x c format fun _ _ h _ => hc h, hrest]
  rfl

/-- A name in a list of names of three bytes is read. -/
theorem parseDayName_name {name : List Byte} (hname : name ∈ dayNames) (c : Byte) (rest : List Byte) :
    parseDayName (name ++ c :: rest) = some (c :: rest) := by
  have hlength : ∀ name ∈ dayNames, name.length = 3 := by decide
  have h3 := hlength name hname
  have htake : (name ++ c :: rest).take 3 = name := by rw [← h3, List.take_left]
  have hdrop : (name ++ c :: rest).drop 3 = c :: rest := by rw [← h3, List.drop_left]
  rw [parseDayName, htake, hdrop]
  refine if_pos ⟨?_, hname⟩
  rw [List.length_append, h3, List.length_cons]
  omega

theorem parseMonthName_name {m : ℕ} {name : List Byte} (hname : monthNames[m]? = some name) (c : Byte) (rest : List Byte) :
    parseMonthName (name ++ c :: rest) = some (m + 1, c :: rest) := by
  have hm : m < 12 := (List.getElem?_eq_some_iff.mp hname).1
  have hall : ∀ m < 12, ∀ name, monthNames[m]? = some name →
      name.length = 3 ∧ monthNames.findIdx? (· == name) = some m := by
    intro m hm name hname
    interval_cases m <;>
      · obtain rfl := Option.some.inj hname
        decide
  obtain ⟨h3, hfind⟩ := hall m hm name hname
  have htake : (name ++ c :: rest).take 3 = name := by rw [← h3, List.take_left]
  have hdrop : (name ++ c :: rest).drop 3 = c :: rest := by rw [← h3, List.drop_left]
  have hlength : 3 < (name ++ c :: rest).length := by
    rw [List.length_append, h3, List.length_cons]
    omega
  rw [parseMonthName, if_pos hlength, htake, hfind, hdrop]

theorem parseYearLoop_digits {rounds count acc : ℕ} {digits : List ℕ} (hdigits : ∀ d ∈ digits, d < 10)
    (hlength : digits.length ≤ rounds) {c : Byte} (hc : Lit.litCharIsDecimalDigit c = false) (rest : List Byte) :
    parseYearLoop rounds count acc (digits.map digitByte ++ c :: rest) =
      (count + digits.length, Decimal.value acc digits, c :: rest) := by
  induction digits generalizing rounds count acc with
  | nil =>
    cases rounds with
    | zero => rfl
    | succ rounds => rw [List.map_nil, List.nil_append, parseYearLoop, hc, if_neg Bool.false_ne_true]; rfl
  | cons d digits ih =>
    have hd : d < 10 := hdigits d List.mem_cons_self
    cases rounds with
    | zero => cases hlength
    | succ rounds =>
      rw [List.map_cons, List.cons_append, parseYearLoop, if_pos ((isDecimalDigit_iff _).mpr ⟨d, hd, rfl⟩),
        digitByte_value hd, ih (fun x hx => hdigits x (List.mem_cons_of_mem d hx)) (Nat.le_of_succ_le_succ hlength),
        Decimal.value_cons, List.length_cons, Nat.mul_comm, Nat.add_assoc, Nat.add_comm 1]

theorem yearLength_spec {y : ℤ} (h : |y| ≤ 999999) :
    4 ≤ yearLength y ∧ yearLength y ≤ 6 ∧ y.natAbs < 10 ^ yearLength y := by
  obtain ⟨hlow, hhigh⟩ := abs_le.mp h
  rw [yearLength]
  split
  · omega
  · split
    · omega
    · omega

/-- A year with four to six digits and a sign is read back. -/
theorem parseYear_year {y : ℤ} (h : |y| ≤ 999999) (rest : List Byte) :
    parseYear (printNumber false y (yearLength y) ++ byte ' ' :: rest) = some ((y : ℚ), byte ' ' :: rest) := by
  obtain ⟨hmin, hmax, hlt⟩ := yearLength_spec h
  have hloop : parseYearLoop 6 0 0 (decimal (yearLength y) y.natAbs ++ byte ' ' :: rest) =
      (yearLength y, y.natAbs, byte ' ' :: rest) := by
    have hdigits := @parseYearLoop_digits 6 0 0 (Decimal.fixed (yearLength y) y.natAbs) (fun _ => Decimal.lt_of_mem_fixed)
      (by rwa [Decimal.length_fixed]) (byte ' ') (by decide) rest
    rwa [Decimal.length_fixed, Decimal.value_fixed 0 hlt, Nat.zero_add, Nat.zero_mul, Nat.zero_add] at hdigits
  by_cases hneg : y < 0
  · rw [printNumber, if_pos hneg, List.append_assoc, List.singleton_append, parseYear, parseSpecialChar_cons]
    dsimp only [Option.getD_some, Option.isSome_some]
    rw [hloop]
    dsimp only
    rw [if_pos hmin, if_pos rfl, neg_natAbs_cast hneg]
  · obtain ⟨width, hwidth⟩ := Nat.exists_eq_succ_of_ne_zero (Nat.ne_of_gt (Nat.lt_of_lt_of_le (by decide) hmin))
    obtain ⟨d, digits, hd, hdecimal⟩ := decimal_succ width y.natAbs
    have hminus : parseSpecialChar (decimal (yearLength y) y.natAbs ++ byte ' ' :: rest) (byte '-') = none := by
      rw [hwidth, Nat.succ_eq_add_one, hdecimal]
      exact parseSpecialChar_of_ne (digitByte_ne hd (by decide))
    rw [printNumber_of_nonneg (not_lt.mp hneg), parseYear, hminus]
    dsimp only [Option.getD_none, Option.isSome_none]
    rw [hloop]
    dsimp only
    rw [if_pos hmin, if_neg Bool.false_ne_true, natAbs_cast (not_lt.mp hneg)]

theorem parseNumber_decimal {numOfChars limitMin limitMax n : ℕ} (rest : List Byte) (hmin : limitMin ≤ n)
    (hmax : n ≤ limitMax) (hwidth : limitMax < 10 ^ numOfChars) :
    parseNumber (decimal numOfChars n ++ rest) numOfChars limitMin limitMax = some ((n : ℚ), rest) := by
  rw [parseNumber, parseDateChars_decimal rest hmin hmax hwidth]

/-! ## Other strings -/

section

variable {t : ℤ}

/-- The text of `$h:$m:$s GMT`, and what follows it. -/
def clockText (t : ℤ) (rest : List Byte) : List Byte :=
  decimal 2 (hourFromTime t).natAbs ++ byte ':' :: (decimal 2 (minFromTime t).natAbs ++ byte ':' ::
    (decimal 2 (secFromTime t).natAbs ++ byte ' ' :: byte 'G' :: byte 'M' :: byte 'T' :: rest))

/-- The text of the year with the spaces around it, and what follows it. -/
def yearText (t : ℤ) (rest : List Byte) : List Byte :=
  byte ' ' :: (printNumber false (yearFromTime t) (yearLength (yearFromTime t)) ++ byte ' ' :: rest)

/-- The text of `ecma_date_value_to_utc_string`. -/
theorem utcString_text (localTza : ℚ → ℤ) (h : -maxLocal ≤ t) (h' : t ≤ maxLocal) :
    ∃ dayName ∈ dayNames, ∃ monthName, monthNames[monthFromTime t]? = some monthName ∧
      valueToUtcString localTza t = some (dayName ++ byte ',' :: byte ' ' :: (decimal 2 (dateFromTime t).natAbs ++
        byte ' ' :: (monthName ++ yearText t (clockText t [])))) := by
  obtain ⟨⟨hhour, -⟩, ⟨hmin, -⟩, ⟨hsec, -⟩, -⟩ := clock_bounds h h'
  obtain ⟨-, hdate, -⟩ := month_date_from_time h h'
  obtain ⟨dayName, hday, -⟩ := dayName_spec h h'
  obtain ⟨monthName, hmonth, -⟩ := monthName_spec h h'
  have hW : printField localTza t 'W' = some dayName := (if_pos (weekDay_bounds h h').1).trans hday
  refine ⟨dayName, List.mem_of_getElem? hday, monthName, hmonth, ?_⟩
  rw [clockText, yearText, ← printNumber_of_nonneg (by omega), ← printNumber_of_nonneg hhour, ← printNumber_of_nonneg hmin,
    ← printNumber_of_nonneg hsec]
  exact toStringFormat_field hW <| toStringFormat_char (by decide) <| toStringFormat_char (by decide) <|
    toStringFormat_field rfl <| toStringFormat_char (by decide) <| toStringFormat_field hmonth <|
    toStringFormat_char (by decide) <| toStringFormat_field rfl <| toStringFormat_char (by decide) rfl

/-- The offset of a time zone, as `$z$Z` prints it. -/
def offsetText (tza : ℤ) : List Byte :=
  signByte (decide (tza < 0)) :: (decimal 2 (tza.natAbs / 3600000) ++ decimal 2 (tza.natAbs % 3600000 / 60000))

/-- The text of `ecma_date_value_to_string` for a local time. -/
theorem string_text (tza : ℤ) (h : -maxLocal ≤ t) (h' : t ≤ maxLocal) :
    ∃ dayName ∈ dayNames, ∃ monthName, monthNames[monthFromTime t]? = some monthName ∧
      toStringFormat (fun _ => tza) t stringFormat = some (dayName ++ byte ' ' :: (monthName ++ byte ' ' ::
        (decimal 2 (dateFromTime t).natAbs ++ yearText t (clockText t (offsetText tza))))) := by
  obtain ⟨⟨hhour, -⟩, ⟨hmin, -⟩, ⟨hsec, -⟩, -⟩ := clock_bounds h h'
  obtain ⟨-, hdate, -⟩ := month_date_from_time h h'
  obtain ⟨dayName, hday, -⟩ := dayName_spec h h'
  obtain ⟨monthName, hmonth, -⟩ := monthName_spec h h'
  have hW : printField (fun _ => tza) t 'W' = some dayName := (if_pos (weekDay_bounds h h').1).trans hday
  have hoffset : toStringFormat (fun _ => tza) t ['$', 'z', '$', 'Z'] = some (offsetText tza) := by
    have hz : |tza|.tdiv msPerHour = ((tza.natAbs / 3600000 : ℕ) : ℤ) := by
      rw [Int.abs_eq_natAbs]
      rfl
    have hZ : (|tza|.tmod msPerHour).tdiv msPerMinute = ((tza.natAbs % 3600000 / 60000 : ℕ) : ℤ) := by
      rw [Int.abs_eq_natAbs]
      rfl
    have hsign : (if 0 ≤ tza then byte '+' else byte '-') = signByte (decide (tza < 0)) := by
      by_cases hneg : tza < 0
      · rw [if_neg (not_le.mpr hneg), decide_eq_true hneg]
        rfl
      · rw [if_pos (not_lt.mp hneg), decide_eq_false hneg]
        rfl
    have hprint : toStringFormat (fun _ => tza) t ['$', 'z', '$', 'Z'] = some
        ((if 0 ≤ tza then byte '+' else byte '-') :: (printNumber false (|tza|.tdiv msPerHour) 2 ++
          (printNumber false ((|tza|.tmod msPerHour).tdiv msPerMinute) 2 ++ []))) := rfl
    rw [hprint, hsign, hz, hZ, printNumber_of_nonneg (by omega), printNumber_of_nonneg (by omega), List.append_nil,
      Int.natAbs_natCast, Int.natAbs_natCast, offsetText]
  refine ⟨dayName, List.mem_of_getElem? hday, monthName, hmonth, ?_⟩
  rw [clockText, yearText, ← printNumber_of_nonneg (by omega), ← printNumber_of_nonneg hhour, ← printNumber_of_nonneg hmin,
    ← printNumber_of_nonneg hsec]
  exact toStringFormat_field hW <| toStringFormat_char (by decide) <| toStringFormat_field hmonth <|
    toStringFormat_char (by decide) <| toStringFormat_field rfl <| toStringFormat_char (by decide) <|
    toStringFormat_field rfl <| toStringFormat_char (by decide) <| toStringFormat_field rfl <|
    toStringFormat_char (by decide) <| toStringFormat_field rfl <| toStringFormat_char (by decide) <|
    toStringFormat_field rfl <| toStringFormat_char (by decide) <| toStringFormat_char (by decide) <|
    toStringFormat_char (by decide) <| toStringFormat_char (by decide) hoffset

end

/-! ## Parsing them -/

section

variable {t : ℤ}

/-- The time of a time value without its milliseconds. -/
theorem makeTime_clock (h : -maxLocal ≤ t) (h' : t ≤ maxLocal) :
    makeTime (some ((hourFromTime t).natAbs : ℚ)) (some ((minFromTime t).natAbs : ℚ)) (some ((secFromTime t).natAbs : ℚ))
      (some 0) = some ((t % msPerDay / 1000 * 1000 : ℤ) : ℚ) := by
  obtain ⟨⟨hhour, -⟩, ⟨hmin, -⟩, ⟨hsec, -⟩, -⟩ := clock_bounds h h'
  have hmake := makeTime_natCast (hourFromTime t).natAbs (minFromTime t).natAbs (secFromTime t).natAbs 0
  rw [Nat.cast_zero] at hmake
  rw [hmake, Int.natAbs_of_nonneg hhour, Int.natAbs_of_nonneg hmin, Int.natAbs_of_nonneg hsec, hourFromTime_eq h h',
    minFromTime_eq h h', secFromTime_eq h h', msPerDay, msPerHour, msPerMinute, msPerSecond]
  congr 2
  omega

/-- The day of a time value, from the parsed fields. -/
theorem makeDay_parsed (h : -maxLocal ≤ t) (h' : t ≤ maxLocal) :
    makeDay (some (yearFromTime t : ℚ)) (some (((monthFromTime t + 1 : ℕ) : ℚ) - 1))
      (some ((dateFromTime t).natAbs : ℚ)) = some ((t / msPerDay * msPerDay : ℤ) : ℚ) := by
  obtain ⟨-, hdate, -⟩ := month_date_from_time h h'
  have hmonth : ((monthFromTime t + 1 : ℕ) : ℚ) - 1 = (monthFromTime t : ℚ) := by
    rw [Nat.cast_add, Nat.cast_one, add_sub_cancel_right]
  rw [hmonth, natAbs_cast (show 0 ≤ dateFromTime t by omega)]
  exact makeDay_fields h h'

theorem floor_seconds (t : ℤ) : t / msPerDay * msPerDay + t % msPerDay / 1000 * 1000 = t / 1000 * 1000 := by
  rw [msPerDay]
  omega

/-- The parts of a time are read. -/
theorem parseClock (h : -maxLocal ≤ t) (h' : t ≤ maxLocal) :
    ¬(((hourFromTime t).natAbs : ℚ) = 24 ∧ (((minFromTime t).natAbs : ℚ) ≠ 0 ∨ ((secFromTime t).natAbs : ℚ) ≠ 0)) ∧
      (∀ rest, parseNumber (decimal 2 (hourFromTime t).natAbs ++ rest) 2 0 24 =
        some (((hourFromTime t).natAbs : ℚ), rest)) ∧
      (∀ rest, parseNumber (decimal 2 (minFromTime t).natAbs ++ rest) 2 0 59 =
        some (((minFromTime t).natAbs : ℚ), rest)) ∧
      ∀ rest, parseNumber (decimal 2 (secFromTime t).natAbs ++ rest) 2 0 59 =
        some (((secFromTime t).natAbs : ℚ), rest) := by
  obtain ⟨⟨hhour, hhour'⟩, ⟨hmin, hmin'⟩, ⟨hsec, hsec'⟩, -⟩ := clock_bounds h h'
  refine ⟨?_, fun rest => parseNumber_decimal rest (Nat.zero_le _) (by omega) (by decide),
    fun rest => parseNumber_decimal rest (Nat.zero_le _) (by omega) (by decide),
    fun rest => parseNumber_decimal rest (Nat.zero_le _) (by omega) (by decide)⟩
  rintro ⟨h24, -⟩
  have hnat : (hourFromTime t).natAbs = 24 := by exact_mod_cast h24
  omega

/-- The parts of a date are read. -/
theorem parseDate (h : -maxLocal ≤ t) (h' : t ≤ maxLocal) :
    (∀ rest, parseNumber (decimal 2 (dateFromTime t).natAbs ++ rest) 2 0 31 =
        some (((dateFromTime t).natAbs : ℚ), rest)) ∧ |yearFromTime t| ≤ 999999 := by
  obtain ⟨-, hdate, hdate', -⟩ := month_date_from_time h h'
  obtain ⟨-, -, hlow, hhigh⟩ := yearFromTime_spec h h'
  have hlength := Gregorian.daysInMonth_le (yearFromTime t) (monthFromTime t)
  exact ⟨fun rest => parseNumber_decimal rest (Nat.zero_le _) (by omega) (by decide), abs_le.mpr ⟨by omega, by omega⟩⟩

/-- `GMT` is found. -/
theorem gmt_found (rest : List Byte) : ¬((byte ' ' :: byte 'G' :: byte 'M' :: byte 'T' :: rest).length < 4 ∨
    (byte ' ' :: byte 'G' :: byte 'M' :: byte 'T' :: rest).take 4 ≠ bytes [' ', 'G', 'M', 'T']) := by
  rintro (h | h)
  · simp only [List.length_cons] at h
    omega
  · exact h rfl

theorem parse_utcText (h : -maxLocal ≤ t) (h' : t ≤ maxLocal) {dayName monthName : List Byte} (hday : dayName ∈ dayNames)
    (hmonth : monthNames[monthFromTime t]? = some monthName) :
    parseToStringFormats (dayName ++ byte ',' :: byte ' ' :: (decimal 2 (dateFromTime t).natAbs ++ byte ' ' ::
      (monthName ++ yearText t (clockText t [])))) = some ((t / 1000 * 1000 : ℤ) : ℚ) := by
  obtain ⟨hend, hhours, hminutes, hseconds⟩ := parseClock h h'
  obtain ⟨hdates, hyear⟩ := parseDate h h'
  simp only [parseToStringFormats, parseDayAndMonth, parseDayName_name hday, Option.bind_eq_bind, Option.bind_some,
    parseSpecialChar_cons, Option.isSome_some, Option.getD_some, if_true, hdates, yearText, parseMonthName_name hmonth,
    parseYear_year hyear, clockText, hhours, hminutes, hseconds, if_neg hend]
  refine (if_neg (gmt_found [])).trans ((if_neg fun hne => hne rfl).trans ?_)
  rw [makeDay_parsed h h', makeTime_clock h h', makeDate, ← Int.cast_add, floor_seconds]

/-- The offset is read, and taken off. -/
theorem parse_offsetText {tza : ℤ} (hday : |tza| < msPerDay) (hminutes : msPerMinute ∣ tza) (time : ℤ) :
    parseToStringTimezone (some (time : ℚ)) (offsetText tza) = some (some ((time - tza : ℤ) : ℚ), []) := by
  rw [Int.abs_eq_natAbs, msPerDay] at hday
  have hhours : tza.natAbs / 3600000 < 24 := by omega
  have hnot : ¬((tza.natAbs / 3600000 : ℕ) : ℚ) = 24 := by
    intro h24
    have hnat : tza.natAbs / 3600000 = 24 := by exact_mod_cast h24
    omega
  have hread := @parseNumber_decimal 2 0 59 (tza.natAbs % 3600000 / 60000) [] (Nat.zero_le _) (by omega) (by decide)
  rw [List.append_nil] at hread
  have hmake : makeTime (some ((tza.natAbs / 3600000 : ℕ) : ℚ)) (some ((tza.natAbs % 3600000 / 60000 : ℕ) : ℚ)) (some 0)
      (some 0) = some ((tza.natAbs : ℤ) : ℚ) := by
    have hparts := makeTime_natCast (tza.natAbs / 3600000) (tza.natAbs % 3600000 / 60000) 0 0
    obtain ⟨k, hk⟩ := hminutes
    rw [Nat.cast_zero] at hparts
    rw [hparts, msPerHour, msPerMinute, msPerSecond]
    rw [msPerMinute] at hk
    congr 2
    omega
  rw [offsetText, parseToStringTimezone, if_pos (checkTwoChars_sign_iff.mpr ⟨_, _, rfl⟩), List.tail_cons, head_signByte,
    parseNumber_decimal _ (Nat.zero_le _) hhours.le (by decide)]
  simp only [Option.bind_eq_bind, Option.bind_some, hread, if_neg hnot, hmake, addTimezone]
  by_cases hneg : tza < 0
  · have habs : (tza.natAbs : ℤ) = -tza := Int.ofNat_natAbs_of_nonpos hneg.le
    rw [decide_eq_true hneg, if_pos rfl, habs, Int.cast_neg, ← sub_eq_add_neg, ← Int.cast_sub]
  · have habs : (tza.natAbs : ℤ) = tza := Int.natAbs_of_nonneg (not_lt.mp hneg)
    rw [decide_eq_false hneg, if_neg Bool.false_ne_true, habs, ← Int.cast_sub]

theorem parse_stringText {tza : ℤ} (htza : |tza| < msPerDay) (hminute : msPerMinute ∣ tza) (h : -maxLocal ≤ t)
    (h' : t ≤ maxLocal) {dayName monthName : List Byte} (hday : dayName ∈ dayNames)
    (hmonth : monthNames[monthFromTime t]? = some monthName) :
    parseToStringFormats (dayName ++ byte ' ' :: (monthName ++ byte ' ' ::
        (decimal 2 (dateFromTime t).natAbs ++ yearText t (clockText t (offsetText tza))))) =
      some (((t - tza) / 1000 * 1000 : ℤ) : ℚ) := by
  obtain ⟨hend, hhours, hminutes, hseconds⟩ := parseClock h h'
  obtain ⟨hdates, hyear⟩ := parseDate h h'
  have hcomma : ∀ rest, parseSpecialChar (byte ' ' :: rest) (byte ',') = none := fun rest =>
    parseSpecialChar_of_ne (by decide)
  simp only [parseToStringFormats, parseDayAndMonth, parseDayName_name hday, Option.bind_eq_bind, Option.bind_some,
    parseSpecialChar_cons, hcomma, Option.isSome_none, Option.getD_none, Bool.false_eq_true, if_false, hdates, yearText,
    parseMonthName_name hmonth, parseYear_year hyear, clockText, hhours, hminutes, hseconds, if_neg hend]
  refine (if_neg (gmt_found _)).trans ?_
  rw [makeTime_clock h h', makeDay_parsed h h']
  rw [show List.drop 4 (byte ' ' :: byte 'G' :: byte 'M' :: byte 'T' :: offsetText tza) = offsetText tza from rfl,
    parse_offsetText htza hminute, Option.bind_some]
  refine (if_neg fun hne => hne rfl).trans ?_
  rw [makeDate, ← Int.cast_add]
  have hsum : t / msPerDay * msPerDay + (t % msPerDay / 1000 * 1000 - tza) = (t - tza) / 1000 * 1000 := by
    have hfloor := floor_seconds t
    obtain ⟨k, hk⟩ := hminute
    rw [msPerMinute] at hk
    omega
  rw [hsum]

end

/-- A string that begins with a day name is none of the basic parser. -/
theorem parseBasic_dayName (localTza : ℚ → ℤ) {dayName : List Byte} (hday : dayName ∈ dayNames) (rest : List Byte) :
    parseBasic localTza (dayName ++ rest) = none := by
  simp only [dayNames, List.mem_cons, List.not_mem_nil, or_false] at hday
  obtain rfl | rfl | rfl | rfl | rfl | rfl | rfl := hday
  all_goals exact parseBasic_none (by decide) rfl

section

variable {t : ℤ}

/-- The UTC string of a time value parses to its second. -/
theorem parse_utcString (localTza : ℚ → ℤ) (h : -maxLocal ≤ t) (h' : t ≤ maxLocal) :
    ∃ string, valueToUtcString localTza t = some string ∧
      parse localTza string = some ((t / 1000 * 1000 : ℤ) : ℚ) := by
  obtain ⟨dayName, hday, monthName, hmonth, hstring⟩ := utcString_text localTza h h'
  refine ⟨_, hstring, ?_⟩
  rw [parse, parseBasic_dayName localTza hday]
  exact parse_utcText h h' hday hmonth

/-- The local string of a time value parses to its second. -/
theorem parse_string {tza : ℤ} (htza : |tza| < msPerDay) (hminute : msPerMinute ∣ tza) (ht : |t| ≤ maxValue) :
    ∃ string, valueToString (fun _ => tza) t = some string ∧
      parse (fun _ => tza) string = some ((t / 1000 * 1000 : ℤ) : ℚ) := by
  obtain ⟨hlow, hhigh⟩ := abs_lt.mp htza
  obtain ⟨hlow', hhigh'⟩ := abs_le.mp ht
  have hlocal : -maxLocal ≤ t + tza ∧ t + tza ≤ maxLocal := by
    rw [maxLocal]
    omega
  obtain ⟨dayName, hday, monthName, hmonth, hstring⟩ := string_text tza hlocal.1 hlocal.2
  have hparse := parse_stringText htza hminute hlocal.1 hlocal.2 hday hmonth
  have hcast : (t : ℚ) + tza = ((t + tza : ℤ) : ℚ) := (Int.cast_add t tza).symm
  rw [Int.add_sub_cancel] at hparse
  refine ⟨_, (congrArg (toStringFormat (fun _ => tza) · stringFormat) hcast).trans hstring, ?_⟩
  rw [parse, parseBasic_dayName _ hday]
  exact hparse

end

/-- The formats of the source. -/
def formats : List (List Char) := [stringFormat, utcStringFormat, isoStringFormat, dateStringFormat, timeStringFormat]

theorem formatLength_le {format : List Char} (hformat : format ∈ formats) :
    ∃ n ≤ dateBufferLength, formatLength format = some n := by
  simp only [formats, List.mem_cons, List.not_mem_nil, or_false] at hformat
  obtain rfl | rfl | rfl | rfl | rfl := hformat
  · exact ⟨36, by decide, rfl⟩
  · exact ⟨32, by decide, rfl⟩
  · exact ⟨27, by decide, rfl⟩
  · exact ⟨18, by decide, rfl⟩
  · exact ⟨17, by decide, rfl⟩

/-- Every string fits in the buffer, for a time value and for its local time. -/
theorem string_fits {t tza : ℤ} (ht : |t| ≤ maxValue) (htza : |tza| < msPerDay) {time : ℤ} (htime : time = t ∨ time = t + tza)
    {format : List Char} (hformat : format ∈ formats) :
    ∃ string, toStringFormat (fun _ => tza) time format = some string ∧ string.length ≤ dateBufferLength := by
  obtain ⟨hlow, hhigh⟩ := abs_lt.mp htza
  obtain ⟨hlow', hhigh'⟩ := abs_le.mp ht
  obtain ⟨n, hn, hlength⟩ := formatLength_le hformat
  have hlocal : -maxLocal ≤ time ∧ time ≤ maxLocal := by
    rw [maxLocal, msPerDay]
    rw [msPerDay] at hlow hhigh
    omega
  obtain ⟨string, hstring, hle⟩ := toStringFormat_length (fun _ => tza) hlocal.1 hlocal.2 hlength
  exact ⟨string, hstring, Nat.le_trans hle hn⟩

/-- The second of a time value is the largest one that is not above it. -/
theorem second_isGreatest (t : ℤ) : IsGreatest {m : ℤ | 1000 ∣ m ∧ m ≤ t} (t / 1000 * 1000) := by
  refine ⟨⟨⟨t / 1000, Int.mul_comm _ _⟩, by omega⟩, ?_⟩
  rintro m ⟨⟨k, rfl⟩, hle⟩
  omega

/-- The strings of a time value parse back: the ISO string to the time value, the others to its second. Every string fits in
its buffer. The basic parser accepts the strings of its grammar. -/
theorem dateStrings :
    (∀ t tza : ℤ, |t| ≤ maxValue → |tza| < msPerDay → msPerMinute ∣ tza →
      (∃ string, valueToIsoString (fun _ => tza) t = some string ∧ parse (fun _ => tza) string = some (t : ℚ)) ∧
      (∃ second : ℤ, IsGreatest {m : ℤ | 1000 ∣ m ∧ m ≤ t} second ∧
        (∃ string, valueToUtcString (fun _ => tza) t = some string ∧ parse (fun _ => tza) string = some (second : ℚ)) ∧
        ∃ string, valueToString (fun _ => tza) t = some string ∧ parse (fun _ => tza) string = some (second : ℚ)) ∧
      ∀ time, time = t ∨ time = t + tza → ∀ format ∈ formats,
        ∃ string, toStringFormat (fun _ => tza) time format = some string ∧ string.length ≤ dateBufferLength) ∧
    ∀ (localTza : ℚ → ℤ) (str : List Byte),
      (parseBasic localTza str).isSome = true ↔ ∃ dateTime : DateTime, dateTime.InRange ∧ str = dateTime.text := by
  refine ⟨fun t tza ht htza hminute => ?_, parseBasic_isSome⟩
  obtain ⟨hlow, hhigh⟩ := local_of_time_value ht
  refine ⟨parse_isoString _ hlow hhigh, ⟨t / 1000 * 1000, second_isGreatest t, parse_utcString _ hlow hhigh,
    parse_string htza hminute ht⟩, fun time htime format hformat => string_fits ht htza htime hformat⟩

/-- One millisecond before 1970, nine and a half hours west. -/
theorem dateStrings_before1970 :
    ∃ string, valueToIsoString (fun _ => -34200000) ((-1 : ℤ) : ℚ) = some string ∧
      parse (fun _ => -34200000) string = some ((-1 : ℤ) : ℚ) :=
  (dateStrings.1 (-1) (-34200000) (by decide) (by decide) (by decide)).1

end Date
end JJS
