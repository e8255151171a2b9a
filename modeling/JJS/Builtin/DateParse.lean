import JJS.Builtin.DateFormat

/-!
# JJS.Builtin.DateParse

The parsers of `ecma-builtin-date.c`. A pointer into the string is the rest of the string, so a function that moves the
pointer returns the rest. A number that is not NaN is a rational, and NaN is `none`.
-/

namespace JJS
namespace Date

open Utf8 (Byte)
open Lit (litCharIsDecimalDigit)

/-! ## Parts of a string -/

/-- The loop of `ecma_date_parse_date_chars`. -/
def parseDigits : ℕ → ℕ → List Byte → Option ℕ × List Byte
  | 0, num, str => (some num, str)
  | _ + 1, _, [] => (none, [])
  | numOfChars + 1, num, c :: str =>
    if litCharIsDecimalDigit c then parseDigits numOfChars (num * 10 + (c.toNat - 0x30)) str else (none, c :: str)

/-- `ecma_date_parse_date_chars`. The limit is the pair of a minimum and a maximum. -/
def parseDateChars (str : List Byte) (numOfChars limitMin limitMax : ℕ) : Option ℚ × List Byte :=
  if str.length < numOfChars then (none, str)
  else
    match parseDigits numOfChars 0 str with
    | (some num, str) => (if limitMin ≤ num ∧ num ≤ limitMax then some (num : ℚ) else none, str)
    | (none, str) => (none, str)

/-- `ecma_date_parse_special_char`: the rest of the string, if it begins with the character. -/
def parseSpecialChar (str : List Byte) (expectedChar : Byte) : Option (List Byte) :=
  match str with
  | c :: str => if c = expectedChar then some str else none
  | [] => none

/-- `ecma_date_check_two_chars`. -/
def checkTwoChars (str : List Byte) (expectedChar1 expectedChar2 : Byte) : Bool :=
  match str with
  | c :: _ => c == expectedChar1 || c == expectedChar2
  | [] => false

/-- The loop of `ecma_date_parse_year`, with the number of digits that were read. -/
def parseYearLoop : ℕ → ℕ → ℕ → List Byte → ℕ × ℕ × List Byte
  | 0, count, parsedYear, str => (count, parsedYear, str)
  | _ + 1, count, parsedYear, [] => (count, parsedYear, [])
  | rounds + 1, count, parsedYear, c :: str =>
    if litCharIsDecimalDigit c then parseYearLoop rounds (count + 1) (10 * parsedYear + (c.toNat - 0x30)) str
    else (count, parsedYear, c :: str)

/-- `ecma_date_parse_year`. -/
def parseYear (str : List Byte) : Option (ℚ × List Byte) :=
  let isYearSignNegative := (parseSpecialChar str (byte '-')).isSome
  let str := (parseSpecialChar str (byte '-')).getD str
  match parseYearLoop 6 0 0 str with
  | (count, parsedYear, str) =>
    if 4 ≤ count then some (if isYearSignNegative then -(parsedYear : ℚ) else parsedYear, str) else none

/-- `ecma_date_parse_day_name`. -/
def parseDayName (str : List Byte) : Option (List Byte) :=
  if 3 < str.length ∧ str.take 3 ∈ dayNames then some (str.drop 3) else none

/-- `ecma_date_parse_month_name`, where `none` is 0. -/
def parseMonthName (str : List Byte) : Option (ℕ × List Byte) :=
  if 3 < str.length then
    match monthNames.findIdx? (· == str.take 3) with
    | some i => some (i + 1, str.drop 3)
    | none => none
  else none

/-! ## `ecma_builtin_date_parse_basic` -/

/-- 1. read year. -/
def parseBasicYear (str : List Byte) : Option ℚ × List Byte :=
  if checkTwoChars str (byte '-') (byte '+') then
    let (year, rest) := parseDateChars str.tail 6 0 999999
    (if str.head? == some (byte '-') then year.map (- ·) else year, rest)
  else parseDateChars str 4 0 9999

/-- 2. read month if any, 3. read day if any. -/
def parseBasicMonth (str : List Byte) : Option ℚ × Option ℚ × List Byte :=
  if checkTwoChars str (byte '-') (byte '/') then
    match str with
    | separator :: str =>
      let (month, str) := parseDateChars str 2 1 12
      match parseSpecialChar str separator with
      | some str =>
        let (day, str) := parseDateChars str 2 1 31
        (month, day, str)
      | none => (month, some 1, str)
    | [] => (some 1, some 1, [])
  else (some 1, some 1, str)

/-- 4.2 read seconds if any, 4.3 read milliseconds if any. -/
def parseBasicSeconds (str : List Byte) : Option ℚ × Option ℚ × List Byte :=
  match parseSpecialChar str (byte ':') with
  | some str =>
    let (seconds, str) := parseDateChars str 2 0 59
    match parseSpecialChar str (byte '.') with
    | some str =>
      let (milliseconds, str) := parseDateChars str 3 0 999
      (seconds, milliseconds, str)
    | none => (seconds, some 0, str)
  | none => (some 0, some 0, str)

/-- `time += is_timezone_sign_negative ? timezone_offset : -timezone_offset`. -/
def addTimezone (isTimezoneSignNegative : Bool) (time timezoneOffset : Option ℚ) : Option ℚ :=
  match time, timezoneOffset with
  | some time, some timezoneOffset => some (if isTimezoneSignNegative then time + timezoneOffset else time - timezoneOffset)
  | _, _ => none

/-- The hours and minutes of 4.4: the time, whether it is UTC, and the rest. The outer `none` is an early return of NaN. -/
def parseBasicOffset (isTimezoneSignNegative : Bool) (time : ℚ) (str : List Byte) :
    Option (Option ℚ × Bool × List Byte) :=
  let (hours, str) := parseDateChars str 2 0 24
  let hours := if hours = some 24 then some 0 else hours
  match parseSpecialChar str (byte ':') with
  | none => none
  | some str =>
    let (minutes, str) := parseDateChars str 2 0 59
    some (addTimezone isTimezoneSignNegative (some time) (makeTime hours minutes (some 0) (some 0)), true, str)

/-- 4.4 read timezone if any. -/
def parseBasicTimezone (time : ℚ) (str : List Byte) : Option (Option ℚ × Bool × List Byte) :=
  match parseSpecialChar str (byte 'Z') with
  | some str => some (some time, true, str)
  | none =>
    if str.length = 6 ∧ checkTwoChars str (byte '-') (byte '+') = true then
      parseBasicOffset (str.head? == some (byte '-')) time str.tail
    else some (some time, false, str)

/-- 4. read time if any. -/
def parseBasicTime (str : List Byte) : Option (Option ℚ × Bool × List Byte) :=
  if checkTwoChars str (byte 'T') (byte ' ') then
    let str := str.tail
    -- 'HH:mm' must present
    if str.length < 5 then none
    else
      let (hours, str) := parseDateChars str 2 0 24
      match parseSpecialChar str (byte ':') with
      | none => none
      | some str =>
        let (minutes, str) := parseDateChars str 2 0 59
        let (seconds, milliseconds, str) := parseBasicSeconds str
        if hours = some 24 ∧ (minutes ≠ some 0 ∨ seconds ≠ some 0 ∨ milliseconds ≠ some 0) then none
        else
          match makeTime hours minutes seconds milliseconds with
          | none => none
          | some time => parseBasicTimezone time str
  else some (some 0, true, str)

/-- `ecma_date_utc`. -/
def utc (localTza : ℚ → ℤ) (time : ℚ) : ℚ := time - localTza time

/-- `ecma_builtin_date_parse_basic`. -/
def parseBasic (localTza : ℚ → ℤ) (str : List Byte) : Option ℚ :=
  let (year, str) := parseBasicYear str
  match year with
  | none => none
  | some year =>
    let (month, day, str) := parseBasicMonth str
    match parseBasicTime str with
    | none => none
    | some (time, isUtc, str) =>
      if str ≠ [] then none
      else
        let date := makeDay (some year) (month.map (· - 1)) day
        let resultDate := makeDate date time
        if isUtc then resultDate else resultDate.map (utc localTza)

/-! ## `ecma_builtin_date_parse_toString_formats` -/

/-- A number that has to be there. -/
def parseNumber (str : List Byte) (numOfChars limitMin limitMax : ℕ) : Option (ℚ × List Byte) :=
  match parseDateChars str numOfChars limitMin limitMax with
  | (some number, str) => some (number, str)
  | (none, _) => none

/-- The day and the month, in the order of `toUTCString` or of `toString`. -/
def parseDayAndMonth (isToUtcStringFormat : Bool) (str : List Byte) : Option (ℚ × ℕ × List Byte) :=
  if isToUtcStringFormat then do
    let (day, str) ← parseNumber str 2 0 31
    let str ← parseSpecialChar str (byte ' ')
    let (month, str) ← parseMonthName str
    some (day, month, str)
  else do
    let (month, str) ← parseMonthName str
    let str ← parseSpecialChar str (byte ' ')
    let (day, str) ← parseNumber str 2 0 31
    some (day, month, str)

/-- The time zone behind `GMT`. -/
def parseToStringTimezone (time : Option ℚ) (str : List Byte) : Option (Option ℚ × List Byte) :=
  if checkTwoChars str (byte '-') (byte '+') then do
    let isTimezoneSignNegative := str.head? == some (byte '-')
    let (hours, str) ← parseNumber str.tail 2 0 24
    let hours := if hours = 24 then 0 else hours
    let (minutes, str) ← parseNumber str 2 0 59
    some (addTimezone isTimezoneSignNegative time (makeTime (some hours) (some minutes) (some 0) (some 0)), str)
  else none

/-- `ecma_builtin_date_parse_toString_formats`. -/
def parseToStringFormats (str : List Byte) : Option ℚ := do
  let str ← parseDayName str
  let isToUtcStringFormat := (parseSpecialChar str (byte ',')).isSome
  let str := (parseSpecialChar str (byte ',')).getD str
  let str ← parseSpecialChar str (byte ' ')
  let (day, month, str) ← parseDayAndMonth isToUtcStringFormat str
  let str ← parseSpecialChar str (byte ' ')
  let (year, str) ← parseYear str
  let str ← parseSpecialChar str (byte ' ')
  let (hours, str) ← parseNumber str 2 0 24
  let str ← parseSpecialChar str (byte ':')
  let (minutes, str) ← parseNumber str 2 0 59
  let str ← parseSpecialChar str (byte ':')
  let (seconds, str) ← parseNumber str 2 0 59
  if hours = 24 ∧ (minutes ≠ 0 ∨ seconds ≠ 0) then none
  else if str.length < 4 ∨ str.take 4 ≠ bytes [' ', 'G', 'M', 'T'] then none
  else
    let str := str.drop 4
    let time := makeTime (some hours) (some minutes) (some seconds) (some 0)
    let (time, str) ← if isToUtcStringFormat then some (time, str) else parseToStringTimezone time str
    if str ≠ [] then none
    else makeDate (makeDay (some year) (some ((month : ℚ) - 1)) (some day)) time

/-- `ecma_builtin_date_parse`. -/
def parse (localTza : ℚ → ℤ) (str : List Byte) : Option ℚ :=
  match parseBasic localTza str with
  | some tv => some tv
  | none => parseToStringFormats str

end Date
end JJS
