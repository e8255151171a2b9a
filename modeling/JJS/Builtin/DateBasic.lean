import JJS.Builtin.DateGrammar
import Mathlib.Tactic.Linarith

/-!
# JJS.Builtin.DateBasic

`ecma_builtin_date_parse_basic` accepts a string if and only if it is the text of a `DateTime` with every field in its
range (`parseBasic_iff`), and then the result is the value of that `DateTime`.
-/

namespace JJS
namespace Date

open Utf8 (Byte)

/-! ## Times -/

theorem parseBasicSeconds_iff {str rest : List Byte} {x y : ℚ} (hcolon : parseSpecialChar rest (byte ':') = none)
    (hdot : parseSpecialChar rest (byte '.') = none) :
    parseBasicSeconds str = (some x, some y, rest) ↔
      ∃ seconds : Seconds, seconds.InRange ∧ str = seconds.text ++ rest ∧ x = seconds.secondsValue ∧
        y = seconds.millisecondsValue := by
  constructor
  · intro h
    unfold parseBasicSeconds at h
    cases hparse : parseSpecialChar str (byte ':') with
    | none =>
      rw [hparse] at h
      obtain ⟨hx, hy, rfl⟩ : some 0 = some x ∧ some 0 = some y ∧ str = rest := by
        simpa only [Prod.mk.injEq] using h
      refine ⟨.none, trivial, rfl, ?_, ?_⟩
      · rw [← Option.some.inj hx]
        exact Nat.cast_zero.symm
      · rw [← Option.some.inj hy]
        exact Nat.cast_zero.symm
    | some str₁ =>
      rw [hparse] at h
      dsimp only at h
      cases hseconds : parseDateChars str₁ 2 0 59 with
      | mk seconds str₂ =>
        rw [hseconds] at h
        dsimp only at h
        cases hparse' : parseSpecialChar str₂ (byte '.') with
        | none =>
          rw [hparse'] at h
          obtain ⟨rfl, hy, rfl⟩ : seconds = some x ∧ some 0 = some y ∧ str₂ = rest := by
            simpa only [Prod.mk.injEq] using h
          obtain ⟨s, rfl, rfl, -, -, hmax⟩ := parseDateChars_iff.mp hseconds
          refine ⟨.seconds s, hmax, parseSpecialChar_iff.mp hparse, rfl, ?_⟩
          rw [← Option.some.inj hy]
          exact Nat.cast_zero.symm
        | some str₃ =>
          rw [hparse'] at h
          dsimp only at h
          cases hmilliseconds : parseDateChars str₃ 3 0 999 with
          | mk milliseconds str₄ =>
            rw [hmilliseconds] at h
            obtain ⟨rfl, rfl, rfl⟩ : seconds = some x ∧ milliseconds = some y ∧ str₄ = rest := by
              simpa only [Prod.mk.injEq] using h
            obtain ⟨s, rfl, rfl, -, -, hmax⟩ := parseDateChars_iff.mp hseconds
            obtain ⟨ms, rfl, rfl, -, -, hmax'⟩ := parseDateChars_iff.mp hmilliseconds
            refine ⟨.milliseconds s ms, ⟨hmax, hmax'⟩, ?_, rfl, rfl⟩
            rw [parseSpecialChar_iff.mp hparse, parseSpecialChar_iff.mp hparse', Seconds.text, List.cons_append,
              List.append_assoc, List.cons_append]
  · rintro ⟨seconds, hrange, rfl, rfl, rfl⟩
    unfold parseBasicSeconds
    cases seconds with
    | none =>
      rw [Seconds.text, List.nil_append, hcolon]
      exact Prod.ext (congrArg some Nat.cast_zero.symm) (Prod.ext (congrArg some Nat.cast_zero.symm) rfl)
    | seconds s =>
      rw [Seconds.text, List.cons_append, parseSpecialChar_cons]
      dsimp only
      rw [parseDateChars_decimal rest (Nat.zero_le s) hrange (by decide)]
      dsimp only
      rw [hdot]
      exact Prod.ext rfl (Prod.ext (congrArg some Nat.cast_zero.symm) rfl)
    | milliseconds s ms =>
      rw [Seconds.text, List.cons_append, List.append_assoc, List.cons_append, parseSpecialChar_cons]
      dsimp only
      rw [parseDateChars_decimal _ (Nat.zero_le s) hrange.1 (by decide)]
      dsimp only
      rw [parseSpecialChar_cons]
      dsimp only
      rw [parseDateChars_decimal rest (Nat.zero_le ms) hrange.2 (by decide)]
      rfl

theorem trunc_natCast (n : ℕ) : trunc (n : ℚ) = n := by
  rw [← Int.cast_natCast, trunc_intCast]

theorem makeTime_natCast (h m s ms : ℕ) :
    makeTime (some (h : ℚ)) (some (m : ℚ)) (some (s : ℚ)) (some (ms : ℚ)) =
      some ((h * msPerHour + m * msPerMinute + s * msPerSecond + ms : ℤ) : ℚ) := by
  rw [makeTime, trunc_natCast, trunc_natCast, trunc_natCast, trunc_natCast]
  norm_cast

/-- A time has all its parts. -/
theorem makeTime_some {hour min sec ms : Option ℚ} {x : ℚ} (h : makeTime hour min sec ms = some x) :
    ∃ h m s n, hour = some h ∧ min = some m ∧ sec = some s ∧ ms = some n := by
  cases hour with
  | none => cases h
  | some hour =>
    cases min with
    | none => cases h
    | some min =>
      cases sec with
      | none => cases h
      | some sec =>
        cases ms with
        | none => cases h
        | some ms => exact ⟨hour, min, sec, ms, rfl, rfl, rfl, rfl⟩

/-- The hours of an offset: 24 count as none. -/
theorem offsetHours (n : ℕ) : (if some (n : ℚ) = some 24 then some 0 else some (n : ℚ)) =
    some (((if n = 24 then 0 else n : ℕ) : ℕ) : ℚ) := by
  have hiff : some (n : ℚ) = some 24 ↔ n = 24 := by
    rw [Option.some.injEq]
    exact_mod_cast Iff.rfl
  rw [if_congr hiff rfl rfl]
  split
  · rw [Nat.cast_zero]
  · rfl

theorem addTimezone_offset (negative : Bool) (time : ℚ) (h m : ℕ) :
    addTimezone negative (some time)
        (makeTime (some ((if h = 24 then 0 else h : ℕ) : ℚ)) (some (m : ℚ)) (some 0) (some 0)) =
      some ((Timezone.offset negative h m).apply time) := by
  have hmake := makeTime_natCast (if h = 24 then 0 else h) m 0 0
  rw [Nat.cast_zero, Nat.cast_zero, Int.zero_mul, Int.add_zero, Int.add_zero] at hmake
  rw [hmake]
  rfl

theorem addTimezone_some {negative : Bool} {time timezoneOffset : Option ℚ} {x : ℚ}
    (h : addTimezone negative time timezoneOffset = some x) : ∃ y z, time = some y ∧ timezoneOffset = some z := by
  cases time with
  | none => cases h
  | some time =>
    cases timezoneOffset with
    | none => cases h
    | some timezoneOffset => exact ⟨time, timezoneOffset, rfl, rfl⟩

theorem parseBasicOffset_iff {negative isUtc : Bool} {time x : ℚ} {str : List Byte} :
    parseBasicOffset negative time str = some (some x, isUtc, []) ↔
      ∃ h m, (Timezone.offset negative h m).InRange ∧ str = decimal 2 h ++ byte ':' :: decimal 2 m ∧
        x = (Timezone.offset negative h m).apply time ∧ isUtc = true := by
  rw [parseBasicOffset]
  constructor
  · intro h
    cases hhours : parseDateChars str 2 0 24 with
    | mk hours str₁ =>
      rw [hhours] at h
      dsimp only at h
      cases hcolon : parseSpecialChar str₁ (byte ':') with
      | none =>
        rw [hcolon] at h
        cases h
      | some str₂ =>
        rw [hcolon] at h
        dsimp only at h
        cases hminutes : parseDateChars str₂ 2 0 59 with
        | mk minutes str₃ =>
          rw [hminutes] at h
          obtain ⟨hadd, rfl, rfl⟩ : addTimezone negative (some time)
              (makeTime (if hours = some 24 then some 0 else hours) minutes (some 0) (some 0)) = some x ∧
                true = isUtc ∧ str₃ = [] := by
            simpa only [Option.some.injEq, Prod.mk.injEq] using h
          obtain ⟨-, offset, -, hmake⟩ := addTimezone_some hadd
          obtain ⟨hour, minute, -, -, hhour, rfl, -, -⟩ := makeTime_some hmake
          cases hours with
          | none => cases hhour
          | some hours =>
            obtain ⟨n, rfl, rfl, -, -, hmax⟩ := parseDateChars_iff.mp hhours
            obtain ⟨m, rfl, rfl, -, -, hmax'⟩ := parseDateChars_iff.mp hminutes
            refine ⟨n, m, ⟨hmax, hmax'⟩, ?_, ?_, rfl⟩
            · rw [parseSpecialChar_iff.mp hcolon, List.append_nil]
            · rw [offsetHours, addTimezone_offset] at hadd
              exact (Option.some.inj hadd).symm
  · rintro ⟨n, m, hrange, rfl, rfl, rfl⟩
    have hminutes := @parseDateChars_decimal 2 0 59 m [] (Nat.zero_le m) hrange.2 (by decide)
    rw [List.append_nil] at hminutes
    rw [parseDateChars_decimal _ (Nat.zero_le n) hrange.1 (by decide)]
    dsimp only
    rw [parseSpecialChar_cons]
    dsimp only
    rw [hminutes, offsetHours, addTimezone_offset]

theorem parseBasicTimezone_iff {time x : ℚ} {isUtc : Bool} {str : List Byte} :
    parseBasicTimezone time str = some (some x, isUtc, []) ↔
      ∃ timezone : Timezone, timezone.InRange ∧ str = timezone.text ∧ x = timezone.apply time ∧
        isUtc = timezone.isUtc := by
  constructor
  · intro h
    unfold parseBasicTimezone at h
    cases hz : parseSpecialChar str (byte 'Z') with
    | some str₁ =>
      rw [hz] at h
      obtain ⟨rfl, rfl, rfl⟩ : time = x ∧ true = isUtc ∧ str₁ = [] := by
        simpa only [Option.some.injEq, Prod.mk.injEq] using h
      exact ⟨.utc, trivial, parseSpecialChar_iff.mp hz, rfl, rfl⟩
    | none =>
      rw [hz] at h
      dsimp only at h
      split at h
      case isTrue hoffset =>
        obtain ⟨negative, str, rfl⟩ := checkTwoChars_sign_iff.mp hoffset.2
        rw [head_signByte, List.tail_cons] at h
        obtain ⟨n, m, hrange, rfl, hx, hutc⟩ := parseBasicOffset_iff.mp h
        exact ⟨.offset negative n m, hrange, rfl, hx, hutc⟩
      case isFalse =>
        obtain ⟨rfl, rfl, rfl⟩ : time = x ∧ false = isUtc ∧ str = [] := by
          simpa only [Option.some.injEq, Prod.mk.injEq] using h
        exact ⟨.localTime, trivial, rfl, rfl, rfl⟩
  · rintro ⟨timezone, hrange, rfl, rfl, rfl⟩
    cases timezone with
    | localTime => rfl
    | utc => rfl
    | offset negative n m =>
      have hz : parseSpecialChar (Timezone.offset negative n m).text (byte 'Z') = none :=
        parseSpecialChar_of_ne (by cases negative <;> decide)
      have hlength : (Timezone.offset negative n m).text.length = 6 := by
        rw [Timezone.text, List.length_cons, List.length_append, List.length_cons, length_decimal, length_decimal]
      have hsign : checkTwoChars (Timezone.offset negative n m).text (byte '-') (byte '+') = true :=
        checkTwoChars_sign_iff.mpr ⟨negative, _, rfl⟩
      unfold parseBasicTimezone
      rw [hz]
      dsimp only
      rw [if_pos ⟨hlength, hsign⟩, Timezone.text, head_signByte, List.tail_cons]
      exact parseBasicOffset_iff.mpr ⟨n, m, hrange, rfl, rfl, rfl⟩

/-- What follows the seconds is no continuation of them. -/
theorem parseSpecialChar_timezone (timezone : Timezone) :
    parseSpecialChar timezone.text (byte ':') = none ∧ parseSpecialChar timezone.text (byte '.') = none := by
  cases timezone with
  | localTime => exact ⟨rfl, rfl⟩
  | utc => exact ⟨rfl, rfl⟩
  | offset negative n m =>
    cases negative
    · exact ⟨rfl, rfl⟩
    · exact ⟨rfl, rfl⟩

theorem some_natCast_inj (n k : ℕ) : some (n : ℚ) = some (k : ℚ) ↔ n = k := by
  rw [Option.some.injEq, Nat.cast_inj]

/-- The test for the end of the day. -/
theorem endOfDay_iff (h m s ms : ℕ) :
    ¬(some (h : ℚ) = some 24 ∧ (some (m : ℚ) ≠ some 0 ∨ some (s : ℚ) ≠ some 0 ∨ some (ms : ℚ) ≠ some 0)) ↔
      (h = 24 → m = 0 ∧ s = 0 ∧ ms = 0) := by
  have h24 := some_natCast_inj h 24
  have hm := some_natCast_inj m 0
  have hs := some_natCast_inj s 0
  have hms := some_natCast_inj ms 0
  rw [Nat.cast_ofNat] at h24
  rw [Nat.cast_zero] at hm hs hms
  rw [h24, ne_eq, ne_eq, ne_eq, hm, hs, hms]
  constructor
  · intro hnot h
    by_contra hne
    exact hnot ⟨h, by omega⟩
  · rintro hend ⟨h, hne⟩
    have := hend h
    omega

theorem timeStart_iff {str : List Byte} :
    checkTwoChars str (byte 'T') (byte ' ') = true ↔
      ∃ (space : Bool) (rest : List Byte), str = (if space then byte ' ' else byte 'T') :: rest := by
  constructor
  · intro h
    obtain ⟨rest, rfl | rfl⟩ := checkTwoChars_iff.mp h
    · exact ⟨false, rest, rfl⟩
    · exact ⟨true, rest, rfl⟩
  · rintro ⟨space, rest, rfl⟩
    cases space
    · rfl
    · rfl

/-- The value of a time before the time zone. -/
theorem makeTime_seconds (h m : ℕ) (seconds : Seconds) :
    makeTime (some (h : ℚ)) (some (m : ℚ)) (some (seconds.secondsValue : ℚ)) (some (seconds.millisecondsValue : ℚ)) =
      some ((h * msPerHour + m * msPerMinute + seconds.secondsValue * msPerSecond + seconds.millisecondsValue : ℤ) : ℚ) :=
  makeTime_natCast h m seconds.secondsValue seconds.millisecondsValue

theorem parseBasicTime_of {str : List Byte} {x : ℚ} {isUtc : Bool}
    (h : parseBasicTime str = some (some x, isUtc, [])) :
    ∃ time : Time, time.InRange ∧ str = time.text ∧ x = time.value ∧ isUtc = time.isUtc := by
  unfold parseBasicTime at h
  split at h
  case isTrue hstart =>
    obtain ⟨space, str, rfl⟩ := timeStart_iff.mp hstart
    rw [List.tail_cons] at h
    dsimp only at h
    split at h
    case isTrue => cases h
    case isFalse =>
      cases hhours : parseDateChars str 2 0 24 with
      | mk hours str₁ =>
        rw [hhours] at h
        dsimp only at h
        cases hcolon : parseSpecialChar str₁ (byte ':') with
        | none =>
          rw [hcolon] at h
          cases h
        | some str₂ =>
          rw [hcolon] at h
          dsimp only at h
          cases hminutes : parseDateChars str₂ 2 0 59 with
          | mk minutes str₃ =>
            rw [hminutes] at h
            dsimp only at h
            cases hseconds : parseBasicSeconds str₃ with
            | mk s rest =>
              obtain ⟨ms, str₄⟩ := rest
              rw [hseconds] at h
              dsimp only at h
              split at h
              case isTrue => cases h
              case isFalse hend =>
                cases hmake : makeTime hours minutes s ms with
                | none =>
                  rw [hmake] at h
                  cases h
                | some time =>
                  rw [hmake] at h
                  obtain ⟨timezone, hzone, rfl, rfl, rfl⟩ := parseBasicTimezone_iff.mp h
                  obtain ⟨_, _, _, _, rfl, rfl, rfl, rfl⟩ := makeTime_some hmake
                  obtain ⟨hcolon', hdot⟩ := parseSpecialChar_timezone timezone
                  obtain ⟨n, rfl, rfl, -, -, hmax⟩ := parseDateChars_iff.mp hhours
                  obtain ⟨m, rfl, rfl, -, -, hmax'⟩ := parseDateChars_iff.mp hminutes
                  obtain ⟨seconds, hrange, rfl, rfl, rfl⟩ := (parseBasicSeconds_iff hcolon' hdot).mp hseconds
                  rw [makeTime_seconds] at hmake
                  refine ⟨.time space n m seconds timezone, ⟨hmax, hmax', hrange, (endOfDay_iff _ _ _ _).mp hend, hzone⟩,
                    ?_, ?_, rfl⟩
                  · rw [parseSpecialChar_iff.mp hcolon, Time.text]
                  · rw [Time.value, Option.some.inj hmake]
  case isFalse =>
    obtain ⟨rfl, rfl, rfl⟩ : 0 = x ∧ true = isUtc ∧ str = [] := by
      simpa only [Option.some.injEq, Prod.mk.injEq] using h
    exact ⟨.none, trivial, rfl, rfl, rfl⟩

theorem parseBasicTime_text {time : Time} (hrange : time.InRange) :
    parseBasicTime time.text = some (some time.value, time.isUtc, []) := by
  cases time with
  | none => rfl
  | time space h m seconds timezone =>
    obtain ⟨hmax, hmax', hseconds, hend, hzone⟩ := hrange
    obtain ⟨hcolon, hdot⟩ := parseSpecialChar_timezone timezone
    have hstart := timeStart_iff.mpr
      ⟨space, decimal 2 h ++ byte ':' :: (decimal 2 m ++ (seconds.text ++ timezone.text)), rfl⟩
    have hlength : ¬ (decimal 2 h ++ byte ':' :: (decimal 2 m ++ (seconds.text ++ timezone.text))).length < 5 := by
      rw [List.length_append, List.length_cons, List.length_append, length_decimal, length_decimal]
      omega
    unfold parseBasicTime
    rw [Time.text, if_pos hstart, List.tail_cons]
    dsimp only
    rw [if_neg hlength, parseDateChars_decimal _ (Nat.zero_le h) hmax (by decide)]
    dsimp only
    rw [parseSpecialChar_cons]
    dsimp only
    rw [parseDateChars_decimal _ (Nat.zero_le m) hmax' (by decide)]
    dsimp only
    rw [(parseBasicSeconds_iff hcolon hdot).mpr ⟨seconds, hseconds, rfl, rfl, rfl⟩]
    dsimp only
    rw [if_neg ((endOfDay_iff _ _ _ _).mpr hend), makeTime_seconds]
    exact parseBasicTimezone_iff.mpr ⟨timezone, hzone, rfl, rfl, rfl⟩

/-! ## Dates with a time -/

/-- What follows the date is no continuation of it. -/
theorem checkTwoChars_time (time : Time) : checkTwoChars time.text (byte '-') (byte '/') = false := by
  cases time with
  | none => rfl
  | time space h m seconds timezone =>
    cases space
    · rfl
    · rfl

theorem makeDate_some {day time : Option ℚ} {x : ℚ} (h : makeDate day time = some x) :
    ∃ y z, day = some y ∧ time = some z := by
  cases day with
  | none => cases h
  | some day =>
    cases time with
    | none => cases h
    | some time => exact ⟨day, time, rfl, rfl⟩

theorem makeDay_some {year month date : Option ℚ} {x : ℚ} (h : makeDay year month date = some x) :
    ∃ y m d, year = some y ∧ month = some m ∧ date = some d := by
  cases year with
  | none => cases h
  | some year =>
    cases month with
    | none => cases h
    | some month =>
      cases date with
      | none => cases h
      | some date => exact ⟨year, month, date, rfl, rfl, rfl⟩

/-- The date and the time are put together, in UTC or in local time. -/
def finish (localTza : ℚ → ℤ) (isUtc : Bool) (resultDate : Option ℚ) : Option ℚ :=
  if isUtc then resultDate else resultDate.map (utc localTza)

theorem finish_some {localTza : ℚ → ℤ} {isUtc : Bool} {resultDate : Option ℚ} {x : ℚ}
    (h : finish localTza isUtc resultDate = some x) : ∃ y, resultDate = some y := by
  cases resultDate with
  | none => cases isUtc <;> cases h
  | some y => exact ⟨y, rfl⟩

/-- The basic parser reads the texts whose fields are in their ranges, and nothing else. -/
theorem parseBasic_iff {localTza : ℚ → ℤ} {str : List Byte} {x : ℚ} :
    parseBasic localTza str = some x ↔
      ∃ dateTime : DateTime, dateTime.InRange ∧ str = dateTime.text ∧ dateTime.value localTza = some x := by
  unfold parseBasic
  constructor
  · intro h
    cases hyear : parseBasicYear str with
    | mk year str₁ =>
      rw [hyear] at h
      cases year with
      | none => cases h
      | some year =>
        dsimp only at h
        cases hmonth : parseBasicMonth str₁ with
        | mk month rest =>
          obtain ⟨day, str₂⟩ := rest
          rw [hmonth] at h
          dsimp only at h
          cases htime : parseBasicTime str₂ with
          | none =>
            rw [htime] at h
            cases h
          | some result =>
            obtain ⟨time, isUtc, str₃⟩ := result
            rw [htime] at h
            dsimp only at h
            split at h
            case isTrue => cases h
            case isFalse hend =>
              obtain rfl := not_not.mp hend
              obtain ⟨resultDate, hdate⟩ := finish_some h
              obtain ⟨date, time', hday, rfl⟩ := makeDate_some hdate
              obtain ⟨_, month', day', -, hmonth', rfl⟩ := makeDay_some hday
              obtain ⟨month, rfl, -⟩ := Option.map_eq_some_iff.mp hmonth'
              obtain ⟨time, hrange, rfl, rfl, rfl⟩ := parseBasicTime_of htime
              obtain ⟨monthDay, hrange', rfl, rfl, rfl⟩ := (parseBasicMonth_iff (checkTwoChars_time time)).mp hmonth
              obtain ⟨year, hrange'', rfl, rfl⟩ := parseBasicYear_iff.mp hyear
              exact ⟨⟨year, monthDay, time⟩, ⟨hrange'', hrange', hrange⟩, rfl, h⟩
  · rintro ⟨⟨year, monthDay, time⟩, ⟨hrange, hrange', hrange''⟩, rfl, hvalue⟩
    rw [DateTime.text, parseBasicYear_iff.mpr ⟨year, hrange, rfl, rfl⟩]
    dsimp only
    rw [(parseBasicMonth_iff (checkTwoChars_time time)).mpr ⟨monthDay, hrange', rfl, rfl, rfl⟩]
    dsimp only
    rw [parseBasicTime_text hrange'']
    exact (if_neg (fun h => h rfl)).trans hvalue

theorem Year.abs_value_le {year : Year} (hrange : year.InRange) : |year.value| ≤ 999999 := by
  cases year with
  | basic n =>
    have hn : (n : ℚ) ≤ 9999 := by exact_mod_cast hrange
    rw [Year.value, Nat.abs_cast]
    linarith
  | extended negative n =>
    have hn : (n : ℚ) ≤ 999999 := by exact_mod_cast hrange
    cases negative
    · rw [Year.value, if_neg Bool.false_ne_true, Nat.abs_cast]
      exact hn
    · rw [Year.value, if_pos rfl, abs_neg, Nat.abs_cast]
      exact hn

/-- The fields in their ranges have a value. -/
theorem DateTime.value_some (localTza : ℚ → ℤ) {dateTime : DateTime} (hrange : dateTime.InRange) :
    ∃ x, dateTime.value localTza = some x := by
  have hyear : ¬ 2147483647 < |dateTime.year.value| := by
    have hle := Year.abs_value_le hrange.1
    linarith
  rw [DateTime.value, makeDay, if_neg hyear, makeDate]
  cases dateTime.time.isUtc
  · exact ⟨_, rfl⟩
  · exact ⟨_, rfl⟩

/-- A string is accepted if and only if it matches the grammar with every field in its range. -/
theorem parseBasic_isSome (localTza : ℚ → ℤ) (str : List Byte) :
    (parseBasic localTza str).isSome = true ↔ ∃ dateTime : DateTime, dateTime.InRange ∧ str = dateTime.text := by
  rw [Option.isSome_iff_exists]
  constructor
  · rintro ⟨x, h⟩
    obtain ⟨dateTime, hrange, hstr, -⟩ := parseBasic_iff.mp h
    exact ⟨dateTime, hrange, hstr⟩
  · rintro ⟨dateTime, hrange, hstr⟩
    obtain ⟨x, hvalue⟩ := dateTime.value_some localTza hrange
    exact ⟨x, parseBasic_iff.mpr ⟨dateTime, hrange, hstr, hvalue⟩⟩

/-- An accepted string begins with a digit or a sign. -/
theorem parseBasic_none {localTza : ℚ → ℤ} {c : Byte} {rest : List Byte} (hdigit : Lit.litCharIsDecimalDigit c = false)
    (hsign : checkTwoChars (c :: rest) (byte '-') (byte '+') = false) : parseBasic localTza (c :: rest) = none := by
  cases hparse : parseBasic localTza (c :: rest) with
  | none => rfl
  | some x =>
    obtain ⟨⟨year, monthDay, time⟩, -, htext, -⟩ := parseBasic_iff.mp hparse
    cases year with
    | basic n =>
      obtain ⟨d, digits, hd, hdecimal⟩ := decimal_succ 3 n
      rw [DateTime.text, Year.text, hdecimal, List.cons_append] at htext
      exact absurd (List.cons.inj htext).1.symm (digitByte_ne hd hdigit)
    | extended negative n =>
      rw [DateTime.text, Year.text, List.cons_append] at htext
      rw [htext, checkTwoChars_sign_iff.mpr ⟨negative, _, rfl⟩] at hsign
      cases hsign

end Date
end JJS
