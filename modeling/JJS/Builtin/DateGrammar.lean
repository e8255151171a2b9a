import JJS.Builtin.DateParse

/-!
# JJS.Builtin.DateGrammar

The strings that `ecma_builtin_date_parse_basic` accepts. A `DateTime` is a derivation of the date-time grammar, and each
part of the parser reads exactly the texts of one of its fields (`parseBasic_iff`). A part that ends with NaN goes on
reading, but its NaN comes out at the end.
-/

namespace JJS
namespace Date

open Utf8 (Byte)
open Lit (litCharIsDecimalDigit)
open Strings (digitByte)

/-! ## Characters -/

section Chars

variable {str rest : List Byte} {c c₁ c₂ : Byte}

theorem parseSpecialChar_iff : parseSpecialChar str c = some rest ↔ str = c :: rest := by
  cases str with
  | nil => exact ⟨(nomatch ·), (nomatch ·)⟩
  | cons b str =>
    rw [parseSpecialChar, List.cons.injEq]
    split
    case isTrue h => exact ⟨fun hrest => ⟨h, Option.some.inj hrest⟩, fun hrest => congrArg some hrest.2⟩
    case isFalse h => exact ⟨(nomatch ·), fun hrest => absurd hrest.1 h⟩

@[simp] theorem parseSpecialChar_cons : parseSpecialChar (c :: rest) c = some rest := if_pos rfl

theorem parseSpecialChar_of_ne (h : c₁ ≠ c) : parseSpecialChar (c₁ :: rest) c = none := if_neg h

theorem checkTwoChars_iff : checkTwoChars str c₁ c₂ = true ↔ ∃ rest, str = c₁ :: rest ∨ str = c₂ :: rest := by
  cases str with
  | nil => exact ⟨(nomatch ·), fun ⟨_, h⟩ => by cases h <;> contradiction⟩
  | cons b str =>
    rw [checkTwoChars, Bool.or_eq_true, beq_iff_eq, beq_iff_eq]
    constructor
    · rintro (rfl | rfl)
      · exact ⟨str, Or.inl rfl⟩
      · exact ⟨str, Or.inr rfl⟩
    · rintro ⟨rest, h | h⟩
      · exact Or.inl (List.cons.inj h).1
      · exact Or.inr (List.cons.inj h).1

/-- A string that begins with neither of two characters does not begin with one of them. -/
theorem parseSpecialChar_of_check (h : checkTwoChars str c₁ c₂ = false) (hc : c = c₁ ∨ c = c₂) :
    parseSpecialChar str c = none := by
  cases hparse : parseSpecialChar str c with
  | none => rfl
  | some rest =>
    have hcheck : checkTwoChars str c₁ c₂ = true := by
      rw [checkTwoChars_iff]
      obtain rfl | rfl := hc
      · exact ⟨rest, Or.inl (parseSpecialChar_iff.mp hparse)⟩
      · exact ⟨rest, Or.inr (parseSpecialChar_iff.mp hparse)⟩
    rw [h] at hcheck
    cases hcheck

end Chars

/-! ## Numbers -/

theorem isDecimalDigit_iff (c : Byte) : litCharIsDecimalDigit c = true ↔ ∃ d, d < 10 ∧ c = digitByte d := by
  rw [← Strings.isDigit_iff, litCharIsDecimalDigit, Bool.and_eq_true, decide_eq_true_eq, decide_eq_true_eq, not_or,
    BitVec.not_lt, BitVec.not_lt, and_comm]

theorem digitByte_value {d : ℕ} (hd : d < 10) : (digitByte d).toNat - 0x30 = d := by
  rw [Strings.toNat_digitByte hd, Nat.add_sub_cancel]

theorem parseDigits_iff {numOfChars acc num : ℕ} {str rest : List Byte} :
    parseDigits numOfChars acc str = (some num, rest) ↔
      ∃ digits : List ℕ, digits.length = numOfChars ∧ (∀ d ∈ digits, d < 10) ∧ str = digits.map digitByte ++ rest ∧
        num = Decimal.value acc digits := by
  induction numOfChars generalizing acc str with
  | zero =>
    rw [parseDigits, Prod.mk.injEq, Option.some.injEq]
    constructor
    · rintro ⟨rfl, rfl⟩
      exact ⟨[], rfl, fun _ h => (nomatch h), rfl, rfl⟩
    · rintro ⟨digits, hlength, -, rfl, rfl⟩
      obtain rfl := List.length_eq_zero_iff.mp hlength
      exact ⟨rfl, rfl⟩
  | succ numOfChars ih =>
    cases str with
    | nil =>
      refine ⟨fun h => ?_, ?_⟩
      · rw [parseDigits] at h
        cases h
      · rintro ⟨digits, hlength, -, hstr, -⟩
        have hnil : digits.map digitByte = [] := (List.append_eq_nil_iff.mp hstr.symm).1
        rw [List.map_eq_nil_iff.mp hnil] at hlength
        cases hlength
    | cons c str =>
      rw [parseDigits]
      constructor
      · intro h
        split at h
        case isTrue hdigit =>
          obtain ⟨d, hd, rfl⟩ := (isDecimalDigit_iff c).mp hdigit
          rw [digitByte_value hd] at h
          obtain ⟨digits, hlength, hdigits, rfl, rfl⟩ := ih.mp h
          refine ⟨d :: digits, congrArg (· + 1) hlength, fun x hx => ?_, rfl, rfl⟩
          obtain rfl | hx := List.mem_cons.mp hx
          · exact hd
          · exact hdigits x hx
        case isFalse => cases h
      · rintro ⟨digits, hlength, hdigits, hstr, rfl⟩
        cases digits with
        | nil => cases hlength
        | cons d digits =>
          have hd := hdigits d List.mem_cons_self
          obtain ⟨rfl, rfl⟩ := List.cons.inj hstr
          rw [if_pos ((isDecimalDigit_iff _).mpr ⟨d, hd, rfl⟩), digitByte_value hd]
          exact ih.mpr ⟨digits, Nat.succ.inj hlength, fun x hx => hdigits x (List.mem_cons_of_mem d hx), rfl, rfl⟩

/-- A number in a limit is the text of its digits. -/
theorem parseDateChars_iff {numOfChars limitMin limitMax : ℕ} {str rest : List Byte} {x : ℚ} :
    parseDateChars str numOfChars limitMin limitMax = (some x, rest) ↔
      ∃ n : ℕ, x = n ∧ str = decimal numOfChars n ++ rest ∧ n < 10 ^ numOfChars ∧ limitMin ≤ n ∧ n ≤ limitMax := by
  rw [parseDateChars]
  constructor
  · intro h
    split at h
    case isTrue => cases h
    case isFalse =>
      cases hparse : parseDigits numOfChars 0 str with
      | mk num rest' =>
        rw [hparse] at h
        cases num with
        | none => cases h
        | some num =>
          obtain ⟨digits, rfl, hdigits, rfl, rfl⟩ := parseDigits_iff.mp hparse
          dsimp only at h
          split at h
          case isTrue hlimit =>
            obtain ⟨hx, rfl⟩ := Prod.mk.inj h
            obtain rfl := Option.some.inj hx
            refine ⟨Decimal.value 0 digits, rfl, ?_, ?_, hlimit⟩
            · rw [decimal, Decimal.fixed_value hdigits]
            · have hlt := Decimal.value_lt hdigits (Nat.zero_lt_one)
              rwa [Nat.one_mul] at hlt
          case isFalse => cases h
  · rintro ⟨n, rfl, rfl, hlt, hlimit⟩
    have hlength : ¬ (decimal numOfChars n ++ rest).length < numOfChars := by
      rw [List.length_append, length_decimal]
      omega
    have hparse : parseDigits numOfChars 0 (decimal numOfChars n ++ rest) = (some n, rest) := by
      refine parseDigits_iff.mpr ⟨Decimal.fixed numOfChars n, Decimal.length_fixed _ _, fun _ => Decimal.lt_of_mem_fixed, rfl, ?_⟩
      rw [Decimal.value_fixed 0 hlt, Nat.zero_mul, Nat.zero_add]
    rw [if_neg hlength, hparse]
    dsimp only
    rw [if_pos hlimit]

/-- A number that the width holds is read back. -/
theorem parseDateChars_decimal {numOfChars limitMin limitMax n : ℕ} (rest : List Byte) (hmin : limitMin ≤ n)
    (hmax : n ≤ limitMax) (hwidth : limitMax < 10 ^ numOfChars) :
    parseDateChars (decimal numOfChars n ++ rest) numOfChars limitMin limitMax = (some (n : ℚ), rest) :=
  parseDateChars_iff.mpr ⟨n, rfl, rfl, Nat.lt_of_le_of_lt hmax hwidth, hmin, hmax⟩

/-- A number begins with a digit. -/
theorem decimal_succ (width n : ℕ) : ∃ d digits, d < 10 ∧ decimal (width + 1) n = digitByte d :: digits := by
  cases hfixed : Decimal.fixed (width + 1) n with
  | nil =>
    have hlength := Decimal.length_fixed (width + 1) n
    rw [hfixed] at hlength
    cases hlength
  | cons d digits =>
    refine ⟨d, digits.map digitByte, ?_, ?_⟩
    · exact @Decimal.lt_of_mem_fixed (width + 1) n d (by rw [hfixed]; exact List.mem_cons_self)
    · rw [decimal, hfixed, List.map_cons]

theorem digitByte_ne {d : ℕ} (hd : d < 10) {c : Byte} (hc : litCharIsDecimalDigit c = false) : digitByte d ≠ c := by
  intro h
  rw [(isDecimalDigit_iff c).mpr ⟨d, hd, h.symm⟩] at hc
  cases hc

theorem checkTwoChars_decimal {c₁ c₂ : Byte} (h₁ : litCharIsDecimalDigit c₁ = false)
    (h₂ : litCharIsDecimalDigit c₂ = false) (width n : ℕ) (rest : List Byte) :
    checkTwoChars (decimal (width + 1) n ++ rest) c₁ c₂ = false := by
  obtain ⟨d, digits, hd, hdecimal⟩ := decimal_succ width n
  rw [hdecimal, List.cons_append, checkTwoChars, Bool.or_eq_false_iff, beq_eq_false_iff_ne, beq_eq_false_iff_ne]
  exact ⟨digitByte_ne hd h₁, digitByte_ne hd h₂⟩

/-! ## The grammar -/

/-- A sign. -/
def signByte (negative : Bool) : Byte := if negative then byte '-' else byte '+'

/-- The separator of a date. -/
def separatorByte (slash : Bool) : Byte := if slash then byte '/' else byte '-'

/-- `YYYY`, or an extended year. -/
inductive Year where
  | basic (n : ℕ)
  | extended (negative : Bool) (n : ℕ)

/-- Nothing, the month, or the month and the day. -/
inductive MonthDay where
  | none
  | month (slash : Bool) (month : ℕ)
  | day (slash : Bool) (month day : ℕ)

/-- Nothing, the seconds, or the seconds and the milliseconds. -/
inductive Seconds where
  | none
  | seconds (seconds : ℕ)
  | milliseconds (seconds milliseconds : ℕ)

/-- Nothing, which is local time, `Z`, or an offset. -/
inductive Timezone where
  | localTime
  | utc
  | offset (negative : Bool) (hours minutes : ℕ)

/-- Nothing, or `HH:mm` with what follows. -/
inductive Time where
  | none
  | time (space : Bool) (hours minutes : ℕ) (seconds : Seconds) (timezone : Timezone)

/-- A date with a time. -/
structure DateTime where
  year : Year
  monthDay : MonthDay
  time : Time

namespace Year

def text : Year → List Byte
  | basic n => decimal 4 n
  | extended negative n => signByte negative :: decimal 6 n

def InRange : Year → Prop
  | basic n => n ≤ 9999
  | extended _ n => n ≤ 999999

def value : Year → ℚ
  | basic n => n
  | extended negative n => if negative then -(n : ℚ) else n

end Year

namespace MonthDay

def text : MonthDay → List Byte
  | none => []
  | month slash m => separatorByte slash :: decimal 2 m
  | day slash m d => separatorByte slash :: (decimal 2 m ++ separatorByte slash :: decimal 2 d)

def InRange : MonthDay → Prop
  | none => True
  | month _ m => 1 ≤ m ∧ m ≤ 12
  | day _ m d => (1 ≤ m ∧ m ≤ 12) ∧ 1 ≤ d ∧ d ≤ 31

def monthValue : MonthDay → ℕ
  | none => 1
  | month _ m => m
  | day _ m _ => m

def dayValue : MonthDay → ℕ
  | day _ _ d => d
  | _ => 1

end MonthDay

namespace Seconds

def text : Seconds → List Byte
  | none => []
  | seconds s => byte ':' :: decimal 2 s
  | milliseconds s ms => byte ':' :: (decimal 2 s ++ byte '.' :: decimal 3 ms)

def InRange : Seconds → Prop
  | none => True
  | seconds s => s ≤ 59
  | milliseconds s ms => s ≤ 59 ∧ ms ≤ 999

def secondsValue : Seconds → ℕ
  | none => 0
  | seconds s => s
  | milliseconds s _ => s

def millisecondsValue : Seconds → ℕ
  | milliseconds _ ms => ms
  | _ => 0

end Seconds

namespace Timezone

def text : Timezone → List Byte
  | localTime => []
  | utc => [byte 'Z']
  | offset negative hours minutes => signByte negative :: (decimal 2 hours ++ byte ':' :: decimal 2 minutes)

def InRange : Timezone → Prop
  | offset _ hours minutes => hours ≤ 24 ∧ minutes ≤ 59
  | _ => True

def isUtc : Timezone → Bool
  | localTime => false
  | _ => true

/-- The time in UTC, or the local time if there is no time zone. An offset of 24 hours is none. -/
def apply (time : ℚ) : Timezone → ℚ
  | offset negative hours minutes =>
    let timezoneOffset : ℚ := ((if hours = 24 then 0 else hours : ℕ) * msPerHour + minutes * msPerMinute : ℤ)
    if negative then time + timezoneOffset else time - timezoneOffset
  | _ => time

end Timezone

namespace Time

def text : Time → List Byte
  | none => []
  | time space hours minutes seconds timezone =>
    (if space then byte ' ' else byte 'T') ::
      (decimal 2 hours ++ byte ':' :: (decimal 2 minutes ++ (seconds.text ++ timezone.text)))

/-- 24 hours are the end of the day. -/
def InRange : Time → Prop
  | none => True
  | time _ hours minutes seconds timezone =>
    hours ≤ 24 ∧ minutes ≤ 59 ∧ seconds.InRange ∧
      (hours = 24 → minutes = 0 ∧ seconds.secondsValue = 0 ∧ seconds.millisecondsValue = 0) ∧ timezone.InRange

def isUtc : Time → Bool
  | none => true
  | time _ _ _ _ timezone => timezone.isUtc

def value : Time → ℚ
  | none => 0
  | time _ hours minutes seconds timezone =>
    timezone.apply (hours * msPerHour + minutes * msPerMinute + seconds.secondsValue * msPerSecond +
      seconds.millisecondsValue : ℤ)

end Time

namespace DateTime

variable (dateTime : DateTime)

def text : List Byte := dateTime.year.text ++ (dateTime.monthDay.text ++ dateTime.time.text)

def InRange : Prop := dateTime.year.InRange ∧ dateTime.monthDay.InRange ∧ dateTime.time.InRange

/-- The time value, given the adjustment of the local time zone. -/
def value (localTza : ℚ → ℤ) : Option ℚ :=
  let date := makeDay (some dateTime.year.value) (some ((dateTime.monthDay.monthValue : ℚ) - 1))
    (some (dateTime.monthDay.dayValue : ℚ))
  let resultDate := makeDate date (some dateTime.time.value)
  if dateTime.time.isUtc then resultDate else resultDate.map (utc localTza)

end DateTime

/-! ## Years, months and days -/

theorem checkTwoChars_sign_iff {str : List Byte} :
    checkTwoChars str (byte '-') (byte '+') = true ↔ ∃ negative rest, str = signByte negative :: rest := by
  constructor
  · intro h
    obtain ⟨rest, rfl | rfl⟩ := checkTwoChars_iff.mp h
    · exact ⟨true, rest, rfl⟩
    · exact ⟨false, rest, rfl⟩
  · rintro ⟨negative, rest, rfl⟩
    cases negative
    · rfl
    · rfl

theorem head_signByte (negative : Bool) (rest : List Byte) :
    ((signByte negative :: rest).head? == some (byte '-')) = negative := by
  cases negative
  · rfl
  · rfl

theorem parseBasicYear_signed (negative : Bool) (str : List Byte) :
    parseBasicYear (signByte negative :: str) =
      (if negative then (parseDateChars str 6 0 999999).1.map (- ·) else (parseDateChars str 6 0 999999).1,
        (parseDateChars str 6 0 999999).2) := by
  rw [parseBasicYear, if_pos (checkTwoChars_sign_iff.mpr ⟨negative, str, rfl⟩)]
  rw [head_signByte, List.tail_cons]

theorem parseBasicYear_iff {str rest : List Byte} {x : ℚ} :
    parseBasicYear str = (some x, rest) ↔ ∃ year : Year, year.InRange ∧ str = year.text ++ rest ∧ x = year.value := by
  constructor
  · intro h
    cases hcheck : checkTwoChars str (byte '-') (byte '+') with
    | true =>
      obtain ⟨negative, str, rfl⟩ := checkTwoChars_sign_iff.mp hcheck
      rw [parseBasicYear_signed] at h
      cases hparse : parseDateChars str 6 0 999999 with
      | mk year rest' =>
        rw [hparse] at h
        obtain ⟨hyear, rfl⟩ := Prod.mk.inj h
        cases year with
        | none => cases negative <;> cases hyear
        | some year =>
          obtain ⟨n, rfl, rfl, -, -, hmax⟩ := parseDateChars_iff.mp hparse
          refine ⟨.extended negative n, hmax, rfl, ?_⟩
          cases negative
          · exact (Option.some.inj hyear).symm
          · exact (Option.some.inj hyear).symm
    | false =>
      rw [parseBasicYear, hcheck, if_neg Bool.false_ne_true] at h
      obtain ⟨n, rfl, rfl, -, -, hmax⟩ := parseDateChars_iff.mp h
      exact ⟨.basic n, hmax, rfl, rfl⟩
  · rintro ⟨year, hrange, rfl, rfl⟩
    cases year with
    | basic n =>
      rw [parseBasicYear, Year.text, checkTwoChars_decimal (by decide) (by decide), if_neg Bool.false_ne_true]
      exact parseDateChars_decimal rest (Nat.zero_le n) hrange (by decide)
    | extended negative n =>
      rw [Year.text, List.cons_append, parseBasicYear_signed,
        parseDateChars_decimal rest (Nat.zero_le n) hrange (by decide)]
      cases negative
      · rfl
      · rfl

theorem checkTwoChars_separator_iff {str : List Byte} :
    checkTwoChars str (byte '-') (byte '/') = true ↔ ∃ slash rest, str = separatorByte slash :: rest := by
  constructor
  · intro h
    obtain ⟨rest, rfl | rfl⟩ := checkTwoChars_iff.mp h
    · exact ⟨false, rest, rfl⟩
    · exact ⟨true, rest, rfl⟩
  · rintro ⟨slash, rest, rfl⟩
    cases slash
    · rfl
    · rfl

theorem parseBasicMonth_iff {str rest : List Byte} {x y : ℚ} (hrest : checkTwoChars rest (byte '-') (byte '/') = false) :
    parseBasicMonth str = (some x, some y, rest) ↔
      ∃ monthDay : MonthDay, monthDay.InRange ∧ str = monthDay.text ++ rest ∧ x = monthDay.monthValue ∧
        y = monthDay.dayValue := by
  constructor
  · intro h
    cases hcheck : checkTwoChars str (byte '-') (byte '/') with
    | true =>
      obtain ⟨slash, str, rfl⟩ := checkTwoChars_separator_iff.mp hcheck
      rw [parseBasicMonth, if_pos hcheck] at h
      dsimp only at h
      cases hmonth : parseDateChars str 2 1 12 with
      | mk month str₁ =>
        rw [hmonth] at h
        dsimp only at h
        cases hseparator : parseSpecialChar str₁ (separatorByte slash) with
        | none =>
          rw [hseparator] at h
          obtain ⟨rfl, hday, rfl⟩ : month = some x ∧ some 1 = some y ∧ str₁ = rest := by
            simpa only [Prod.mk.injEq] using h
          obtain ⟨m, rfl, rfl, -, hrange⟩ := parseDateChars_iff.mp hmonth
          exact ⟨.month slash m, hrange, rfl, rfl, by rw [← Option.some.inj hday]; exact Nat.cast_one.symm⟩
        | some str₂ =>
          rw [hseparator] at h
          dsimp only at h
          cases hday : parseDateChars str₂ 2 1 31 with
          | mk day str₃ =>
            rw [hday] at h
            obtain ⟨rfl, rfl, rfl⟩ : month = some x ∧ day = some y ∧ str₃ = rest := by
              simpa only [Prod.mk.injEq] using h
            obtain ⟨m, rfl, rfl, -, hrange⟩ := parseDateChars_iff.mp hmonth
            obtain ⟨d, rfl, rfl, -, hrange'⟩ := parseDateChars_iff.mp hday
            refine ⟨.day slash m d, ⟨hrange, hrange'⟩, ?_, rfl, rfl⟩
            rw [parseSpecialChar_iff.mp hseparator, MonthDay.text, List.cons_append, List.append_assoc, List.cons_append]
    | false =>
      unfold parseBasicMonth at h
      rw [hcheck, if_neg Bool.false_ne_true] at h
      obtain ⟨hx, hy, rfl⟩ : some 1 = some x ∧ some 1 = some y ∧ str = rest := by
        simpa only [Prod.mk.injEq] using h
      refine ⟨.none, trivial, rfl, ?_, ?_⟩
      · rw [← Option.some.inj hx]
        exact Nat.cast_one.symm
      · rw [← Option.some.inj hy]
        exact Nat.cast_one.symm
  · rintro ⟨monthDay, hrange, rfl, rfl, rfl⟩
    cases monthDay with
    | none =>
      rw [MonthDay.text, List.nil_append]
      unfold parseBasicMonth
      rw [hrest, if_neg Bool.false_ne_true]
      exact Prod.ext (congrArg some Nat.cast_one.symm) (Prod.ext (congrArg some Nat.cast_one.symm) rfl)
    | month slash m =>
      have hcheck := checkTwoChars_separator_iff.mpr ⟨slash, decimal 2 m ++ rest, rfl⟩
      have hstop : parseSpecialChar rest (separatorByte slash) = none :=
        parseSpecialChar_of_check hrest (by cases slash <;> simp [separatorByte])
      rw [MonthDay.text, List.cons_append]
      unfold parseBasicMonth
      rw [if_pos hcheck]
      dsimp only
      rw [parseDateChars_decimal rest hrange.1 hrange.2 (by decide)]
      dsimp only
      rw [hstop]
      exact Prod.ext rfl (Prod.ext (congrArg some Nat.cast_one.symm) rfl)
    | day slash m d =>
      have hcheck := checkTwoChars_separator_iff.mpr
        ⟨slash, decimal 2 m ++ (separatorByte slash :: (decimal 2 d ++ rest)), rfl⟩
      rw [MonthDay.text, List.cons_append, List.append_assoc, List.cons_append]
      unfold parseBasicMonth
      rw [if_pos hcheck]
      dsimp only
      rw [parseDateChars_decimal _ hrange.1.1 hrange.1.2 (by decide)]
      dsimp only
      rw [parseSpecialChar_cons]
      dsimp only
      rw [parseDateChars_decimal rest hrange.2.1 hrange.2.2 (by decide)]
      rfl

end Date
end JJS
