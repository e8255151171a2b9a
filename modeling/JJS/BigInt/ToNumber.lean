import Mathlib.Data.Nat.Bitwise
import JJS.Number
import JJS.Lib.Rounding
import JJS.BigInt.DivDigit
import JJS.BigInt.Value

/-!
# JJS.BigInt.ToNumber

`ecma_bigint_to_number`. The 64 bits below the leading one are put into a word, the upper 52 of them are the fraction,
and the other 12 and the digits below decide on rounding up.
-/

namespace JJS
namespace BigInt

open Radix Rounding

/-- The value that is returned: a direct integer, or a number. -/
inductive NumberValue where
  | integer (value : Int)
  | number (value : Number)
  deriving DecidableEq

/-- `ECMA_INTEGER_NUMBER_MAX`. -/
def integerNumberMax : Digit := 0x7ffffff#32

/-- `-ECMA_INTEGER_NUMBER_MIN`. -/
def integerNumberMin : Digit := 0x8000000#32

/-- `fraction` and `shift_left`. The digits are those of the value, most significant first. -/
def leadingBits (digits : List Digit) : Res (TwoDigits × Nat) :=
  let digit1 := digits.getD 0 0#32
  let digit2 := digits.getD 1 0#32
  let digit3 := digits.getD 2 0#32
  if digit1 = 1#32 then do
    jjsAssert (4 < 4 * digits.length)
    let fraction : TwoDigits := digit2.setWidth 64 <<< 32
    let fraction := if 3 * 4 ≤ 4 * digits.length then fraction ||| digit3.setWidth 64 else fraction
    .ok (fraction, 32)
  else
    let shiftLeft := (ecmaBigUintCountLeadingZero digit1).toNat + 1
    let fraction : TwoDigits := digit1.setWidth 64 <<< (32 + shiftLeft)
    let fraction := if 2 * 4 ≤ 4 * digits.length then fraction ||| (digit2.setWidth 64 <<< shiftLeft) else fraction
    let fraction := if 3 * 4 ≤ 4 * digits.length then fraction ||| (digit3.setWidth 64 >>> (32 - shiftLeft)) else fraction
    .ok (fraction, shiftLeft)

def roundingBit : TwoDigits := 1#64 <<< (64 - 52 - 1)

/-- `round_up`. -/
def roundsUp (digits : List Digit) (fraction : TwoDigits) (shiftLeft : Nat) : Bool :=
  if fraction &&& roundingBit ≠ 0#64 then
    if fraction &&& ((roundingBit <<< 2) - 1#64) = roundingBit then
      if 3 * 4 ≤ 4 * digits.length ∧
          (shiftLeft = 32 ∨ digits.getD 2 0#32 &&& ((1#32 <<< shiftLeft) - 1#32) = 0#32) then
        (digits.drop 3).any (· != 0#32)
      else false
    else true
  else false

/-- `ecma_number_create`. -/
def ecmaNumberCreate (sign : Bool) (biasedExp : Nat) (fraction : TwoDigits) : Res Number := do
  jjsAssert (biasedExp < 2 ^ 11)
  jjsAssert (fraction.toNat < 2 ^ 52)
  .ok ⟨sign, BitVec.ofNat 11 biasedExp, fraction.setWidth 52⟩

/-- The part of `ecma_bigint_to_number` for values that are no direct integers. -/
def roundedNumber (sign : Bool) (digits : List Digit) : Res Number := do
  let t ← leadingBits digits
  let biasedExp := 1023 + (4 * digits.length * 8 - t.2)
  let r := if roundsUp digits t.1 t.2 then
      let fraction := (t.1 + roundingBit) >>> (64 - 52)
      (fraction, if fraction = 0#64 then biasedExp + 1 else biasedExp)
    else (t.1 >>> (64 - 52), biasedExp)
  if r.2 < 2 ^ 11 - 1 then ecmaNumberCreate sign r.2 r.1 else .ok (Number.infinity sign)

/-- `ecma_bigint_to_number`. -/
def ecmaBigintToNumber (value : Block) : Res NumberValue :=
  if value = Block.zero then .ok (.integer 0)
  else
    let digits := value.digits.reverse
    let digit1 := digits.getD 0 0#32
    if 4 * digits.length = 4 ∧ value.sign = false ∧ digit1 ≤ integerNumberMax then .ok (.integer digit1.toNat)
    else if 4 * digits.length = 4 ∧ value.sign = true ∧ digit1 ≤ integerNumberMin then .ok (.integer (-digit1.toNat))
    else do
      let result ← roundedNumber value.sign digits
      .ok (.number result)

/-! ## What a rounded number is -/

/-- The largest finite number. -/
@[irreducible] def maxFinite : Nat := (2 ^ 53 - 1) * 2 ^ 971

/-- A value that stands for a number of magnitude `m`, which is an infinity when it is beyond the finite ones. -/
def NumberValue.Denotes (sign : Bool) (m : Nat) : NumberValue → Prop
  | .integer z => z = if sign then -(m : Int) else m
  | .number x => (maxFinite < m → x = Number.infinity sign) ∧
      (m ≤ maxFinite → x.Finite ∧ x.sign = sign ∧ x.toRat = if sign then -(m : ℚ) else m)

/-- The conversion returns the number nearest to the value. -/
def RoundedRight (v : Value) : Prop :=
  ∃ m y, NearestEven 53 (val v.digits) m ∧ ecmaBigintToNumber v.toBlock = .ok y ∧ y.Denotes v.sign m

/-- A magnitude that is rounded down though it lies above the middle of two numbers. The 64 bits below the leading one
are those of the middle above an even significand, and either no digit below the third one has a bit set, or the third
digit has one among as many of its low bits as the shift has. -/
def Misrounded (n : Nat) : Prop :=
  64 ≤ n.log2 ∧ n.log2 < 1024 ∧ n / 2 ^ (n.log2 - 64) % 2 ^ 13 = 2 ^ 11 ∧ n % 2 ^ (n.log2 - 64) ≠ 0 ∧
    (n % 2 ^ (32 * (n.log2 / 32 - 2)) = 0 ∨
      n.log2 % 32 ≠ 0 ∧ n / 2 ^ (32 * (n.log2 / 32 - 2)) % 2 ^ (32 - n.log2 % 32) ≠ 0)

/-! ## The leading bits -/

def digit3 (digits : List Digit) : Nat := (digits.getD 2 0#32).toNat

def lower (digits : List Digit) : Nat := val (digits.drop 3).reverse

/-- The three leading digits and the rest. -/
theorem val_leading (digits : List Digit) :
    val digits.reverse * 2 ^ 96 =
        ((digits.getD 0 0#32).toNat * 2 ^ 64 + (digits.getD 1 0#32).toNat * 2 ^ 32 + digit3 digits) * 2 ^ (32 * digits.length) +
          lower digits * 2 ^ 96 ∧
      lower digits * 2 ^ 96 < 2 ^ (32 * digits.length) := by
  unfold digit3 lower
  match digits with
  | [] => exact ⟨by simp, by simp⟩
  | [a] =>
    refine ⟨?_, ?_⟩
    · simp
      omega
    · simp
  | [a, b] =>
    refine ⟨?_, ?_⟩
    · simp
      omega
    · simp
  | a :: b :: c :: ds =>
    have hweight : 2 ^ (32 * (a :: b :: c :: ds).length) = (2 ^ 32) ^ ds.length * 2 ^ 96 := by
      rw [← pow_mul, ← pow_add]
      rfl
    have hlow : val ds.reverse < (2 ^ 32) ^ ds.length := by
      have h := val_lt ds.reverse
      rw [List.length_reverse] at h
      exact h
    rw [hweight]
    refine ⟨?_, ?_⟩
    · have hval : val (a :: b :: c :: ds).reverse =
          val ds.reverse + (2 ^ 32) ^ ds.length * (c.toNat + 2 ^ 32 * b.toNat + 2 ^ 64 * a.toNat) := by
        simp only [List.reverse_cons, val_concat, List.length_append, List.length_reverse, List.length_singleton, pow_succ]
        ring
      rw [hval]
      simp only [List.getD_cons_zero, List.getD_cons_succ, List.drop_succ_cons, List.drop_zero]
      ring
    · simp only [List.drop_succ_cons, List.drop_zero]
      exact Nat.mul_lt_mul_of_pos_right hlow (by decide)

/-- The number has its leading one above the 64 bits of the fraction. Below them are the bits of the third digit that
the shift leaves, and the lower digits. -/
structure Leading (digits : List Digit) (fraction : TwoDigits) (shiftLeft : Nat) : Prop where
  shift_pos : 1 ≤ shiftLeft
  shift_le : shiftLeft ≤ 32
  fraction : 2 ^ 64 + fraction.toNat =
    (digits.getD 0 0#32).toNat * 2 ^ shiftLeft * 2 ^ 32 + (digits.getD 1 0#32).toNat * 2 ^ shiftLeft +
      digit3 digits / 2 ^ (32 - shiftLeft)

/-- Digits that are put side by side. -/
theorem toNat_or_low {x y : TwoDigits} {k : Nat} (hx : x.toNat % 2 ^ k = 0) (hy : y.toNat < 2 ^ k) :
    (x ||| y).toNat = x.toNat + y.toNat := by
  obtain ⟨m, hm⟩ := Nat.dvd_of_mod_eq_zero hx
  rw [BitVec.toNat_or, hm, Nat.two_pow_add_eq_or_of_lt hy]

/-- A digit that is not there is zero. -/
theorem guarded_or {c : Prop} [Decidable c] (x : TwoDigits) {y : TwoDigits} (h : ¬ c → y = 0#64) :
    (if c then x ||| y else x) = x ||| y := by
  by_cases hc : c
  · rw [if_pos hc]
  · rw [if_neg hc, h hc]
    simp

theorem getD_absent {digits : List Digit} {k : Nat} (h : ¬ (k + 1) * 4 ≤ 4 * digits.length) : digits.getD k 0#32 = 0#32 := by
  rw [List.getD_eq_getElem?_getD, List.getElem?_eq_none (by omega)]
  rfl

theorem leadingBits_one {digits : List Digit} (htop : digits.getD 0 0#32 = 1#32) (hlen : 1 < digits.length) :
    ∃ fraction, leadingBits digits = .ok (fraction, 32) ∧ Leading digits fraction 32 := by
  unfold leadingBits
  dsimp only
  rw [if_pos htop, jjsAssert_ok (by omega), ok_bind,
    guarded_or _ (fun h => by rw [getD_absent (k := 2) h]; rfl)]
  refine ⟨_, rfl, by decide, by decide, ?_⟩
  have h2 := (digits.getD 1 0#32).isLt
  have h3 := (digits.getD 2 0#32).isLt
  have hhigh : ((digits.getD 1 0#32).setWidth 64 <<< 32 : TwoDigits).toNat = (digits.getD 1 0#32).toNat * 2 ^ 32 := by
    rw [BitVec.toNat_shiftLeft, toNat_setWidth_digit, Nat.shiftLeft_eq]
    exact Nat.mod_eq_of_lt (by omega)
  have hlow := toNat_setWidth_digit (digits.getD 2 0#32)
  have hone : (1#32 : Digit).toNat = 1 := rfl
  rw [toNat_or_low (k := 32) (by rw [hhigh]; exact Nat.mul_mod_left _ _) (by rw [hlow]; exact h3), hhigh, hlow, htop, hone,
    digit3, Nat.sub_self, pow_zero, Nat.div_one]
  omega

theorem leadingBits_other {digits : List Digit} (htop : digits.getD 0 0#32 ≠ 0#32) (hone : digits.getD 0 0#32 ≠ 1#32) :
    ∃ fraction shiftLeft, leadingBits digits = .ok (fraction, shiftLeft) ∧ shiftLeft < 32 ∧ Leading digits fraction shiftLeft := by
  unfold leadingBits
  dsimp only
  obtain ⟨hclz, hmin, hmax⟩ := ecmaBigUintCountLeadingZero_spec htop
  rw [if_neg hone, guarded_or _ (fun h => by rw [getD_absent (k := 2) h]; simp),
    guarded_or _ (fun h => by rw [getD_absent (k := 1) h]; simp)]
  have hbig : 2 ≤ (digits.getD 0 0#32).toNat := by
    have hpos := toNat_pos htop
    have hne : (digits.getD 0 0#32).toNat ≠ 1 := fun h => hone (BitVec.eq_of_toNat_eq h)
    omega
  generalize (ecmaBigUintCountLeadingZero (digits.getD 0 0#32)).toNat = clz at hclz hmin hmax ⊢
  obtain ⟨s, hs⟩ : ∃ s, clz + 1 = s := ⟨_, rfl⟩
  have hdouble : 2 ^ s = 2 ^ clz * 2 := by rw [← hs, pow_succ]
  rw [hs]
  have hs31 : s < 32 := by
    by_contra h
    have hclz31 : clz = 31 := by omega
    rw [hclz31] at hmax
    omega
  refine ⟨_, s, rfl, hs31, by omega, by omega, ?_⟩
  have h2 := (digits.getD 1 0#32).isLt
  have h3 := (digits.getD 2 0#32).isLt
  unfold digit3
  generalize digits.getD 0 0#32 = d1 at *
  generalize digits.getD 1 0#32 = d2 at *
  generalize digits.getD 2 0#32 = d3 at *
  have hw : 2 ^ (32 + s) * 2 ^ (32 - s) = 2 ^ 64 := by
    rw [← pow_add]
    congr 1
    omega
  have hw' : 2 ^ s * 2 ^ (32 - s) = 2 ^ 32 := by
    rw [← pow_add]
    congr 1
    omega
  have h32 : 2 ^ (32 + s) = 2 ^ 32 * 2 ^ s := pow_add 2 32 s
  -- The leading one leaves the word.
  have hprod : d1.toNat * 2 ^ s = d1.toNat * 2 ^ clz * 2 := by rw [hdouble, Nat.mul_assoc]
  have hhigh : (d1.setWidth 64 <<< (32 + s) : TwoDigits).toNat = 2 ^ (32 + s) * (d1.toNat % 2 ^ (32 - s)) := by
    rw [BitVec.toNat_shiftLeft, toNat_setWidth_digit, Nat.shiftLeft_eq, Nat.mul_comm, ← hw, Nat.mul_mod_mul_left]
  have hhigh' : 2 ^ 64 + (d1.setWidth 64 <<< (32 + s) : TwoDigits).toNat = d1.toNat * 2 ^ s * 2 ^ 32 := by
    rw [BitVec.toNat_shiftLeft, toNat_setWidth_digit, Nat.shiftLeft_eq, h32]
    have hcomm : d1.toNat * (2 ^ 32 * 2 ^ s) = d1.toNat * 2 ^ s * 2 ^ 32 := by ring
    rw [hcomm]
    omega
  have hmid : (d2.setWidth 64 <<< s : TwoDigits).toNat = d2.toNat * 2 ^ s := by
    rw [BitVec.toNat_shiftLeft, toNat_setWidth_digit, Nat.shiftLeft_eq]
    refine Nat.mod_eq_of_lt ?_
    calc d2.toNat * 2 ^ s < 2 ^ 32 * 2 ^ s := Nat.mul_lt_mul_of_pos_right h2 (Nat.two_pow_pos s)
      _ ≤ 2 ^ 32 * 2 ^ 32 := Nat.mul_le_mul_left _ (Nat.pow_le_pow_right (by decide) (by omega))
  have hlow : (d3.setWidth 64 >>> (32 - s) : TwoDigits).toNat = d3.toNat / 2 ^ (32 - s) := by
    rw [BitVec.toNat_ushiftRight, toNat_setWidth_digit, Nat.shiftRight_eq_div_pow]
  have hlowlt : d3.toNat / 2 ^ (32 - s) < 2 ^ s := by
    rw [Nat.div_lt_iff_lt_mul (Nat.two_pow_pos _), hw']
    exact h3
  have hmidlt : d2.toNat * 2 ^ s < 2 ^ (32 + s) := by
    rw [h32]
    exact Nat.mul_lt_mul_of_pos_right h2 (Nat.two_pow_pos s)
  have hfirst := toNat_or_low (k := 32 + s) (by rw [hhigh]; exact Nat.mul_mod_right _ _) (by rw [hmid]; exact hmidlt)
  have hsecond := toNat_or_low (x := d1.setWidth 64 <<< (32 + s) ||| d2.setWidth 64 <<< s) (k := s)
    (by
      rw [hfirst, hhigh, hmid, h32, Nat.mul_comm (2 ^ 32), Nat.mul_assoc, Nat.mul_add_mod, Nat.mul_mod_left])
    (by rw [hlow]; exact hlowlt)
  rw [hsecond, hfirst, hmid, hlow, ← hhigh']
  omega

theorem leadingBits_ok {digits : List Digit} (htop : digits.getD 0 0#32 ≠ 0#32)
    (hone : digits.getD 0 0#32 = 1#32 → 1 < digits.length) :
    ∃ fraction shiftLeft, leadingBits digits = .ok (fraction, shiftLeft) ∧ Leading digits fraction shiftLeft := by
  by_cases h1 : digits.getD 0 0#32 = 1#32
  · obtain ⟨f, hf, hlead⟩ := leadingBits_one h1 (hone h1)
    exact ⟨f, 32, hf, hlead⟩
  · obtain ⟨f, s, hf, -, hlead⟩ := leadingBits_other htop h1
    exact ⟨f, s, hf, hlead⟩

/-! ## The bits that are rounded -/

/-- What is below the 64 bits, in parts of `2 ^ (96 + shiftLeft)`. -/
def sticky (digits : List Digit) (shiftLeft : Nat) : Nat :=
  2 ^ shiftLeft * (digit3 digits % 2 ^ (32 - shiftLeft)) * 2 ^ (32 * digits.length) + lower digits * 2 ^ (96 + shiftLeft)

section

variable {digits : List Digit} {fraction : TwoDigits} {shiftLeft : Nat} (h : Leading digits fraction shiftLeft)

include h

theorem leading_scaled : val digits.reverse * 2 ^ (96 + shiftLeft) =
    (2 ^ 64 + fraction.toNat) * 2 ^ (32 + 32 * digits.length) + sticky digits shiftLeft := by
  obtain ⟨hval, -⟩ := val_leading digits
  have hfraction := h.fraction
  have hs := h.shift_le
  have hw : 2 ^ shiftLeft * 2 ^ (32 - shiftLeft) = 2 ^ 32 := by
    rw [← pow_add]
    congr 1
    omega
  have hdiv := Nat.div_add_mod (digit3 digits) (2 ^ (32 - shiftLeft))
  unfold sticky
  rw [pow_add, pow_add, ← Nat.mul_assoc, hval, hfraction]
  generalize (digits.getD 0 0#32).toNat = d1
  generalize (digits.getD 1 0#32).toNat = d2
  generalize 2 ^ (32 * digits.length) = w
  generalize lower digits = l
  generalize digit3 digits % 2 ^ (32 - shiftLeft) = r at hdiv ⊢
  generalize digit3 digits / 2 ^ (32 - shiftLeft) = q at hdiv ⊢
  have hthird : digit3 digits * 2 ^ shiftLeft = 2 ^ 32 * q + 2 ^ shiftLeft * r := by
    rw [← hdiv, ← hw]
    ring
  calc ((d1 * 2 ^ 64 + d2 * 2 ^ 32 + digit3 digits) * w + l * 2 ^ 96) * 2 ^ shiftLeft
      = (d1 * 2 ^ 64 + d2 * 2 ^ 32) * w * 2 ^ shiftLeft + digit3 digits * 2 ^ shiftLeft * w + l * 2 ^ 96 * 2 ^ shiftLeft := by ring
    _ = (d1 * 2 ^ shiftLeft * 2 ^ 32 + d2 * 2 ^ shiftLeft + q) * (2 ^ 32 * w) + (2 ^ shiftLeft * r * w + l * (2 ^ 96 * 2 ^ shiftLeft)) := by
      rw [hthird]
      ring

theorem sticky_lt : sticky digits shiftLeft < 2 ^ (32 + 32 * digits.length) := by
  obtain ⟨-, hlow⟩ := val_leading digits
  have hs := h.shift_le
  have hw : 2 ^ shiftLeft * 2 ^ (32 - shiftLeft) = 2 ^ 32 := by
    rw [← pow_add]
    congr 1
    omega
  have hmod : digit3 digits % 2 ^ (32 - shiftLeft) + 1 ≤ 2 ^ (32 - shiftLeft) := Nat.mod_lt _ (Nat.two_pow_pos _)
  unfold sticky
  rw [pow_add 2 32, ← hw]
  generalize 2 ^ (32 * digits.length) = w at hlow ⊢
  generalize digit3 digits % 2 ^ (32 - shiftLeft) = r at hmod ⊢
  calc 2 ^ shiftLeft * r * w + lower digits * 2 ^ (96 + shiftLeft)
      = 2 ^ shiftLeft * r * w + 2 ^ shiftLeft * (lower digits * 2 ^ 96) := by
        rw [pow_add]
        ring
    _ < 2 ^ shiftLeft * r * w + 2 ^ shiftLeft * w :=
        Nat.add_lt_add_left (Nat.mul_lt_mul_of_pos_left hlow (Nat.two_pow_pos _)) _
    _ = 2 ^ shiftLeft * (r + 1) * w := by ring
    _ ≤ 2 ^ shiftLeft * 2 ^ (32 - shiftLeft) * w := Nat.mul_le_mul_right _ (Nat.mul_le_mul_left _ hmod)

omit h in
theorem sticky_eq_zero : sticky digits shiftLeft = 0 ↔ digit3 digits % 2 ^ (32 - shiftLeft) = 0 ∧ lower digits = 0 := by
  unfold sticky
  have h1 := Nat.two_pow_pos shiftLeft
  have h2 := Nat.two_pow_pos (32 * digits.length)
  have h3 := Nat.two_pow_pos (96 + shiftLeft)
  simp only [Nat.add_eq_zero_iff, Nat.mul_eq_zero, Nat.ne_of_gt h1, Nat.ne_of_gt h2, Nat.ne_of_gt h3, false_or, or_false]

end

/-! ## The decision -/

theorem rounding_bit_iff (f : TwoDigits) : f &&& roundingBit ≠ 0#64 ↔ 2 ^ 11 ≤ f.toNat % 2 ^ 12 := by
  have hbit : (f &&& roundingBit).toNat = (f.toNat.testBit 11).toNat * 2 ^ 11 := by
    rw [BitVec.toNat_and, Nat.and_comm, Nat.mul_comm]
    exact Nat.two_pow_and f.toNat 11
  rw [ne_eq, ← BitVec.toNat_inj, hbit, Nat.testBit_eq_decide_div_mod_eq, BitVec.toNat_zero]
  by_cases hodd : f.toNat / 2 ^ 11 % 2 = 1
  · rw [decide_eq_true hodd, Bool.toNat_true]
    omega
  · rw [decide_eq_false hodd, Bool.toNat_false]
    omega

theorem tie_bits_iff (f : TwoDigits) : f &&& ((roundingBit <<< 2) - 1#64) = roundingBit ↔ f.toNat % 2 ^ 13 = 2 ^ 11 := by
  have hmask : (f &&& ((roundingBit <<< 2) - 1#64)).toNat = f.toNat % 2 ^ 13 := by
    rw [BitVec.toNat_and]
    exact Nat.and_two_pow_sub_one_eq_mod f.toNat 13
  rw [← BitVec.toNat_inj, hmask]
  exact Iff.rfl

theorem low_bits_iff (d : Digit) {s : Nat} (hs : s < 32) : d &&& ((1#32 <<< s) - 1#32) = 0#32 ↔ d.toNat % 2 ^ s = 0 := by
  have hpow : 2 ^ s < 2 ^ 32 := Nat.pow_lt_pow_right (by decide) hs
  have hone : ((1#32 <<< s) - 1#32 : Digit).toNat = 2 ^ s - 1 := by
    have hshift : (1#32 <<< s : Digit).toNat = 2 ^ s := by
      rw [BitVec.toNat_shiftLeft, Nat.shiftLeft_eq]
      have hval : (1#32 : Digit).toNat = 1 := rfl
      rw [hval, Nat.one_mul]
      exact Nat.mod_eq_of_lt hpow
    have hpos := Nat.two_pow_pos s
    generalize (1#32 <<< s : Digit) = x at hshift ⊢
    bv_omega
  rw [← BitVec.toNat_inj, BitVec.toNat_and, hone, Nat.and_two_pow_sub_one_eq_mod]
  exact Iff.rfl

theorem any_lower_iff (digits : List Digit) : (digits.drop 3).any (· != 0#32) = true ↔ lower digits ≠ 0 := by
  rw [lower, ne_eq, val_eq_zero_iff_all, List.all_reverse, Bool.not_eq_true, ← Bool.not_eq_true', List.not_all_eq_any_not]
  rfl

/-- When the value is rounded up. In a tie the low bits of the third digit count the wrong way round. -/
theorem roundsUp_iff {digits : List Digit} {shiftLeft : Nat} (hs : shiftLeft ≤ 32) (f : TwoDigits) :
    roundsUp digits f shiftLeft = true ↔ 2 ^ 11 ≤ f.toNat % 2 ^ 12 ∧
      (f.toNat % 2 ^ 13 = 2 ^ 11 → (shiftLeft = 32 ∨ digit3 digits % 2 ^ shiftLeft = 0) ∧ lower digits ≠ 0) := by
  have hlow : shiftLeft = 32 ∨ digits.getD 2 0#32 &&& ((1#32 <<< shiftLeft) - 1#32) = 0#32 ↔
      shiftLeft = 32 ∨ digit3 digits % 2 ^ shiftLeft = 0 := by
    by_cases h32 : shiftLeft = 32
    · exact iff_of_true (Or.inl h32) (Or.inl h32)
    · rw [low_bits_iff _ (by omega), digit3]
  unfold roundsUp
  by_cases hbit : f &&& roundingBit ≠ 0#64
  · rw [if_pos hbit]
    have hbit' := (rounding_bit_iff f).mp hbit
    by_cases htie : f &&& ((roundingBit <<< 2) - 1#64) = roundingBit
    · rw [if_pos htie]
      have htie' := (tie_bits_iff f).mp htie
      by_cases hthird : 3 * 4 ≤ 4 * digits.length ∧
          (shiftLeft = 32 ∨ digits.getD 2 0#32 &&& ((1#32 <<< shiftLeft) - 1#32) = 0#32)
      · rw [if_pos hthird, any_lower_iff]
        exact ⟨fun h => ⟨hbit', fun _ => ⟨hlow.mp hthird.2, h⟩⟩, fun h => (h.2 htie').2⟩
      · rw [if_neg hthird]
        refine iff_of_false (by decide) fun h => hthird ⟨?_, hlow.mpr (h.2 htie').1⟩
        by_contra hlen
        refine (h.2 htie').2 ?_
        rw [lower, List.drop_eq_nil_of_le (by omega)]
        rfl
    · rw [if_neg htie]
      exact iff_of_true rfl ⟨hbit', fun h => absurd ((tie_bits_iff f).mpr h) htie⟩
  · rw [if_neg hbit]
    exact iff_of_false (by decide) fun h => hbit ((rounding_bit_iff f).mpr h.1)

/-! ## The number that is built -/

/-- The significand before rounding. -/
def significand (fraction : TwoDigits) : Nat := (2 ^ 64 + fraction.toNat) / 2 ^ 12

theorem significand_bounds (f : TwoDigits) : 2 ^ 52 ≤ significand f ∧ significand f < 2 ^ 53 := by
  have hf := f.isLt
  unfold significand
  omega

theorem significand_eq (f : TwoDigits) : significand f = 2 ^ 52 + f.toNat / 2 ^ 12 := by
  unfold significand
  omega

/-- The exponent of a number that is finite after rounding. -/
def Bounded (m biasedExp : Nat) : Prop := m < 2 ^ 53 ∧ biasedExp < 2047 ∨ m = 2 ^ 53 ∧ biasedExp < 2046

theorem ecmaNumberCreate_ok (sign : Bool) {biasedExp : Nat} {fraction : TwoDigits} (hpos : 0 < biasedExp)
    (hexp : biasedExp < 2047) (hfraction : fraction.toNat < 2 ^ 52) :
    ∃ x, ecmaNumberCreate sign biasedExp fraction = .ok x ∧ x.Finite ∧ x.sign = sign ∧
      x.units = (2 ^ 52 + fraction.toNat) * 2 ^ (biasedExp - 1) := by
  have hval : (BitVec.ofNat 11 biasedExp).toNat = biasedExp := by
    rw [BitVec.toNat_ofNat]
    exact Nat.mod_eq_of_lt (by omega)
  have hset : (fraction.setWidth 52).toNat = fraction.toNat := by
    rw [BitVec.toNat_setWidth]
    exact Nat.mod_eq_of_lt hfraction
  refine ⟨⟨sign, BitVec.ofNat 11 biasedExp, fraction.setWidth 52⟩, ?_, ?_, rfl, ?_⟩
  · rw [ecmaNumberCreate, jjsAssert_ok (by omega), ok_bind, jjsAssert_ok hfraction, ok_bind]
  · intro h
    rw [show BitVec.ofNat 11 biasedExp = 2047#11 from h] at hval
    have h2047 : (2047#11).toNat = 2047 := rfl
    omega
  · have hne : ¬ BitVec.ofNat 11 biasedExp = 0#11 := by
      intro h
      rw [h] at hval
      have h0 : (0#11).toNat = 0 := rfl
      omega
    unfold Number.units
    rw [if_neg hne, hval, hset]

/-- The number has the rounded significand, or is an infinity. -/
theorem roundedNumber_ok (sign : Bool) {digits : List Digit} {f : TwoDigits} {s : Nat}
    (hbits : leadingBits digits = .ok (f, s)) (hs : s ≤ 32) {m biasedExp : Nat}
    (hm : m = significand f + if roundsUp digits f s then 1 else 0)
    (hexp : biasedExp = 1023 + (32 * digits.length - s)) :
    ∃ x, roundedNumber sign digits = .ok x ∧
      (Bounded m biasedExp → x.Finite ∧ x.sign = sign ∧ x.units = m * 2 ^ (biasedExp - 1)) ∧
      (¬ Bounded m biasedExp → x = Number.infinity sign) := by
  have hf := f.isLt
  have hsig := significand_eq f
  have hsize : 4 * digits.length * 8 = 32 * digits.length := by omega
  unfold roundedNumber Bounded
  rw [hbits, ok_bind]
  dsimp only
  rw [hsize, ← hexp]
  by_cases hup : roundsUp digits f s = true
  · have hbit := ((roundsUp_iff hs f).mp hup).1
    rw [if_pos hup] at hm
    simp only [hup, if_true]
    have hshift : ((f + roundingBit) >>> (64 - 52)).toNat = (f.toNat + 2 ^ 11) % 2 ^ 64 / 2 ^ 12 := by
      rw [BitVec.toNat_ushiftRight, Nat.shiftRight_eq_div_pow, BitVec.toNat_add]
      rfl
    generalize (f + roundingBit) >>> (64 - 52) = r at hshift ⊢
    by_cases hcarry : r = 0#64
    · -- All bits of the significand were set.
      have hr0 : r.toNat = 0 := by rw [hcarry]; rfl
      have hm53 : m = 2 ^ 53 := by omega
      rw [if_pos hcarry]
      by_cases hlt : biasedExp + 1 < 2 ^ 11 - 1
      · rw [if_pos hlt]
        obtain ⟨x, hx, hfin, hsign, hunits⟩ := ecmaNumberCreate_ok sign (show 0 < biasedExp + 1 by omega) (by omega)
          (show r.toNat < 2 ^ 52 by omega)
        refine ⟨x, hx, fun _ => ⟨hfin, hsign, ?_⟩, fun h => absurd (Or.inr ⟨hm53, by omega⟩) h⟩
        have hdouble : 2 ^ (biasedExp + 1 - 1) = 2 ^ (biasedExp - 1) * 2 := by
          rw [← pow_succ]
          congr 1
          omega
        rw [hunits, hr0, hm53, hdouble]
        ring
      · rw [if_neg hlt]
        exact ⟨_, rfl, fun h => by omega, fun _ => rfl⟩
    · have hr0 : r.toNat ≠ 0 := fun h => hcarry (BitVec.eq_of_toNat_eq h)
      have hmr : m = 2 ^ 52 + r.toNat := by omega
      have hrlt : r.toNat < 2 ^ 52 := by omega
      rw [if_neg hcarry]
      by_cases hlt : biasedExp < 2 ^ 11 - 1
      · rw [if_pos hlt]
        obtain ⟨x, hx, hfin, hsign, hunits⟩ := ecmaNumberCreate_ok sign (show 0 < biasedExp by omega) (by omega) hrlt
        refine ⟨x, hx, fun _ => ⟨hfin, hsign, ?_⟩, fun h => absurd (Or.inl ⟨by omega, by omega⟩) h⟩
        rw [hunits, hmr]
      · rw [if_neg hlt]
        exact ⟨_, rfl, fun h => by omega, fun _ => rfl⟩
  · rw [if_neg hup, Nat.add_zero] at hm
    simp only [hup]
    have hshift : (f >>> (64 - 52)).toNat = f.toNat / 2 ^ 12 := by
      rw [BitVec.toNat_ushiftRight, Nat.shiftRight_eq_div_pow]
    generalize f >>> (64 - 52) = r at hshift ⊢
    have hrlt : r.toNat < 2 ^ 52 := by omega
    simp only [Bool.false_eq_true, if_false]
    by_cases hlt : biasedExp < 2 ^ 11 - 1
    · rw [if_pos hlt]
      obtain ⟨x, hx, hfin, hsign, hunits⟩ := ecmaNumberCreate_ok sign (show 0 < biasedExp by omega) (by omega) hrlt
      refine ⟨x, hx, fun _ => ⟨hfin, hsign, ?_⟩, fun h => absurd (Or.inl ⟨by omega, by omega⟩) h⟩
      rw [hunits, hm, hsig, hshift]
    · rw [if_neg hlt]
      exact ⟨_, rfl, fun h => by omega, fun _ => rfl⟩

/-! ## The number that it stands for -/

theorem toRat_of_units {x : Number} {sign : Bool} {n : Nat} (hsign : x.sign = sign) (h : x.units = n * Number.one) :
    x.toRat = if sign then -(n : ℚ) else n := by
  have hne : (Number.one : ℚ) ≠ 0 := ne_of_gt Number.one_rat_pos
  rw [Number.toRat, Number.signedUnits, hsign, h, div_eq_iff hne]
  cases sign with
  | true =>
    simp only [if_true]
    push_cast
    ring
  | false =>
    simp only [Bool.false_eq_true, if_false]
    push_cast
    rfl

theorem bounded_iff {m k : Nat} (hlow : 2 ^ 52 ≤ m) (hhigh : m ≤ 2 ^ 53) : Bounded m (1075 + k) ↔ m * 2 ^ k ≤ maxFinite := by
  unfold Bounded maxFinite
  by_cases hk : k < 971
  · have hpow : 2 ^ k * 2 ≤ 2 ^ 971 := by
      rw [← pow_succ]
      exact Nat.pow_le_pow_right (by decide) hk
    generalize 2 ^ 971 = c at hpow ⊢
    refine iff_of_true (by omega) ?_
    calc m * 2 ^ k ≤ 2 ^ 53 * 2 ^ k := Nat.mul_le_mul_right _ hhigh
      _ ≤ (2 ^ 53 - 1) * (2 ^ k * 2) := by omega
      _ ≤ (2 ^ 53 - 1) * c := Nat.mul_le_mul_left _ hpow
  · by_cases h971 : k = 971
    · rw [h971]
      have hpos := Nat.two_pow_pos 971
      generalize 2 ^ 971 = c at hpos ⊢
      by_cases hm : m < 2 ^ 53
      · exact iff_of_true (by omega) (Nat.mul_le_mul_right _ (by omega))
      · have heq : m = 2 ^ 53 := by omega
        rw [heq]
        omega
    · have hpow : 2 ^ 971 * 2 ≤ 2 ^ k := by
        rw [← pow_succ]
        exact Nat.pow_le_pow_right (by decide) (by omega)
      have hpos := Nat.two_pow_pos 971
      generalize 2 ^ 971 = c at hpow hpos ⊢
      refine iff_of_false (by omega) (Nat.not_le.mpr ?_)
      calc (2 ^ 53 - 1) * c < 2 ^ 52 * (c * 2) := by omega
        _ ≤ m * 2 ^ k := Nat.mul_le_mul hlow hpow

theorem infinity_not_finite (sign : Bool) : ¬ (Number.infinity sign).Finite := fun h => h rfl

/-- The number with the significand `m` stands for `m * 2 ^ k`. -/
theorem denotes_significand {sign : Bool} {x : Number} {m k : Nat} (hlow : 2 ^ 52 ≤ m) (hhigh : m ≤ 2 ^ 53)
    (hfin : Bounded m (1075 + k) → x.Finite ∧ x.sign = sign ∧ x.units = m * 2 ^ (1075 + k - 1))
    (hinf : ¬ Bounded m (1075 + k) → x = Number.infinity sign) :
    (NumberValue.number x).Denotes sign (m * 2 ^ k) := by
  refine ⟨fun hmax => hinf (mt (bounded_iff hlow hhigh).mp (Nat.not_le.mpr hmax)), fun hmax => ?_⟩
  · obtain ⟨h1, h2, h3⟩ := hfin ((bounded_iff hlow hhigh).mpr hmax)
    refine ⟨h1, h2, toRat_of_units h2 ?_⟩
    have hexp : 1075 + k - 1 = k + 1074 := by omega
    rw [h3, hexp, pow_add, Number.one_eq rfl, Nat.mul_assoc]

/-! ## The value and the significand -/

section

variable {digits : List Digit} {f : TwoDigits} {s : Nat} (h : Leading digits f s)

include h

/-- Of a large value the significand leaves a remainder, which the lower twelve bits and the sticky part compare with one
half. -/
theorem large_split {k : Nat} (hk : 32 * digits.length = s + 52 + k) :
    ∃ rem, val digits.reverse = significand f * 2 ^ k + rem ∧ rem < 2 ^ k ∧
      (2 * rem < 2 ^ k ↔ f.toNat % 2 ^ 12 < 2 ^ 11) ∧
      (2 * rem = 2 ^ k ↔ f.toNat % 2 ^ 12 = 2 ^ 11 ∧ sticky digits s = 0) := by
  have hscaled := leading_scaled h
  have hsticky := sticky_lt h
  have hsplit : 2 ^ 64 + f.toNat = significand f * 2 ^ 12 + f.toNat % 2 ^ 12 := by
    rw [significand_eq]
    omega
  have hweight : 2 ^ 12 * 2 ^ (32 + 32 * digits.length) = 2 ^ k * 2 ^ (96 + s) := by
    rw [← pow_add, ← pow_add]
    congr 1
    omega
  have hg : f.toNat % 2 ^ 12 < 2 ^ 12 := Nat.mod_lt _ (by decide)
  have hX := Nat.two_pow_pos (96 + s)
  rw [hsplit, Nat.add_mul, Nat.mul_assoc, hweight, ← Nat.mul_assoc] at hscaled
  generalize f.toNat % 2 ^ 12 = g at hscaled hg ⊢
  generalize val digits.reverse = n at hscaled ⊢
  generalize 2 ^ (32 + 32 * digits.length) = Y at hscaled hsticky hweight
  generalize 2 ^ (96 + s) = X at hscaled hweight hX
  generalize sticky digits s = r at hscaled hsticky ⊢
  have hle : significand f * 2 ^ k ≤ n := by
    refine Nat.le_of_mul_le_mul_right ?_ hX
    omega
  obtain ⟨rem, hrem⟩ := Nat.exists_eq_add_of_le hle
  have hrest : rem * X = g * Y + r := by
    rw [hrem, Nat.add_mul] at hscaled
    omega
  have hgY : (g + 1) * Y ≤ 2 ^ 12 * Y := Nat.mul_le_mul_right Y hg
  rw [Nat.add_mul, Nat.one_mul] at hgY
  have hcancel : ∀ a b : Nat, a < b ↔ a * X < b * X := fun a b => (Nat.mul_lt_mul_right hX).symm
  refine ⟨rem, hrem, ?_, ?_, ?_⟩
  · rw [hcancel]
    omega
  · rw [hcancel, Nat.mul_assoc, hrest, ← hweight]
    by_cases hhalf : g < 2 ^ 11
    · have hgY' : (g + 1) * Y ≤ 2 ^ 11 * Y := Nat.mul_le_mul_right Y hhalf
      rw [Nat.add_mul, Nat.one_mul] at hgY'
      exact iff_of_true (by omega) hhalf
    · have hgY' : 2 ^ 11 * Y ≤ g * Y := Nat.mul_le_mul_right Y (Nat.not_lt.mp hhalf)
      exact iff_of_false (by omega) hhalf
  · have heq : 2 * rem = 2 ^ k ↔ 2 * (g * Y + r) = 2 ^ 12 * Y := by
      rw [hweight, ← hrest, ← Nat.mul_assoc]
      exact (Nat.mul_left_inj (Nat.ne_of_gt hX)).symm
    rw [heq]
    rcases Nat.lt_trichotomy g (2 ^ 11) with hlt | hhalf | hgt
    · have hgY' : (g + 1) * Y ≤ 2 ^ 11 * Y := Nat.mul_le_mul_right Y hlt
      rw [Nat.add_mul, Nat.one_mul] at hgY'
      exact iff_of_false (by omega) (by omega)
    · rw [hhalf]
      omega
    · have hgY' : (2 ^ 11 + 1) * Y ≤ g * Y := Nat.mul_le_mul_right Y hgt
      rw [Nat.add_mul, Nat.one_mul] at hgY'
      exact iff_of_false (by omega) (by omega)

/-- The position of the leading one. -/
theorem log2_leading (hlen : 0 < digits.length) : (val digits.reverse).log2 = 32 * digits.length - s := by
  have hscaled := leading_scaled h
  have hsticky := sticky_lt h
  have hs := h.shift_le
  have hf := f.isLt
  have hX := Nat.two_pow_pos (96 + s)
  have hweight : 2 ^ 64 * 2 ^ (32 + 32 * digits.length) = 2 ^ (32 * digits.length - s) * 2 ^ (96 + s) := by
    rw [← pow_add, ← pow_add]
    congr 1
    omega
  generalize 2 ^ (32 + 32 * digits.length) = Y at hscaled hsticky hweight
  have hlow : 2 ^ 64 * Y ≤ (2 ^ 64 + f.toNat) * Y := Nat.mul_le_mul_right Y (Nat.le_add_right _ _)
  have hhigh : (2 ^ 64 + f.toNat + 1) * Y ≤ 2 * 2 ^ 64 * Y := Nat.mul_le_mul_right Y (by omega)
  rw [Nat.add_mul, Nat.one_mul] at hhigh
  have hle : 2 ^ (32 * digits.length - s) ≤ val digits.reverse := by
    refine Nat.le_of_mul_le_mul_right ?_ hX
    omega
  have hlt : val digits.reverse < 2 ^ (32 * digits.length - s + 1) := by
    refine Nat.lt_of_mul_lt_mul_right (a := 2 ^ (96 + s)) ?_
    rw [pow_succ]
    have hdouble : 2 ^ (32 * digits.length - s) * 2 * 2 ^ (96 + s) = 2 * (2 ^ (32 * digits.length - s) * 2 ^ (96 + s)) := by ring
    rw [hdouble, ← hweight]
    omega
  have hpos := Nat.two_pow_pos (32 * digits.length - s)
  exact (Nat.log2_eq_iff (by omega)).mpr ⟨hle, hlt⟩

/-- The 64 bits below the leading one. -/
theorem window_split (hlarge : 64 ≤ 32 * digits.length - s) :
    val digits.reverse / 2 ^ (32 * digits.length - s - 64) = 2 ^ 64 + f.toNat ∧
      (val digits.reverse % 2 ^ (32 * digits.length - s - 64) = 0 ↔ sticky digits s = 0) := by
  have hscaled := leading_scaled h
  have hsticky := sticky_lt h
  have hX := Nat.two_pow_pos (96 + s)
  have hweight : 2 ^ (32 + 32 * digits.length) = 2 ^ (32 * digits.length - s - 64) * 2 ^ (96 + s) := by
    rw [← pow_add]
    congr 1
    omega
  rw [hweight] at hscaled hsticky
  have hk := Nat.two_pow_pos (32 * digits.length - s - 64)
  generalize 2 ^ (32 * digits.length - s - 64) = k at *
  generalize 2 ^ (96 + s) = X at *
  generalize sticky digits s = r at *
  rw [← Nat.mul_assoc] at hscaled
  have hle : (2 ^ 64 + f.toNat) * k ≤ val digits.reverse := by
    refine Nat.le_of_mul_le_mul_right ?_ hX
    omega
  obtain ⟨rem, hrem⟩ := Nat.exists_eq_add_of_le hle
  have hrest : rem * X = r := by
    rw [hrem, Nat.add_mul] at hscaled
    omega
  have hlt : rem < k := by
    refine Nat.lt_of_mul_lt_mul_right (a := X) ?_
    omega
  rw [hrem, Nat.add_comm, Nat.add_mul_div_right _ _ hk, Nat.div_eq_of_lt hlt, Nat.add_mul_mod_self_right, Nat.mod_eq_of_lt hlt,
    ← hrest, Nat.mul_eq_zero]
  exact ⟨Nat.zero_add _, by simp only [Nat.ne_of_gt hX, or_false]⟩

omit h in
/-- The third digit, and the digits below it. -/
theorem third_split (hlen : 3 ≤ digits.length) {t : Nat} (ht : t ≤ 32) :
    val digits.reverse % 2 ^ (32 * (digits.length - 3)) = lower digits ∧
      val digits.reverse / 2 ^ (32 * (digits.length - 3)) % 2 ^ t = digit3 digits % 2 ^ t := by
  obtain ⟨hval, hlow⟩ := val_leading digits
  have hweight : 2 ^ (32 * digits.length) = 2 ^ (32 * (digits.length - 3)) * 2 ^ 96 := by
    rw [← pow_add]
    congr 1
    omega
  have hdvd : 2 ^ t ∣ 2 ^ 32 := pow_dvd_pow 2 ht
  have hk := Nat.two_pow_pos (32 * (digits.length - 3))
  rw [hweight] at hval hlow
  generalize 2 ^ (32 * (digits.length - 3)) = k at *
  generalize (digits.getD 0 0#32).toNat = d1 at *
  generalize (digits.getD 1 0#32).toNat = d2 at *
  have heq : val digits.reverse = lower digits + (d1 * 2 ^ 64 + d2 * 2 ^ 32 + digit3 digits) * k := by
    refine Nat.eq_of_mul_eq_mul_right (show 0 < 2 ^ 96 by decide) ?_
    rw [hval]
    ring
  have hlt : lower digits < k := Nat.lt_of_mul_lt_mul_right hlow
  rw [heq, Nat.add_mul_mod_self_right, Nat.mod_eq_of_lt hlt, Nat.add_mul_div_right _ _ hk, Nat.div_eq_of_lt hlt, Nat.zero_add]
  refine ⟨rfl, ?_⟩
  obtain ⟨c, hc⟩ := hdvd
  have hupper : d1 * 2 ^ 64 + d2 * 2 ^ 32 + digit3 digits = digit3 digits + 2 ^ t * (c * (d1 * 2 ^ 32 + d2)) := by
    have h64 : (2 : Nat) ^ 64 = 2 ^ 32 * 2 ^ 32 := by decide
    rw [h64, hc]
    ring
  rw [hupper, Nat.add_mul_mod_self_left]

/-- The code rounds down, and has a reason to round up. -/
theorem misrounded_iff (hlen : 0 < digits.length) : Misrounded (val digits.reverse) ↔
    32 * digits.length - s < 1024 ∧ f.toNat % 2 ^ 13 = 2 ^ 11 ∧ sticky digits s ≠ 0 ∧
      ¬ ((s = 32 ∨ digit3 digits % 2 ^ s = 0) ∧ lower digits ≠ 0) := by
  have hs := h.shift_le
  have hs1 := h.shift_pos
  unfold Misrounded
  rw [log2_leading h hlen]
  by_cases hlarge : 64 ≤ 32 * digits.length - s
  · obtain ⟨hdiv, hmod⟩ := window_split h hlarge
    have hlen3 : 3 ≤ digits.length := by omega
    have hdigits : (32 * digits.length - s) / 32 - 2 = digits.length - 3 := by omega
    have hwindow : (2 ^ 64 + f.toNat) % 2 ^ 13 = f.toNat % 2 ^ 13 := by omega
    rw [hdiv, hwindow, hdigits, ne_eq, hmod]
    by_cases hs32 : s = 32
    · obtain ⟨hlow, -⟩ := third_split hlen3 (Nat.le_refl 32)
      have haligned : (32 * digits.length - s) % 32 = 0 := by omega
      rw [hlow, haligned]
      simp only [hlarge, true_and]
      simp only [hs32, true_and, true_or, not_true_eq_false, ne_eq, false_and, or_false, not_not]
    · obtain ⟨hlow, hthird⟩ := third_split hlen3 hs
      have hshift : 32 - (32 * digits.length - s) % 32 = s := by omega
      have haligned : (32 * digits.length - s) % 32 ≠ 0 := by omega
      rw [hlow, hshift, hthird]
      simp only [hlarge, hs32, haligned, true_and, false_or, not_false_eq_true, ne_eq, not_and, not_not]
      constructor
      · intro hmis
        refine ⟨hmis.1, hmis.2.1, hmis.2.2.1, fun hz => ?_⟩
        exact hmis.2.2.2.resolve_right (not_not_intro hz)
      · intro hmis
        refine ⟨hmis.1, hmis.2.1, hmis.2.2.1, ?_⟩
        by_cases hz : digit3 digits % 2 ^ s = 0
        · exact Or.inl (hmis.2.2.2 hz)
        · exact Or.inr hz
  · refine iff_of_false (fun hmis => hlarge hmis.1) fun hmis => hmis.2.2.1 ?_
    -- There are less than three digits.
    rw [sticky_eq_zero, digit3, lower, getD_absent (k := 2) (by omega), List.drop_eq_nil_of_le (by omega)]
    exact ⟨Nat.zero_mod _, rfl⟩

/-- A small value is its significand, shifted right by no more than zeros. -/
theorem small_split {j : Nat} (hj : 32 * digits.length + j = s + 52) :
    significand f = val digits.reverse * 2 ^ j ∧ f.toNat % 2 ^ 12 = 0 ∧ sticky digits s = 0 := by
  have hscaled := leading_scaled h
  have hsticky := sticky_lt h
  have hsplit : 2 ^ 64 + f.toNat = significand f * 2 ^ 12 + f.toNat % 2 ^ 12 := by
    rw [significand_eq]
    omega
  have hweight : 2 ^ (96 + s) = 2 ^ j * (2 ^ 12 * 2 ^ (32 + 32 * digits.length)) := by
    rw [← pow_add, ← pow_add]
    congr 1
    omega
  have hg : f.toNat % 2 ^ 12 < 2 ^ 12 := Nat.mod_lt _ (by decide)
  have hY := Nat.two_pow_pos (32 + 32 * digits.length)
  rw [hsplit, hweight, ← Nat.mul_assoc, Nat.add_mul, Nat.mul_assoc (significand f)] at hscaled
  generalize f.toNat % 2 ^ 12 = g at hscaled hg ⊢
  generalize val digits.reverse * 2 ^ j = n at hscaled ⊢
  generalize 2 ^ (32 + 32 * digits.length) = Y at hscaled hsticky hY
  generalize sticky digits s = r at hscaled hsticky ⊢
  have hgY : (g + 1) * Y ≤ 2 ^ 12 * Y := Nat.mul_le_mul_right Y hg
  rw [Nat.add_mul, Nat.one_mul] at hgY
  have hquot : n = significand f := by
    have hdiv := congrArg (· / (2 ^ 12 * Y)) hscaled
    have hpos : 0 < 2 ^ 12 * Y := Nat.mul_pos (by decide) hY
    have hright : (significand f * (2 ^ 12 * Y) + g * Y + r) / (2 ^ 12 * Y) = significand f := by
      rw [Nat.add_assoc, Nat.add_comm, Nat.add_mul_div_right _ _ hpos, Nat.div_eq_of_lt (by omega), Nat.zero_add]
    rw [Nat.mul_div_cancel _ hpos, hright] at hdiv
    exact hdiv
  rw [hquot] at hscaled
  have hzero : g * Y = 0 ∧ r = 0 := by omega
  exact ⟨hquot.symm, (Nat.mul_eq_zero.mp hzero.1).resolve_right (Nat.ne_of_gt hY), hzero.2⟩

end

/-! ## Rounding -/

theorem roundedRight_of_number {v : Value} {m : Nat} {x : Number} (hnear : NearestEven 53 (val v.digits) m)
    (hok : ecmaBigintToNumber v.toBlock = .ok (.number x)) (hdenotes : (NumberValue.number x).Denotes v.sign m) :
    RoundedRight v := ⟨m, _, hnear, hok, hdenotes⟩

/-- A small value is returned as it is. -/
theorem roundedRight_integer {v : Value} (hsmall : val v.digits < 2 ^ 53)
    (hok : ecmaBigintToNumber v.toBlock = .ok (.integer v.toInt)) : RoundedRight v ↔ ¬ Misrounded (val v.digits) := by
  refine iff_of_true ⟨val v.digits, _, nearestEven_self (representable_of_lt hsmall), hok, rfl⟩ fun hmis => ?_
  have hlog : (val v.digits).log2 < 64 := by
    by_cases h0 : val v.digits = 0
    · rw [h0]
      decide
    · exact (Nat.log2_lt h0).mpr (Nat.lt_trans hsmall (by decide))
  exact absurd hmis.1 (by omega)

section

variable {v : Value} {f : TwoDigits} {s : Nat} (h : Leading v.digits.reverse f s)
  (hbits : leadingBits v.digits.reverse = .ok (f, s))
  (hnumber : ∀ x, roundedNumber v.sign v.digits.reverse = .ok x → ecmaBigintToNumber v.toBlock = .ok (.number x))

include h hbits hnumber

theorem roundedRight_small {j : Nat} (hj : 32 * v.digits.length + j = s + 52) (hlen : 0 < v.digits.length) :
    RoundedRight v ↔ ¬ Misrounded (val v.digits) := by
  have hrev : v.digits.reverse.length = v.digits.length := List.length_reverse
  have hs := h.shift_le
  obtain ⟨hsig, hzero, hsticky⟩ := small_split h (j := j) (by rw [hrev]; exact hj)
  obtain ⟨hlow, hhigh⟩ := significand_bounds f
  have hmis := misrounded_iff h (by rw [hrev]; exact hlen)
  rw [List.reverse_reverse] at hsig hmis
  have hup : roundsUp v.digits.reverse f s = false := by
    rw [← Bool.not_eq_true, roundsUp_iff hs]
    omega
  obtain ⟨x, hx, hfin, -⟩ := roundedNumber_ok v.sign hbits hs (m := significand f) (by rw [hup]; rfl) rfl
  rw [hrev] at hfin
  obtain ⟨h1, h2, h3⟩ := hfin (Or.inl ⟨hhigh, by omega⟩)
  have hsmall : val v.digits < 2 ^ 53 := by
    refine Nat.lt_of_le_of_lt ?_ hhigh
    rw [hsig]
    exact Nat.le_mul_of_pos_right _ (Nat.two_pow_pos j)
  refine iff_of_true (roundedRight_of_number (nearestEven_self (representable_of_lt hsmall)) (hnumber x hx) ?_) fun h' =>
    (hmis.mp h').2.2.1 hsticky
  have hmax : val v.digits ≤ maxFinite := by
    unfold maxFinite
    have hpos := Nat.two_pow_pos 971
    generalize 2 ^ 971 = c at hpos
    exact Nat.le_trans (Nat.le_of_lt_succ hsmall) (Nat.le_mul_of_pos_right _ hpos)
  refine ⟨fun hlt => absurd hmax (Nat.not_le.mpr hlt), fun _ => ⟨h1, h2, toRat_of_units h2 ?_⟩⟩
  have hexp : 1023 + (32 * v.digits.length - s) - 1 + j = 1074 := by omega
  rw [h3, hsig, Nat.mul_assoc, ← pow_add, Nat.add_comm j, ← Number.one_eq hexp]

theorem roundedRight_large {k : Nat} (hk : 32 * v.digits.length = s + 52 + k) (hlen : 0 < v.digits.length) :
    RoundedRight v ↔ ¬ Misrounded (val v.digits) := by
  have hrev : v.digits.reverse.length = v.digits.length := List.length_reverse
  have hs := h.shift_le
  obtain ⟨rem, hn, hrem, hbelow, htie⟩ := large_split h (k := k) (by rw [hrev]; exact hk)
  obtain ⟨hlow, hhigh⟩ := significand_bounds f
  have hsig := significand_eq f
  have hmis := misrounded_iff h (by rw [hrev]; exact hlen)
  have hup : roundsUp v.digits.reverse f s = true ↔ _ := roundsUp_iff hs f
  rw [List.reverse_reverse] at hn hmis
  rw [hrev] at hmis
  have hexp : 1023 + (32 * v.digits.reverse.length - s) = 1075 + k := by rw [hrev]; omega
  obtain ⟨x, hx, hfin, hinf⟩ := roundedNumber_ok v.sign hbits hs rfl hexp.symm
  have hok := hnumber x hx
  by_cases hround : roundsUp v.digits.reverse f s = true
  · -- Rounded up: above the middle, or in the middle and the significand is odd.
    obtain ⟨hbit, hthird⟩ := hup.mp hround
    rw [if_pos hround] at hfin hinf
    refine iff_of_true (roundedRight_of_number ?_ hok (denotes_significand (by omega) (by omega) hfin hinf)) ?_
    · refine nearestEven_up (by decide) hlow hhigh hn (by decide) hrem ?_
      by_cases hpattern : f.toNat % 2 ^ 13 = 2 ^ 11
      · have hsticky : sticky v.digits.reverse s ≠ 0 := fun h0 => (hthird hpattern).2 (sticky_eq_zero.mp h0).2
        left
        have hne := mt htie.mp fun hcond => hsticky hcond.2
        have hnlt := mt hbelow.mp (Nat.not_lt.mpr hbit)
        omega
      · have hnlt := mt hbelow.mp (Nat.not_lt.mpr hbit)
        by_cases heq : 2 * rem = 2 ^ k
        · have hhalf := (htie.mp heq).1
          right
          refine ⟨heq, ?_⟩
          omega
        · left
          omega
    · intro h'
      obtain ⟨-, hpattern, -, hnot⟩ := hmis.mp h'
      exact hnot (hthird hpattern)
  · rw [if_neg hround, Nat.add_zero] at hfin hinf
    by_cases hright : 2 * rem < 2 ^ k ∨ 2 * rem = 2 ^ k ∧ significand f % 2 = 0
    · -- Rounded down rightly.
      refine iff_of_true (roundedRight_of_number (nearestEven_down (by decide) hlow hhigh hn hright) hok
        (denotes_significand hlow (by omega) hfin hinf)) fun h' => ?_
      obtain ⟨-, hpattern, hsticky, -⟩ := hmis.mp h'
      cases hright with
      | inl hlt =>
        have hlt' := hbelow.mp hlt
        omega
      | inr heq => exact hsticky (htie.mp heq.1).2
    · -- The value is above the middle, and the bits are those of the middle.
      have hbit : 2 ^ 11 ≤ f.toNat % 2 ^ 12 := by
        by_contra hlt
        exact hright (Or.inl (hbelow.mpr (Nat.not_le.mp hlt)))
      have hpattern : f.toNat % 2 ^ 13 = 2 ^ 11 := by
        by_contra hne
        exact hround (hup.mpr ⟨hbit, fun heq => absurd heq hne⟩)
      have hnot : ¬ ((s = 32 ∨ digit3 v.digits.reverse % 2 ^ s = 0) ∧ lower v.digits.reverse ≠ 0) := by
        intro hcond
        exact hround (hup.mpr ⟨hbit, fun _ => hcond⟩)
      have hsticky : sticky v.digits.reverse s ≠ 0 := by
        intro h0
        exact hright (Or.inr ⟨htie.mpr ⟨by omega, h0⟩, by omega⟩)
      have habove : 2 ^ k < 2 * rem := by
        have hne := mt htie.mp fun hcond => hsticky hcond.2
        have hnlt := mt hbelow.mp (Nat.not_lt.mpr hbit)
        omega
      by_cases hexpk : 32 * v.digits.length - s < 1024
      · -- A finite number below the nearest one.
        refine iff_of_false (fun hrounded => ?_) (not_not_intro (hmis.mpr ⟨hexpk, hpattern, hsticky, hnot⟩))
        obtain ⟨m, y, hnear, hy, hdenotes⟩ := hrounded
        rw [hok] at hy
        cases hy
        obtain ⟨hfinite, hsign, hunits⟩ := hfin (Or.inl ⟨hhigh, by omega⟩)
        cases Nat.lt_or_ge maxFinite m with
        | inl hmax =>
          rw [hdenotes.1 hmax] at hfinite
          exact infinity_not_finite _ hfinite
        | inr hmax =>
          have hvalue : x.units = significand f * 2 ^ k * Number.one := by
            have hexp' : 1075 + k - 1 = k + 1074 := by omega
            rw [hunits, hexp', pow_add, Number.one_eq rfl, Nat.mul_assoc]
          have hrat := toRat_of_units hsign hvalue
          have hm : m = significand f * 2 ^ k := by
            rw [(hdenotes.2 hmax).2.2] at hrat
            cases hv : v.sign with
            | true =>
              rw [hv] at hrat
              simp only [if_true, neg_inj] at hrat
              exact_mod_cast hrat
            | false =>
              rw [hv] at hrat
              simp only [Bool.false_eq_true, if_false] at hrat
              exact_mod_cast hrat
          rw [hm] at hnear
          exact not_nearestEven_down (by decide) hhigh hn hrem habove hnear
      · -- Both neighbours are beyond the finite numbers.
        refine iff_of_true (roundedRight_of_number (nearestEven_up (by decide) hlow hhigh hn (by decide) hrem (Or.inl habove)) hok ?_)
          fun h' => hexpk (hmis.mp h').1
        have hunbounded : ¬ Bounded (significand f) (1075 + k) := by
          unfold Bounded
          omega
        have hmax : maxFinite < (significand f + 1) * 2 ^ k := by
          have hmax' := mt (bounded_iff hlow (by omega)).mpr hunbounded
          exact Nat.lt_of_lt_of_le (Nat.not_le.mp hmax') (Nat.mul_le_mul_right _ (Nat.le_succ _))
        exact ⟨fun _ => hinf hunbounded, fun hle => absurd hmax (Nat.not_lt.mpr hle)⟩

end

theorem toInt_of_sign {v : Value} {b : Bool} (h : v.sign = b) : v.toInt = if b then -(val v.digits : Int) else val v.digits := by
  rw [← h]
  rfl

theorem roundedRight_iff (v : Value) : RoundedRight v ↔ ¬ Misrounded (val v.digits) := by
  by_cases hzero : v.toBlock = Block.zero
  · have hnil : v.digits = [] := by rw [hzero]; rfl
    refine roundedRight_integer (by rw [hnil]; exact Nat.two_pow_pos 53) ?_
    rw [ecmaBigintToNumber, if_pos hzero, Value.toInt, hzero]
    rfl
  · have hne : v.digits ≠ [] := fun hnil => hzero (Value.eq_zero_of_nil hnil)
    obtain ⟨ds, d, hds, hd⟩ := v.trimmed.exists_concat hne
    have hrev : v.digits.reverse = d :: ds.reverse := by rw [hds, List.reverse_append, List.reverse_singleton, List.singleton_append]
    have htop : v.digits.reverse.getD 0 0#32 = d := by rw [hrev, List.getD_cons_zero]
    have hlen : 0 < v.digits.length := List.length_pos_iff.mpr hne
    -- One digit is the value.
    have hone : v.digits.length = 1 → val v.digits = d.toNat := by
      intro h1
      rw [hds, List.length_append, List.length_singleton] at h1
      have hnil : ds = [] := List.length_eq_zero_iff.mp (by omega)
      rw [hds, hnil, List.nil_append, val_cons, val_nil, Nat.mul_zero, Nat.add_zero]
    have hd32 := d.isLt
    by_cases hpos : 4 * v.digits.reverse.length = 4 ∧ v.sign = false ∧ v.digits.reverse.getD 0 0#32 ≤ integerNumberMax
    · have hval := hone (by rw [List.length_reverse] at hpos; omega)
      refine roundedRight_integer (by omega) ?_
      rw [ecmaBigintToNumber, if_neg hzero]
      dsimp only
      rw [if_pos hpos, htop, toInt_of_sign hpos.2.1, hval]
      rfl
    · by_cases hneg : 4 * v.digits.reverse.length = 4 ∧ v.sign = true ∧ v.digits.reverse.getD 0 0#32 ≤ integerNumberMin
      · have hval := hone (by rw [List.length_reverse] at hneg; omega)
        refine roundedRight_integer (by omega) ?_
        rw [ecmaBigintToNumber, if_neg hzero]
        dsimp only
        rw [if_neg hpos, if_pos hneg, htop, toInt_of_sign hneg.2.1, hval]
        rfl
      · have hlong : v.digits.reverse.getD 0 0#32 = 1#32 → 1 < v.digits.reverse.length := by
          intro h1
          rw [h1, List.length_reverse] at hpos hneg
          rw [List.length_reverse]
          by_contra hshort
          have hlen1 : 4 * v.digits.length = 4 := by omega
          cases hs : v.sign with
          | true => exact hneg ⟨hlen1, hs, by decide⟩
          | false => exact hpos ⟨hlen1, hs, by decide⟩
        obtain ⟨f, s, hbits, hlead⟩ := leadingBits_ok (by rw [htop]; exact hd) hlong
        have hnumber : ∀ x, roundedNumber v.sign v.digits.reverse = .ok x → ecmaBigintToNumber v.toBlock = .ok (.number x) := by
          intro x hx
          rw [ecmaBigintToNumber, if_neg hzero]
          dsimp only
          rw [if_neg hpos, if_neg hneg, hx, ok_bind]
        by_cases hsize : s + 52 ≤ 32 * v.digits.length
        · exact roundedRight_large hlead hbits hnumber (k := 32 * v.digits.length - s - 52) (by omega) hlen
        · exact roundedRight_small hlead hbits hnumber (j := s + 52 - 32 * v.digits.length) (by omega) hlen

/-- The conversion is correctly rounded unless the value is one of those that are rounded down in place of up. -/
theorem bigint_to_number_exact (v : Value) : RoundedRight v ↔ ¬ Misrounded (val v.digits) := roundedRight_iff v

/-- `2 ^ 95 + 2 ^ 42 + 1` is above the middle of `2 ^ 95` and the next number. -/
theorem misrounded_value : ¬ RoundedRight (Value.ofDigits false [1#32, 0x400#32, 0x80000000#32] ⟨by decide, by decide, by decide⟩) := by
  rw [roundedRight_iff, not_not]
  have hval : val [1#32, 0x400#32, 0x80000000#32] = 2 ^ 95 + 2 ^ 42 + 1 := by decide
  have hlog : (2 ^ 95 + 2 ^ 42 + 1).log2 = 95 := (Nat.log2_eq_iff (by decide)).mpr (by decide)
  show Misrounded (val [1#32, 0x400#32, 0x80000000#32])
  rw [hval]
  unfold Misrounded
  rw [hlog]
  decide

end BigInt
end JJS
