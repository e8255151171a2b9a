import Mathlib.Data.Rat.Defs
import Mathlib.Algebra.Order.Field.Rat
import Mathlib.Data.Sign.Basic
import Mathlib.Tactic.Ring
import Mathlib.Tactic.Linarith

/-!
# JJS.Number

`ecma_number_t` as a binary64 number: a sign, a biased exponent and a fraction. A finite number is measured in units of
the least positive one, so that its value is an integer over `Number.one`.
-/

namespace JJS

structure Number where
  sign : Bool
  biasedExp : BitVec 11
  fraction : BitVec 52
  deriving DecidableEq, Repr

namespace Number

/-- `ecma_number_is_nan`. -/
def isNan (x : Number) : Bool := x.biasedExp == 2047#11 && x.fraction != 0#52

/-- `ecma_number_is_infinity`. -/
def isInfinity (x : Number) : Bool := x.biasedExp == 2047#11 && x.fraction == 0#52

/-- `ecma_number_is_zero`. -/
def isZero (x : Number) : Bool := x.biasedExp == 0#11 && x.fraction == 0#52

/-- `number > 0`. -/
def isPositive (x : Number) : Bool := !x.isNan && !x.isZero && !x.sign

/-- `number < 0`. -/
def isNegative (x : Number) : Bool := !x.isNan && !x.isZero && x.sign

/-- `ecma_number_make_infinity`. -/
def infinity (sign : Bool) : Number := ⟨sign, 2047#11, 0#52⟩

/-! ## Values -/

def Finite (x : Number) : Prop := x.biasedExp ≠ 2047#11

instance (x : Number) : Decidable x.Finite := inferInstanceAs (Decidable (x.biasedExp ≠ 2047#11))

/-- One, in units. -/
def one : Nat := 2 ^ 1074

/-- The magnitude of a finite number, in units. -/
def units (x : Number) : Nat :=
  if x.biasedExp = 0#11 then x.fraction.toNat else (2 ^ 52 + x.fraction.toNat) * 2 ^ (x.biasedExp.toNat - 1)

def signedUnits (x : Number) : Int := if x.sign then -(x.units : Int) else x.units

/-- The value of a finite number. -/
def toRat (x : Number) : ℚ := (x.signedUnits : ℚ) / (one : ℚ)

theorem one_eq {n : Nat} (h : n = 1074) : one = 2 ^ n := by
  rw [h, one]

theorem one_pos : 0 < one := by
  rw [one]
  exact Nat.pow_pos (by decide)

theorem finite_iff (x : Number) : x.Finite ↔ x.isNan = false ∧ x.isInfinity = false := by
  unfold Finite isNan isInfinity
  by_cases he : x.biasedExp = 2047#11
  · by_cases hf : x.fraction = 0#52
    · simp [he, hf]
    · simp [he, hf]
  · simp [he]

theorem Finite.lt {x : Number} (h : x.Finite) : x.biasedExp.toNat < 2047 := by
  have hlt := x.biasedExp.isLt
  have hne : x.biasedExp.toNat ≠ 2047 := fun heq => h (BitVec.eq_of_toNat_eq heq)
  omega

theorem isZero_iff (x : Number) : x.isZero = true ↔ x.biasedExp = 0#11 ∧ x.fraction = 0#52 := by
  simp [isZero]

theorem units_eq_zero (x : Number) : x.units = 0 ↔ x.isZero = true := by
  rw [isZero_iff, units]
  by_cases he : x.biasedExp = 0#11
  · rw [if_pos he]
    constructor
    · intro h
      exact ⟨he, BitVec.eq_of_toNat_eq h⟩
    · intro h
      rw [h.2]
      rfl
  · rw [if_neg he]
    constructor
    · intro h
      exact absurd h (Nat.ne_of_gt (Nat.mul_pos (by omega) (Nat.two_pow_pos _)))
    · intro h
      exact absurd h.1 he

theorem signedUnits_eq_zero (x : Number) : x.signedUnits = 0 ↔ x.isZero = true := by
  rw [← units_eq_zero, signedUnits]
  split
  · omega
  · omega

/-! ## Integers and numbers -/

/-- The sign of the difference, with an infinity beyond all integers. -/
def signOfDifference (z : Int) (x : Number) : Int :=
  if x.isInfinity then (if x.sign then 1 else -1) else (SignType.sign ((z : ℚ) - x.toRat) : Int)

theorem one_rat_pos : (0 : ℚ) < (one : ℚ) := Nat.cast_pos.mpr one_pos

/-- The difference, in units. -/
theorem sub_toRat (z : Int) (x : Number) : (z : ℚ) - x.toRat = ((z * one - x.signedUnits : Int) : ℚ) / (one : ℚ) := by
  have hne : (one : ℚ) ≠ 0 := ne_of_gt one_rat_pos
  rw [toRat, eq_div_iff hne, sub_mul, div_mul_cancel₀ _ hne]
  push_cast
  rfl

theorem sign_sub_toRat (z : Int) (x : Number) :
    (SignType.sign ((z : ℚ) - x.toRat) : Int) = Int.sign (z * one - x.signedUnits) := by
  rw [sub_toRat, div_eq_mul_inv, sign_mul, sign_pos (inv_pos.mpr one_rat_pos), mul_one, sign_intCast, Int.sign_eq_sign]

theorem eq_toRat_iff (z : Int) (x : Number) : (z : ℚ) = x.toRat ↔ z * one = x.signedUnits := by
  rw [← sub_eq_zero, sub_toRat, div_eq_zero_iff, Int.cast_eq_zero, sub_eq_zero]
  simp only [ne_of_gt one_rat_pos, or_false]

end Number
end JJS
