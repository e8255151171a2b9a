import Mathlib.Algebra.Order.Ring.Nat
import Mathlib.Data.List.Induction
import Mathlib.Tactic.Ring

/-!
# JJS.Lib.Decimal

Decimal numerals of a fixed width, as lists of digits with the most significant one first. `fixed` writes the last digits
of a number, and `value` reads a list of digits behind a number that was read before. They are inverse to each other on
lists of digits (`fixed_value`) and on the numbers that the width holds (`value_fixed`).
-/

namespace Decimal

/-- The last digits of a number. -/
def fixed : ℕ → ℕ → List ℕ
  | 0, _ => []
  | width + 1, n => fixed width (n / 10) ++ [n % 10]

/-- The number that some digits are, behind another number. -/
def value (acc : ℕ) (digits : List ℕ) : ℕ := digits.foldl (fun acc d => acc * 10 + d) acc

@[simp] theorem value_nil (acc : ℕ) : value acc [] = acc := rfl

@[simp] theorem value_cons (acc d : ℕ) (digits : List ℕ) : value acc (d :: digits) = value (acc * 10 + d) digits := rfl

theorem value_concat (acc d : ℕ) (digits : List ℕ) : value acc (digits ++ [d]) = value acc digits * 10 + d := by
  rw [value, List.foldl_append, List.foldl_cons, List.foldl_nil, value]

@[simp] theorem length_fixed (width n : ℕ) : (fixed width n).length = width := by
  induction width generalizing n with
  | zero => rfl
  | succ width ih => rw [fixed, List.length_append, ih, List.length_singleton]

theorem lt_of_mem_fixed {width n d : ℕ} (h : d ∈ fixed width n) : d < 10 := by
  induction width generalizing n with
  | zero => cases h
  | succ width ih =>
    rw [fixed, List.mem_append, List.mem_singleton] at h
    obtain h | rfl := h
    · exact ih h
    · exact Nat.mod_lt n (by decide)

/-- What the digits of a number are read as. -/
theorem value_fixed (acc : ℕ) {width n : ℕ} (h : n < 10 ^ width) : value acc (fixed width n) = acc * 10 ^ width + n := by
  induction width generalizing n with
  | zero =>
    obtain rfl := Nat.lt_one_iff.mp h
    rw [fixed, value_nil, Nat.pow_zero, Nat.mul_one, Nat.add_zero]
  | succ width ih =>
    have hdiv : n / 10 < 10 ^ width := by
      rw [Nat.pow_succ] at h
      exact Nat.div_lt_of_lt_mul (by rwa [Nat.mul_comm])
    have hsum : n / 10 * 10 + n % 10 = n := Nat.div_add_mod' n 10
    rw [fixed, value_concat, ih hdiv, Nat.add_mul, Nat.add_assoc, hsum, Nat.mul_assoc, Nat.pow_succ]

theorem value_lt {acc bound : ℕ} {digits : List ℕ} (hdigits : ∀ d ∈ digits, d < 10) (hacc : acc < bound) :
    value acc digits < bound * 10 ^ digits.length := by
  induction digits generalizing acc bound with
  | nil => rwa [List.length_nil, Nat.pow_zero, Nat.mul_one]
  | cons d digits ih =>
    have hd : d < 10 := hdigits d List.mem_cons_self
    have hstep := @ih (acc * 10 + d) (bound * 10) (fun x hx => hdigits x (List.mem_cons_of_mem d hx)) (by omega)
    rw [value_cons, List.length_cons, Nat.pow_succ']
    rwa [Nat.mul_assoc] at hstep

/-- The digits of the number that some digits are read as. -/
theorem fixed_value {digits : List ℕ} (hdigits : ∀ d ∈ digits, d < 10) :
    fixed digits.length (value 0 digits) = digits := by
  induction digits using List.reverseRecOn with
  | nil => rfl
  | append_singleton digits d ih =>
    have hd : d < 10 := hdigits d (List.mem_append_right digits (List.mem_singleton_self d))
    have hdiv : (value 0 digits * 10 + d) / 10 = value 0 digits := by omega
    have hmod : (value 0 digits * 10 + d) % 10 = d := by omega
    rw [List.length_append, List.length_singleton, fixed, value_concat, hdiv, hmod,
      ih fun x hx => hdigits x (List.mem_append_left [d] hx)]

end Decimal
