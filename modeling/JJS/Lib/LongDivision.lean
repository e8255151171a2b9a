import Mathlib.Data.Nat.ModEq
import Mathlib.Tactic.Ring
import Mathlib.Tactic.Linarith

/-!
# JJS.Lib.LongDivision

Long division in an arbitrary base `B`, digit by digit from the most significant position down.
At position `j` the dividend `u` has the *window* `u / B ^ j % (B * v)`; its quotient by `v` is the
digit `j` of `u / v` (`window_div`), and its remainder is the window of the next position
(`mod_split`, `window_eq`).

`guess` is the quotient digit estimated from the two leading digits `t` of the window and the two
leading digits `v₁`, `v₂` of the divisor, with `v₂` also in the place of the third digit of the
window. It is never more than one too large (`guess_overshoot`).
-/

namespace LongDivision

variable {B : Nat}

/-! ## Windows -/

/-- The window of a position is the remainder of the position before, without its low digits. -/
theorem window_eq (u v j : Nat) : u % (B ^ (j + 1) * v) / B ^ j = u / B ^ j % (B * v) := by
  rw [pow_succ, Nat.mul_assoc, Nat.mod_mul_right_div_self]

/-- What a position leaves to the positions below it. -/
theorem mod_split (u v j : Nat) :
    u % (B ^ j * v) = u % B ^ j + B ^ j * (u / B ^ j % (B * v) % v) := by
  rw [Nat.mod_mul, Nat.mod_mod_of_dvd _ (Dvd.intro_left B rfl)]

/-- The quotient of a window is a digit of the quotient. -/
theorem window_div (u v j : Nat) : u / B ^ j % (B * v) / v = u / v / B ^ j % B := by
  rw [Nat.mul_comm B v, Nat.mod_mul_right_div_self, Nat.div_div_eq_div_mul, Nat.div_div_eq_div_mul,
    Nat.mul_comm]

/-- One more digit of a quotient. -/
theorem quotient_split (q j : Nat) : q % B ^ (j + 1) = q % B ^ j + B ^ j * (q / B ^ j % B) := by
  rw [pow_succ, Nat.mod_mul]

/-! ## The estimate of a digit -/

/-- The estimate of a quotient digit. -/
def guess (B t v₁ v₂ : Nat) : Nat := (t * B + v₂) / (v₁ * B + v₂)

variable {t v₁ v₂ : Nat}

theorem divisor_pos (hB : 0 < B) (h₁ : 0 < v₁) : 0 < v₁ * B + v₂ :=
  Nat.add_pos_left (Nat.mul_pos h₁ hB) v₂

/-- A digit is over the estimate exactly when its product with `v₂` is over what the rest `r` of
the leading digits leaves. -/
theorem guess_lt_iff {q r : Nat} (hB : 0 < B) (h₁ : 0 < v₁) (hr : q * v₁ + r = t) :
    guess B t v₁ v₂ < q ↔ r * B + v₂ < q * v₂ := by
  rw [guess, Nat.div_lt_iff_lt_mul (divisor_pos hB h₁), ← hr]
  have : q * (v₁ * B + v₂) = q * v₁ * B + q * v₂ := by ring
  rw [this, Nat.add_mul]
  omega

/-- A digit whose rest has more than one digit is not over the estimate. -/
theorem le_guess_of_rest {q r : Nat} (hB : 0 < B) (h₁ : 0 < v₁) (h₂ : v₂ < B) (hq : q ≤ B)
    (hr : q * v₁ + r = t) (hrest : B ≤ r) : q ≤ guess B t v₁ v₂ := by
  by_contra hlt
  have h := (guess_lt_iff hB h₁ hr).mp (Nat.lt_of_not_le hlt)
  have h3 : q * v₂ ≤ B * B := Nat.mul_le_mul hq (Nat.le_of_lt h₂)
  have h4 : B * B ≤ r * B := Nat.mul_le_mul_right B hrest
  omega

theorem guess_le_div (hB : 0 < B) (h₁ : 0 < v₁) : guess B t v₁ v₂ ≤ t / v₁ := by
  rw [Nat.le_div_iff_mul_le h₁]
  have h : guess B t v₁ v₂ * (v₁ * B + v₂) ≤ t * B + v₂ := Nat.div_mul_le_self _ _
  rcases Nat.eq_zero_or_pos (guess B t v₁ v₂) with h0 | h0
  · rw [h0, Nat.zero_mul]; exact Nat.zero_le _
  · generalize guess B t v₁ v₂ = g at h h0 ⊢
    have h2 : v₂ ≤ g * v₂ := Nat.le_mul_of_pos_left v₂ h0
    have h3 : g * v₁ * B ≤ t * B := by
      have : g * (v₁ * B + v₂) = g * v₁ * B + g * v₂ := by ring
      omega
    exact Nat.le_of_mul_le_mul_right h3 hB

/-- No digit up to the estimate is more than one too large. The divisor is `v₁`, `v₂` and a
lower part, the window `t` and a lower part, where `W` is the weight of the divisor's `v₂`. -/
theorem guess_overshoot {q v U W : Nat} (h₁ : 0 < v₁) (hq : q ≤ guess B t v₁ v₂)
    (hqB : q ≤ B) (hv : v < (v₁ * B + v₂ + 1) * W) (hU : t * B * W ≤ U) : q * v ≤ U + v := by
  rcases Nat.eq_zero_or_pos q with h0 | h0
  · rw [h0, Nat.zero_mul]; exact Nat.zero_le _
  · obtain ⟨p, rfl⟩ : ∃ p, q = p + 1 := ⟨q - 1, by omega⟩
    have hd : (p + 1) * (v₁ * B + v₂) ≤ t * B + v₂ :=
      Nat.le_trans (Nat.mul_le_mul_right _ hq) (Nat.div_mul_le_self _ _)
    have hp : p ≤ v₁ * B := Nat.le_trans (by omega) (Nat.le_mul_of_pos_left B h₁)
    have hlead : p * (v₁ * B + v₂ + 1) ≤ t * B := by
      have : (p + 1) * (v₁ * B + v₂) = p * (v₁ * B + v₂) + (v₁ * B + v₂) := by ring
      rw [Nat.mul_add, Nat.mul_one]
      omega
    have hmul : p * v ≤ U := by
      calc p * v ≤ p * ((v₁ * B + v₂ + 1) * W) := Nat.mul_le_mul_left p (Nat.le_of_lt hv)
        _ = p * (v₁ * B + v₂ + 1) * W := by ring
        _ ≤ t * B * W := Nat.mul_le_mul_right W hlead
        _ ≤ U := hU
    rw [Nat.add_mul, Nat.one_mul]
    omega

end LongDivision
