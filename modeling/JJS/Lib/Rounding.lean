import Mathlib.Tactic.Ring
import Mathlib.Algebra.Order.Ring.Nat

/-!
# JJS.Lib.Rounding

Rounding of natural numbers to significands of `p` bits, to nearest with ties to even. The exponent is not bounded.
-/

namespace JJS
namespace Rounding

/-- A number with a significand of at most `p` bits. -/
def Representable (p r : Nat) : Prop := ∃ m k, m < 2 ^ p ∧ r = m * 2 ^ k

def EvenSignificand (p r : Nat) : Prop := ∃ m k, r = m * 2 ^ k ∧ 2 ^ (p - 1) ≤ m ∧ m < 2 ^ p ∧ m % 2 = 0

def distance (m n : Nat) : Nat := (m - n) + (n - m)

/-- `r` is the representable number nearest to `n`, and the even one of two. -/
structure NearestEven (p n r : Nat) : Prop where
  representable : Representable p r
  nearest : ∀ r', Representable p r' → distance n r ≤ distance n r'
  ties : ∀ r', Representable p r' → r' ≠ r → distance n r = distance n r' → EvenSignificand p r

theorem nearestEven_self {p n : Nat} (h : Representable p n) : NearestEven p n n where
  representable := h
  nearest := by
    intro r' _
    unfold distance
    omega
  ties := by
    intro r' _ hne heq
    unfold distance at heq
    omega

theorem representable_of_lt {p n : Nat} (h : n < 2 ^ p) : Representable p n := ⟨n, 0, h, by rw [pow_zero, Nat.mul_one]⟩

section

variable {p q s : Nat} (hp : 0 < p) (hlow : 2 ^ (p - 1) ≤ q)

include hp hlow

/-- Nothing representable lies between two neighbours. -/
theorem representable_gap {r : Nat} (hr : Representable p r) : r ≤ q * 2 ^ s ∨ (q + 1) * 2 ^ s ≤ r := by
  obtain ⟨m, k, hm, rfl⟩ := hr
  by_cases hk : s ≤ k
  · have hsplit : m * 2 ^ k = m * 2 ^ (k - s) * 2 ^ s := by
      rw [Nat.mul_assoc, ← pow_add, Nat.sub_add_cancel hk]
    rw [hsplit]
    cases Nat.lt_or_ge q (m * 2 ^ (k - s)) with
    | inl hlt => exact Or.inr (Nat.mul_le_mul_right _ hlt)
    | inr hge => exact Or.inl (Nat.mul_le_mul_right _ hge)
  · left
    have hexp : 2 ^ p * 2 ^ (s - 1) = 2 ^ (p - 1) * 2 ^ s := by
      rw [← pow_add, ← pow_add]
      congr 1
      omega
    calc m * 2 ^ k ≤ 2 ^ p * 2 ^ (s - 1) :=
          Nat.mul_le_mul (Nat.le_of_lt hm) (Nat.pow_le_pow_right (by decide) (by omega))
      _ = 2 ^ (p - 1) * 2 ^ s := hexp
      _ ≤ q * 2 ^ s := Nat.mul_le_mul_right _ hlow

variable (hhigh : q < 2 ^ p) {n rem : Nat} (hn : n = q * 2 ^ s + rem)

include hhigh hn

theorem nearestEven_down (hrem : 2 * rem < 2 ^ s ∨ 2 * rem = 2 ^ s ∧ q % 2 = 0) : NearestEven p n (q * 2 ^ s) where
  representable := ⟨q, s, hhigh, rfl⟩
  nearest := by
    intro r' hr'
    have hgap := representable_gap hp hlow (s := s) hr'
    rw [Nat.add_mul, Nat.one_mul] at hgap
    unfold distance
    omega
  ties := by
    intro r' hr' hne heq
    have hgap := representable_gap hp hlow (s := s) hr'
    rw [Nat.add_mul, Nat.one_mul] at hgap
    unfold distance at heq
    cases hrem with
    | inl hlt => omega
    | inr htie => exact ⟨q, s, rfl, hlow, hhigh, htie.2⟩

omit hlow hn in
/-- The upper neighbour, which has one bit more when all bits of the significand were set. -/
theorem representable_succ : Representable p ((q + 1) * 2 ^ s) := by
  by_cases hq : q + 1 < 2 ^ p
  · exact ⟨q + 1, s, hq, rfl⟩
  · have heq : q + 1 = 2 ^ (p - 1) * 2 := by
      have hpow : 2 ^ (p - 1) * 2 = 2 ^ p := by rw [← pow_succ, Nat.sub_add_cancel hp]
      omega
    refine ⟨2 ^ (p - 1), s + 1, Nat.pow_lt_pow_right (by decide) (by omega), ?_⟩
    rw [heq, Nat.mul_assoc, ← pow_succ']

theorem nearestEven_up (hp2 : 1 < p) (hlt : rem < 2 ^ s) (hrem : 2 ^ s < 2 * rem ∨ 2 * rem = 2 ^ s ∧ q % 2 = 1) :
    NearestEven p n ((q + 1) * 2 ^ s) where
  representable := representable_succ hp hhigh
  nearest := by
    intro r' hr'
    have hgap := representable_gap hp hlow (s := s) hr'
    rw [Nat.add_mul, Nat.one_mul] at hgap ⊢
    unfold distance
    omega
  ties := by
    intro r' hr' hne heq
    have hgap := representable_gap hp hlow (s := s) hr'
    rw [Nat.add_mul, Nat.one_mul] at hgap hne heq
    unfold distance at heq
    cases hrem with
    | inl hgt => omega
    | inr htie =>
      by_cases hq : q + 1 < 2 ^ p
      · exact ⟨q + 1, s, rfl, by omega, hq, by omega⟩
      · have hpow : 2 ^ (p - 1) * 2 = 2 ^ p := by rw [← pow_succ, Nat.sub_add_cancel hp]
        have hhalf : 2 ^ (p - 1) = 2 ^ (p - 2) * 2 := by
          rw [← pow_succ]
          congr 1
          omega
        refine ⟨2 ^ (p - 1), s + 1, ?_, Nat.le_refl _, by omega, by omega⟩
        rw [show q + 1 = 2 ^ (p - 1) * 2 by omega, Nat.mul_assoc, ← pow_succ']

omit hlow in
theorem not_nearestEven_down (hlt : rem < 2 ^ s) (hrem : 2 ^ s < 2 * rem) : ¬ NearestEven p n (q * 2 ^ s) := by
  intro h
  have hnear := h.nearest _ (representable_succ (s := s) hp hhigh)
  rw [Nat.add_mul, Nat.one_mul] at hnear
  unfold distance at hnear
  omega

end

end Rounding
end JJS
