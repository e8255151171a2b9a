import Mathlib.Data.Nat.ModEq
import Mathlib.Tactic.Ring

/-!
# JJS.Lib.Probe

Open addressing with a probe distance that grows by one at each step: from bucket `p` the search goes
on by `p`, `p + 1`, `p + 2`, ... buckets, modulo the capacity.

The bucket after `x` steps is `p + x p + x (x - 1) / 2`. Completing the square says which buckets a
search can reach at all (`exists_index_iff`): `j` is one of them just when `8 (j - p) + (2 p - 1) ^ 2`
is a square modulo eight times the capacity. Modulo a power of two these numbers are always squares,
so there the search reaches every bucket (`onOrbit_two_pow`).
-/

namespace Probe

/-- The bucket after `x` steps of the search that starts at `p`. -/
def index (cap p : Nat) : Nat → Nat
  | 0 => p % cap
  | x + 1 => (index cap p x + (p + x)) % cap

/-- The search from `p` can reach bucket `j`. -/
def OnOrbit (cap p j : Nat) : Prop :=
  ∃ y < 8 * cap, y ^ 2 + 8 * p ≡ 8 * j + (2 * p - 1) ^ 2 [MOD 8 * cap]

variable {cap p j : Nat}

theorem index_lt (hcap : 0 < cap) (x : Nat) : index cap p x < cap := by
  cases x with
  | zero => exact Nat.mod_lt _ hcap
  | succ x => exact Nat.mod_lt _ hcap

/-- The square that belongs to the bucket after `x` steps. -/
theorem index_modEq (cap : Nat) (hp : 0 < p) (x : Nat) :
    8 * index cap p x + (2 * p - 1) ^ 2 ≡ (2 * x + (2 * p - 1)) ^ 2 + 8 * p [MOD 8 * cap] := by
  obtain ⟨q, rfl⟩ : ∃ q, p = q + 1 := ⟨p - 1, by omega⟩
  have hodd : 2 * (q + 1) - 1 = 2 * q + 1 := by omega
  rw [hodd]
  induction x with
  | zero =>
    have hmod : 8 * ((q + 1) % cap) ≡ 8 * (q + 1) [MOD 8 * cap] := (Nat.mod_modEq _ _).mul_left' 8
    have hsum := hmod.add_right ((2 * q + 1) ^ 2)
    have heq : 8 * (q + 1) + (2 * q + 1) ^ 2 = (2 * 0 + (2 * q + 1)) ^ 2 + 8 * (q + 1) := by ring
    rwa [heq] at hsum
  | succ x ih =>
    have hmod : 8 * ((index cap (q + 1) x + (q + 1 + x)) % cap) ≡ 8 * (index cap (q + 1) x + (q + 1 + x))
        [MOD 8 * cap] := (Nat.mod_modEq _ _).mul_left' 8
    have hstep := (ih.add_right (8 * (q + 1 + x))).symm
    have hl : (2 * x + (2 * q + 1)) ^ 2 + 8 * (q + 1) + 8 * (q + 1 + x) =
        (2 * (x + 1) + (2 * q + 1)) ^ 2 + 8 * (q + 1) := by ring
    have hr : 8 * index cap (q + 1) x + (2 * q + 1) ^ 2 + 8 * (q + 1 + x) =
        8 * (index cap (q + 1) x + (q + 1 + x)) + (2 * q + 1) ^ 2 := by ring
    rw [hl, hr] at hstep
    exact (hmod.add_right _).trans hstep.symm

/-- The buckets that a search reaches are those on its orbit. -/
theorem exists_index_iff (hcap : 0 < cap) (hp : 0 < p) (hj : j < cap) :
    (∃ x, index cap p x = j) ↔ OnOrbit cap p j := by
  constructor
  · intro h
    obtain ⟨x, hx⟩ := h
    refine ⟨(2 * x + (2 * p - 1)) % (8 * cap), Nat.mod_lt _ (by omega), ?_⟩
    have hsq : ((2 * x + (2 * p - 1)) % (8 * cap)) ^ 2 ≡ (2 * x + (2 * p - 1)) ^ 2 [MOD 8 * cap] :=
      (Nat.mod_modEq _ _).pow 2
    have hind := index_modEq cap hp x
    rw [hx] at hind
    exact (hsq.add_right _).trans hind.symm
  · intro h
    obtain ⟨y, -, hy⟩ := h
    obtain ⟨q, rfl⟩ : ∃ q, p = q + 1 := ⟨p - 1, by omega⟩
    have hodd : 2 * (q + 1) - 1 = 2 * q + 1 := by omega
    rw [hodd] at hy
    have hsq1 : (2 * q + 1) ^ 2 = 4 * (q * q + q) + 1 := by ring
    -- the other side is odd, so the root is odd too and some step belongs to it
    have hy2 : y % 2 = 1 := by
      have h2 : y ^ 2 + 8 * (q + 1) ≡ 8 * j + (2 * q + 1) ^ 2 [MOD 2] := hy.of_dvd ⟨4 * cap, by ring⟩
      have hsq : y ^ 2 % 2 = 1 := by
        unfold Nat.ModEq at h2
        rw [hsq1] at h2
        omega
      rw [Nat.pow_mod] at hsq
      rcases Nat.mod_two_eq_zero_or_one y with h0 | h1
      · rw [h0] at hsq; cases hsq
      · exact h1
    have hbig : 2 * q + 1 ≤ y + 8 * cap * (q + 1) := by
      have hle : 1 * (q + 1) ≤ cap * (q + 1) := Nat.mul_le_mul_right _ hcap
      have hcomm : 8 * cap * (q + 1) = 8 * (cap * (q + 1)) := Nat.mul_assoc _ _ _
      omega
    have heven : (8 * cap * (q + 1)) % 2 = 0 := by
      have hcomm : 8 * cap * (q + 1) = 2 * (4 * (cap * (q + 1))) := by ring
      omega
    refine ⟨(y + 8 * cap * (q + 1) - (2 * q + 1)) / 2, ?_⟩
    have hind := index_modEq cap hp ((y + 8 * cap * (q + 1) - (2 * q + 1)) / 2)
    have hroot : 2 * ((y + 8 * cap * (q + 1) - (2 * q + 1)) / 2) + (2 * q + 1) = y + 8 * cap * (q + 1) := by
      omega
    rw [hodd, hroot] at hind
    have hshift : (y + 8 * cap * (q + 1)) ^ 2 ≡ y ^ 2 [MOD 8 * cap] := by
      have h0 : y + 8 * cap * (q + 1) ≡ y [MOD 8 * cap] := by
        simp [Nat.ModEq]
      exact h0.pow 2
    have hj8 := (hind.trans (hshift.add_right _)).trans hy
    have hmod : index cap (q + 1) ((y + 8 * cap * (q + 1) - (2 * q + 1)) / 2) ≡ j [MOD cap] :=
      Nat.ModEq.mul_left_cancel' (by decide) (Nat.ModEq.add_right_cancel' _ hj8)
    exact Nat.ModEq.eq_of_lt_of_lt hmod (index_lt hcap _) hj

/-! ## Powers of two -/

/-- Two numbers that differ in one bit only, the last one of `2 m`. -/
theorem add_mod_of_ne {a b m : Nat} (hm : 0 < m) (h : a % m = b % m) (hne : a % (m * 2) ≠ b % (m * 2)) :
    (a + m) % (m * 2) = b % (m * 2) := by
  rw [Nat.mod_mul, Nat.mod_mul] at hne
  rw [Nat.mod_mul, Nat.mod_mul, Nat.add_mod_right, Nat.add_div_right _ hm, h]
  rcases Nat.mod_two_eq_zero_or_one (a / m) with ha | ha <;>
    rcases Nat.mod_two_eq_zero_or_one (b / m) with hb | hb
  · rw [h, ha, hb] at hne; exact absurd rfl hne
  · rw [show (a / m).succ % 2 = 1 by omega, hb]
  · rw [show (a / m).succ % 2 = 0 by omega, hb]
  · rw [h, ha, hb] at hne; exact absurd rfl hne

/-- A number that is one modulo eight is a square modulo every power of two. -/
theorem exists_sq_modEq {u : Nat} (hu : u % 8 = 1) (n : Nat) : ∃ y, y ^ 2 ≡ u [MOD 2 ^ (n + 3)] := by
  induction n with
  | zero => exact ⟨1, by simp [Nat.ModEq, hu]⟩
  | succ n ih =>
    obtain ⟨y, hy⟩ := ih
    have hy2 : y % 2 = 1 := by
      have h2 : y ^ 2 ≡ u [MOD 2] := hy.of_dvd ⟨2 ^ (n + 2), by ring⟩
      have hsq : y ^ 2 % 2 = 1 := by
        unfold Nat.ModEq at h2
        omega
      rw [Nat.pow_mod] at hsq
      rcases Nat.mod_two_eq_zero_or_one y with h0 | h1
      · rw [h0] at hsq; cases hsq
      · exact h1
    -- either the root is good for one more bit, or moving it by half the modulus flips that bit
    obtain ⟨z, hz⟩ : ∃ z, y = 2 * z + 1 := ⟨y / 2, by omega⟩
    have hmove : (y + 2 ^ (n + 2)) ^ 2 = y ^ 2 + 2 ^ (n + 3) + 2 ^ (n + 4) * (z + 2 ^ n) := by
      rw [hz]; ring
    have hpow : 2 ^ (n + 1 + 3) = 2 ^ (n + 3) * 2 := by ring
    have hpow4 : 2 ^ (n + 4) = 2 ^ (n + 3) * 2 := by ring
    rw [hpow]
    by_cases hbit : y ^ 2 % (2 ^ (n + 3) * 2) = u % (2 ^ (n + 3) * 2)
    · exact ⟨y, hbit⟩
    · refine ⟨y + 2 ^ (n + 2), ?_⟩
      unfold Nat.ModEq
      rw [hmove, hpow4, Nat.add_mul_mod_self_left]
      exact add_mod_of_ne (Nat.pow_pos (by decide)) hy hbit

/-- In a table whose capacity is a power of two the search reaches every bucket. -/
theorem onOrbit_two_pow {n : Nat} (hp : 0 < p) (hpc : p ≤ 2 ^ n) : OnOrbit (2 ^ n) p j := by
  obtain ⟨q, rfl⟩ : ∃ q, p = q + 1 := ⟨p - 1, by omega⟩
  have hsq1 : (2 * q + 1) ^ 2 = 4 * (q * (q + 1)) + 1 := by ring
  obtain ⟨r, hr⟩ : 2 ∣ q * (q + 1) := (Nat.even_mul_succ_self q).two_dvd
  have hmod : 8 * 2 ^ n = 2 ^ (n + 3) := by ring
  have hodd : 2 * (q + 1) - 1 = 2 * q + 1 := by omega
  -- `8 p` on the left is moved to the other side, where the modulus makes room for it
  have hone : (8 * j + (2 * q + 1) ^ 2 + 8 * (2 ^ n - (q + 1))) % 8 = 1 := by
    rw [hsq1, hr]
    omega
  obtain ⟨y, hy⟩ := exists_sq_modEq hone n
  refine ⟨y % (8 * 2 ^ n), Nat.mod_lt _ (Nat.mul_pos (by decide) (Nat.pow_pos (by decide))), ?_⟩
  have hy0 : (y % (8 * 2 ^ n)) ^ 2 ≡ y ^ 2 [MOD 8 * 2 ^ n] := (Nat.mod_modEq _ _).pow 2
  rw [← hmod] at hy
  have hsum := (hy0.trans hy).add_right (8 * (q + 1))
  have hfull : 8 * j + (2 * q + 1) ^ 2 + 8 * (2 ^ n - (q + 1)) + 8 * (q + 1) =
      8 * j + (2 * q + 1) ^ 2 + 8 * 2 ^ n := by omega
  rw [hfull] at hsum
  rw [hodd]
  exact hsum.trans (by simp [Nat.ModEq])

end Probe
