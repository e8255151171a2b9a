import Mathlib.Tactic.Common

/-!
# JJS.Lib.Bisect

Binary search over positions. `compare i` compares the element at `i` with the one that is looked for;
`lt` says that the element comes first. What it finds compares equal (`search_sound`), and where the
elements are in order it finds the one that does (`search_eq_some`).
-/

namespace Bisect

variable (compare : Nat → Ordering)

/-- The loop on `[first, last)`. The first argument bounds the number of steps. -/
def loop : Nat → Nat → Nat → Option Nat
  | 0, _, _ => none
  | steps + 1, first, last =>
    if first < last then
      let middle := (first + last) / 2
      match compare middle with
      | .eq => some middle
      | .gt => loop steps first middle
      | .lt => loop steps (middle + 1) last
    else none

def search (first last : Nat) : Option Nat := loop compare (last - first) first last

variable {compare}

theorem loop_sound {steps first last m : Nat} (h : loop compare steps first last = some m) :
    first ≤ m ∧ m < last ∧ compare m = .eq := by
  induction steps generalizing first last with
  | zero => cases h
  | succ steps ih =>
    rw [loop] at h
    by_cases hlt : first < last
    · rw [if_pos hlt] at h
      dsimp only at h
      cases hc : compare ((first + last) / 2) with
      | eq =>
        rw [hc] at h
        cases h
        exact ⟨by omega, by omega, hc⟩
      | gt =>
        rw [hc] at h
        obtain ⟨h1, h2, h3⟩ := ih h
        exact ⟨h1, by omega, h3⟩
      | lt =>
        rw [hc] at h
        obtain ⟨h1, h2, h3⟩ := ih h
        exact ⟨by omega, h2, h3⟩
    · rw [if_neg hlt] at h
      cases h

theorem search_sound {first last m : Nat} (h : search compare first last = some m) :
    first ≤ m ∧ m < last ∧ compare m = .eq := loop_sound h

theorem loop_eq_some {steps first last k : Nat} (hsteps : last - first ≤ steps) (hfirst : first ≤ k)
    (hlast : k < last) (hk : compare k = .eq) (hbefore : ∀ i, first ≤ i → i < k → compare i = .lt)
    (hafter : ∀ i, k < i → i < last → compare i = .gt) : loop compare steps first last = some k := by
  induction steps generalizing first last with
  | zero => omega
  | succ steps ih =>
    rw [loop, if_pos (by omega)]
    dsimp only
    cases Nat.lt_trichotomy ((first + last) / 2) k with
    | inl hlt =>
      rw [hbefore _ (by omega) hlt]
      exact ih (by omega) (by omega) hlast (fun i h1 h2 => hbefore i (by omega) h2) hafter
    | inr h =>
      cases h with
      | inl heq => rw [heq, hk]
      | inr hgt =>
        rw [hafter _ hgt (by omega)]
        exact ih (by omega) hfirst hgt hbefore (fun i h1 h2 => hafter i h1 (by omega))

theorem search_eq_some {first last k : Nat} (hfirst : first ≤ k) (hlast : k < last) (hk : compare k = .eq)
    (hbefore : ∀ i, first ≤ i → i < k → compare i = .lt) (hafter : ∀ i, k < i → i < last → compare i = .gt) :
    search compare first last = some k :=
  loop_eq_some (Nat.le_refl _) hfirst hlast hk hbefore hafter

end Bisect
