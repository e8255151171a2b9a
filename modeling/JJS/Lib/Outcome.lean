import Mathlib.Tactic.Common

/-!
# JJS.Lib.Outcome

Postconditions of computations in `Except`. `Ensures allowed x P` says that `x` either stops for one of the allowed
reasons or returns a value with the property.
-/

namespace Outcome

variable {ε α β : Type}

/-- A sequence returns when both of its parts do. -/
theorem bind_eq_ok {x : Except ε α} {f : α → Except ε β} {b : β} (h : x.bind f = .ok b) :
    ∃ a, x = .ok a ∧ f a = .ok b := by
  cases x with
  | error e => cases h
  | ok a => exact ⟨a, rfl, h⟩

theorem bind_bind (x : Except ε α) {γ : Type} (f : α → Except ε β) (g : β → Except ε γ) :
    (x.bind f).bind g = x.bind fun a => (f a).bind g := by
  cases x with
  | error e => rfl
  | ok a => rfl

theorem bind_ok (x : Except ε α) : x.bind .ok = x := by
  cases x with
  | error e => rfl
  | ok a => rfl

def Ensures (allowed : ε → Prop) (x : Except ε α) (P : α → Prop) : Prop :=
  match x with
  | .ok a => P a
  | .error e => allowed e

variable {allowed : ε → Prop} {P : α → Prop} {Q : β → Prop}

theorem ensures_ok {a : α} (h : P a) : Ensures allowed (.ok a) P := h

theorem Ensures.bind {x : Except ε α} {f : α → Except ε β} (h : Ensures allowed x P)
    (hf : ∀ a, P a → Ensures allowed (f a) Q) : Ensures allowed (x.bind f) Q := by
  cases x with
  | error e => exact h
  | ok a => exact hf a h

theorem Ensures.mono {P' : α → Prop} {x : Except ε α} (h : Ensures allowed x P) (hp : ∀ a, P a → P' a) :
    Ensures allowed x P' := by
  cases x with
  | error e => exact h
  | ok a => exact hp a h

theorem Ensures.and {P' : α → Prop} {x : Except ε α} (h : Ensures allowed x P) (h' : Ensures allowed x P') :
    Ensures allowed x fun a => P a ∧ P' a := by
  cases x with
  | error e => exact h
  | ok a => exact ⟨h, h'⟩

/-- A second property of the value, where there is one. -/
theorem Ensures.also {P' : α → Prop} {x : Except ε α} (h : Ensures allowed x P) (h' : ∀ a, x = .ok a → P a → P' a) :
    Ensures allowed x fun a => P a ∧ P' a := by
  cases x with
  | error e => exact h
  | ok a => exact ⟨h, h' a rfl h⟩

/-! ## Two computations -/

/-- The first computation stops for one of the allowed reasons, or does what the second one does and returns a related
value. -/
def Follows (allowed : ε → Prop) (R : α → β → Prop) (x : Except ε α) (y : Except ε β) : Prop :=
  match x with
  | .ok a => ∃ b, y = .ok b ∧ R a b
  | .error e => allowed e ∨ y = .error e

variable {γ δ : Type} {R : α → β → Prop} {S : γ → δ → Prop}

theorem follows_ok {a : α} {b : β} (h : R a b) : Follows allowed R (.ok a) (.ok b) := ⟨b, rfl, h⟩

theorem follows_error (e : ε) : Follows allowed R (.error e) (.error e) := Or.inr rfl

theorem Follows.bind {x : Except ε α} {y : Except ε β} {f : α → Except ε γ} {g : β → Except ε δ}
    (h : Follows allowed R x y) (hf : ∀ a b, y = .ok b → R a b → Follows allowed S (f a) (g b)) :
    Follows allowed S (x.bind f) (y.bind g) := by
  cases x with
  | error e =>
    cases h with
    | inl he => exact Or.inl he
    | inr he =>
      rw [he]
      exact Or.inr rfl
  | ok a =>
    obtain ⟨b, hb, hr⟩ := h
    subst hb
    exact hf a b rfl hr

/-- Both computations begin with the same step. -/
theorem Follows.same {x : Except ε α} {f : α → Except ε γ} {g : α → Except ε δ}
    (hf : ∀ a, x = .ok a → Follows allowed S (f a) (g a)) : Follows allowed S (x.bind f) (x.bind g) := by
  cases x with
  | error e => exact Or.inr rfl
  | ok a => exact hf a rfl

/-- A step of the first computation alone. -/
theorem Follows.ahead {x : Except ε α} {f : α → Except ε γ} {y : Except ε δ} (h : Ensures allowed x P)
    (hf : ∀ a, P a → Follows allowed S (f a) y) : Follows allowed S (x.bind f) y := by
  cases x with
  | error e => exact Or.inl h
  | ok a => exact hf a h

/-- The second computation is done. -/
theorem Follows.last {x : Except ε α} {b : β} (h : Ensures allowed x P) (hr : ∀ a, P a → R a b) :
    Follows allowed R x (.ok b) := by
  cases x with
  | error e => exact Or.inl h
  | ok a => exact follows_ok (hr a h)

theorem Follows.mono {R' : α → β → Prop} {x : Except ε α} {y : Except ε β} (h : Follows allowed R x y)
    (hr : ∀ a b, y = .ok b → R a b → R' a b) : Follows allowed R' x y := by
  cases x with
  | error e => exact h
  | ok a =>
    obtain ⟨b, hb, hab⟩ := h
    exact ⟨b, hb, hr a b hb hab⟩

end Outcome
