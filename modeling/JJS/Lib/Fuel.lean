import Mathlib.Tactic.Common

/-!
# JJS.Lib.Fuel

Computations with fuel: `none` says that the fuel ran out. A computation that keeps its result when it
gets more fuel ends when some fuel is enough, and a sequence of two ends just when both do
(`ends_bind_iff`).
-/

namespace Fuel

variable {α β : Type}

/-- More fuel does not change a result. -/
def Mono (f : Nat → Option α) : Prop := ∀ n m a, n ≤ m → f n = some a → f m = some a

/-- Some fuel is enough. -/
def Ends (f : Nat → Option α) : Prop := ∃ n, (f n).isSome

theorem mono_const (a : Option α) : Mono fun _ => a := by
  intro n m b _ h
  exact h

theorem ends_const (a : α) : Ends fun _ => some a := ⟨0, rfl⟩

theorem mono_bind {f : Nat → Option α} {g : Nat → α → Option β} (hf : Mono f) (hg : ∀ a, Mono fun n => g n a) :
    Mono fun n => (f n).bind (g n) := by
  intro n m b hle h
  obtain ⟨a, ha, hb⟩ := Option.bind_eq_some_iff.mp h
  exact Option.bind_eq_some_iff.mpr ⟨a, hf n m a hle ha, hg a n m b hle hb⟩

theorem ends_bind_iff {f : Nat → Option α} {g : Nat → α → Option β} (hf : Mono f)
    (hg : ∀ a, Mono fun n => g n a) :
    (Ends fun n => (f n).bind (g n)) ↔ Ends f ∧ ∀ n a, f n = some a → Ends fun n => g n a := by
  constructor
  · intro h
    obtain ⟨n, h⟩ := h
    obtain ⟨b, hb⟩ := Option.isSome_iff_exists.mp h
    obtain ⟨a, ha, hga⟩ := Option.bind_eq_some_iff.mp hb
    refine ⟨⟨n, by rw [ha]; rfl⟩, ?_⟩
    intro m a' ha'
    -- both runs of the first part have the result of the one with more fuel
    have h1 := hf n (max n m) a (Nat.le_max_left n m) ha
    have h2 := hf m (max n m) a' (Nat.le_max_right n m) ha'
    rw [h1] at h2
    cases h2
    exact ⟨n, Option.isSome_iff_exists.mpr ⟨b, hga⟩⟩
  · intro h
    obtain ⟨⟨n, hn⟩, hrest⟩ := h
    obtain ⟨a, ha⟩ := Option.isSome_iff_exists.mp hn
    obtain ⟨m, hm⟩ := hrest n a ha
    obtain ⟨b, hb⟩ := Option.isSome_iff_exists.mp hm
    refine ⟨max n m, Option.isSome_iff_exists.mpr ⟨b, Option.bind_eq_some_iff.mpr ⟨a, ?_, ?_⟩⟩⟩
    · exact hf n _ a (Nat.le_max_left n m) ha
    · exact hg a m _ b (Nat.le_max_right n m) hb

theorem mono_map {f : Nat → Option α} {g : α → β} (hf : Mono f) : Mono fun n => (f n).map g := by
  intro n m b hle h
  obtain ⟨a, ha, hb⟩ := Option.map_eq_some_iff.mp h
  exact Option.map_eq_some_iff.mpr ⟨a, hf n m a hle ha, hb⟩

theorem ends_map_iff {f : Nat → Option α} {g : α → β} : (Ends fun n => (f n).map g) ↔ Ends f := by
  simp [Ends]

/-! ## Results for all large fuel -/

/-- From some fuel on, this is the result. -/
def Settles (f : Nat → Option α) (a : α) : Prop := ∃ n, ∀ m, n ≤ m → f m = some a

/-- The computation ends with a result of this kind, which more fuel does not change. -/
def Reaches (f : Nat → Option α) (p : α → Prop) : Prop := ∃ a, Settles f a ∧ p a

theorem settles_const (a : α) : Settles (fun _ => some a) a := ⟨0, fun _ _ => rfl⟩

theorem Settles.bind {f : Nat → Option α} {g : Nat → α → Option β} {a : α} {b : β} (hf : Settles f a)
    (hg : Settles (fun n => g n a) b) : Settles (fun n => (f n).bind (g n)) b := by
  obtain ⟨n, hn⟩ := hf
  obtain ⟨m, hm⟩ := hg
  refine ⟨max n m, ?_⟩
  intro k hk
  dsimp only
  rw [hn k (Nat.le_trans (Nat.le_max_left n m) hk), Option.bind_some]
  exact hm k (Nat.le_trans (Nat.le_max_right n m) hk)

theorem reaches_const {p : α → Prop} {a : α} (h : p a) : Reaches (fun _ => some a) p := ⟨a, settles_const a, h⟩

theorem Reaches.bind {f : Nat → Option α} {g : Nat → α → Option β} {p : α → Prop} {q : β → Prop} (hf : Reaches f p)
    (hg : ∀ a, p a → Reaches (fun n => g n a) q) : Reaches (fun n => (f n).bind (g n)) q := by
  obtain ⟨a, ha, hp⟩ := hf
  obtain ⟨b, hb, hq⟩ := hg a hp
  exact ⟨b, ha.bind hb, hq⟩

theorem Reaches.mono {f : Nat → Option α} {p q : α → Prop} (h : Reaches f p) (hpq : ∀ a, p a → q a) : Reaches f q := by
  obtain ⟨a, ha, hp⟩ := h
  exact ⟨a, ha, hpq a hp⟩

end Fuel
