import Mathlib.Data.List.Basic

/-!
# JJS.Lib.Runs

Sorting by runs. `Runs le w l` says that the pieces of `w` elements of a list are sorted, the last of which may be
shorter. Two sorted lists are merged stably by `List.merge`; `StableTo` compares the order of equal elements in two
lists.
-/

namespace RunSort

variable {α : Type} {le : α → α → Bool}

/-- The elements that are equal to a given one stand in the two lists in the same order. -/
def StableTo (le : α → α → Bool) (l l' : List α) : Prop :=
  ∀ a, l.filter (fun b => le a b && le b a) = l'.filter fun b => le a b && le b a

theorem StableTo.refl (l : List α) : StableTo le l l := fun _ => rfl

theorem StableTo.trans {l₁ l₂ l₃ : List α} (h : StableTo le l₁ l₂) (h' : StableTo le l₂ l₃) : StableTo le l₁ l₃ :=
  fun a => (h a).trans (h' a)

theorem StableTo.append {l₁ l₂ t₁ t₂ : List α} (h : StableTo le l₁ l₂) (h' : StableTo le t₁ t₂) :
    StableTo le (l₁ ++ t₁) (l₂ ++ t₂) := by
  intro a
  rw [List.filter_append, List.filter_append, h a, h' a]

/-- An element that is taken from the second list is not equal to any that is left in the first. -/
theorem stableTo_merge (htrans : ∀ a b c, le a b = true → le b c = true → le a c = true) {xs ys : List α}
    (hxs : xs.Pairwise (le · ·)) (hys : ys.Pairwise (le · ·)) : StableTo le (List.merge xs ys le) (xs ++ ys) := by
  intro a
  rw [List.filter_append]
  induction xs generalizing ys with
  | nil => rw [List.nil_merge, List.filter_nil, List.nil_append]
  | cons x xs ihx =>
    induction ys with
    | nil => rw [List.merge_right, List.filter_nil, List.append_nil]
    | cons y ys ihy =>
      by_cases hle : le x y = true
      · rw [List.cons_merge_cons_pos le _ _ hle, List.filter_cons, List.filter_cons (x := x),
          ihx (List.Pairwise.of_cons hxs) hys]
        split
        · rw [List.cons_append]
        · rfl
      · rw [List.cons_merge_cons_neg le _ _ hle, List.filter_cons, List.filter_cons (x := y),
          ihy (List.Pairwise.of_cons hys)]
        split
        · rename_i heq
          rw [Bool.and_eq_true] at heq
          have hnone : (x :: xs).filter (fun b => le a b && le b a) = [] := by
            rw [List.filter_eq_nil_iff]
            intro z hz hza
            rw [Bool.and_eq_true] at hza
            have hxa : le x a = true := by
              cases List.mem_cons.mp hz with
              | inl h => rw [← h]; exact hza.2
              | inr h => exact htrans x z a (List.rel_of_pairwise_cons hxs h) hza.2
            exact hle (htrans x a y hxa heq.1)
          rw [hnone, List.nil_append, List.nil_append]
        · rfl

/-! ## Runs -/

inductive Runs (le : α → α → Bool) (w : Nat) : List α → Prop
  | nil : Runs le w []
  | step {l : List α} : (l.take w).Pairwise (le · ·) → Runs le w (l.drop w) → Runs le w l

variable {w : Nat} {l m t : List α}

theorem Runs.first (h : Runs le w l) : (l.take w).Pairwise (le · ·) := by
  cases h with
  | nil => rw [List.take_nil]; exact List.Pairwise.nil
  | step hfirst _ => exact hfirst

theorem Runs.rest (h : Runs le w l) : Runs le w (l.drop w) := by
  cases h with
  | nil => rw [List.drop_nil]; exact Runs.nil
  | step _ hrest => exact hrest

theorem Runs.sorted (h : Runs le w l) (hw : l.length ≤ w) : l.Pairwise (le · ·) := by
  have hfirst := h.first
  rw [List.take_of_length_le hw] at hfirst
  exact hfirst

/-- Single elements are sorted. -/
theorem runs_one (l : List α) : Runs le 1 l := by
  induction l with
  | nil => exact Runs.nil
  | cons a l ih =>
    refine Runs.step ?_ ?_
    · exact List.pairwise_singleton _ a
    · exact ih

/-- A sorted list before runs; it is as long as a run, or there is nothing behind it. -/
theorem Runs.append (hm : m.Pairwise (le · ·)) (hlen : m.length ≤ w) (hfull : m.length < w → t = [])
    (h : Runs le w t) : Runs le w (m ++ t) := by
  cases Nat.lt_or_ge m.length w with
  | inl hlt =>
    rw [hfull hlt, List.append_nil]
    refine Runs.step ?_ ?_
    · rw [List.take_of_length_le hlen]
      exact hm
    · rw [List.drop_eq_nil_of_le hlen]
      exact Runs.nil
  | inr hge =>
    have heq : m.length = w := Nat.le_antisymm hlen hge
    refine Runs.step ?_ ?_
    · rw [List.take_left' heq]
      exact hm
    · rw [List.drop_left' heq]
      exact h

end RunSort
