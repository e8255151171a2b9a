import Mathlib.Data.List.Forall2

/-!
# JJS.Lib.Traverse

`List.mapM` in `Option`, as a relation between the list and the list of results.
-/

namespace Traverse

variable {α β γ : Type}

theorem mapM_eq_some_iff {f : α → Option β} {l : List α} {r : List β} :
    l.mapM f = some r ↔ List.Forall₂ (fun a b => f a = some b) l r := by
  induction l generalizing r with
  | nil =>
    rw [List.mapM_nil]
    constructor
    · intro h
      cases h
      exact List.Forall₂.nil
    · intro h
      cases h
      rfl
  | cons a l ih =>
    rw [List.mapM_cons]
    constructor
    · intro h
      obtain ⟨b, hb, h⟩ := Option.bind_eq_some_iff.mp h
      obtain ⟨bs, hbs, h⟩ := Option.bind_eq_some_iff.mp h
      cases h
      exact List.Forall₂.cons hb (ih.mp hbs)
    · intro h
      cases h with
      | cons hb hbs => exact Option.bind_eq_some_iff.mpr ⟨_, hb, Option.bind_eq_some_iff.mpr ⟨_, ih.mpr hbs, rfl⟩⟩

theorem mapM_some_of_forall {f : α → Option β} {l : List α} (h : ∀ a ∈ l, ∃ b, f a = some b) :
    ∃ r, l.mapM f = some r := by
  induction l with
  | nil => exact ⟨[], rfl⟩
  | cons a l ih =>
    obtain ⟨b, hb⟩ := h a List.mem_cons_self
    obtain ⟨r, hr⟩ := ih fun x hx => h x (List.mem_cons_of_mem a hx)
    refine ⟨b :: r, mapM_eq_some_iff.mpr ?_⟩
    exact List.Forall₂.cons hb (mapM_eq_some_iff.mp hr)

/-- Two lists with results that agree element by element have the same result. -/
theorem mapM_congr₂ {f : α → Option γ} {g : β → Option γ} {l : List α} {t : List β}
    (h : List.Forall₂ (fun a b => f a = g b) l t) : l.mapM f = t.mapM g := by
  induction h with
  | nil => rfl
  | cons hab _ ih => rw [List.mapM_cons, List.mapM_cons, hab, ih]

theorem forall₂_trans {R : α → β → Prop} {S : β → γ → Prop} {T : α → γ → Prop} {l : List α}
    {m : List β} {n : List γ} (hT : ∀ a b c, R a b → S b c → T a c) (h : List.Forall₂ R l m)
    (h' : List.Forall₂ S m n) : List.Forall₂ T l n := by
  induction h generalizing n with
  | nil =>
    cases h'
    exact List.Forall₂.nil
  | cons hab _ ih =>
    cases h' with
    | cons hbc hrest => exact List.Forall₂.cons (hT _ _ _ hab hbc) (ih hrest)

theorem forall₂_exists_right {R : α → β → Prop} {l : List α} {r : List β} (h : List.Forall₂ R l r) {a : α}
    (ha : a ∈ l) : ∃ b ∈ r, R a b := by
  induction h with
  | nil => cases ha
  | cons hab _ ih =>
    cases List.mem_cons.mp ha with
    | inl heq => exact ⟨_, List.mem_cons_self, by rw [heq]; exact hab⟩
    | inr hin =>
      obtain ⟨b, hb, hr⟩ := ih hin
      exact ⟨b, List.mem_cons_of_mem _ hb, hr⟩

/-- Two maps over one list give the same results just when they agree on its elements. -/
theorem mapM_eq_mapM_iff {f g : α → Option β} {l : List α} (hf : ∀ a ∈ l, ∃ b, f a = some b)
    (hg : ∀ a ∈ l, ∃ b, g a = some b) : l.mapM f = l.mapM g ↔ ∀ a ∈ l, f a = g a := by
  obtain ⟨r, hr⟩ := mapM_some_of_forall hf
  obtain ⟨t, ht⟩ := mapM_some_of_forall hg
  rw [hr, ht, Option.some.injEq]
  rw [mapM_eq_some_iff] at hr ht
  constructor
  · intro heq
    rw [← heq] at ht
    clear heq hf hg
    induction hr with
    | nil => simp
    | @cons a b l r hab hrest ih =>
      cases ht with
      | cons hab' hrest' =>
        intro v hv
        cases List.mem_cons.mp hv with
        | inl heq => rw [heq, hab, hab']
        | inr hin => exact ih hrest' v hin
  · intro heq
    have hagree : l.mapM f = l.mapM g := mapM_congr₂ (List.forall₂_same.mpr heq)
    rw [mapM_eq_some_iff.mpr hr, mapM_eq_some_iff.mpr ht] at hagree
    exact Option.some.inj hagree

end Traverse
