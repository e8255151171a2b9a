import JJS.Gc.Run

/-!
# JJS.Gc.Exact

The result of a whole collection, with a mark limit and without one.
-/

namespace JJS
namespace Gc

open Ephemeron

variable {α : Type} {w : Nat}

section Split

variable {heap : Heap α w} {roots white moved kept : List α} {context context' : Context α w} {live : α → Prop}

/-- What is left once the white objects are divided into the ones that are moved and the ones that are freed. -/
theorem Split.keeps (h : Split heap roots white context) (hperm : (moved ++ kept).Perm white)
    (hroot : ∀ x, heap.Root x → live x) (hmoved : ∀ x ∈ moved, live x) (hkept : ∀ x ∈ kept, ¬ live x)
    (hsame : ∀ x, heap.Root x → context'.descriptor x = heap.descriptor x)
    (hblack : ∀ x ∈ moved, context'.descriptor x < refOne)
    (hflags : ∀ x ∈ heap.objects, typeFlags (context'.descriptor x) = typeFlags (heap.descriptor x))
    (hlimit : context'.recursionLimit = heap.gcMarkLimit) :
    Keeps heap live { objects := roots ++ moved, freed := kept, context := context' } := by
  have hall : ∀ x, x ∈ moved ∨ x ∈ kept ↔ x ∈ heap.objects ∧ ¬ heap.Root x := by
    intro x
    rw [← List.mem_append, hperm.mem_iff, h.white_mem]
  have hnodup : (roots ++ moved ++ kept).Nodup := by
    rw [List.append_assoc]
    exact (hperm.append_left roots).nodup_iff.mpr h.nodup
  constructor
  case freed =>
    intro x
    constructor
    · intro hx
      exact ⟨((hall x).mp (Or.inr hx)).1, hkept x hx⟩
    · intro hx
      cases (hall x).mpr ⟨hx.1, fun hr => hx.2 (hroot x hr)⟩ with
      | inl hin => exact absurd (hmoved x hin) hx.2
      | inr hin => exact hin
  case objects =>
    intro x
    rw [List.mem_append, h.roots_mem]
    constructor
    · intro hx
      cases hx with
      | inl hr => exact ⟨hr.1, hroot x hr⟩
      | inr hin => exact ⟨((hall x).mp (Or.inl hin)).1, hmoved x hin⟩
    · intro hx
      by_cases hr : heap.Root x
      · exact Or.inl hr
      · cases (hall x).mpr ⟨hx.1, hr⟩ with
        | inl hin => exact Or.inr hin
        | inr hin => exact absurd hx.2 (hkept x hin)
  case freed_once => exact hnodup.of_append_right
  case objects_once => exact hnodup.of_append_left
  case root_count =>
    intro x hr
    exact congrArg refCount (hsame x hr)
  case other_count =>
    intro x hx hr
    cases List.mem_append.mp hx with
    | inl hin => exact absurd ((h.roots_mem x).mp hin) hr
    | inr hin => exact refCount_eq_zero heap.width (hblack x hin)
  case flags => exact fun hx => hflags _ hx
  case limit => exact hlimit

end Split

variable [DecidableEq α]

end Gc
end JJS
