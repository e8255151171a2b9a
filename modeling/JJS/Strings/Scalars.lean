import JJS.Strings.ToUtf8
import Mathlib.Data.List.TakeWhile

/-!
# JJS.Strings.Scalars

Reading a string by code points when each surrogate has to be in a pair, as the encoders of URIs and of file paths do:
what is read is a code point that is no surrogate, or nothing.
-/

namespace JJS
namespace Strings

open Utf8 Lit

/-- What the loops of `annex_encode_path` and `ecma_builtin_global_object_encode_uri_helper` begin with: the code point
and the rest of the string. The null case is the error of the loops. -/
def readPairedCodePoint (s : List Byte) : Option (CodePoint × List Byte) := do
  let (readSize, ch) ← litReadCodeUnitFromCesu8 s
  let s := s.drop readSize
  if litIsLowSurrogate ch then none
  else if litIsHighSurrogate ch then
    if s.isEmpty then none
    else do
      let (readSize, nextCh) ← litReadCodeUnitFromCesu8 s
      if litIsLowSurrogate nextCh then some (litConvertSurrogatePairToCodePoint ch nextCh, s.drop readSize)
      else none
  else some (ch.setWidth 32, s)

/-- A code point that is no surrogate. -/
def IsScalar (c : Point) : Prop := ¬c.IsHigh ∧ ¬c.IsLow

instance (c : Point) : Decidable (IsScalar c) :=
  inferInstanceAs (Decidable (¬(0xD800 ≤ c.val ∧ c.val ≤ 0xDBFF) ∧ ¬(0xDC00 ≤ c.val ∧ c.val ≤ 0xDFFF)))

/-- The code points before the first surrogate that is not in a pair. -/
def scalars (us : List CodeUnit) : List Point := (points us).takeWhile fun c => decide (IsScalar c)

theorem isScalar_unitPoint (u : CodeUnit) :
    IsScalar (unitPoint u) ↔ ¬litIsHighSurrogate u = true ∧ ¬litIsLowSurrogate u = true := by
  rw [litIsHighSurrogate_iff, litIsLowSurrogate_iff]
  rfl

theorem isScalar_pairPoint (u v : CodeUnit) : IsScalar (pairPoint u v) := by
  have hlong := isLong_pairPoint u v
  rw [IsLong] at hlong
  constructor
  · intro hhigh
    rw [Point.IsHigh] at hhigh
    omega
  · intro hlow
    rw [Point.IsLow] at hlow
    omega

/-- The surrogates are in pairs when every code point is a scalar value. -/
theorem paired_iff (us : List CodeUnit) : Paired us ↔ ∀ c ∈ points us, IsScalar c := by
  induction us using points.induct with
  | case1 =>
    constructor
    · intro _ c hc
      cases hc
    · intro _
      exact .nil
  | case2 u =>
    rw [points]
    constructor
    · intro h c hc
      rw [List.mem_singleton.mp hc, isScalar_unitPoint, litIsHighSurrogate_iff, litIsLowSurrogate_iff]
      cases h with
      | unit hhigh hlow _ => exact ⟨hhigh, hlow⟩
    · intro h
      have hscalar := h _ (List.mem_singleton.mpr rfl)
      exact .unit hscalar.1 hscalar.2 .nil
  | case3 u v us hpair ih =>
    rw [points, if_pos hpair]
    have hhigh := (litIsHighSurrogate_iff u).mp hpair.1
    have hlow := (litIsLowSurrogate_iff v).mp hpair.2
    constructor
    · intro h c hc
      cases List.mem_cons.mp hc with
      | inl heq =>
        rw [heq]
        exact isScalar_pairPoint u v
      | inr hc =>
        cases h with
        | unit hnot _ _ => exact absurd hhigh hnot
        | pair _ _ h => exact ih.mp h c hc
    · intro h
      exact .pair hhigh hlow (ih.mpr fun c hc => h c (List.mem_cons_of_mem _ hc))
  | case4 u v us hpair ih =>
    rw [points, if_neg hpair]
    constructor
    · intro h c hc
      cases h with
      | unit hhigh hlow h =>
        cases List.mem_cons.mp hc with
        | inl heq =>
          rw [heq]
          exact ⟨hhigh, hlow⟩
        | inr hc => exact ih.mp h c hc
      | pair hhigh hlow _ =>
        exact absurd ⟨(litIsHighSurrogate_iff u).mpr hhigh, (litIsLowSurrogate_iff v).mpr hlow⟩ hpair
    · intro h
      have hscalar := h _ List.mem_cons_self
      exact .unit hscalar.1 hscalar.2 (ih.mpr fun c hc => h c (List.mem_cons_of_mem _ hc))

theorem paired_iff_scalars (us : List CodeUnit) : Paired us ↔ scalars us = points us := by
  rw [paired_iff, scalars, List.takeWhile_eq_self_iff]
  constructor
  · intro h c hc
    exact decide_eq_true (h c hc)
  · intro h c hc
    exact of_decide_eq_true (h c hc)

theorem points_nil {us : List CodeUnit} (h : points us = []) : us = [] := by
  have hunits := units_points us
  rw [h] at hunits
  exact hunits.symm

/-- The rest of a string is shorter. -/
theorem length_rest {us vs : List CodeUnit} {c : Point} (h : points us = c :: points vs) :
    (cesu8 vs).length < (cesu8 us).length := by
  have hus := units_points us
  have hvs := units_points vs
  have hcons : units (c :: points vs) = c.units ++ units (points vs) := rfl
  rw [h, hcons, hvs] at hus
  have hne : c.units ≠ [] := by
    rw [Point.units]
    split
    · exact List.cons_ne_nil _ _
    · exact List.cons_ne_nil _ _
  have hpos := List.length_pos_iff.mpr (cesu8_ne_nil hne)
  rw [← hus, cesu8_append, List.length_append]
  omega

theorem scalars_cons {us vs : List CodeUnit} {c : Point} (h : points us = c :: points vs) (hc : IsScalar c) :
    scalars us = c :: scalars vs := by
  rw [scalars, h]
  exact List.takeWhile_cons_of_pos (decide_eq_true hc)

theorem scalars_lone {us : List CodeUnit} {c : Point} {cs : List Point} (h : points us = c :: cs) (hc : ¬IsScalar c) :
    scalars us = [] := by
  rw [scalars, h]
  exact List.takeWhile_cons_of_neg (by rw [decide_eq_true_eq]; exact hc)

/-! ## Reading -/

section

variable {u v : CodeUnit} {us : List CodeUnit}

theorem readPaired_pair (hu : litIsHighSurrogate u = true) (hv : litIsLowSurrogate v = true) :
    readPairedCodePoint (cesu8 (u :: v :: us)) = some (litConvertSurrogatePairToCodePoint u v, cesu8 us) := by
  have hread := litReadCodeUnitFromCesu8_append u (cesu8 (v :: us))
  have hread' := litReadCodeUnitFromCesu8_append v (cesu8 us)
  have hdrop : (cesu8 (v :: us)).drop (encode v.toNat).length = cesu8 us := List.drop_left
  have hnot : ¬litIsLowSurrogate u = true := fun hlow => not_high_of_low hlow hu
  have hne : ¬(cesu8 (v :: us)).isEmpty = true := by
    rw [List.isEmpty_iff]
    exact cesu8_ne_nil (List.cons_ne_nil v us)
  rw [← cesu8_cons] at hread'
  rw [cesu8_cons, readPairedCodePoint, hread, Option.bind_eq_bind, Option.bind_some]
  dsimp only
  rw [List.drop_left, if_neg hnot, if_pos hu, if_neg hne, hread', Option.bind_some]
  dsimp only
  rw [if_pos hv, hdrop]

theorem readPaired_unit (h : ∀ v vs, us = v :: vs → ¬(litIsHighSurrogate u = true ∧ litIsLowSurrogate v = true)) :
    readPairedCodePoint (cesu8 (u :: us)) =
      if IsScalar (unitPoint u) then some (u.setWidth 32, cesu8 us) else none := by
  have hread := litReadCodeUnitFromCesu8_append u (cesu8 us)
  rw [cesu8_cons, readPairedCodePoint, hread, Option.bind_eq_bind, Option.bind_some]
  dsimp only
  rw [List.drop_left]
  by_cases hlow : litIsLowSurrogate u = true
  · rw [if_pos hlow, if_neg (fun hscalar => ((isScalar_unitPoint u).mp hscalar).2 hlow)]
  · rw [if_neg hlow]
    by_cases hhigh : litIsHighSurrogate u = true
    · rw [if_pos hhigh, if_neg (show ¬IsScalar (unitPoint u) from fun hscalar => ((isScalar_unitPoint u).mp hscalar).1 hhigh)]
      cases us with
      | nil => rfl
      | cons v us =>
        have hread' := litReadCodeUnitFromCesu8_append v (cesu8 us)
        have hne : ¬(cesu8 (v :: us)).isEmpty = true := by
          rw [List.isEmpty_iff]
          exact cesu8_ne_nil (List.cons_ne_nil v us)
        rw [← cesu8_cons] at hread'
        rw [if_neg hne, hread', Option.bind_some]
        dsimp only
        rw [if_neg (fun hv => h v us rfl ⟨hhigh, hv⟩)]
    · rw [if_neg hhigh, if_pos ((isScalar_unitPoint u).mpr ⟨hhigh, hlow⟩)]

end

/-- The first code point is read when it is a scalar value. -/
theorem readPaired_points {us : List CodeUnit} {c : Point} {cs : List Point} (h : points us = c :: cs) :
    (IsScalar c → ∃ (cp : CodePoint) (vs : List CodeUnit), readPairedCodePoint (cesu8 us) = some (cp, cesu8 vs) ∧
      cp.toNat = c.val ∧ points vs = cs) ∧
      (¬IsScalar c → readPairedCodePoint (cesu8 us) = none) := by
  have hunit : ∀ u vs, us = u :: vs → unitPoint u = c → points vs = cs →
      (∀ v ws, vs = v :: ws → ¬(litIsHighSurrogate u = true ∧ litIsLowSurrogate v = true)) →
      (IsScalar c → ∃ (cp : CodePoint) (vs : List CodeUnit), readPairedCodePoint (cesu8 us) = some (cp, cesu8 vs) ∧
        cp.toNat = c.val ∧ points vs = cs) ∧ (¬IsScalar c → readPairedCodePoint (cesu8 us) = none) := by
    intro u vs hus hc hcs hpair
    have hread := readPaired_unit hpair
    rw [hus, hread, ← hc]
    constructor
    · intro hscalar
      rw [if_pos hscalar]
      exact ⟨_, vs, rfl, toNat_unit u, hcs⟩
    · intro hscalar
      rw [if_neg hscalar]
  cases us with
  | nil => cases h
  | cons u us =>
    cases us with
    | nil =>
      rw [points] at h
      obtain ⟨hc, hcs⟩ := List.cons.inj h
      exact hunit u [] rfl hc (by rw [points]; exact hcs) (fun v ws hnil => absurd hnil (List.cons_ne_nil _ _).symm)
    | cons v us =>
      rw [points] at h
      split at h
      · rename_i hpair
        obtain ⟨hc, hcs⟩ := List.cons.inj h
        rw [← hc, readPaired_pair hpair.1 hpair.2]
        constructor
        · intro _
          exact ⟨_, us, rfl, toNat_surrogatePair ((litIsHighSurrogate_iff u).mp hpair.1)
            ((litIsLowSurrogate_iff v).mp hpair.2), hcs⟩
        · intro hnot
          exact absurd (isScalar_pairPoint u v) hnot
      · rename_i hpair
        obtain ⟨hc, hcs⟩ := List.cons.inj h
        refine hunit u (v :: us) rfl hc hcs ?_
        intro w ws heq
        cases heq
        exact hpair

end Strings
end JJS
